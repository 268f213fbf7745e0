-- Runs of a user with page faults: after every run of steps that the upcall is
-- made for, the live frames lie one below the other and are intact, and the
-- upcall brings each computation back. The frames are those that
-- `page_fault_handler` stores through the page tables.
import Jos.UpcallFrames

namespace jos.upcall

open ia32 (Cpu Instr Reg Space State)

/-! ## Every run -/

section Runs

variable {base handler : Word} {m₀ m : Machine} {evs : List Event}

/-- A user in its own code, whose exception stack is its own, with nothing to be
written below it. -/
structure Start (base handler : Word) (m : Machine) : Prop where
  live : m.live = []
  outside : index base handler m.user.eip = none
  priv : Private m.user.mem
  guard : Guarded m.user.mem

theorem Start.sane (h : Start base handler m) : Sane base handler m :=
  ⟨h.priv, h.guard, h.live ▸ h.outside⟩

theorem sane_run (h : Start base handler m₀)
    (hr : runs.runFrom (step base handler) m₀ evs = some m)
    (hclean : runs.Along (step base handler) (Clean base handler) m₀ evs) : Sane base handler m :=
  runs.runFrom_keeps (fun _ _ _ h hc hs => sane_step h hc hs) h.sane hr hclean

/-- The frame holds the registers at the fault. The upcall lowers the `esp` in it
when it pushes the return address. -/
def Intact (m : Space) (l : Level) : Prop :=
  Framed m l.frame l.trap (l.trap.gpr .esp) ∨ Framed m l.frame l.trap (l.trap.gpr .esp - 4)

theorem Good.intact {m : Space} {cpu : Cpu} {ls : List Level} {l : Level}
    (h : Good base handler m cpu ls) (hl : l ∈ ls) : Intact m l := by
  rcases ls with _ | ⟨l', outer⟩
  · cases hl
  obtain ⟨hat, -, hearly, hgood⟩ := h
  rcases List.mem_cons.mp hl with rfl | hl
  · unfold At at hat
    split at hat
    · exact Or.inl hat
    · have hf := hat.frame
      split at hf
      · exact Or.inl hf
      · exact Or.inr hf
  · exact Or.inl (hgood.framed hearly hl)

/-- The state before an instruction of the upcall. -/
theorem Sane.stage (h : Sane base handler m) {l : Level} {outer : List Level} {n : Nat}
    (hlive : m.live = l :: outer) (hidx : index base handler m.user.eip = some n) :
    Stage m.user.mem l m.user.toCpu n ∧ Placed l outer ∧ Early base handler l.trap ∧
      Good base handler m.user.mem l.trap outer := by
  have hgood := h.good
  rw [hlive] at hgood
  obtain ⟨hat, hp, hearly, hgood⟩ := hgood
  simp only [At, hidx] at hat
  exact ⟨hat, hp, hearly, hgood⟩

/-- Its `ret` is the last instruction of the upcall. -/
theorem index_ret {n : Nat} (h : (pgfault_upcall handler)[n]? = some .ret) : n = 15 := by
  rcases n with _ | _ | _ | _ | _ | _ | _ | _ | _ | _ | _ | _ | _ | _ | _ | _ | n <;> cases h
  rfl

/-- The rest of the upcall, where the handler has returned. -/
theorem Sane.returns (h : Sane base handler m) {l : Level} {outer : List Level}
    (hlive : m.live = l :: outer) (hback : index base handler m.user.eip = some 3)
    (hword : ∀ i < 4, m.user.mem.writable (l.trap.gpr .esp - 4 + BitVec.ofNat 32 i) = true) :
    ∃ s, runs.runFrom (step base handler) m (List.replicate 13 .exec) = some ⟨s, outer⟩ ∧
      Touched l outer m.user.mem s.mem ∧ Resumed s.toCpu l.trap := by
  obtain ⟨hst, hp, -, -⟩ := h.stage hlive hback
  have hm : m = ⟨m.user, l :: outer⟩ := by rw [← hlive]
  rw [hm]
  exact hst.unwind_all hback h.priv hp (by decide) (by decide) hword

/-- Where a handler has returned, the other 13 instructions of the upcall bring
the computation back. They store in the exception stack and in the word below
the `esp` of the fault alone, and leave the frames above. No frame, and no word
that is kept free above one, overlaps another. -/
theorem upcall_returns_to_the_fault {l : Level} {outer : List Level}
    (h : Start base handler m₀) (hr : runs.runFrom (step base handler) m₀ evs = some m)
    (hclean : runs.Along (step base handler) (Clean base handler) m₀ evs)
    (hlive : m.live = l :: outer) (hback : index base handler m.user.eip = some 3)
    (hword : ∀ i < 4, m.user.mem.writable (l.trap.gpr .esp - 4 + BitVec.ofNat 32 i) = true) :
    (∃ s, runs.runFrom (step base handler) m (List.replicate 13 .exec) = some ⟨s, outer⟩ ∧
      s.gpr = l.trap.gpr ∧ s.eip = l.trap.eip ∧
      s.eflags &&& ia32.popfMask s.eflags = l.trap.eflags &&& ia32.popfMask s.eflags ∧
      Space.SameMap m.user.mem s.mem ∧
      (∀ c, (∀ a, UXSTACKBASE ≤ a → a < UXSTACKTOP → m.user.mem.cell a ≠ some c) →
        (∀ i < 4, m.user.mem.cell (l.trap.gpr .esp - 4 + BitVec.ofNat 32 i) ≠ some c) →
        s.mem.contents c = m.user.mem.contents c) ∧
      ∀ o ∈ outer, Framed s.mem o.frame o.trap (o.trap.gpr .esp)) ∧
    (m.live.Pairwise fun inner outer => inner.frame.toNat + 56 ≤ outer.frame.toNat) ∧
    (∀ o ∈ m.live, UXSTACKBASE.toNat ≤ o.frame.toNat ∧
      o.frame.toNat + 52 ≤ UXSTACKTOP.toNat) ∧
    (outer ≠ [] → (l.trap.gpr .esp).toNat = l.frame.toNat + 56) := by
  have hsane := sane_run h hr hclean
  obtain ⟨s, hs, ht, hres⟩ := hsane.returns hlive hback hword
  obtain ⟨-, hp, hearly, hgood⟩ := hsane.stage hlive hback
  refine ⟨⟨s, hs, hres.gpr, hres.eip, hres.eflags, ht.map, ht.rest, fun o ho => ?_⟩,
    hsane.good.ordered, fun o ho => hsane.good.placed ho, fun hne => ?_⟩
  · exact (hgood.early hearly rfl rfl ht.outer).framed hearly ho
  · have hbelow := hp.below
    rcases outer with _ | ⟨o, outer⟩
    · exact absurd rfl hne
    · exact hbelow.1

end Runs

section Programs

/-! ## A fixed program -/

/-- Pages at the given places of memory, of which `w` may be written. -/
def pageSpace (place : Nat → Option Nat) (w : Nat → Bool) (contents : Nat → Byte) : Space where
  cell a := (place (a.toNat / 4096)).map fun p => p * 4096 + a.toNat % 4096
  writable a := w (a.toNat / 4096) && (place (a.toNat / 4096)).isSome
  contents := contents
  readable a h := by
    rw [Bool.and_eq_true] at h
    rw [Option.isSome_map]
    exact h.2
  offset a c h := by
    obtain ⟨p, -, rfl⟩ := Option.map_eq_some_iff.mp h
    omega

/-- The exception stack, the two pages at the top of the stack, and a page of data,
with the address of the handler at `0x804000`. -/
def places : Nat → Option Nat
  | 0xEEBFF => some 1
  | 0xEEBFD => some 2
  | 0xEEBFC => some 3
  | 0x804 => some 4
  | _ => none

def handlerBytes (c : Nat) : Byte := if c = 0x4001 then 0x02 else if c = 0x4002 then 0x80 else 0

/-- A program at `0x800100`, with its upcall at `0x800300`. -/
def program (mem : Space) (esp : Word) : Machine where
  user := { gpr := fun r => if r = .esp then esp else 0, eip := 0x800100, eflags := 0x202, mem := mem }
  live := []

/-- A fault, and the upcall up to the first instruction of the handler. -/
def faulted : List Event := [.fault initialTf 0xDEADBEEF, .exec, .exec, .exec]

/-- The handler goes on in the state in which it is, but for `eip` and `esp`. -/
def goesOn (m : Machine) (eip esp : Word) : Event :=
  .other { m.user with gpr := Function.update m.user.gpr .esp esp, eip := eip }

/-- All pages may be written. -/
def plain : Machine := program (pageSpace places (fun _ => true) handlerBytes) USTACKTOP

/-- The conditions on an instruction or a fault, as a test. -/
def cleanNow (base handler : Word) (m : Machine) : Event → Bool
  | .exec =>
    index base handler m.user.eip ≠ some 2 || index base handler (m.user.gpr .eax) = none
  | .fault _ _ =>
    index base handler m.user.eip ≠ some 7 &&
      match m.live with
      | [] => m.user.gpr .esp ≤ USTACKTOP
      | level :: _ => UXSTACKBASE ≤ m.user.gpr .esp && m.user.gpr .esp ≤ level.frame
  | .other _ => false

theorem clean_of_now {base handler : Word} {m : Machine} {ev : Event} (h : cleanNow base handler m ev = true) :
    Clean base handler m ev := by
  cases ev with
  | exec =>
    intro htwo
    simpa [cleanNow, htwo] using h
  | fault rest fault_va =>
    simp only [cleanNow, Bool.and_eq_true, decide_eq_true_eq] at h
    refine ⟨fun h7 => absurd h7 h.1, ?_⟩
    have hplace := h.2
    rcases m with ⟨user, _ | ⟨l, outer⟩⟩
    · simpa using hplace
    · simp only [Bool.and_eq_true, decide_eq_true_eq] at hplace
      exact fun _ => hplace
  | other s => cases h

theorem places_one {n : Nat} (h : places n = some 1) : n = 0xEEBFF := by
  unfold places at h
  split at h <;> first | rfl | cases h

theorem plain_start : Start 0x800300 0x804000 plain where
  live := rfl
  outside := by decide
  priv a b hlo hhi hne heq := by
    have hlo := BitVec.le_def.mp hlo
    have hhi := BitVec.lt_def.mp hhi
    rw [UXSTACKBASE_toNat] at hlo
    rw [UXSTACKTOP_toNat] at hhi
    have hpage : a.toNat / 4096 = 0xEEBFF := by omega
    simp only [plain, program, pageSpace, hpage] at heq
    obtain ⟨p, hp, heq⟩ := Option.map_eq_some_iff.mp heq
    change p * 4096 + b.toNat % 4096 = 1 * 4096 + a.toNat % 4096 at heq
    obtain rfl : p = 1 := by omega
    have hb := places_one hp
    apply BitVec.eq_of_toNat_eq
    omega
  guard a hlo hhi := by
    have hlo := BitVec.le_def.mp hlo
    have hhi := BitVec.lt_def.mp hhi
    rw [USTACKTOP_toNat] at hlo
    rw [UXSTACKBASE_toNat] at hhi
    have hpage : a.toNat / 4096 = 0xEEBFE := by omega
    simp [plain, program, pageSpace, hpage, places]

theorem plain_faulted : ∃ m l, runs.runFrom (step 0x800300 0x804000) plain faulted = some m ∧
    runs.Along (step 0x800300 0x804000) (Clean 0x800300 0x804000) plain faulted ∧
    m.live = [l] ∧ l.frame = UXSTACKTOP - 52 ∧ l.trap.eip = 0x800100 ∧
    l.trap.gpr .esp = USTACKTOP ∧ index 0x800300 0x804000 m.user.eip = none ∧
    ∀ i < 4, m.user.mem.writable (USTACKTOP - 4 + BitVec.ofNat 32 i) = true := by
  have hrun : (runs.runFrom (step 0x800300 0x804000) plain faulted).map (fun m =>
      (m.live.map fun l => (l.frame, l.trap.eip, l.trap.gpr .esp),
        index 0x800300 0x804000 m.user.eip,
        (List.range 4).all fun i => m.user.mem.writable (USTACKTOP - 4 + BitVec.ofNat 32 i))) =
      some ([(UXSTACKTOP - 52, 0x800100, USTACKTOP)], none, true) := by decide +kernel
  have hnow : runs.Along (step 0x800300 0x804000)
      (fun m ev => cleanNow 0x800300 0x804000 m ev = true) plain faulted := by decide +kernel
  obtain ⟨m, hr, hfacts⟩ := Option.map_eq_some_iff.mp hrun
  simp only [Prod.mk.injEq] at hfacts
  obtain ⟨hlive, hidx, hall⟩ := hfacts
  obtain ⟨l, hl, hlev⟩ : ∃ l, m.live = [l] ∧
      (l.frame, l.trap.eip, l.trap.gpr .esp) = (UXSTACKTOP - 52, 0x800100, USTACKTOP) := by
    rcases hm : m.live with _ | ⟨l, _ | ⟨l', ls⟩⟩
    · simp [hm] at hlive
    · rw [hm] at hlive
      exact ⟨l, rfl, List.head_eq_of_cons_eq hlive⟩
    · simp [hm] at hlive
  simp only [Prod.mk.injEq] at hlev
  refine ⟨m, l, hr, ?_, hl, hlev.1, hlev.2.1, hlev.2.2, hidx, fun i hi => ?_⟩
  · exact runs.Along.imp (I := Sane 0x800300 0x804000) (fun _ _ _ h => clean_of_now h)
      (fun _ _ _ h hc hs => sane_step h hc hs) plain_start.sane hnow
  · exact List.all_eq_true.mp hall i (List.mem_range.mpr hi)

/-- The program goes on after one fault. -/
theorem upcall_returns_to_the_fault_once : ∃ m m' s,
    runs.runFrom (step 0x800300 0x804000) plain faulted = some m ∧
    step 0x800300 0x804000 m (goesOn m 0x800308 (UXSTACKTOP - 56)) = some m' ∧
    runs.runFrom (step 0x800300 0x804000) m' (List.replicate 13 .exec) = some ⟨s, []⟩ ∧
    s.eip = 0x800100 ∧ s.gpr .esp = USTACKTOP := by
  obtain ⟨m, l, hr, hclean, hlive, hframe, heip, hesp, hidx, hword⟩ := plain_faulted
  have hsane := sane_run plain_start hr hclean
  have hthree : index 0x800300 0x804000 0x800308 = some 3 := by decide
  have hstep : step 0x800300 0x804000 m (goesOn m 0x800308 (UXSTACKTOP - 56)) = some
      { m with user := { m.user with
        gpr := Function.update m.user.gpr .esp (UXSTACKTOP - 56), eip := 0x800308 } } := by
    simp only [step, goesOn, hidx, Option.isNone_none, if_true]
  have hback : Clean 0x800300 0x804000 m (goesOn m 0x800308 (UXSTACKTOP - 56)) := by
    refine ⟨hsane.priv, hsane.guard, ?_⟩
    rw [hlive]
    refine ⟨fun _ _ => ⟨rfl, rfl⟩, Or.inr ⟨hthree, ?_⟩⟩
    change Function.update m.user.gpr .esp (UXSTACKTOP - 56) .esp = l.frame - 4
    rw [Function.update_self, hframe]
    decide
  obtain ⟨⟨s, hs, hgpr, heip', -⟩, -⟩ := upcall_returns_to_the_fault plain_start
    (runs.runFrom_snoc hr hstep) (hclean.snoc hr hback) hlive hthree (hesp ▸ hword)
  exact ⟨m, _, s, hr, hstep, hs, heip'.trans heip, (congrFun hgpr _).trans hesp⟩

/-- The exception stack is the top page of the stack too. -/
def aliased : Machine :=
  program (pageSpace (fun n => if n = 0xEEBFD then some 1 else places n) (fun _ => true)
    handlerBytes) USTACKTOP

/-- Two programs whose handlers keep to their part of the stack. Where the
exception stack is the page of the stack too, the upcall goes on at
`0xEEBFDFFC`, and not at `0x800100`. Where a handler has moved `esp` beyond the page
below the exception stack, its fault takes the place of the first frame. -/
theorem upcall_returns_elsewhere :
    (∃ m m' s, runs.runFrom (step 0x800300 0x804000) aliased faulted = some m ∧
      step 0x800300 0x804000 m (goesOn m 0x800308 (UXSTACKTOP - 56)) = some m' ∧
      runs.runFrom (step 0x800300 0x804000) m' (List.replicate 13 .exec) = some ⟨s, []⟩ ∧
      (m.live.map fun l => (l.frame, l.trap.eip, l.trap.gpr .esp)) =
        [(UXSTACKTOP - 52, 0x800100, USTACKTOP)] ∧ s.eip = 0xEEBFDFFC) ∧
    ∃ m m', runs.runFrom (step 0x800300 0x804000) plain faulted = some m ∧
      runs.runFrom (step 0x800300 0x804000) m
        [goesOn m 0x800204 0xEEBFD800, .fault initialTf 0xDEADBEEF] = some m' ∧
      m'.live.map Level.frame = [UXSTACKTOP - 52, UXSTACKTOP - 52] := by
  constructor
  · have hrun : ((runs.runFrom (step 0x800300 0x804000) aliased faulted).bind fun m =>
        (step 0x800300 0x804000 m (goesOn m 0x800308 (UXSTACKTOP - 56))).bind fun m' =>
          (runs.runFrom (step 0x800300 0x804000) m' (List.replicate 13 .exec)).map fun m'' =>
            ((m.live.map fun l => (l.frame, l.trap.eip, l.trap.gpr .esp)), m''.user.eip,
              m''.live.length)) =
        some ([(UXSTACKTOP - 52, 0x800100, USTACKTOP)], 0xEEBFDFFC, 0) := by decide +kernel
    obtain ⟨m, hr, hrest⟩ := Option.bind_eq_some_iff.mp hrun
    obtain ⟨m', hs, hrest⟩ := Option.bind_eq_some_iff.mp hrest
    obtain ⟨⟨s, live⟩, hr', hfacts⟩ := Option.map_eq_some_iff.mp hrest
    simp only [Prod.mk.injEq] at hfacts
    obtain ⟨hlive, heip, hnone⟩ := hfacts
    obtain rfl : live = [] := List.length_eq_zero_iff.mp hnone
    exact ⟨m, m', s, hr, hs, hr', hlive, heip⟩
  · have hrun : ((runs.runFrom (step 0x800300 0x804000) plain faulted).bind fun m =>
        (runs.runFrom (step 0x800300 0x804000) m
          [goesOn m 0x800204 0xEEBFD800, .fault initialTf 0xDEADBEEF]).map fun m' =>
            m'.live.map Level.frame) = some [UXSTACKTOP - 52, UXSTACKTOP - 52] := by
      decide +kernel
    obtain ⟨m, hr, hrest⟩ := Option.bind_eq_some_iff.mp hrun
    obtain ⟨m', hr', hlive⟩ := Option.map_eq_some_iff.mp hrest
    exact ⟨m, m', hr, hr', hlive⟩

end Programs

section Runs

variable {base handler : Word} {m₀ m : Machine} {evs : List Event}

/-- In every state reached, the live frames lie one below the other and are
intact. The upcall that returns brings back the computation of the last one,
and after its handler it does return. -/
theorem live_frames_are_not_overwritten (h : Start base handler m₀)
    (hr : runs.runFrom (step base handler) m₀ evs = some m)
    (hclean : runs.Along (step base handler) (Clean base handler) m₀ evs) :
    (m.live.Pairwise fun inner outer => inner.frame.toNat + 52 ≤ outer.frame.toNat) ∧
    (∀ l ∈ m.live, Intact m.user.mem l) ∧
    (∀ l outer m', m.live = l :: outer → current base handler m.user = some .ret →
      step base handler m .exec = some m' → m'.live = outer ∧ Resumed m'.user.toCpu l.trap) ∧
    (∀ l outer, m.live = l :: outer → index base handler m.user.eip = some 3 →
      (∀ i < 4, m.user.mem.writable (l.trap.gpr .esp - 4 + BitVec.ofNat 32 i) = true) →
      ∃ s, runs.runFrom (step base handler) m (List.replicate 13 .exec) = some ⟨s, outer⟩ ∧
        Resumed s.toCpu l.trap) := by
  have hsane := sane_run h hr hclean
  refine ⟨hsane.good.ordered.imp fun hle => by omega, fun l hl => hsane.good.intact hl,
    fun l outer m' hlive hret hs => ?_, fun l outer hlive hback hword => ?_⟩
  · obtain ⟨n, hidx, hi⟩ := Option.bind_eq_some_iff.mp hret
    obtain rfl := index_ret hi
    obtain ⟨hst, -, -, -⟩ := hsane.stage hlive hidx
    obtain ⟨s, hs', -, hres⟩ := hst.return
    simp only [step, hret, Option.bind_some, hs', Option.map_some, hlive] at hs
    cases hs
    exact ⟨rfl, hres⟩
  · obtain ⟨s, hs, -, hres⟩ := hsane.returns hlive hback hword
    exact ⟨s, hs, hres⟩

end Runs

/-- A fault of the handler puts a second frame below the first. -/
theorem live_frames_are_not_overwritten_nested : ∃ m m',
    runs.runFrom (step 0x800300 0x804000) plain faulted = some m ∧
    step 0x800300 0x804000 m (.fault initialTf 0xDEADBEEF) = some m' ∧ m'.live.length = 2 ∧
    (m'.live.Pairwise fun inner outer => inner.frame.toNat + 52 ≤ outer.frame.toNat) ∧
    ∀ l ∈ m'.live, Intact m'.user.mem l := by
  have hrun : ((runs.runFrom (step 0x800300 0x804000) plain faulted).bind fun m =>
      (step 0x800300 0x804000 m (.fault initialTf 0xDEADBEEF)).map fun m' =>
        (m'.live.length, cleanNow 0x800300 0x804000 m (.fault initialTf 0xDEADBEEF))) =
      some (2, true) := by decide +kernel
  obtain ⟨m, hr, hnext⟩ := Option.bind_eq_some_iff.mp hrun
  obtain ⟨m', hs, hfacts⟩ := Option.map_eq_some_iff.mp hnext
  simp only [Prod.mk.injEq] at hfacts
  obtain ⟨m₁, -, hr₁, hclean, -⟩ := plain_faulted
  cases hr.symm.trans hr₁
  obtain ⟨hordered, hintact, -⟩ := live_frames_are_not_overwritten plain_start
    (runs.runFrom_snoc hr hs) (hclean.snoc hr (clean_of_now hfacts.2))
  exact ⟨m, m', hr, hs, hfacts.1, hordered, hintact⟩

/-- The lower one of the two pages of the stack cannot be written. -/
def shared : Machine :=
  program (pageSpace places (fun n => n ≠ 0xEEBFC) handlerBytes) 0xEEBFD000

/-- A fault at `0x800100`, with `esp` at the end of a page, below which is a
page that is copied on write. The handler returns. The `pushl` of the upcall,
at `0x800315`, faults, and its frame takes the place of the first one. -/
theorem push_overwrites_the_frame : ∃ m m',
    runs.runFrom (step 0x800300 0x804000) shared faulted = some m ∧
    runs.runFrom (step 0x800300 0x804000) m (goesOn m 0x800308 (UXSTACKTOP - 56) ::
      [.exec, .exec, .exec, .exec, .fault initialTf 0xEEBFCFFC]) = some m' ∧
    (m'.live.map fun l => (l.frame, l.trap.eip)) =
      [(UXSTACKTOP - 52, 0x800315), (UXSTACKTOP - 52, 0x800100)] ∧
    m'.user.mem.loadWord (UXSTACKTOP - 52 + 40) = some 0x800315 := by
  have hrun : ((runs.runFrom (step 0x800300 0x804000) shared faulted).bind fun m =>
      (runs.runFrom (step 0x800300 0x804000) m (goesOn m 0x800308 (UXSTACKTOP - 56) ::
        [.exec, .exec, .exec, .exec, .fault initialTf 0xEEBFCFFC])).map fun m' =>
          ((m'.live.map fun l => (l.frame, l.trap.eip)),
            m'.user.mem.loadWord (UXSTACKTOP - 52 + 40))) =
      some ([(UXSTACKTOP - 52, 0x800315), (UXSTACKTOP - 52, 0x800100)], some 0x800315) := by
    decide +kernel
  obtain ⟨m, hr, hrest⟩ := Option.bind_eq_some_iff.mp hrun
  obtain ⟨m', hr', hfacts⟩ := Option.map_eq_some_iff.mp hrest
  simp only [Prod.mk.injEq] at hfacts
  exact ⟨m, m', hr, hr', hfacts⟩

end jos.upcall
