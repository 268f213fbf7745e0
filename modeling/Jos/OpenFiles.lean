-- The table of open files over whole runs (fs/serv.c): the id of a slot goes up by MAXOPEN
-- each time the slot is taken, and the number of mappings of its Fd page, which the kernel
-- counts in 16 bits, says whether it is free.
import Jos.Serv
import Jos.Lib.Runs

namespace jos.fs

open blockstore ia32
open blockstore.Prog (flat)

variable {s s' : Server} {m m' : Mem} {p : Page} {room : Bool} {o i : Nat}

/-! ## Taking a slot -/

/-- The table after slot `o` is taken. -/
def Server.take (s : Server) (o : Nat) : Server :=
  if s.pageref o = 0 then (s.newPage o).reuse o else s.reuse o

/-- Slot `o` is the first that counts as free. -/
structure FirstFree (s : Server) (o : Nat) : Prop where
  lt : o < MAXOPEN
  free : s.pageref o ≤ 1
  before : ∀ i < o, 2 ≤ s.pageref i

theorem FirstFree.unique {o' : Nat} (h : FirstFree s o) (h' : FirstFree s o') : o = o' := by
  have hfree := h.free
  have hfree' := h'.free
  rcases Nat.lt_trichotomy o o' with hlt | he | hlt
  · have := h'.before o hlt
    omega
  · exact he
  · have := h.before o' hlt
    omega

theorem openfile_alloc_from_cases (s : Server) (room : Bool) (left i : Nat) :
    ((∀ j, i ≤ j → j < i + left → 2 ≤ s.pageref j) ∧
      openfile_alloc_from s room left i = pure (.error (-E_MAX_OPEN), s)) ∨
    ∃ o, i ≤ o ∧ o < i + left ∧ s.pageref o ≤ 1 ∧ (∀ j, i ≤ j → j < o → 2 ≤ s.pageref j) ∧
      openfile_alloc_from s room left i =
        if s.pageref o = 0 ∧ room = false then .panic .positiveResult
        else pure (.ok o, s.take o) := by
  induction left generalizing i with
  | zero => exact .inl ⟨fun j _ _ => by omega, rfl⟩
  | succ left ih =>
    rw [openfile_alloc_from]
    by_cases hzero : s.pageref i = 0
    · refine .inr ⟨i, le_rfl, by omega, by omega, fun j _ _ => by omega, ?_⟩
      rw [if_pos hzero, Server.take, if_pos hzero]
      cases room with
      | true => rw [if_pos rfl, if_neg (fun h => Bool.false_ne_true h.2.symm)]
      | false => rw [if_neg Bool.false_ne_true, if_pos ⟨hzero, rfl⟩]
    rw [if_neg hzero]
    by_cases hone : s.pageref i = 1
    · refine .inr ⟨i, le_rfl, by omega, by omega, fun j _ _ => by omega, ?_⟩
      rw [if_pos hone, Server.take, if_neg hzero, if_neg (fun h => hzero h.1)]
    rw [if_neg hone]
    rcases ih (i + 1) with ⟨hall, hrun⟩ | ⟨o, hlow, hhigh, hfree, hbefore, hrun⟩
    · refine .inl ⟨fun j hj hj' => ?_, hrun⟩
      by_cases hij : j = i
      · rw [hij]
        omega
      · exact hall j (by omega) (by omega)
    · refine .inr ⟨o, by omega, by omega, hfree, fun j hj hj' => ?_, hrun⟩
      by_cases hij : j = i
      · rw [hij]
        omega
      · exact hbefore j (by omega) hj'

/-- `openfile_alloc` takes the first free slot, if there is one and it gets a page for it. -/
theorem openfile_alloc_cases (s : Server) (room : Bool) :
    ((∀ j < MAXOPEN, 2 ≤ s.pageref j) ∧ openfile_alloc s room = pure (.error (-E_MAX_OPEN), s)) ∨
    ∃ o, FirstFree s o ∧ openfile_alloc s room =
      if s.pageref o = 0 ∧ room = false then .panic .positiveResult else pure (.ok o, s.take o) := by
  rcases openfile_alloc_from_cases s room MAXOPEN 0 with
    ⟨hall, hrun⟩ | ⟨o, -, hlt, hfree, hbefore, hrun⟩
  · exact .inl ⟨fun j hj => hall j (by omega) (by omega), hrun⟩
  · exact .inr ⟨o, ⟨by omega, hfree, fun i hi => hbefore i (by omega) hi⟩, hrun⟩

/-! ## What requests do to the table -/

/-- The table of open files is as before, and the clients have what they had. -/
structure SameTable (s s' : Server) : Prop where
  opentab : s'.opentab = s.opentab
  mapped : s'.mapped = s.mapped
  clients : s'.clients = s.clients
  ids : ∀ o, (s'.fd o).id = (s.fd o).id

theorem SameTable.refl (s : Server) : SameTable s s := ⟨rfl, rfl, rfl, fun _ => rfl⟩

theorem SameTable.advance (s : Server) (o : Nat) (r : Int) : SameTable s (s.advance o r) := by
  refine ⟨rfl, rfl, rfl, fun o' => ?_⟩
  unfold Server.advance
  by_cases h : o' = o
  · rw [h]
    simp only [Function.update_self]
  · simp only [Function.update_of_ne h]

/-- What a request to open comes to. -/
inductive Opening (s : Server) (r : Reply) : Prop
  | full (hs : r.s = s) (hpg : r.pg = none)
  | failed (o : Nat) (ho : FirstFree s o) (hs : r.s = s.take o) (hpg : r.pg = none)
  | opened (o f : Nat) (omode : Word) (ho : FirstFree s o)
      (hid : 0 ≤ ((s.take o).opentab o).o_fileid.toInt) (hs : r.s = (s.take o).opened o f omode)
      (hpg : r.pg = some o)

theorem serve_open_cases {r : Reply} (h : flat (serve_open s room p) m = .ok (r, m')) :
    Opening s r := by
  unfold serve_open at h
  rcases openfile_alloc_cases s room with ⟨-, halloc⟩ | ⟨o, ho, halloc⟩
  · rw [halloc] at h
    cases h
    exact .full rfl rfl
  · rw [halloc] at h
    split at h
    · cases h
    · obtain ⟨a, m₁, hpure, h⟩ := Prog.flat_bind_eq_ok h
      cases hpure
      dsimp only at h
      split at h
      · cases h
        exact .failed o ho rfl rfl
      · rename_i hid
        obtain ⟨f, m₂, -, h⟩ := Prog.flat_bind_eq_ok h
        split at h
        · cases h
          exact .failed o ho rfl rfl
        · rename_i f'
          cases h
          exact .opened o f' _ ho (by omega) rfl rfl

/-- The reply of a request that is not to open. -/
def Quiet (s : Server) (r : Reply) : Prop := SameTable s r.s ∧ r.pg = none

theorem serve_set_size_quiet {r : Reply} (h : flat (serve_set_size s p) m = .ok (r, m')) :
    Quiet s r := by
  unfold serve_set_size at h
  split at h
  · cases h
    exact ⟨.refl s, rfl⟩
  · obtain ⟨r₀, m₁, -, h⟩ := Prog.flat_bind_eq_ok h
    cases h
    exact ⟨.refl s, rfl⟩

theorem serve_read_quiet {r : Reply} (h : flat (serve_read s p) m = .ok (r, m')) : Quiet s r := by
  unfold serve_read at h
  split at h
  · cases h
    exact ⟨.refl s, rfl⟩
  · obtain ⟨r₀, m₁, -, h⟩ := Prog.flat_bind_eq_ok h
    obtain ⟨p', m₂, -, h⟩ := Prog.flat_bind_eq_ok h
    split at h
    · cases h
      exact ⟨.refl s, rfl⟩
    · cases h
      exact ⟨.advance s _ _, rfl⟩

theorem serve_write_quiet {r : Reply} (h : flat (serve_write s p) m = .ok (r, m')) :
    Quiet s r := by
  unfold serve_write at h
  split at h
  · cases h
    exact ⟨.refl s, rfl⟩
  · obtain ⟨_, m₁, -, h⟩ := Prog.flat_bind_eq_ok h
    obtain ⟨buf, m₂, -, h⟩ := Prog.flat_bind_eq_ok h
    obtain ⟨r₀, m₃, -, h⟩ := Prog.flat_bind_eq_ok h
    split at h
    · cases h
      exact ⟨.advance s _ _, rfl⟩
    · cases h
      exact ⟨.refl s, rfl⟩

theorem serve_stat_quiet {r : Reply} (h : flat (serve_stat s p) m = .ok (r, m')) : Quiet s r := by
  unfold serve_stat at h
  split at h
  · cases h
    exact ⟨.refl s, rfl⟩
  · obtain ⟨name, m₁, -, h⟩ := Prog.flat_bind_eq_ok h
    obtain ⟨p₁, m₂, -, h⟩ := Prog.flat_bind_eq_ok h
    obtain ⟨size, m₃, -, h⟩ := Prog.flat_bind_eq_ok h
    obtain ⟨p₂, m₄, -, h⟩ := Prog.flat_bind_eq_ok h
    obtain ⟨ty, m₅, -, h⟩ := Prog.flat_bind_eq_ok h
    obtain ⟨p₃, m₆, -, h⟩ := Prog.flat_bind_eq_ok h
    cases h
    exact ⟨.refl s, rfl⟩

theorem serve_flush_quiet {r : Reply} (h : flat (serve_flush s p) m = .ok (r, m')) :
    Quiet s r := by
  unfold serve_flush at h
  split at h
  · cases h
    exact ⟨.refl s, rfl⟩
  · obtain ⟨_, m₁, -, h⟩ := Prog.flat_bind_eq_ok h
    cases h
    exact ⟨.refl s, rfl⟩

theorem serve_sync_quiet {r : Reply} (h : flat (serve_sync s p) m = .ok (r, m')) : Quiet s r := by
  obtain ⟨_, m₁, -, h⟩ := Prog.flat_bind_eq_ok h
  cases h
  exact ⟨.refl s, rfl⟩

/-- A request opens a file, or leaves the table alone and sends no page. -/
theorem handle_cases {req : Word} {r : Reply} (h : flat (handle s room req p) m = .ok (r, m')) :
    Opening s r ∨ Quiet s r := by
  unfold handle at h
  split at h
  · exact .inl (serve_open_cases h)
  refine .inr ?_
  split at h
  · exact serve_set_size_quiet h
  split at h
  · exact serve_read_quiet h
  split at h
  · exact serve_write_quiet h
  split at h
  · exact serve_stat_quiet h
  split at h
  · exact serve_flush_quiet h
  split at h
  · exact serve_sync_quiet h
  · cases h
    exact ⟨.refl s, rfl⟩

/-! ## A record of what was opened -/

/-- How often each slot was taken, and the ids that were handed out for it, the latest
first. -/
structure Log where
  uses : Nat → Nat
  ids : Nat → List Word

def Log.start : Log := ⟨fun _ => 0, fun _ => []⟩

/-- The record after a reply. The id of an open file is in its Fd page. -/
def Log.reply (log : Log) (s : Server) (r : Reply) : Log where
  uses i := if (r.s.opentab i).o_fileid = (s.opentab i).o_fileid then log.uses i else log.uses i + 1
  ids i := if r.pg = some i then (r.s.fd i).id :: log.ids i else log.ids i

def Log.after (log : Log) (st : Server × Mem) : ServEvent → Log
  | .request room _ req p =>
    (flat (handle st.1 room req p) st.2).toOption.elim log fun r => log.reply st.1 r.1
  | _ => log

/-- An event, with the record. -/
def trackStep (t : (Server × Mem) × Log) (ev : ServEvent) : Option ((Server × Mem) × Log) :=
  (servStep t.1 ev).map fun st => (st, t.2.after t.1 ev)

/-- The id of a slot that was taken `n` times. -/
def idOf (i n : Nat) : Word := BitVec.ofNat 32 (i + MAXOPEN * n)

theorem idOf_mod {i n : Nat} (hi : i < MAXOPEN) : (idOf i n).toNat % MAXOPEN = i := by
  rw [idOf, BitVec.toNat_ofNat]
  unfold MAXOPEN at hi ⊢
  omega

theorem idOf_succ (i n : Nat) : idOf i n + 1024#32 = idOf i (n + 1) := by
  rw [idOf, idOf, MAXOPEN, Nat.mul_succ, ← Nat.add_assoc, BitVec.ofNat_add (i + 1024 * n)]

theorem idOf_ne_succ (i n : Nat) : idOf i (n + 1) ≠ idOf i n := by
  intro h
  have hnat := congrArg BitVec.toNat h
  rw [idOf, idOf, BitVec.toNat_ofNat, BitVec.toNat_ofNat, MAXOPEN] at hnat
  omega

/-- The table with the record. -/
structure Tracked (s : Server) (log : Log) : Prop where
  ids : ∀ i, (s.opentab i).o_fileid = idOf i (log.uses i)
  /-- the ids handed out are those of different uses, none later than the last -/
  handed : ∀ i, ∃ us : List Nat, log.ids i = us.map (idOf i) ∧ us.Pairwise (· > ·) ∧
    ∀ u ∈ us, u ≤ log.uses i
  /-- a page that a client maps is that of the last file opened in its slot -/
  clients : ∀ i, 0 < s.clients i → i < MAXOPEN ∧ s.mapped i = true ∧
    (log.ids i).head? = some (s.opentab i).o_fileid

theorem Tracked.start : Tracked serve_init .start :=
  ⟨fun _ => rfl, fun _ => ⟨[], rfl, .nil, fun _ hu => absurd hu List.not_mem_nil⟩,
    fun _ hi => absurd hi (Nat.lt_irrefl 0)⟩

/-- No Fd page is mapped so often that the count of its mappings wraps around. -/
def Few (s : Server) : Prop := ∀ i, s.clients i < 65535

theorem Few.pageref_eq (h : Few s) (hm : s.mapped i = true) : s.pageref i = 1 + s.clients i := by
  have hlt := h i
  rw [Server.pageref, if_pos hm]
  omega

variable {log : Log}

theorem few_start : Few serve_init := fun _ => Nat.zero_lt_succ _

/-- A slot that counts as free is free. -/
theorem Tracked.unused (h : Tracked s log) (hfew : Few s) (ho : s.pageref o ≤ 1) :
    s.clients o = 0 := by
  by_contra hne
  have hmapped := (h.clients o (by omega)).2.1
  rw [hfew.pageref_eq hmapped] at ho
  omega

theorem take_opentab (s : Server) (o : Nat) : (s.take o).opentab = Function.update s.opentab o
    { s.opentab o with o_fileid := (s.opentab o).o_fileid + 1024#32 } := by
  unfold Server.take
  split <;> rfl

theorem take_clients (h : s.clients o = 0) : (s.take o).clients = s.clients := by
  unfold Server.take
  split
  · show Function.update s.clients o 0 = s.clients
    rw [← h, Function.update_eq_self]
  · rfl

theorem take_mapped (s : Server) (hi : s.mapped i = true) : (s.take o).mapped i = true := by
  unfold Server.take
  split
  · show Function.update s.mapped o true i = true
    by_cases h : i = o
    · rw [h, Function.update_self]
    · rw [Function.update_of_ne h, hi]
  · exact hi

theorem take_mapped_self (s : Server) (o : Nat) : (s.take o).mapped o = true := by
  unfold Server.take
  split
  · exact Function.update_self ..
  · rename_i h
    by_contra hne
    rw [Bool.not_eq_true] at hne
    have hmapped : s.mapped o = false := hne
    exact h (by rw [Server.pageref, hmapped, if_neg Bool.false_ne_true])

/-- The record after slot `o` has been taken. -/
def Log.took (log : Log) (o : Nat) : Log :=
  { log with uses := Function.update log.uses o (log.uses o + 1) }

theorem Tracked.taken (h : Tracked s log) (ho : s.clients o = 0) :
    Tracked (s.take o) (log.took o) := by
  refine ⟨fun i => ?_, fun i => ?_, fun i hi => ?_⟩
  · show ((s.take o).opentab i).o_fileid =
      idOf i (Function.update log.uses o (log.uses o + 1) i)
    rw [take_opentab]
    by_cases hio : i = o
    · rw [hio, Function.update_self, Function.update_self, ← idOf_succ, ← h.ids o]
    · rw [Function.update_of_ne hio, Function.update_of_ne hio, h.ids i]
  · obtain ⟨us, hus, hdesc, hle⟩ := h.handed i
    refine ⟨us, hus, hdesc, fun u hu => (hle u hu).trans ?_⟩
    show log.uses i ≤ Function.update log.uses o (log.uses o + 1) i
    by_cases hio : i = o
    · rw [hio, Function.update_self]
      omega
    · rw [Function.update_of_ne hio]
  · rw [take_clients ho] at hi
    have hio : i ≠ o := by
      rintro rfl
      omega
    obtain ⟨hlt, hmapped, hhead⟩ := h.clients i hi
    refine ⟨hlt, take_mapped s hmapped, ?_⟩
    rw [take_opentab, Function.update_of_ne hio]
    exact hhead

/-- The record after the file in slot `o` has been opened. -/
def Log.gave (log : Log) (o : Nat) (id : Word) : Log :=
  { log with ids := Function.update log.ids o (id :: log.ids o) }

theorem opened_fileid {f : Nat} {omode : Word} :
    ((s.opened o f omode).opentab i).o_fileid = (s.opentab i).o_fileid := by
  show (Function.update s.opentab o { s.opentab o with o_file := f, o_mode := omode } i).o_fileid = _
  by_cases h : i = o
  · rw [h, Function.update_self]
  · rw [Function.update_of_ne h]

theorem opened_id {f : Nat} {omode : Word} :
    ((s.opened o f omode).fd o).id = (s.opentab o).o_fileid := by
  show (Function.update s.fd o _ o).id = _
  rw [Function.update_self]

/-- A slot is taken and the file in it opened, and the client takes the page or does not. -/
theorem Tracked.opens (f : Nat) (omode : Word) (h : Tracked s log) (hlt : o < MAXOPEN)
    (ho : s.clients o = 0) (hs' : s'.opentab = ((s.take o).opened o f omode).opentab)
    (hmapped : s'.mapped = (s.take o).mapped)
    (hclients : ∀ i, i ≠ o → s'.clients i = s.clients i) :
    Tracked s' ((log.took o).gave o ((s.take o).opentab o).o_fileid) := by
  have ht := h.taken ho
  have hid : ((s.take o).opentab o).o_fileid = idOf o (log.uses o + 1) := by
    rw [ht.ids o]
    show idOf o (Function.update log.uses o (log.uses o + 1) o) = _
    rw [Function.update_self]
  refine ⟨fun i => ?_, fun i => ?_, fun i hi => ?_⟩
  · rw [hs', opened_fileid, ht.ids i]
    rfl
  · show ∃ us : List Nat, Function.update log.ids o (_ :: log.ids o) i = _ ∧ _ ∧ ∀ u ∈ us,
      u ≤ Function.update log.uses o (log.uses o + 1) i
    obtain ⟨us, hus, hdesc, hle⟩ := h.handed i
    by_cases hio : i = o
    · subst hio
      refine ⟨(log.uses i + 1) :: us, ?_, ?_, ?_⟩
      · rw [Function.update_self, hus, hid, List.map_cons]
      · refine List.pairwise_cons.mpr ⟨fun u hu => ?_, hdesc⟩
        exact Nat.lt_succ_of_le (hle u hu)
      · intro u hu
        rw [Function.update_self]
        rcases List.mem_cons.mp hu with rfl | hu
        · exact le_rfl
        · exact (hle u hu).trans (Nat.le_succ _)
    · refine ⟨us, ?_, hdesc, ?_⟩
      · rw [Function.update_of_ne hio, hus]
      · rw [Function.update_of_ne hio]
        exact hle
  · show i < MAXOPEN ∧ s'.mapped i = true ∧
      (Function.update log.ids o (_ :: log.ids o) i).head? = some (s'.opentab i).o_fileid
    rw [hmapped, hs', opened_fileid]
    by_cases hio : i = o
    · subst hio
      exact ⟨hlt, take_mapped_self s i, by rw [Function.update_self]; rfl⟩
    · rw [hclients i hio, ← take_clients ho] at hi
      rw [Function.update_of_ne hio]
      exact ht.clients i hi

/-! ## One event -/

/-- The record after a reply that took no slot. -/
theorem Log.reply_same {r : Reply} (hs : r.s.opentab = s.opentab) (hpg : r.pg = none) :
    log.reply s r = log := by
  unfold Log.reply
  rw [hs, hpg]
  simp only [if_true]
  rfl

theorem Log.reply_took {r : Reply} (h : Tracked s log)
    (hs : ∀ i, (r.s.opentab i).o_fileid = ((s.take o).opentab i).o_fileid) :
    (log.reply s r).uses = (log.took o).uses := by
  funext i
  show (if (r.s.opentab i).o_fileid = (s.opentab i).o_fileid then log.uses i else log.uses i + 1) =
    Function.update log.uses o (log.uses o + 1) i
  rw [hs, take_opentab]
  by_cases hio : i = o
  · subst hio
    rw [Function.update_self, Function.update_self, h.ids i, idOf_succ, if_neg (idOf_ne_succ _ _)]
  · rw [Function.update_of_ne hio, Function.update_of_ne hio, if_pos rfl]

theorem Tracked.same (h : Tracked s log) (hs : SameTable s s') : Tracked s' log := by
  refine ⟨fun i => ?_, h.handed, fun i hi => ?_⟩
  · rw [hs.opentab]
    exact h.ids i
  · rw [hs.clients] at hi
    rw [hs.opentab, hs.mapped]
    exact h.clients i hi

theorem Tracked.reply {r : Reply} (h : Tracked s log) (hfew : Few s) (hr : Opening s r ∨ Quiet s r)
    (takes : Bool) : Tracked (r.taken takes) (log.reply s r) := by
  have hnone : r.pg = none → r.taken takes = r.s := fun hpg => by rw [Reply.taken, hpg]
  rcases hr with hopen | ⟨hsame, hpg⟩
  · cases hopen with
    | full hs hpg =>
      rw [hnone hpg, Log.reply_same (by rw [hs]) hpg, hs]
      exact h
    | failed o ho hs hpg =>
      have hlog : log.reply s r = log.took o := by
        have huses := Log.reply_took h (r := r) (o := o) fun i => by rw [hs]
        have hids : (log.reply s r).ids = log.ids := by
          funext i
          show (if r.pg = some i then _ else log.ids i) = log.ids i
          rw [hpg, if_neg (fun he => Option.some_ne_none i he.symm)]
        show (⟨(log.reply s r).uses, (log.reply s r).ids⟩ : Log) = _
        rw [huses, hids]
        rfl
      rw [hnone hpg, hlog, hs]
      exact h.taken (h.unused hfew ho.free)
    | opened o f omode ho hid hs hpg =>
      have hunused := h.unused hfew ho.free
      have hlog : log.reply s r = (log.took o).gave o ((s.take o).opentab o).o_fileid := by
        have huses := Log.reply_took h (r := r) (o := o) fun i => by rw [hs, opened_fileid]
        have hids : (log.reply s r).ids = Function.update log.ids o
            (((s.take o).opentab o).o_fileid :: log.ids o) := by
          funext i
          show (if r.pg = some i then (r.s.fd i).id :: log.ids i else log.ids i) = _
          rw [hpg]
          by_cases hio : i = o
          · rw [hio, if_pos rfl, Function.update_self, hs, opened_id]
          · rw [if_neg (fun he => hio (Option.some.inj he).symm), Function.update_of_ne hio]
        show (⟨(log.reply s r).uses, (log.reply s r).ids⟩ : Log) = _
        rw [huses, hids]
        rfl
      have htaken : r.taken takes = if takes then
          { r.s with clients := Function.update r.s.clients o (r.s.clients o + 1) } else r.s := by
        rw [Reply.taken, hpg]
      rw [hlog]
      refine Tracked.opens f omode h ho.lt hunused ?_ ?_ ?_
      · rw [htaken, hs]
        split <;> rfl
      · rw [htaken, hs]
        split <;> rfl
      · intro i hi
        have hsame : r.s.clients = s.clients := by
          rw [hs]
          exact take_clients hunused
        rw [htaken]
        split
        · show Function.update r.s.clients o _ i = _
          rw [Function.update_of_ne hi, hsame]
        · rw [hsame]
  · rw [hnone hpg, Log.reply_same hsame.opentab hpg]
    exact h.same hsame

/-- A client that adds a mapping of an Fd page finds fewer than 65534 of them. -/
def FewShares (st : Server × Mem) : ServEvent → Prop
  | .share o => st.1.clients o < 65534
  | _ => True

theorem Few.reply {r : Reply} (h : Few s) (hr : Opening s r ∨ Quiet s r) (ht : Tracked s log)
    (takes : Bool) : Few (r.taken takes) := by
  have hnone : r.pg = none → r.taken takes = r.s := fun hpg => by rw [Reply.taken, hpg]
  rcases hr with hopen | ⟨hsame, hpg⟩
  · cases hopen with
    | full hs hpg =>
      rw [hnone hpg, hs]
      exact h
    | failed o ho hs hpg =>
      intro i
      rw [hnone hpg, hs, take_clients (ht.unused h ho.free)]
      exact h i
    | opened o f omode ho hid hs hpg =>
      have hunused := ht.unused h ho.free
      have hsame : r.s.clients = s.clients := by
        rw [hs]
        exact take_clients hunused
      intro i
      rw [Reply.taken, hpg]
      dsimp only
      split
      · show Function.update r.s.clients o (r.s.clients o + 1) i < 65535
        rw [hsame]
        by_cases hio : i = o
        · rw [hio, Function.update_self, hunused]
          omega
        · rw [Function.update_of_ne hio]
          exact h i
      · rw [hsame]
        exact h i
  · intro i
    rw [hnone hpg, hsame.clients]
    exact h i

/-- What clients do to a page that they map. -/
theorem client_cases {ev : ServEvent} (h : s.client ev = some s') :
    s'.opentab = s.opentab ∧ s'.mapped = s.mapped ∧
      ∃ o, 0 < s.clients o ∧ ((∃ fd, ev = .setFd o fd ∧ s' = { s with fd := Function.update s.fd o fd }) ∨
        (ev = .share o ∧ s'.clients = Function.update s.clients o (s.clients o + 1) ∧ s'.fd = s.fd) ∨
        (ev = .drop o ∧ s'.clients = Function.update s.clients o (s.clients o - 1) ∧ s'.fd = s.fd)) := by
  cases ev with
  | request room takes req p => cases h
  | setFd o fd =>
    unfold Server.client at h
    dsimp only at h
    split at h
    · rename_i ho
      cases h
      exact ⟨rfl, rfl, o, ho, .inl ⟨fd, rfl, rfl⟩⟩
    · cases h
  | share o =>
    unfold Server.client at h
    dsimp only at h
    split at h
    · rename_i ho
      cases h
      exact ⟨rfl, rfl, o, ho, .inr (.inl ⟨rfl, rfl, rfl⟩)⟩
    · cases h
  | drop o =>
    unfold Server.client at h
    dsimp only at h
    split at h
    · rename_i ho
      cases h
      exact ⟨rfl, rfl, o, ho, .inr (.inr ⟨rfl, rfl, rfl⟩)⟩
    · cases h

theorem Tracked.client {ev : ServEvent} (h : Tracked s log) (hev : s.client ev = some s') :
    Tracked s' log := by
  obtain ⟨hopentab, hmapped, o, ho, hcases⟩ := client_cases hev
  refine ⟨fun i => ?_, h.handed, fun i hi => ?_⟩
  · rw [hopentab]
    exact h.ids i
  · rw [hopentab, hmapped]
    apply h.clients i
    by_cases hio : i = o
    · rwa [hio]
    · rcases hcases with ⟨fd, -, rfl⟩ | ⟨-, hc, -⟩ | ⟨-, hc, -⟩
      · exact hi
      · rwa [hc, Function.update_of_ne hio] at hi
      · rwa [hc, Function.update_of_ne hio] at hi

theorem Few.client {ev : ServEvent} (h : Few s) (hev : s.client ev = some s')
    (hshare : FewShares (s, m) ev) : Few s' := by
  obtain ⟨-, -, o, ho, hcases⟩ := client_cases hev
  intro i
  rcases hcases with ⟨fd, -, rfl⟩ | ⟨rfl, hc, -⟩ | ⟨-, hc, -⟩
  · exact h i
  · have hlt : s.clients o < 65534 := hshare
    rw [hc]
    by_cases hio : i = o
    · rw [hio, Function.update_self]
      omega
    · rw [Function.update_of_ne hio]
      exact h i
  · have hlt := h i
    rw [hc]
    by_cases hio : i = o
    · subst hio
      rw [Function.update_self]
      omega
    · rwa [Function.update_of_ne hio]

/-- The table, the record and the number of mappings fit together. -/
def TableInv (t : (Server × Mem) × Log) : Prop := Tracked t.1.1 t.2 ∧ Few t.1.1

theorem TableInv.step {t t' : (Server × Mem) × Log} {ev : ServEvent} (h : TableInv t)
    (hev : FewShares t.1 ev) (hstep : trackStep t ev = some t') : TableInv t' := by
  obtain ⟨⟨s, m⟩, log⟩ := t
  obtain ⟨htracked, hfew⟩ := h
  obtain ⟨st, hst, rfl⟩ := Option.map_eq_some_iff.mp hstep
  cases ev with
  | request room takes req p =>
    obtain ⟨r, m', hrun, rfl⟩ := servStep_request hst
    have hlog : log.after (s, m) (.request room takes req p) = log.reply s r := by
      show (flat (handle s room req p) m).toOption.elim log _ = _
      rw [hrun]
      rfl
    have hcases := handle_cases hrun
    dsimp only at hcases ⊢
    rw [TableInv, hlog]
    exact ⟨htracked.reply hfew hcases takes, hfew.reply hcases htracked takes⟩
  | _ =>
    obtain ⟨s', hs', rfl⟩ := servStep_client hst (by rintro _ _ _ _ ⟨⟩)
    exact ⟨htracked.client hs', hfew.client hs' hev⟩

/-! ## Ids do not alias -/

theorem idOf_inj {i n n' : Nat} (hn : n < 2 ^ 22) (hn' : n' < 2 ^ 22)
    (h : idOf i n = idOf i n') : n = n' := by
  have hnat := congrArg BitVec.toNat h
  rw [idOf, idOf, BitVec.toNat_ofNat, BitVec.toNat_ofNat] at hnat
  unfold MAXOPEN at hnat
  omega

theorem lookup_eq_ok {fileid : Word} (h : openfile_lookup s fileid = .ok o) :
    o = fileid.toNat % MAXOPEN ∧ 2 ≤ s.pageref o ∧ (s.opentab o).o_fileid = fileid := by
  unfold openfile_lookup at h
  dsimp only at h
  split at h
  · cases h
  · rename_i hno
    cases h
    exact ⟨rfl, by omega, not_not.mp fun hne => hno (.inr hne)⟩

theorem pageref_pos (h : 2 ≤ s.pageref i) : 0 < s.clients i := by
  unfold Server.pageref at h
  split at h
  · omega
  · omega

/-- What an id may stand for. -/
structure NoAlias (s : Server) (log : Log) : Prop where
  slots : ∀ i < MAXOPEN, (s.opentab i).o_fileid.toNat % MAXOPEN = i
  reuse : ∀ room m a m', flat (openfile_alloc s room) m = .ok (a, m') → ∀ o, a.1 = .ok o →
    s.clients o = 0
  lookup : ∀ fileid o, openfile_lookup s fileid = .ok o →
    0 < s.clients o ∧ (log.ids o).head? = some fileid ∧ fileid ∉ (log.ids o).tail
  stale : ∀ fileid : Word, s.clients (fileid.toNat % MAXOPEN) = 0 →
    openfile_lookup s fileid = .error (-E_INVAL)

theorem TableInv.noAlias {t : (Server × Mem) × Log} (h : TableInv t)
    (huses : ∀ i, t.2.uses i < 2 ^ 22) : NoAlias t.1.1 t.2 := by
  obtain ⟨⟨s, m⟩, log⟩ := t
  obtain ⟨htracked, hfew⟩ := h
  dsimp only at htracked hfew huses ⊢
  refine ⟨fun i hi => ?_, ?_, ?_, ?_⟩
  · rw [htracked.ids i]
    exact idOf_mod hi
  · intro room m a m' hrun o ho
    rcases openfile_alloc_cases s room with ⟨-, halloc⟩ | ⟨o', hfree, halloc⟩
    · rw [halloc] at hrun
      cases hrun
      cases ho
    · rw [halloc] at hrun
      split at hrun
      · cases hrun
      · cases hrun
        cases ho
        exact htracked.unused hfew hfree.free
  · intro fileid o hlook
    obtain ⟨rfl, hpage, hid⟩ := lookup_eq_ok hlook
    have hpos := pageref_pos hpage
    obtain ⟨-, -, hhead⟩ := htracked.clients _ hpos
    rw [hid] at hhead
    refine ⟨hpos, hhead, fun htail => ?_⟩
    -- the ids of earlier uses are others
    obtain ⟨us, hus, hdesc, hle⟩ := htracked.handed (fileid.toNat % MAXOPEN)
    rw [hus] at hhead htail
    cases us with
    | nil => cases hhead
    | cons u us =>
      obtain ⟨u', hu', hsame⟩ := List.mem_map.mp htail
      have hfirst : idOf (fileid.toNat % MAXOPEN) u = fileid := Option.some.inj hhead
      have hbound : ∀ v ∈ u :: us, v < 2 ^ 22 := fun v hv => (hle v hv).trans_lt (huses _)
      have hgt := (List.pairwise_cons.mp hdesc).1 u' hu'
      have heq := idOf_inj (hbound u (.head _)) (hbound u' (.tail _ hu')) (hfirst.trans hsame.symm)
      omega
  · intro fileid hzero
    have hle : s.pageref (fileid.toNat % MAXOPEN) ≤ 1 := by
      by_contra hno
      have hpos := pageref_pos (by omega : 2 ≤ s.pageref (fileid.toNat % MAXOPEN))
      omega
    unfold openfile_lookup
    dsimp only
    rw [if_pos (.inl hle)]

/-- In every run in which no Fd page gets 65535 mappings of clients and no slot is taken
2^22 times, an id stands for at most the file that was last opened under it. -/
theorem open_file_ids_do_not_alias (m : Mem) (evs : List ServEvent) (t : (Server × Mem) × Log)
    (hall : runs.Along trackStep (fun t ev => FewShares t.1 ev) ((serve_init, m), .start) evs)
    (hrun : runs.runFrom trackStep ((serve_init, m), .start) evs = some t)
    (huses : ∀ i, t.2.uses i < 2 ^ 22) : NoAlias t.1.1 t.2 :=
  TableInv.noAlias
    (runs.runFrom_keeps (I := TableInv) (fun _ _ _ h hev hstep => h.step hev hstep)
      ⟨Tracked.start, few_start⟩ hrun hall) huses

/-! ## The root as an open file -/

/-- A request to open the root. -/
def rootPage : Page := ⟨fun a => if a = 0 then 47 else 0, true⟩

def openRoot : ServEvent := .request true true FSREQ_OPEN rootPage

theorem rootPage_path : req_path rootPage = [47] := by decide +kernel

theorem rootPage_omode : req_omode rootPage = 0 := by decide +kernel

theorem open_root (m : Mem) : flat (open_file [47] 0) m = .ok (.ok s_root, m) := rfl

/-- The root is opened in slot `o`. -/
theorem openRoot_step (m : Mem) (ho : FirstFree s o)
    (hid : 0 ≤ ((s.take o).opentab o).o_fileid.toInt) :
    ∃ r : Reply, flat (handle s true FSREQ_OPEN rootPage) m = .ok (r, m) ∧
      r.s = (s.take o).opened o s_root 0 ∧ r.pg = some o := by
  refine ⟨⟨0, some o, (s.take o).opened o s_root 0, rootPage⟩, ?_, rfl, rfl⟩
  show flat (serve_open s true rootPage) m = _
  rcases openfile_alloc_cases s true with ⟨hall, -⟩ | ⟨o', ho', halloc⟩
  · have hfree := ho.free
    have := hall o ho.lt
    omega
  · obtain rfl := ho.unique ho'
    have hneg : ¬ ((s.take o).opentab o).o_fileid.toInt < 0 := by omega
    unfold serve_open
    rw [halloc, if_neg (fun h => Bool.false_ne_true h.2.symm), rootPage_path, rootPage_omode]
    show flat (if ((s.take o).opentab o).o_fileid.toInt < 0 then _ else _) m = _
    rw [if_neg hneg]
    exact Prog.flat_bind_ok (open_root m)

/-- The table with the root open in slot `o` for one client more. -/
def Server.withRoot (s : Server) (o : Nat) : Server :=
  let s' := (s.take o).opened o s_root 0
  { s' with clients := Function.update s'.clients o (s'.clients o + 1) }

theorem openRoot_track (m : Mem) (log : Log) (ho : FirstFree s o)
    (hid : 0 ≤ ((s.take o).opentab o).o_fileid.toInt) :
    ∃ r : Reply, trackStep ((s, m), log) openRoot = some ((s.withRoot o, m), log.reply s r) := by
  obtain ⟨r, hrun, hs, hpg⟩ := openRoot_step m ho hid
  refine ⟨r, ?_⟩
  have hstep : servStep (s, m) openRoot = some (s.withRoot o, m) := by
    show servStep (s, m) (.request true true FSREQ_OPEN rootPage) = _
    simp only [servStep, hrun, Reply.taken, hpg, if_true, Server.withRoot, hs]
  have hlog : log.after (s, m) openRoot = log.reply s r := by
    show (flat (handle s true FSREQ_OPEN rootPage) m).toOption.elim log _ = _
    rw [hrun]
    rfl
  rw [trackStep]
  dsimp only
  rw [hstep, hlog]
  rfl

/-- The page of slot `o` with `n` mappings. -/
def Server.withClients (s : Server) (o n : Nat) : Server :=
  { s with clients := Function.update s.clients o n }

theorem shares_track (m : Mem) (log : Log) (h : 0 < s.clients o) (n : Nat) :
    runs.runFrom trackStep ((s, m), log) (List.replicate n (.share o)) =
      some ((s.withClients o (s.clients o + n), m), log) := by
  induction n generalizing s with
  | zero =>
    show some _ = some _
    rw [Nat.add_zero, Server.withClients, Function.update_eq_self]
  | succ n ih =>
    have hstep : trackStep ((s, m), log) (.share o) =
        some ((s.withClients o (s.clients o + 1), m), log) := by
      show ((s.client (.share o)).map _).map _ = _
      simp only [Server.client, h, if_true]
      rfl
    rw [List.replicate_succ, runs.runFrom, hstep, Option.bind_some]
    have hone : (s.withClients o (s.clients o + 1)).clients o = s.clients o + 1 :=
      Function.update_self ..
    rw [ih (by rw [hone]; omega), hone]
    show some _ = some _
    unfold Server.withClients
    dsimp only
    rw [Function.update_idem, Nat.add_assoc, Nat.add_comm 1]

theorem serve_init_first : FirstFree serve_init 0 :=
  ⟨by decide, by decide, fun i hi => absurd hi (Nat.not_lt_zero i)⟩

theorem open_file_ids_do_not_alias_root : ∃ t,
    runs.runFrom trackStep ((serve_init, fun _ => 0), .start) [openRoot] = some t ∧
      NoAlias t.1.1 t.2 := by
  obtain ⟨r, hr⟩ := openRoot_track (fun _ => 0) .start serve_init_first (by decide)
  have hrun : runs.runFrom trackStep ((serve_init, fun _ => 0), .start) [openRoot] =
      some ((serve_init.withRoot 0, fun _ => 0), Log.start.reply serve_init r) := by
    rw [runs.runFrom, hr]
    rfl
  have hall : runs.Along trackStep (fun t ev => FewShares t.1 ev)
      ((serve_init, fun _ => 0), .start) [openRoot] := by
    refine ⟨trivial, ?_⟩
    split <;> trivial
  refine ⟨_, hrun, open_file_ids_do_not_alias _ _ _ hall hrun fun i => ?_⟩
  show (if _ then 0 else 0 + 1) < 2 ^ 22
  split <;> decide

/-- With 65535 mappings the count is at 0, and a file that is open gives way to another. -/
theorem open_file_id_aliases : ∃ t,
    runs.runFrom trackStep ((serve_init, fun _ => 0), .start)
      (openRoot :: List.replicate 65534 (.share 0)) = some t ∧
    (∀ i, t.2.uses i < 2 ^ 22) ∧ ¬ NoAlias t.1.1 t.2 := by
  obtain ⟨r, hr⟩ := openRoot_track (fun _ => 0) .start serve_init_first (by decide)
  have hone : (serve_init.withRoot 0).clients 0 = 1 := by decide
  have hrun := shares_track (fun _ => 0) (Log.start.reply serve_init r)
    (by rw [hone]; decide : 0 < (serve_init.withRoot 0).clients 0) 65534
  rw [hone] at hrun
  refine ⟨_, by rw [runs.runFrom, hr, Option.bind_some, hrun], fun i => ?_, fun h => ?_⟩
  · show (if _ then 0 else 0 + 1) < 2 ^ 22
    split <;> decide
  · have hcount : ((serve_init.withRoot 0).withClients 0 (1 + 65534)).clients 0 = 65535 := by
      simp only [Server.withClients, Function.update_self]
    have hzero : ((serve_init.withRoot 0).withClients 0 (1 + 65534)).pageref 0 = 0 := by
      rw [Server.pageref, hcount]
      split <;> rfl
    rcases openfile_alloc_cases ((serve_init.withRoot 0).withClients 0 (1 + 65534)) true with
      ⟨hall, -⟩ | ⟨o, ho, halloc⟩
    · have := hall 0 (by decide)
      omega
    · have ho0 : o = 0 := by
        by_contra hne
        have := ho.before 0 (by omega)
        omega
      subst ho0
      rw [if_neg (fun he => Bool.false_ne_true he.2.symm)] at halloc
      have hfree := h.reuse true (fun _ => 0) _ _ (by rw [halloc]; rfl) 0 rfl
      dsimp only at hfree
      omega

end jos.fs
