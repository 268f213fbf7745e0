-- The reference counts of a pipe. As long as every environment that has an Fd
-- page of the pipe has the data page too, the data page has at least as many
-- references as the two Fd pages together, and a pipe is not taken for closed.
-- `pipe`, `dup`, `close` and `exit` keep it so. `fork` and `spawn` map the Fd
-- pages first, and do not.
import Jos.Descriptors

namespace jos.descriptor

variable {ε : Type}

/-! ## Pages in pairs -/

/-- Where an Fd page of a pipe is, there is its data page. No Fd page of a pipe
lies among the data. -/
def Paired (ps : List PipePages) (m : Addr → Option Nat) : Prop :=
  ∀ p ∈ ps, ∀ i,
    (m (.fd i) = some p.read ∨ m (.fd i) = some p.write → m (.data i) = some p.data) ∧
    m (.data i) ≠ some p.read ∧ m (.data i) ≠ some p.write

/-- The page at `a` may be changed without care: it is an Fd page, or the data
page of a descriptor that is not open, or not a pipe yet. -/
def Loose (m : Addr → Option Nat) (own : Num → Prop) : Addr → Prop
  | .fd _ => True
  | .data i => m (.fd i) = none ∨ own i

/-- The page at `a` may be mapped at `b` as well. -/
def Copyable (m : Addr → Option Nat) (own : Num → Prop) : Addr → Addr → Prop
  | .fd i, .fd j => m (.data i) = none ∨ m (.data j) = m (.data i)
  | .data _, .data j => Loose m own (.data j)
  | _, _ => False

/-- The descriptors whose Fd page the environment has to itself, after a new page at `a`. -/
def gain (own : Num → Prop) : Addr → Num → Prop
  | .fd i => fun j => j = i ∨ own j
  | .data _ => own

/-- The same after a copy of a page to `b`. -/
def lose (own : Num → Prop) : Addr → Num → Prop
  | .fd _ => fun _ => False
  | .data _ => own

def Op.shares : Op ε → Bool
  | .share _ _ _ => true
  | _ => false

/-- The steps map nothing into a child. -/
def NoShare (ops : List (Op ε)) : Prop := ∀ op ∈ ops, op.shares = false

/-- Unmappings in an order that leaves no Fd page without its data page. -/
def OrderlyUndo (own : Num → Prop) : (Addr → Option Nat) → List Addr → Prop
  | _, [] => True
  | m, a :: as => Loose m own a ∧ OrderlyUndo own (Function.update m a none) as

/-- The steps of a call, in an order that keeps the pages of descriptors in pairs. The
pages of the environment are `m`, and `own` are its descriptors whose Fd page nobody
else has, and that are no pipes yet. -/
def Orderly : (Addr → Option Nat) → (Num → Prop) → List (Op ε) → Prop
  | _, _, [] => True
  | m, own, .unmap a :: rest =>
    Loose m own a ∧ NoShare rest ∧ Orderly (Function.update m a none) own rest
  | m, own, .alloc a :: rest =>
    Loose m own a ∧ NoShare rest ∧
      ∀ n, Orderly (Function.update m a (some n)) (gain own a) rest
  | m, own, .map must a b undo :: rest =>
    Copyable m own a b ∧ NoShare rest ∧ OrderlyUndo own m undo ∧
      (must = false → m a = none → Orderly m own rest) ∧
      ∀ n, m a = some n → Orderly (Function.update m b (some n)) (lose own b) rest
  | m, _, .share _ _ _ :: rest => Orderly m (fun _ => False) rest
  | m, own, .made i j :: rest =>
    i ≠ j ∧ own i ∧ own j ∧ m (.data i) = m (.data j) ∧ NoShare rest ∧
      Orderly m (fun _ => False) rest
  | m, own, .start _ :: rest => Orderly m own rest
  | _, _, .destroy :: _ => True
  | _, _, .free :: rest => rest = []

/-! ## The calls are orderly -/

section calls

variable {m : Addr → Option Nat} {own : Num → Prop}

theorem NoShare.append {ops ops' : List (Op ε)} (h : NoShare ops) (h' : NoShare ops') :
    NoShare (ops ++ ops') := fun op hop => (List.mem_append.mp hop).elim (h op) (h' op)

theorem noShare_unmaps (as : List Addr) : NoShare (as.map .unmap : List (Op ε)) := by
  intro op hop
  obtain ⟨b, -, rfl⟩ := List.mem_map.mp hop
  rfl

theorem noShare_of_all {ops : List (Op ε)} (h : ops.all (!·.shares) = true) : NoShare ops := by
  simpa [NoShare] using h

theorem orderly_undo {as : List Addr} (h : OrderlyUndo own m as) :
    Orderly m own (as.map .unmap : List (Op ε)) := by
  induction as generalizing m with
  | nil => trivial
  | cons a as ih => exact ⟨h.1, noShare_unmaps as, ih h.2⟩

theorem orderly_free_data {l : List Num} (hfd : ∀ i, m (.fd i) = none) :
    Orderly m own ((l.map .data).map .unmap ++ [.free] : List (Op ε)) := by
  induction l generalizing m with
  | nil => exact rfl
  | cons i l ih =>
    refine ⟨.inl (hfd i), (noShare_unmaps _).append (noShare_of_all rfl), ih fun j => ?_⟩
    rw [Function.update_of_ne Addr.noConfusion]
    exact hfd j

theorem orderly_env_free (m : Addr → Option Nat) :
    Orderly m own (env_free : List (Op ε)) := by
  have hfds : ∀ (l : List Num) (m : Addr → Option Nat), (∀ i, i ∈ l ∨ m (.fd i) = none) →
      Orderly m own ((l.map .fd).map .unmap ++
        (((List.finRange MAXFD).map .data).map .unmap ++ [.free]) : List (Op ε)) := by
    intro l
    induction l with
    | nil => exact fun m hfd => orderly_free_data fun i => (hfd i).resolve_left List.not_mem_nil
    | cons i l ih =>
      intro m hfd
      refine ⟨trivial, (noShare_unmaps _).append ((noShare_unmaps _).append (noShare_of_all rfl)),
        ih _ fun j => ?_⟩
      by_cases hj : j = i
      · right
        rw [hj, Function.update_self]
      · rcases hfd j with hmem | hnone
        · exact .inl ((List.mem_cons.mp hmem).resolve_left hj)
        · right
          rwa [Function.update_of_ne fun heq => hj (Addr.fd.inj heq)]
  rw [env_free, area, List.map_append, List.append_assoc]
  exact hfds _ m fun i => .inl (List.mem_finRange i)

theorem noShare_close (ps : List PipePages) (m : Addr → Option Nat) (i : Num) :
    NoShare (close ps m i : List (Op ε)) := by
  unfold close
  split
  · exact noShare_of_all rfl
  · split <;> exact noShare_of_all rfl

theorem orderly_close {ps : List PipePages} {m₀ : Addr → Option Nat} {i : Num}
    {rest : List (Op ε)} (hrest : NoShare rest)
    (h : ∀ m', (m (.fd i) = m₀ (.fd i) → m' (.fd i) = none) → Orderly m' own rest) :
    Orderly m own (close ps m₀ i ++ rest) := by
  unfold close
  split
  · exact h m fun hsame => hsame.trans ‹_›
  · have hlast : ∀ m, Orderly m own (.unmap (.fd i) :: rest) := fun m =>
      ⟨trivial, hrest, h _ fun _ => Function.update_self ..⟩
    have hshare : NoShare (.unmap (.fd i) :: rest) := List.forall_mem_cons.mpr ⟨rfl, hrest⟩
    split
    · exact ⟨trivial, List.forall_mem_cons.mpr ⟨rfl, hshare⟩, .inl (Function.update_self ..),
        hshare,
        hlast _⟩
    · exact hlast m

theorem noShare_env_free : NoShare (env_free : List (Op ε)) :=
  (noShare_unmaps _).append (noShare_of_all rfl)

theorem noShare_exit (ps : List PipePages) (m : Addr → Option Nat) :
    NoShare (exit ps m : List (Op ε)) := by
  refine NoShare.append (fun op hop => ?_) (noShare_of_all rfl)
  obtain ⟨i, -, hop⟩ := List.mem_flatMap.mp hop
  exact noShare_close ps m i op hop

theorem noShare_dup (ps : List PipePages) (m : Addr → Option Nat) (old new : Num) :
    NoShare (dup ps m old new : List (Op ε)) := by
  unfold dup
  split
  · exact noShare_of_all rfl
  · exact (noShare_close ps m new).append (noShare_of_all rfl)

theorem noShare_pipe (m : Addr → Option Nat) : NoShare (pipe m : List (Op ε)) := by
  unfold pipe
  split
  · exact noShare_of_all rfl
  · split <;> exact noShare_of_all rfl

theorem shareAll_child {c c' : ε} {a : Addr} {b panics : Bool}
    (h : .share c' a b ∈ shareAll c panics) : c' = c := by
  rcases List.mem_append.mp h with h | h
  · obtain ⟨a', -, heq⟩ := List.mem_map.mp h
    cases heq
    rfl
  · cases List.mem_singleton.mp h

theorem orderly_exit (ps : List PipePages) (m₀ m : Addr → Option Nat) :
    Orderly m own (exit ps m₀ : List (Op ε)) := by
  unfold exit
  induction List.finRange MAXFD generalizing m with
  | nil => trivial
  | cons i l ih =>
    rw [List.flatMap_cons, List.append_assoc]
    refine orderly_close (NoShare.append (fun op hop => ?_) (noShare_of_all rfl)) fun m' _ => ih m'
    obtain ⟨j, -, hop⟩ := List.mem_flatMap.mp hop
    exact noShare_close ps m₀ j op hop

theorem orderly_dup (ps : List PipePages) (m : Addr → Option Nat) (old new : Num) :
    Orderly m own (dup ps m old new : List (Op ε)) := by
  unfold dup
  split
  · trivial
  refine orderly_close (noShare_of_all rfl) fun m' hclosed => ?_
  have hnone : m' (.fd new) = none := hclosed rfl
  have hundo : ∀ m'' : Addr → Option Nat, ∀ own', OrderlyUndo own' m'' [.fd new, .data new] :=
    fun m'' own' => ⟨trivial, .inl (Function.update_self ..), trivial⟩
  refine ⟨.inl hnone, noShare_of_all rfl, hundo _ _, fun _ habsent => ?_, fun n hn => ?_⟩
  · exact ⟨.inl habsent, noShare_of_all rfl, hundo _ _, fun h => Bool.noConfusion h,
      fun _ _ => trivial⟩
  · refine ⟨.inr ?_, noShare_of_all rfl, hundo _ _, fun h => Bool.noConfusion h, fun _ _ => trivial⟩
    rw [Function.update_self]
    by_cases hold : old = new
    · rw [hold, Function.update_self]
    · rw [Function.update_of_ne fun heq => hold (Addr.data.inj heq), hn]

theorem orderly_shareAll (m : Addr → Option Nat) (child : ε) (panics : Bool) :
    Orderly m own (shareAll child panics) := by
  unfold shareAll
  induction area generalizing own with
  | nil => trivial
  | cons a l ih => exact ih

theorem fd_alloc_none {i : Num} (h : fd_alloc m = some i) : m (.fd i) = none := by
  simpa using List.find?_some h

theorem orderly_pipe (m : Addr → Option Nat) : Orderly m own (pipe m : List (Op ε)) := by
  unfold pipe
  split
  · trivial
  · rename_i i hi
    split
    · exact ⟨trivial, noShare_of_all rfl, fun n => ⟨trivial, noShare_of_all rfl, trivial⟩⟩
    · rename_i j hj
      have hne : i ≠ j := by
        rintro rfl
        have hnone := fd_alloc_none hj
        rw [Function.update_self] at hnone
        cases hnone
      refine ⟨trivial, noShare_of_all rfl, fun r => ⟨trivial, noShare_of_all rfl, fun w =>
        ⟨.inr (.inr (.inl rfl)), noShare_of_all rfl, fun d => ?_⟩⟩⟩
      refine ⟨.inr (.inl rfl), noShare_of_all rfl,
        ⟨.inr (.inr (.inl rfl)), trivial, trivial, trivial⟩, fun h => Bool.noConfusion h,
        fun n hn => ?_⟩
      refine ⟨hne, .inr (.inl rfl), .inl rfl, ?_, noShare_of_all rfl, trivial⟩
      rw [Function.update_self, Function.update_of_ne fun heq => hne (Addr.data.inj heq), hn]

end calls

/-! ## Pairs after a change -/

section

variable {ps : List PipePages} {m : Addr → Option Nat} {j : Num} {o : Option Nat}

theorem Paired.setFd (h : Paired ps m)
    (ho : ∀ p ∈ ps, o = some p.read ∨ o = some p.write → m (.data j) = some p.data) :
    Paired ps (Function.update m (.fd j) o) := by
  intro p hp i
  rw [Function.update_of_ne (Addr.noConfusion : Addr.data i ≠ .fd j)]
  refine ⟨?_, (h p hp i).2⟩
  by_cases hi : i = j
  · rw [hi, Function.update_self]
    exact ho p hp
  · rw [Function.update_of_ne fun heq => hi (Addr.fd.inj heq)]
    exact (h p hp i).1

theorem Paired.setData (h : Paired ps m)
    (hfd : ∀ p ∈ ps, m (.fd j) = some p.read ∨ m (.fd j) = some p.write → o = some p.data)
    (ho : ∀ p ∈ ps, o ≠ some p.read ∧ o ≠ some p.write) :
    Paired ps (Function.update m (.data j) o) := by
  intro p hp i
  rw [Function.update_of_ne (Addr.noConfusion : Addr.fd i ≠ .data j)]
  by_cases hi : i = j
  · rw [hi, Function.update_self]
    exact ⟨hfd p hp, ho p hp⟩
  · rw [Function.update_of_ne fun heq => hi (Addr.data.inj heq)]
    exact h p hp i

/-- No descriptor of `own` is an end of a pipe. -/
def Unmade (ps : List PipePages) (m : Addr → Option Nat) (own : Num → Prop) : Prop :=
  ∀ i, own i → ∀ p ∈ ps, m (.fd i) ≠ some p.read ∧ m (.fd i) ≠ some p.write

variable {own : Num → Prop} {a b : Addr}

/-- A page that is no Fd page of a pipe may go where `Loose` allows it, and so may none. -/
theorem Paired.setLoose (h : Paired ps m) (hl : Loose m own a) (hu : Unmade ps m own)
    (ho : ∀ p ∈ ps, o ≠ some p.read ∧ o ≠ some p.write) : Paired ps (Function.update m a o) := by
  cases a with
  | fd j => exact h.setFd fun p hp hor => absurd hor (not_or.mpr (ho p hp))
  | data j =>
    refine h.setData (fun p hp hor => ?_) ho
    rcases hl with hnone | hown
    · rw [hnone] at hor
      rcases hor with hor | hor <;> cases hor
    · exact absurd hor (not_or.mpr (hu j hown p hp))

theorem Paired.copy (h : Paired ps m) (hc : Copyable m own a b) (hu : Unmade ps m own) {n : Nat}
    (hn : m a = some n) : Paired ps (Function.update m b (some n)) := by
  cases a with
  | fd i =>
    cases b with
    | fd j =>
      refine h.setFd fun p hp hor => ?_
      rw [← hn] at hor
      have hdata := (h p hp i).1 hor
      rcases hc with hnone | hsame
      · rw [hnone] at hdata
        cases hdata
      · rw [hsame, hdata]
    | data j => exact hc.elim
  | data i =>
    cases b with
    | fd j => exact hc.elim
    | data j =>
      refine h.setLoose hc hu fun p hp => ?_
      rw [← hn]
      exact (h p hp i).2

end

/-! ## The invariant -/

/-- Nobody else has the Fd page of the descriptor, and it is no pipe yet. -/
def Own (s : State ε) (e : ε) (i : Num) : Prop :=
  ∀ n, s.maps e (.fd i) = some n →
    (∀ x a, s.maps x a = some n → x = e ∧ a = .fd i) ∧ ∀ p ∈ s.pipes, n ≠ p.read ∧ n ≠ p.write

structure Kept (s : State ε) : Prop where
  paired : ∀ e, Paired s.pipes (s.maps e)
  apart : ∀ p ∈ s.pipes, p.read ≠ p.write
  mapped : ∀ e a n, s.maps e a = some n → n < s.next
  made : ∀ p ∈ s.pipes, p.read < s.next ∧ p.write < s.next
  calls : ∀ e, ∃ own, Orderly (s.maps e) own (s.todo e) ∧ ∀ i, own i → Own s e i
  still : ∀ e, s.status e ≠ .live → s.status e ≠ .dying → s.todo e = []
  -- a child has no Fd pages but those of its parent
  child : ∀ e c a b, .share c a b ∈ s.todo e → s.status c = .child e → ∀ i,
    s.maps c (.fd i) = none ∨ s.maps c (.fd i) = s.maps e (.fd i)

theorem Own.unmade {s : State ε} {e : ε} {own : Num → Prop} (h : ∀ i, own i → Own s e i) :
    Unmade s.pipes (s.maps e) own := by
  intro i hi p hp
  refine ⟨fun heq => ?_, fun heq => ?_⟩
  · exact ((h i hi _ heq).2 p hp).1 rfl
  · exact ((h i hi _ heq).2 p hp).2 rfl

section

variable [DecidableEq ε] {s : State ε} {e : ε}

/-- `s'` is `s` with other pages and steps for environment `e`. -/
structure Acts (s : State ε) (e : ε) (m : Addr → Option Nat) (ops : List (Op ε))
    (s' : State ε) : Prop where
  maps : s'.maps = Function.update s.maps e m
  todo : s'.todo = Function.update s.todo e ops
  status : s'.status = s.status
  pipes : s'.pipes = s.pipes

variable {m : Addr → Option Nat} {ops : List (Op ε)} {s' : State ε}

theorem Acts.maps_self (h : Acts s e m ops s') : s'.maps e = m := by
  rw [h.maps, Function.update_self]

theorem Acts.maps_ne (h : Acts s e m ops s') {x : ε} (hx : x ≠ e) : s'.maps x = s.maps x := by
  rw [h.maps, Function.update_of_ne hx]

theorem Acts.todo_self (h : Acts s e m ops s') : s'.todo e = ops := by
  rw [h.todo, Function.update_self]

theorem Acts.todo_ne (h : Acts s e m ops s') {x : ε} (hx : x ≠ e) : s'.todo x = s.todo x := by
  rw [h.todo, Function.update_of_ne hx]

/-- A step of an environment that changes no pages but its own. Those that it maps
are its own pages or new ones. -/
theorem Kept.act (h : Kept s) (hact : Acts s e m ops s') {own : Num → Prop}
    (hst : s.status e = .live ∨ s.status e = .dying) (hk : s.next ≤ s'.next)
    (hpaired : Paired s.pipes m)
    (hpages : ∀ a n, m a = some n → (∃ b, s.maps e b = some n) ∨ (s.next ≤ n ∧ n < s'.next))
    (hshare : NoShare ops ∨ m = s.maps e ∧ ∀ op ∈ ops, op ∈ s.todo e) (hord : Orderly m own ops)
    (hown : ∀ i, own i → Own s' e i) : Kept s' := by
  have hnot : ∀ x, s.status e ≠ .child x := by
    intro x heq
    rw [heq] at hst
    rcases hst with hst | hst <;> cases hst
  refine ⟨fun x => ?_, hact.pipes ▸ h.apart, fun x a n hn => ?_, fun p hp => ?_, fun x => ?_,
    fun x hl hd => ?_, fun x c a b hop hc i => ?_⟩
  · rw [hact.pipes]
    by_cases hx : x = e
    · rwa [hx, hact.maps_self]
    · rw [hact.maps_ne hx]
      exact h.paired x
  · by_cases hx : x = e
    · rw [hx, hact.maps_self] at hn
      rcases hpages a n hn with ⟨b, hb⟩ | hnew
      · exact lt_of_lt_of_le (h.mapped e b n hb) hk
      · exact hnew.2
    · rw [hact.maps_ne hx] at hn
      exact lt_of_lt_of_le (h.mapped x a n hn) hk
  · rw [hact.pipes] at hp
    exact ⟨lt_of_lt_of_le (h.made p hp).1 hk, lt_of_lt_of_le (h.made p hp).2 hk⟩
  · by_cases hx : x = e
    · subst hx
      rw [hact.maps_self, hact.todo_self]
      exact ⟨own, hord, hown⟩
    · obtain ⟨own', hord', hown'⟩ := h.calls x
      rw [hact.maps_ne hx, hact.todo_ne hx]
      refine ⟨own', hord', fun i hi n hn => ?_⟩
      rw [hact.maps_ne hx] at hn
      rw [hact.pipes]
      refine ⟨fun y a hy => ?_, (hown' i hi n hn).2⟩
      by_cases hye : y = e
      · rw [hye, hact.maps_self] at hy
        rcases hpages a n hy with ⟨b, hb⟩ | hnew
        · exact absurd ((hown' i hi n hn).1 e b hb).1 (Ne.symm hx)
        · exact absurd (h.mapped x _ n hn) (not_lt.mpr hnew.1)
      · rw [hact.maps_ne hye] at hy
        exact (hown' i hi n hn).1 y a hy
  · rw [hact.status] at hl hd
    by_cases hx : x = e
    · rw [hx] at hl hd
      exact (hst.elim hl hd).elim
    · rw [hact.todo_ne hx]
      exact h.still x hl hd
  · rw [hact.status] at hc
    have hce : c ≠ e := fun heq => hnot x (heq ▸ hc)
    by_cases hx : x = e
    · subst hx
      rw [hact.todo_self] at hop
      rw [hact.maps_ne hce, hact.maps_self]
      rcases hshare with hnone | ⟨hsame, hsub⟩
      · exact absurd (hnone _ hop) Bool.noConfusion
      · rw [hsame]
        exact h.child x c a b (hsub _ hop) hc i
    · rw [hact.todo_ne hx] at hop
      rw [hact.maps_ne hce, hact.maps_ne hx]
      exact h.child x c a b hop hc i

/-- A step of an environment that changes no pages. -/
theorem Kept.setTodo (h : Kept s) {own : Num → Prop}
    (hst : s.status e = .live ∨ s.status e = .dying)
    (hshare : NoShare ops ∨ ∀ op ∈ ops, op ∈ s.todo e) (hord : Orderly (s.maps e) own ops)
    (hown : ∀ i, own i → Own s e i) : Kept (s.setTodo e ops) :=
  h.act ⟨(Function.update_eq_self e s.maps).symm, rfl, rfl, rfl⟩ hst le_rfl (h.paired e)
    (fun a _ hn => .inl ⟨a, hn⟩) (hshare.imp_right fun hsub => ⟨rfl, hsub⟩) hord hown

theorem Kept.setStatus (h : Kept s) {c : ε} {st : Status ε}
    (hst : st = .live ∨ st = .dying ∨ st = .free ∧ s.todo c = []) : Kept (s.setStatus c st) where
  paired := h.paired
  apart := h.apart
  mapped := h.mapped
  made := h.made
  calls := h.calls
  still x hl hd := by
    by_cases hx : x = c
    · subst hx
      simp only [State.setStatus, Function.update_self] at hl hd
      rcases hst with hst | hst | hst
      · exact absurd hst hl
      · exact absurd hst hd
      · exact hst.2
    · simp only [State.setStatus, Function.update_of_ne hx] at hl hd
      exact h.still x hl hd
  child x c' a b hop hc := by
    by_cases hx : c' = c
    · simp only [State.setStatus, hx, Function.update_self] at hc
      rw [hc] at hst
      rcases hst with hst | hst | ⟨hst, -⟩ <;> cases hst
    · simp only [State.setStatus, Function.update_of_ne hx] at hc
      exact h.child x c' a b hop hc

theorem Kept.dying (h : Kept s) : Kept ((s.setStatus e .dying).setTodo e env_free) :=
  (h.setStatus (.inr (.inl rfl))).setTodo (.inr (Function.update_self ..)) (.inl noShare_env_free)
    (orderly_env_free _ : Orderly _ (fun _ => False) _) fun _ hi => hi.elim

/-! ## Steps of a call -/

variable {op : Op ε} {rest : List (Op ε)} {a b : Addr}

omit [DecidableEq ε] in
theorem Kept.running (h : Kept s) (htodo : s.todo e = op :: rest) :
    s.status e = .live ∨ s.status e = .dying := by
  by_contra hno
  rw [not_or] at hno
  rw [h.still e hno.1 hno.2] at htodo
  cases htodo

omit [DecidableEq ε] in
theorem Own.mono {i : Num} (h : Own s e i)
    (hsub : ∀ x a n, s'.maps x a = some n → s.maps x a = some n)
    (hpipes : s'.pipes = s.pipes) : Own s' e i := by
  intro n hn
  have hold := h n (hsub e _ n hn)
  exact ⟨fun x a hx => hold.1 x a (hsub x a n hx), hpipes ▸ hold.2⟩

theorem update_none_some {f : Addr → Option Nat} {n : Nat}
    (h : Function.update f a none b = some n) : f b = some n := by
  by_cases hb : b = a
  · rw [hb, Function.update_self] at h
    cases h
  · rwa [Function.update_of_ne hb] at h

theorem setPage_none_some {x : ε} {n : Nat} (h : (s.setPage e a none).maps x b = some n) :
    s.maps x b = some n := by
  by_cases hx : x = e
  · subst hx
    simp only [State.setPage, Function.update_self] at h
    exact update_none_some h
  · simp only [State.setPage, Function.update_of_ne hx] at h
    exact h

theorem Kept.unmap (h : Kept s) (htodo : s.todo e = .unmap a :: rest) :
    Kept ((s.setPage e a none).setTodo e rest) := by
  obtain ⟨own, hord, hown⟩ := h.calls e
  rw [htodo] at hord
  obtain ⟨hloose, hshare, hord⟩ := hord
  refine h.act ⟨rfl, rfl, rfl, rfl⟩ (h.running htodo) le_rfl ?_ ?_ (.inl hshare) hord fun i hi => ?_
  · exact (h.paired e).setLoose hloose (Own.unmade hown) fun p _ => ⟨nofun, nofun⟩
  · exact fun b n hn => .inl ⟨b, update_none_some hn⟩
  · exact (hown i hi).mono (fun x b n => setPage_none_some) rfl

/-- A page of environment `e` is mapped at `b` too, or a new page is. -/
theorem setPage_some {x : ε} {n n' : Nat} {c : Addr}
    (h : (s.setPage e b (some n')).maps x c = some n) :
    s.maps x c = some n ∨ x = e ∧ c = b ∧ n = n' := by
  by_cases hx : x = e
  · subst hx
    simp only [State.setPage, Function.update_self] at h
    by_cases hc : c = b
    · rw [hc, Function.update_self] at h
      exact .inr ⟨rfl, hc, (Option.some.inj h).symm⟩
    · rw [Function.update_of_ne hc] at h
      exact .inl h
  · simp only [State.setPage, Function.update_of_ne hx] at h
    exact .inl h

theorem Kept.alloc (h : Kept s) (htodo : s.todo e = .alloc a :: rest) :
    Kept { (s.setPage e a (some s.next)).setTodo e rest with next := s.next + 1 } := by
  obtain ⟨own, hord, hown⟩ := h.calls e
  rw [htodo] at hord
  obtain ⟨hloose, hshare, hord⟩ := hord
  have hnew : ∀ p ∈ s.pipes, some s.next ≠ some p.read ∧ some s.next ≠ some p.write := by
    intro p hp
    have hmade := h.made p hp
    simp only [ne_eq, Option.some.injEq]
    omega
  refine h.act ⟨rfl, rfl, rfl, rfl⟩ (h.running htodo) (Nat.le_succ _) ?_ (fun b n hn => ?_)
    (.inl hshare) (hord s.next) fun i hi n hn => ?_
  · exact (h.paired e).setLoose hloose (Own.unmade hown) hnew
  · by_cases hb : b = a
    · rw [hb, Function.update_self] at hn
      obtain rfl := Option.some.inj hn
      exact .inr ⟨le_rfl, Nat.lt_succ_self _⟩
    · rw [Function.update_of_ne hb] at hn
      exact .inl ⟨b, hn⟩
  · rcases setPage_some hn with hold | ⟨-, rfl, rfl⟩
    · -- a descriptor from before
      have hi' : own i := by
        cases a with
        | fd j =>
          refine hi.resolve_left fun hij => ?_
          simp only [State.setTodo, State.setPage, Function.update_self, hij] at hn
          exact absurd (h.mapped e _ n hold) (by rw [← Option.some.inj hn]; exact lt_irrefl _)
        | data j => exact hi
      refine ⟨fun x c hx => ?_, (hown i hi' n hold).2⟩
      rcases setPage_some hx with hx | ⟨-, -, rfl⟩
      · exact (hown i hi' n hold).1 x c hx
      · exact absurd (h.mapped e _ _ hold) (lt_irrefl _)
    · refine ⟨fun x c hx => ?_, fun p hp => ?_⟩
      · rcases setPage_some hx with hx | ⟨hxe, hc, -⟩
        · exact absurd (h.mapped x c _ hx) (lt_irrefl _)
        · exact ⟨hxe, hc⟩
      · have hmade := h.made p hp
        omega

theorem Kept.undo (h : Kept s) {must : Bool} {undo : List Addr}
    (htodo : s.todo e = .map must a b undo :: rest) : Kept (s.setTodo e (undo.map .unmap)) := by
  obtain ⟨own, hord, hown⟩ := h.calls e
  rw [htodo] at hord
  exact h.setTodo (h.running htodo) (.inl (noShare_unmaps _)) (orderly_undo hord.2.2.1) hown

theorem Kept.map (h : Kept s) {must : Bool} {undo : List Addr} {n : Nat}
    (htodo : s.todo e = .map must a b undo :: rest) (hn : s.maps e a = some n) :
    Kept ((s.setPage e b (some n)).setTodo e rest) := by
  obtain ⟨own, hord, hown⟩ := h.calls e
  rw [htodo] at hord
  obtain ⟨hcopy, hshare, -, -, hord⟩ := hord
  refine h.act ⟨rfl, rfl, rfl, rfl⟩ (h.running htodo) le_rfl ?_ (fun c k hk => ?_) (.inl hshare)
    (hord n hn) fun i hi k hk => ?_
  · exact (h.paired e).copy hcopy (Own.unmade hown) hn
  · by_cases hc : c = b
    · rw [hc, Function.update_self, ← hn] at hk
      exact .inl ⟨a, hk⟩
    · rw [Function.update_of_ne hc] at hk
      exact .inl ⟨c, hk⟩
  · -- only data pages are copied while a descriptor is being made
    cases b with
    | fd j => exact hi.elim
    | data j =>
      have hold : s.maps e (.fd i) = some k :=
        (setPage_some hk).resolve_right fun hnew => Addr.noConfusion hnew.2.1
      refine ⟨fun x c hx => ?_, (hown i hi k hold).2⟩
      rcases setPage_some hx with hx | ⟨-, -, rfl⟩
      · exact (hown i hi k hold).1 x c hx
      · have hfd := ((hown i hi _ hold).1 e a hn).2
        rw [hfd] at hcopy
        exact hcopy.elim

/-- A page of the parent is mapped into the child. An Fd page of a pipe comes after
the data page. -/
theorem Kept.give (h : Kept s) {c : ε} {panics : Bool} {n : Nat}
    (htodo : s.todo e = .share c a panics :: rest) (hc : s.status c = .child e)
    (hn : s.maps e a = some n)
    (hfirst : ∀ i, a = .fd i → ∀ p ∈ s.pipes, n = p.read ∨ n = p.write →
      s.maps c (.data i) = some p.data) : Kept (s.setPage c a (some n)) := by
  have hmem : .share c a panics ∈ s.todo e := by
    rw [htodo]
    exact List.mem_cons_self
  have hidle : s.todo c = [] := h.still c (by rw [hc]; nofun) (by rw [hc]; nofun)
  refine ⟨fun x => ?_, h.apart, fun x b k hk => ?_, h.made, fun x => ?_, h.still,
    fun x c' a' b' hop hc' i => ?_⟩
  · by_cases hx : x = c
    · subst hx
      simp only [State.setPage, Function.update_self]
      cases a with
      | fd i =>
        refine (h.paired x).setFd fun p hp hor => hfirst i rfl p hp ?_
        exact hor.imp Option.some.inj Option.some.inj
      | data i =>
        refine (h.paired x).setData (fun p hp hor => ?_) fun p hp => ?_
        · rcases h.child e x _ _ hmem hc i with hnone | hsame
          · rw [hnone] at hor
            rcases hor with hor | hor <;> cases hor
          · rw [hsame] at hor
            rw [← hn]
            exact (h.paired e p hp i).1 hor
        · rw [← hn]
          exact (h.paired e p hp i).2
    · simp only [State.setPage, Function.update_of_ne hx]
      exact h.paired x
  · rcases setPage_some hk with hk | ⟨-, -, rfl⟩
    · exact h.mapped x b k hk
    · exact h.mapped e a _ hn
  · -- neither the child nor its parent is making a pipe
    by_cases hx : x = c ∨ x = e
    · refine ⟨fun _ => False, ?_, fun _ hi => hi.elim⟩
      rcases hx with rfl | rfl
      · simp only [State.setPage, hidle]
        trivial
      · obtain ⟨own, hord, -⟩ := h.calls x
        have hxc : x ≠ c := fun heq => by
          rw [heq, hidle] at htodo
          cases htodo
        simp only [State.setPage, Function.update_of_ne hxc, htodo] at hord ⊢
        exact hord
    · rw [not_or] at hx
      obtain ⟨own, hord, hown⟩ := h.calls x
      simp only [State.setPage, Function.update_of_ne hx.1]
      refine ⟨own, hord, fun i hi k hk => ?_⟩
      rcases setPage_some hk with hold | ⟨hxc, -⟩
      · refine ⟨fun y b hy => ?_, (hown i hi k hold).2⟩
        rcases setPage_some hy with hy | ⟨-, -, rfl⟩
        · exact (hown i hi k hold).1 y b hy
        · exact absurd ((hown i hi _ hold).1 e a hn).1 (Ne.symm hx.2)
      · exact absurd hxc hx.1
  · have hop : .share c' a' b' ∈ s.todo x := hop
    have hxc : x ≠ c := fun heq => by
      rw [heq, hidle] at hop
      cases hop
    have hold := h.child x c' a' b' hop hc' i
    simp only [State.setPage, Function.update_of_ne hxc]
    by_cases hcc : c' = c
    · subst hcc
      obtain rfl : e = x := Status.child.inj (hc.symm.trans hc')
      rw [Function.update_self]
      by_cases hai : a = .fd i
      · rw [hai, Function.update_self]
        exact .inr (hai ▸ hn).symm
      · rwa [Function.update_of_ne (Ne.symm hai)]
    · rwa [Function.update_of_ne hcc]

theorem Kept.skip (h : Kept s) {c : ε} {panics : Bool}
    (htodo : s.todo e = .share c a panics :: rest) : Kept (s.setTodo e rest) := by
  obtain ⟨own, hord, -⟩ := h.calls e
  rw [htodo] at hord
  refine h.setTodo (h.running htodo) (.inr fun op hop => ?_) hord fun _ hi => hi.elim
  rw [htodo]
  exact List.mem_cons_of_mem _ hop

theorem Kept.pipe (h : Kept s) {i j : Num} {r w d : Nat} (htodo : s.todo e = .made i j :: rest)
    (hr : s.maps e (.fd i) = some r) (hw : s.maps e (.fd j) = some w)
    (hd : s.maps e (.data i) = some d) :
    Kept { s.setTodo e rest with pipes := ⟨r, w, d⟩ :: s.pipes } := by
  obtain ⟨own, hord, hown⟩ := h.calls e
  rw [htodo] at hord
  obtain ⟨hne, hi, hj, hsame, hshare, hord⟩ := hord
  have hrest : Kept (s.setTodo e rest) :=
    h.setTodo (h.running htodo) (.inl hshare) hord fun _ hi => hi.elim
  have honlyr := (hown i hi r hr).1
  have honlyw := (hown j hj w hw).1
  refine { hrest with paired := ?_, apart := ?_, made := ?_, calls := fun x => ?_ }
  · intro x p hp k
    rcases List.mem_cons.mp hp with rfl | hp
    · refine ⟨fun hor => ?_, fun heq => ?_, fun heq => ?_⟩
      · rcases hor with hor | hor
        · obtain ⟨rfl, hk⟩ := honlyr x _ hor
          rw [Addr.fd.inj hk]
          exact hd
        · obtain ⟨rfl, hk⟩ := honlyw x _ hor
          rw [Addr.fd.inj hk]
          exact hsame.symm.trans hd
      · exact Addr.noConfusion (honlyr x _ heq).2
      · exact Addr.noConfusion (honlyw x _ heq).2
    · exact h.paired x p hp k
  · intro p hp
    rcases List.mem_cons.mp hp with rfl | hp
    · intro heq
      have hfd := (honlyr e (.fd j) (hw.trans (congrArg some heq.symm))).2
      exact hne (Addr.fd.inj hfd).symm
    · exact h.apart p hp
  · intro p hp
    rcases List.mem_cons.mp hp with rfl | hp
    · exact ⟨h.mapped e _ r hr, h.mapped e _ w hw⟩
    · exact h.made p hp
  · by_cases hx : x = e
    · subst hx
      refine ⟨fun _ => False, ?_, fun _ hi => hi.elim⟩
      simp only [State.setTodo, Function.update_self]
      exact hord
    · obtain ⟨own', hord', hown'⟩ := hrest.calls x
      refine ⟨own', hord', fun k hk n hn => ⟨(hown' k hk n hn).1, fun p hp => ?_⟩⟩
      rcases List.mem_cons.mp hp with rfl | hp
      · refine ⟨fun heq => ?_, fun heq => ?_⟩
        · exact hx ((hown' k hk n hn).1 e (.fd i) (hr.trans (congrArg some heq.symm))).1.symm
        · exact hx ((hown' k hk n hn).1 e (.fd j) (hw.trans (congrArg some heq.symm))).1.symm
      · exact (hown' k hk n hn).2 p hp

theorem Kept.startChild (h : Kept s) {c : ε} {panics : Bool} (hready : s.ready e)
    (hfree : s.status c = .free) : Kept (startChild s e c panics) := by
  have hidle : s.todo c = [] := h.still c (by rw [hfree]; nofun) (by rw [hfree]; nofun)
  have hce : c ≠ e := fun heq => by
    rw [heq, hready.1] at hfree
    cases hfree
  have hsub : ∀ x a n, (descriptor.startChild s e c panics).maps x a = some n →
      s.maps x a = some n := by
    intro x a n hn
    by_cases hx : x = c
    · simp only [descriptor.startChild, hx, Function.update_self] at hn
      cases hn
    · simpa only [descriptor.startChild, Function.update_of_ne hx] using hn
  refine ⟨fun x p hp i => ⟨fun hor => ?_, fun heq => ?_, fun heq => ?_⟩, h.apart,
    fun x a n hn => h.mapped x a n (hsub x a n hn), h.made, fun x => ?_, fun x hl hd => ?_,
    fun x c' a b hop hc' i => ?_⟩
  · have hx : x ≠ c := fun heq => by
      simp only [descriptor.startChild, heq, Function.update_self] at hor
      rcases hor with hor | hor <;> cases hor
    simp only [descriptor.startChild, Function.update_of_ne hx] at hor ⊢
    exact (h.paired x p hp i).1 hor
  · exact (h.paired x p hp i).2.1 (hsub x _ _ heq)
  · exact (h.paired x p hp i).2.2 (hsub x _ _ heq)
  · by_cases hx : x = e
    · refine ⟨fun _ => False, ?_, fun _ hi => hi.elim⟩
      simp only [descriptor.startChild, State.setTodo, hx, Function.update_self]
      exact orderly_shareAll ..
    · obtain ⟨own, hord, hown⟩ := h.calls x
      by_cases hxc : x = c
      · refine ⟨fun _ => False, ?_, fun _ hi => hi.elim⟩
        simp only [descriptor.startChild, State.setTodo, State.setStatus, Function.update_of_ne hx,
          hxc ▸ hidle]
        trivial
      · refine ⟨own, ?_, fun i hi => (hown i hi).mono hsub rfl⟩
        simp only [descriptor.startChild, State.setTodo, State.setStatus, Function.update_of_ne hx,
          Function.update_of_ne hxc]
        exact hord
  · have hxe : x ≠ e := fun heq => by
      simp only [descriptor.startChild, State.setTodo, State.setStatus, heq,
        Function.update_of_ne (Ne.symm hce)] at hl
      exact hl hready.1
    simp only [descriptor.startChild, State.setTodo, State.setStatus,
      Function.update_of_ne hxe] at hl hd ⊢
    by_cases hxc : x = c
    · rw [hxc, hidle]
    · rw [Function.update_of_ne hxc] at hl hd
      exact h.still x hl hd
  · simp only [descriptor.startChild, State.setTodo, State.setStatus] at hop hc' ⊢
    by_cases hcc : c' = c
    · left
      rw [hcc, Function.update_self]
    · rw [Function.update_of_ne hcc] at hc'
      have hxe : x ≠ e := fun heq => by
        rw [heq, Function.update_self] at hop
        exact hcc (shareAll_child hop)
      rw [Function.update_of_ne hxe] at hop
      have hxc : x ≠ c := fun heq => by
        rw [heq, hidle] at hop
        cases hop
      rw [Function.update_of_ne hcc, Function.update_of_ne hxc]
      exact h.child x c' a b hop hc' i

/-! ## Every step -/

/-- The descriptor whose Fd page the next step maps into a child. -/
def nextFd : List (Op ε) → Option (ε × Num)
  | .share c (.fd i) _ :: _ => some (c, i)
  | _ => none

/-- Where an Fd page of a pipe is mapped into a child, the data page is there already. -/
def DataFirst (s : State ε) : Event ε → Prop
  | .next e _ => ∀ x ∈ nextFd (s.todo e), s.status x.1 = .child e → ∀ p ∈ s.pipes,
      s.maps e (.fd x.2) = some p.read ∨ s.maps e (.fd x.2) = some p.write →
        s.maps x.1 (.data x.2) = some p.data
  | _ => True

instance (s : State ε) : ∀ ev, Decidable (DataFirst s ev)
  | .next e _ => inferInstanceAs (Decidable (∀ x ∈ nextFd (s.todo e), s.status x.1 = .child e →
      ∀ p ∈ s.pipes, s.maps e (.fd x.2) = some p.read ∨ s.maps e (.fd x.2) = some p.write →
        s.maps x.1 (.data x.2) = some p.data))
  | .pipe _ => .isTrue trivial
  | .close _ _ => .isTrue trivial
  | .dup _ _ _ => .isTrue trivial
  | .fork _ _ => .isTrue trivial
  | .spawn _ _ => .isTrue trivial
  | .exit _ => .isTrue trivial
  | .kill _ => .isTrue trivial

theorem Kept.exec (h : Kept s) {room : Bool} (htodo : s.todo e = op :: rest)
    (hfirst : DataFirst s (.next e room)) (hs : exec s e room op rest = some s') : Kept s' := by
  cases op with
  | unmap a =>
    cases hs
    exact h.unmap htodo
  | alloc a =>
    simp only [descriptor.exec] at hs
    split at hs
    · cases hs
      exact h.alloc htodo
    · cases hs
  | map must a b undo =>
    simp only [descriptor.exec] at hs
    split at hs
    · rename_i habsent
      cases hs
      cases must with
      | true => exact h.undo htodo
      | false =>
        obtain ⟨own, hord, hown⟩ := h.calls e
        rw [htodo] at hord
        exact h.setTodo (h.running htodo) (.inl hord.2.1) (hord.2.2.2.1 rfl habsent) hown
    · split at hs
      · cases hs
        exact h.map htodo ‹_›
      · cases hs
        exact h.undo htodo
  | share c a panics =>
    simp only [descriptor.exec] at hs
    split at hs
    · cases hs
      exact h.skip htodo
    · rename_i n hn
      split at hs
      · rename_i hgo
        cases hs
        refine Kept.skip (h.give htodo hgo.2 hn ?_) htodo
        rintro i rfl p hp hor
        refine hfirst (c, i) (by rw [htodo]; rfl) hgo.2 p hp ?_
        rw [hn]
        exact hor.imp (congrArg some) (congrArg some)
      · split at hs
        · cases hs
        · cases hs
          exact h.skip htodo
  | made i j =>
    simp only [descriptor.exec] at hs
    split at hs
    · cases hs
      exact h.pipe htodo ‹_› ‹_› ‹_›
    · cases hs
  | start c =>
    simp only [descriptor.exec] at hs
    split at hs
    · rename_i hc
      cases hs
      obtain ⟨own, hord, hown⟩ := h.calls e
      rw [htodo] at hord
      have hce : e ≠ c := fun heq => by
        have hrun := h.running htodo
        rw [heq, hc] at hrun
        rcases hrun with hrun | hrun <;> cases hrun
      refine (h.setStatus (.inl rfl)).setTodo ?_ (.inr fun op hop => ?_) hord hown
      · simp only [State.setStatus, Function.update_of_ne hce]
        exact h.running htodo
      · exact htodo ▸ List.mem_cons_of_mem _ hop
    · cases hs
  | destroy =>
    cases hs
    exact h.dying
  | free =>
    cases hs
    obtain ⟨own, hord, -⟩ := h.calls e
    rw [htodo] at hord
    obtain rfl : rest = [] := hord
    have hnil : Orderly (s.maps e) (fun _ => False) ([] : List (Op ε)) := trivial
    have hempty : Kept (s.setTodo e []) :=
      h.setTodo (h.running htodo) (.inl (noShare_of_all rfl)) hnil fun _ hi => hi.elim
    exact hempty.setStatus (.inr (.inr ⟨rfl, Function.update_self ..⟩))

/-- A call starts. -/
theorem Kept.call (h : Kept s) (hready : s.ready e) (hshare : NoShare ops)
    (hord : Orderly (s.maps e) (fun _ => False) ops) : Kept (s.setTodo e ops) :=
  h.setTodo (.inl hready.1) (.inl hshare) hord fun _ hi => hi.elim

theorem Kept.step (h : Kept s) {ev : Event ε} (hfirst : DataFirst s ev)
    (hs : step s ev = some s') : Kept s' := by
  cases ev with
  | next e room =>
    simp only [descriptor.step] at hs
    split at hs
    · cases hs
    · exact h.exec ‹_› hfirst hs
  | kill e =>
    simp only [descriptor.step] at hs
    split at hs
    · cases hs
    · cases hs
      exact h.dying
  | fork e c | spawn e c =>
    simp only [descriptor.step] at hs
    split at hs
    · rename_i hgo
      cases hs
      exact h.startChild hgo.1 hgo.2
    · cases hs
  | pipe e =>
    simp only [descriptor.step] at hs
    split at hs
    · cases hs
      exact h.call ‹_› (noShare_pipe _) (orderly_pipe _)
    · cases hs
  | close e i =>
    simp only [descriptor.step] at hs
    split at hs
    · cases hs
      exact h.call ‹_› (noShare_close _ _ i) (List.append_nil (close ..) ▸
        orderly_close (noShare_of_all rfl) fun _ _ => trivial)
    · cases hs
  | dup e old new =>
    simp only [descriptor.step] at hs
    split at hs
    · cases hs
      exact h.call ‹_› (noShare_dup _ _ old new) (orderly_dup ..)
    · cases hs
  | exit e =>
    simp only [descriptor.step] at hs
    split at hs
    · cases hs
      exact h.call ‹_› (noShare_exit _ _) (orderly_exit ..)
    · cases hs

end

/-! ## The counts -/

/-- Nobody is in a call, there is no pipe yet, and the pages that are mapped have
been allocated. -/
structure Start (s : State ε) : Prop where
  pipes : s.pipes = []
  todo : ∀ e, s.todo e = []
  mapped : ∀ e a n, s.maps e a = some n → n < s.next

theorem Start.kept {s : State ε} (h : Start s) : Kept s where
  paired e p hp := by rw [h.pipes] at hp; cases hp
  apart p hp := by rw [h.pipes] at hp; cases hp
  mapped := h.mapped
  made p hp := by rw [h.pipes] at hp; cases hp
  calls e := ⟨fun _ => False, by rw [h.todo]; trivial, fun _ hi => hi.elim⟩
  still e _ _ := h.todo e
  child e c a b hop := by rw [h.todo] at hop; cases hop

section

variable [Fintype ε] {s : State ε} {p : PipePages}

theorem Kept.counts (h : Kept s) (hp : p ∈ s.pipes) :
    s.pageref p.read + s.pageref p.write ≤ s.pageref p.data := by
  unfold State.pageref
  rw [← Finset.sum_add_distrib]
  refine Finset.sum_le_sum fun e _ => ?_
  rw [← Finset.sum_add_distrib]
  refine Finset.sum_le_sum fun i _ => ?_
  obtain ⟨hdata, hread, hwrite⟩ := h.paired e p hp i
  have hne := h.apart p hp
  rw [if_neg hread, if_neg hwrite]
  by_cases hr : s.maps e (.fd i) = some p.read
  · have hw : s.maps e (.fd i) ≠ some p.write := fun hw =>
      hne (Option.some.inj (hr.symm.trans hw))
    rw [if_pos hr, if_neg hw, if_pos (hdata (.inl hr))]
    omega
  · rw [if_neg hr]
    by_cases hw : s.maps e (.fd i) = some p.write
    · rw [if_pos hw, if_pos (hdata (.inr hw))]
      omega
    · rw [if_neg hw]
      omega

theorem not_mapped {n : Nat} (h : s.pageref n = 0) (e : ε) (a : Addr) : s.maps e a ≠ some n := by
  have he := Finset.sum_eq_zero_iff.mp h e (Finset.mem_univ e)
  intro hn
  cases a with
  | fd i =>
    have hi := Finset.sum_eq_zero_iff.mp he i (Finset.mem_univ i)
    rw [if_pos hn] at hi
    omega
  | data i =>
    have hi := Finset.sum_eq_zero_iff.mp he i (Finset.mem_univ i)
    rw [if_pos hn] at hi
    omega

/-- In every run in which the data page of a pipe is mapped into a child before its Fd
pages are, the data page has at least as many references as the two Fd pages. So a
pipe is found to be closed only when the other end is. -/
theorem pipe_is_closed_only_at_the_end [DecidableEq ε] {s₀ : State ε} (hstart : Start s₀)
    {evs : List (Event ε)} (hr : runs.runFrom step s₀ evs = some s)
    (hall : runs.Along step DataFirst s₀ evs) (hp : p ∈ s.pipes) :
    s.pageref p.read + s.pageref p.write ≤ s.pageref p.data ∧
    (s.pageref p.read = s.pageref p.data → ∀ e a, s.maps e a ≠ some p.write) ∧
    (s.pageref p.write = s.pageref p.data → ∀ e a, s.maps e a ≠ some p.read) := by
  have hkept : Kept s := runs.runFrom_keeps (I := Kept)
    (fun _ _ _ h hfirst hs => h.step hfirst hs) hstart.kept hr hall
  have hcounts := hkept.counts hp
  exact ⟨hcounts, fun heq => not_mapped (by omega), fun heq => not_mapped (by omega)⟩

end

/-! ## Runs -/

/-- Environment 0 runs, and no page is mapped. -/
def onlyFirst : State (Fin 4) where
  maps _ _ := none
  status e := if e = 0 then .live else .free
  todo _ := []
  next := 0
  pipes := []

theorem onlyFirst_start : Start onlyFirst := ⟨rfl, fun _ => rfl, fun _ _ _ h => nomatch h⟩

/-- The call `ev` of environment `e`, with its steps. -/
def whole (ev : Event (Fin 4)) (e : Fin 4) (steps : Nat) : List (Event (Fin 4)) :=
  ev :: List.replicate steps (.next e true)

/-- A pipe is made, and the read end is duplicated and closed. -/
def dupClose : List (Event (Fin 4)) :=
  whole (.pipe 0) 0 5 ++ whole (.dup 0 0 10) 0 2 ++ whole (.close 0 0) 0 1

theorem pipe_is_closed_only_at_the_end_dup :
    ∃ s p, runs.runFrom step onlyFirst dupClose = some s ∧ p ∈ s.pipes ∧
      s.pageref p.read = 1 ∧ s.pageref p.write = 1 ∧ s.pageref p.data = 3 ∧
      s.pageref p.read + s.pageref p.write ≤ s.pageref p.data := by
  have hrun : (runs.runFrom step onlyFirst dupClose).map
      (fun s => (s.pipes, s.pageref 0, s.pageref 1, s.pageref 2)) =
      some ([⟨0, 1, 2⟩], 1, 1, 3) := by decide +kernel
  have hall : runs.Along step DataFirst onlyFirst dupClose := by decide +kernel
  obtain ⟨s, hs, hfacts⟩ := Option.map_eq_some_iff.mp hrun
  simp only [Prod.mk.injEq] at hfacts
  obtain ⟨hpipes, hcounts⟩ := hfacts
  have hp : ⟨0, 1, 2⟩ ∈ s.pipes := by
    rw [hpipes]
    exact List.mem_singleton_self _
  exact ⟨s, ⟨0, 1, 2⟩, hs, hp, hcounts.1, hcounts.2.1, hcounts.2.2,
    (pipe_is_closed_only_at_the_end onlyFirst_start hs hall hp).1⟩

/-- Environments 1 and 2 get the read end of a pipe, and environment 0 keeps the write
end. Environment 1 forks, and has mapped the first page into its child. -/
def forkReader : List (Event (Fin 4)) :=
  whole (.pipe 0) 0 5 ++ whole (.fork 0 1) 0 65 ++ whole (.fork 0 2) 0 65 ++
    whole (.close 0 0) 0 3 ++ whole (.close 1 1) 1 3 ++ whole (.close 2 1) 2 3 ++
    whole (.fork 1 3) 1 1

/-- Environment 2 finds the pipe closed, and environment 0 has the write end open. -/
theorem fork_makes_a_pipe_look_closed :
    ∃ s, runs.runFrom step onlyFirst forkReader = some s ∧ s.pipes = [⟨0, 1, 2⟩] ∧
      s.ready 2 ∧ s.maps 2 (.fd 0) = some 0 ∧ s.pageref 0 = 3 ∧ s.pageref 2 = 3 ∧
      s.ready 0 ∧ s.maps 0 (.fd 1) = some 1 ∧ s.pageref 1 = 1 := by
  have hrun : (runs.runFrom step onlyFirst forkReader).map
      (fun s => decide (s.pipes = [⟨0, 1, 2⟩] ∧
        s.ready 2 ∧ s.maps 2 (.fd 0) = some 0 ∧ s.pageref 0 = 3 ∧ s.pageref 2 = 3 ∧
        s.ready 0 ∧ s.maps 0 (.fd 1) = some 1 ∧ s.pageref 1 = 1)) = some true := by
    decide +kernel
  obtain ⟨s, hs, hfacts⟩ := Option.map_eq_some_iff.mp hrun
  exact ⟨s, hs, decide_eq_true_iff.mp hfacts⟩

end jos.descriptor
