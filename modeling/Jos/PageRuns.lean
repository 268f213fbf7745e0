-- Runs of calls to the page functions. A client allocates pages, makes page
-- tables, maps pages and removes them, in any order. The accounts stay
-- right in every state on the way.
import Jos.PageAccounting

namespace jos

open linked_list (Chain)
open ledger

variable {ι : Type}

/-! ## The calls -/

/-- A call, on the directory of an owner. -/
inductive PageCall (ι : Type)
  | alloc (alloc_flags : Word)
  | walk (o : ι) (va : Word)
  | insert (o : ι) (pp : Nat) (va perm : Word)
  | remove (o : ι) (va : Word)

/-- The state of memory, and the pages that `page_alloc` returned and that
have not been mapped since. -/
structure Client where
  s : Phys
  fresh : List Nat

namespace Client

/-- What the caller of a function has to see to: live directories, addresses
below `UTOP`, permissions below `0x1000`, and a page that comes from
`page_alloc` or from `page_lookup`. -/
def Valid (dir : ι → Option Nat) (c : Client) : PageCall ι → Prop
  | .alloc _ => True
  | .walk o va => dir o ≠ none ∧ va < UTOP
  | .insert o pp va perm => dir o ≠ none ∧ va < UTOP ∧ perm < 0x1000 ∧
      (pp ∈ c.fresh ∨ ∃ o' d' va' pte, dir o' = some d' ∧ va' < UTOP ∧
        page_lookup c.s d' va' = .ok (some (pp, pte)))
  | .remove o va => dir o ≠ none ∧ va < UTOP

def run (dir : ι → Option Nat) (c : Client) : PageCall ι → Except Panic Client
  | .alloc fl => do
    let (pp, s) ← page_alloc c.s fl
    return ⟨s, pp.toList ++ c.fresh⟩
  | .walk o va =>
    match dir o with
    | none => .error .null
    | some d => do
      let (_, s) ← pgdir_walk c.s d va true
      return ⟨s, c.fresh⟩
  | .insert o pp va perm =>
    match dir o with
    | none => .error .null
    | some d => do
      let (r, s) ← page_insert c.s d pp va perm
      return ⟨s, if r = 0 then c.fresh.filter (· ≠ pp) else c.fresh⟩
  | .remove o va =>
    match dir o with
    | none => .error .null
    | some d => do
      let s ← page_remove c.s d va
      return ⟨s, c.fresh⟩

/-- The states that a sequence of valid calls passes through, when no page
ever has more than 65535 references. -/
inductive Run [Fintype ι] (dir : ι → Option Nat) : Client → Client → Prop
  | refl (c : Client) : Run dir c c
  | step {c c' c'' : Client} {call : PageCall ι} : Run dir c c' → Valid dir c' call →
      c'.run dir call = .ok c'' → (∀ p, refs c''.s dir p ≤ 65535) → Run dir c c''

/-- The accounts are right, and a page that the client holds has no
reference and is not free. -/
structure Good [Fintype ι] (dir : ι → Option Nat) (kept : Nat → Prop) (free : List Nat)
    (c : Client) : Prop where
  accounted : Accounted c.s dir kept free
  fresh : ∀ p ∈ c.fresh, kept p ∧ p ∉ free ∧ ∀ r, slots c.s dir r ≠ some p

end Client

/-! ## Each call keeps the accounts -/

section calls

variable [Fintype ι] {dir : ι → Option Nat} {kept : Nat → Prop} {free : List Nat} {c : Client}
  {o : ι} {d : Nat} {va : Word}

/-- What `page_lookup` finds is a page that page tables alone refer to. -/
theorem shared_of_lookup (h : Accounted c.s dir kept free) {p : Nat} {pte : PteAddr}
    (ho : dir o = some d) (hva : va < UTOP) (hl : page_lookup c.s d va = .ok (some (p, pte))) :
    kept p ∧ p ∉ free ∧ ∀ r, slots c.s dir r = some p → r.shared := by
  have hi := PDX_lt_NPDU hva
  rw [page_lookup_eq (fun t => h.separated.table_lt o d _ t ho hi)] at hl
  have hpage : (entry c.s d (PDX va) (PTX va)).bind pageOf = some p := by
    rw [← lookup_map, Except.ok.inj hl]; rfl
  have hslot : slots c.s dir (.pte o ⟨PDX va, hi⟩ ⟨PTX va, PTX_lt va⟩) = some p := by
    simpa [slots, ho] using hpage
  refine ⟨h.named hslot, h.not_free hslot, fun r hr => ?_⟩
  rcases h.exclusive _ _ p hr hslot with he | ⟨hr, -⟩
  · rw [he]; trivial
  · exact hr

theorem page_alloc_spec {s : Phys} (h : Accounted s dir kept free) (fl : Word) :
    (free = [] ∧ page_alloc s fl = .ok (none, s)) ∨
    ∃ p rest, free = p :: rest ∧ page_alloc s fl = .ok (some p, s.alloced p fl) ∧
      Accounted (s.alloced p fl) dir kept rest := by
  rcases free with _ | ⟨p, rest⟩
  · exact Or.inl ⟨rfl, page_alloc_none h.chain⟩
  · exact Or.inr ⟨p, rest, rfl,
      page_alloc_some h.chain.1 (h.separated.free_lt p (List.mem_cons_self ..)), h.alloced⟩

theorem good_alloc (h : c.Good dir kept free) (fl : Word) :
    ∃ c' free', c.run dir (.alloc fl) = .ok c' ∧ c'.Good dir kept free' := by
  rcases page_alloc_spec h.accounted fl with ⟨-, he⟩ | ⟨p, rest, rfl, he, ha⟩
  · exact ⟨c, free, by simp only [Client.run, he]; rfl, h⟩
  · have hnodup := List.nodup_cons.mp h.accounted.balanced.nodup
    have hp : p ∈ p :: rest := List.mem_cons_self ..
    have hnames : slots (c.s.alloced p fl) dir = slots c.s dir :=
      slots_alloced h.accounted.separated hp
    refine ⟨⟨c.s.alloced p fl, p :: c.fresh⟩, rest, by simp only [Client.run, he]; rfl, ha, ?_⟩
    intro q hq
    rw [hnames]
    rcases List.mem_cons.mp hq with rfl | hq
    · exact ⟨h.accounted.balanced.free_kept q hp, hnodup.1, h.accounted.unnamed hp⟩
    · obtain ⟨h1, h2, h3⟩ := h.fresh q hq
      exact ⟨h1, fun hm => h2 (List.mem_cons_of_mem _ hm), h3⟩

variable [DecidableEq ι]

theorem walk_spec {s : Phys} (h : Accounted s dir kept free) (ho : dir o = some d)
    (hva : va < UTOP) :
    (∃ pte, pgdir_walk s d va true = .ok (pte, s)) ∨
    ∃ p rest, free = p :: rest ∧ table s d (PDX va) = none ∧
      pgdir_walk s d va true = .ok (some ⟨p, PTX va⟩, s.newTable d (PDX va) p) ∧
      Accounted (s.newTable d (PDX va) p) dir kept rest := by
  have hi := PDX_lt_NPDU hva
  rcases ht : table s d (PDX va) with _ | t
  · rcases free with _ | ⟨p, rest⟩
    · exact Or.inl ⟨_, walk_no_mem ht h.chain⟩
    · exact Or.inr ⟨p, rest, rfl, rfl,
        walk_new ht h.chain.1 (h.separated.free_lt p (List.mem_cons_self ..)),
        h.newTable ho hi ht⟩
  · exact Or.inl ⟨_, walk_present ht (h.separated.table_lt o d _ t ho hi ht)⟩

theorem good_walk (h : c.Good dir kept free) (ho : dir o ≠ none) (hva : va < UTOP) :
    ∃ c' free', c.run dir (.walk o va) = .ok c' ∧ c'.Good dir kept free' := by
  obtain ⟨d, ho⟩ := Option.ne_none_iff_exists'.mp ho
  have hi := PDX_lt_NPDU hva
  rcases walk_spec h.accounted ho hva with ⟨pte, he⟩ | ⟨p, rest, rfl, ht, he, ha⟩
  · exact ⟨c, free, by simp only [Client.run, ho, he]; rfl, h⟩
  · refine ⟨⟨c.s.newTable d (PDX va) p, c.fresh⟩, rest, by simp only [Client.run, ho, he]; rfl,
      ha, ?_⟩
    intro q hq
    obtain ⟨h1, h2, h3⟩ := h.fresh q hq
    refine ⟨h1, fun hm => h2 (List.mem_cons_of_mem _ hm), fun r hr => ?_⟩
    rw [slots_newTable h.accounted ho hi ht, Function.update_apply] at hr
    split at hr
    · cases hr; exact h2 (List.mem_cons_self ..)
    · exact h3 r hr

theorem good_remove (h : c.Good dir kept free) (ho : dir o ≠ none) (hva : va < UTOP) :
    ∃ c' free', c.run dir (.remove o va) = .ok c' ∧ c'.Good dir kept free' := by
  obtain ⟨d, ho⟩ := Option.ne_none_iff_exists'.mp ho
  have hi := PDX_lt_NPDU hva
  rcases page_remove_spec h.accounted ho hva with ⟨-, he⟩ | ⟨s', q, hq, he, ha, -, hslots⟩
  · exact ⟨c, free, by simp only [Client.run, ho, he]; rfl, h⟩
  · refine ⟨⟨s', c.fresh⟩, freeAfter c.s q free, by simp only [Client.run, ho, he]; rfl, ha, ?_⟩
    intro p hp
    obtain ⟨h1, h2, h3⟩ := h.fresh p hp
    refine ⟨h1, fun hm => ?_, fun r hr => ?_⟩
    · rcases mem_freeAfter hm with rfl | hm
      · exact h3 (.pte o ⟨PDX va, hi⟩ ⟨PTX va, PTX_lt va⟩) (by rw [slots_pte hi (PTX_lt va) ho, hq])
      · exact h2 hm
    · simp only [hslots, Function.update_apply] at hr
      split at hr
      · cases hr
      · exact h3 r hr

theorem good_insert {pp : Nat} {perm : Word} (h : c.Good dir kept free)
    (hv : c.Valid dir (.insert o pp va perm)) :
    ∃ c', c.run dir (.insert o pp va perm) = .ok c' ∧
      ((∀ p, refs c'.s dir p ≤ 65535) → ∃ free', c'.Good dir kept free') := by
  obtain ⟨ho, hva, hperm, hpage⟩ := hv
  obtain ⟨d, ho⟩ := Option.ne_none_iff_exists'.mp ho
  have hi := PDX_lt_NPDU hva
  have hslot : slots c.s dir (.pte o ⟨PDX va, hi⟩ ⟨PTX va, PTX_lt va⟩) =
      pageOf (pteAt c.s d (PDX va) (PTX va)) := slots_pte hi (PTX_lt va) ho
  have hp : kept pp ∧ pp ∉ free ∧ ∀ r, slots c.s dir r = some pp → r.shared := by
    rcases hpage with hf | ⟨o', d', va', pte, ho', hva', hl⟩
    · obtain ⟨h1, h2, h3⟩ := h.fresh pp hf
      exact ⟨h1, h2, fun r hr => absurd hr (h3 r)⟩
    · exact shared_of_lookup h.accounted ho' hva' hl
  rcases page_insert_effect h.accounted ho hva hperm hp.1 with
    ⟨-, -, he⟩ | ⟨s', f, he, -, hf, hslots⟩
  · exact ⟨c, by simp only [Client.run, ho, he]; rfl, fun _ => ⟨free, h⟩⟩
  · refine ⟨⟨s', c.fresh.filter (· ≠ pp)⟩, by simp only [Client.run, ho, he]; rfl, fun hmax => ?_⟩
    have hcount := room_for_one hf hslots hp.2.1 (hmax pp)
    rw [hslot] at hcount
    obtain ⟨free', ha, hsub⟩ :=
      page_insert_accounted h.accounted ho hva hperm hp.1 hp.2.1 hp.2.2 hcount he
    refine ⟨free', ha, ?_⟩
    intro q hq
    obtain ⟨hq, hne⟩ := List.mem_filter.mp hq
    have hne : q ≠ pp := of_decide_eq_true hne
    obtain ⟨h1, h2, h3⟩ := h.fresh q hq
    refine ⟨h1, fun hm => ?_, fun r hr => ?_⟩
    · rcases hsub q hm with hm | ⟨hm, -⟩
      · exact h2 hm
      · exact h3 _ (hslot.trans hm)
    · rcases names_insert hf hslots hr with he | hr | hx
      · exact hne he
      · exact h3 r hr
      · exact h2 hx

/-- Every call keeps the accounts. -/
theorem good_call {call : PageCall ι} (h : c.Good dir kept free) (hv : c.Valid dir call) :
    ∃ c', c.run dir call = .ok c' ∧
      ((∀ p, refs c'.s dir p ≤ 65535) → ∃ free', c'.Good dir kept free') := by
  cases call with
  | alloc fl => obtain ⟨c', free', he, hg⟩ := good_alloc h fl; exact ⟨c', he, fun _ => ⟨free', hg⟩⟩
  | walk o va =>
    obtain ⟨c', free', he, hg⟩ := good_walk h hv.1 hv.2; exact ⟨c', he, fun _ => ⟨free', hg⟩⟩
  | insert o pp va perm => exact good_insert h hv
  | remove o va =>
    obtain ⟨c', free', he, hg⟩ := good_remove h hv.1 hv.2; exact ⟨c', he, fun _ => ⟨free', hg⟩⟩

theorem good_run {c₀ : Client} (hr : Client.Run dir c₀ c) (h₀ : ∃ free, c₀.Good dir kept free) :
    ∃ free, c.Good dir kept free := by
  induction hr with
  | refl => exact h₀
  | step _ hv he hmax ih =>
    obtain ⟨free, h⟩ := ih
    obtain ⟨c', he', hg⟩ := good_call h hv
    cases he.symm.trans he'
    exact hg hmax

/-! ## The law -/

/-- From right accounts, every sequence of valid calls in which no page has
more than 65535 references keeps them right in every state on the way, and
no valid call panics: no page that is mapped, or that is a page table, is
ever free, no page is on the free list twice, and no reference is lost or
counted twice. -/
theorem page_accounts_stay_right {s : Phys} (h : Accounted s dir kept free)
    (hr : Client.Run dir ⟨s, []⟩ c) :
    (∃ free', Accounted c.s dir kept free') ∧ Counted c.s dir kept ∧
      ∀ call, c.Valid dir call → ∃ c', c.run dir call = .ok c' := by
  have h₀ : Client.Good dir kept free ⟨s, []⟩ := ⟨h, fun p hp => by cases hp⟩
  obtain ⟨free', hg⟩ := good_run hr ⟨free, h₀⟩
  refine ⟨⟨free', hg.accounted⟩, hg.accounted.counted, fun call hv => ?_⟩
  obtain ⟨c', he, -⟩ := good_call hg hv
  exact ⟨c', he⟩

end calls

/-! ## A small machine -/

/-- One owner, whose directory is page 1. -/
def dirOne : Unit → Option Nat := fun _ => some 1

/-- Page 1 is an empty directory, and pages 2 and 3 are free. -/
def smallMachine : Phys where
  npages := 8
  npages_le := by decide
  pages := fun p => if p = 1 then ⟨none, 1⟩ else if p = 2 then ⟨some 3, 0⟩ else ⟨none, 0⟩
  page_free_list := some 2
  mem := fun _ _ => 0

theorem smallMachine_accounted :
    Accounted smallMachine dirOne (fun p => p ∈ [2, 3] ∨ ∃ o, dirOne o = some p) [2, 3] := by
  refine accounted_of_empty ?_ ⟨rfl, rfl, rfl⟩ (fun _ _ _ _ _ => rfl) ?_ ?_
  · intro o d i _ _
    exact pageOf_zero
  · intro p hp
    simp only [List.mem_cons, List.not_mem_nil, or_false] at hp
    rcases hp with rfl | rfl <;> exact ⟨by decide, rfl, by simp [dirOne]⟩
  · intro o d ho
    cases ho
    exact ⟨by decide, rfl⟩

/-- A page table is made, and a page is allocated. -/
theorem page_accounts_stay_right_small :
    ∃ c, Client.Run dirOne ⟨smallMachine, []⟩ c ∧ c.fresh = [3] ∧ Counted c.s dirOne
      (fun p => p ∈ [2, 3] ∨ ∃ o, dirOne o = some p) := by
  have h₀ : Client.Good dirOne _ [2, 3] ⟨smallMachine, []⟩ :=
    ⟨smallMachine_accounted, fun p hp => by cases hp⟩
  have hv : Client.Valid dirOne ⟨smallMachine, []⟩ (.walk () 0) := ⟨by simp [dirOne], by decide⟩
  obtain ⟨c₁, free₁, he₁, hg₁⟩ := good_walk h₀ hv.1 hv.2
  obtain ⟨c₂, free₂, he₂, hg₂⟩ := good_alloc hg₁ 1
  have hv₂ : c₁.Valid dirOne (.alloc 1) := trivial
  have hr : Client.Run dirOne ⟨smallMachine, []⟩ c₂ :=
    .step (.step (.refl _) hv he₁ hg₁.accounted.refs_le) hv₂ he₂ hg₂.accounted.refs_le
  refine ⟨c₂, hr, ?_, (page_accounts_stay_right smallMachine_accounted hr).2.1⟩
  have hfresh : (Client.run dirOne ⟨smallMachine, []⟩ (.walk () 0) >>= fun c =>
      c.run dirOne (.alloc 1)).map Client.fresh = .ok [3] := rfl
  rw [he₁] at hfresh
  change (c₁.run dirOne (.alloc 1)).map Client.fresh = .ok [3] at hfresh
  rw [he₂] at hfresh
  exact Except.ok.inj hfresh

/-! ## Where counting alone is not enough -/

/-- Page 3 is a page of the kernel image: `page_init` gave it the count 1 and
never put it on the free list. Directory 1 maps it twice, through table 2. -/
def bootPageMachine : Phys where
  npages := 8
  npages_le := by decide
  pages := fun p => if p = 1 ∨ p = 2 ∨ p = 3 then ⟨none, 1⟩ else ⟨none, 0⟩
  page_free_list := none
  mem := fun p i =>
    if p = 1 ∧ i = 0 then pteFor 2 7 else if p = 2 ∧ i < 2 then pteFor 3 7 else 0

/-- Page 1 is a directory, and its own page table at entry 0. Page 5 is free. -/
def selfTableMachine : Phys where
  npages := 8
  npages_le := by decide
  pages := fun p => if p = 1 then ⟨none, 3⟩ else ⟨none, 0⟩
  page_free_list := some 5
  mem := fun p i => if p = 1 ∧ i = 0 then pteFor 1 7 else 0

theorem slots_dirOne {s : Phys} {T : Nat → Option Nat} (hT : ∀ i, table s 1 i = T i)
    (r : Slot Unit) : slots s dirOne r =
      match r with
      | .own _ => some 1
      | .pde _ i => T i
      | .pte _ i j => (T i).bind fun t => pageOf (s.mem t j) := by
  cases r with
  | own o => rfl
  | pde o i => exact hT i
  | pte o i j =>
    simp only [slots, dirOne, Option.bind_some, entry, hT]
    cases T i <;> rfl

theorem bootPageMachine_table (i : Nat) :
    table bootPageMachine 1 i = if i = 0 then some 2 else none := by
  by_cases hi : i = 0
  · subst hi; rfl
  · simp [table, bootPageMachine, hi]

theorem bootPageMachine_entry (j : Nat) :
    pageOf (bootPageMachine.mem 2 j) = if j < 2 then some 3 else none := by
  have hmem : bootPageMachine.mem 2 j = if j < 2 then pteFor 3 7 else 0 := by
    simp only [bootPageMachine, OfNat.ofNat_ne_one, false_and, if_false, true_and]
  rw [hmem]
  by_cases hj : j < 2
  · rw [if_pos hj, if_pos hj]
    rfl
  · rw [if_neg hj, if_neg hj]
    exact pageOf_zero

theorem bootPageMachine_counted : Counted bootPageMachine dirOne (fun p => p = 1 ∨ p = 2) := by
  have h0 : (0 : Nat) < NPDU := by decide
  have hslots := slots_dirOne bootPageMachine_table
  have h1 : refs bootPageMachine dirOne 1 = 1 := by
    refine tally_eq_length (List.nodup_singleton (Slot.own ())) fun r => ?_
    rw [hslots]
    cases r <;> simp [Option.bind_eq_some_iff, bootPageMachine_entry]
  have h2 : refs bootPageMachine dirOne 2 = 1 := by
    refine tally_eq_length (List.nodup_singleton (Slot.pde () ⟨0, h0⟩)) fun r => ?_
    rw [hslots]
    cases r <;> simp [Fin.ext_iff, Option.bind_eq_some_iff, bootPageMachine_entry]
  refine ⟨⟨[], rfl, List.nodup_nil, fun p hp => by cases hp⟩, ?_⟩
  rintro p (rfl | rfl)
  · rw [h1]; rfl
  · rw [h2]; rfl

theorem selfTableMachine_table (i : Nat) :
    table selfTableMachine 1 i = if i = 0 then some 1 else none := by
  by_cases hi : i = 0
  · subst hi; rfl
  · simp [table, selfTableMachine, hi]

theorem selfTableMachine_entry (j : Nat) :
    pageOf (selfTableMachine.mem 1 j) = if j = 0 then some 1 else none := selfTableMachine_table j

theorem selfTableMachine_counted : Counted selfTableMachine dirOne (fun p => p = 1 ∨ p = 5) := by
  have h0 : (0 : Nat) < NPDU := by decide
  have h0' : (0 : Nat) < NPTENTRIES := by decide
  have hslots := slots_dirOne selfTableMachine_table
  have h1 : refs selfTableMachine dirOne 1 = 3 := by
    refine tally_eq_length (l := [.own (), .pde () ⟨0, h0⟩, .pte () ⟨0, h0⟩ ⟨0, h0'⟩])
      (by simp) fun r => ?_
    rw [hslots]
    cases r <;> simp [Fin.ext_iff, Option.bind_eq_some_iff, selfTableMachine_entry]
  have hun : ∀ r, slots selfTableMachine dirOne r ≠ some 5 := by
    intro r
    rw [hslots]
    cases r <;> simp [Option.bind_eq_some_iff, selfTableMachine_entry]
  refine ⟨⟨[5], ⟨rfl, rfl⟩, List.nodup_singleton 5, ?_⟩, ?_⟩
  · intro p hp
    rw [List.mem_singleton.mp hp]
    exact ⟨rfl, hun⟩
  · rintro p (rfl | rfl)
    · rw [h1]; rfl
    · rw [refs, tally_eq_zero.mpr hun]; rfl

/-- The first entry for page 3 is removed. -/
def bootPageRemoved : Phys := (bootPageMachine.decref 3).write 2 0 0

/-- The page is free, and its second entry still stands. -/
theorem bootPage_run : Client.Run dirOne ⟨bootPageMachine, []⟩ ⟨bootPageRemoved, []⟩ ∧
    ¬ Counted bootPageRemoved dirOne (fun p => p = 1 ∨ p = 2) := by
  have h0 : (0 : Nat) < NPDU := by decide
  have h1 : (1 : Nat) < NPTENTRIES := by decide
  have htab : ∀ i, table bootPageRemoved 1 i = if i = 0 then some 2 else none :=
    bootPageMachine_table
  have hentry : ∀ j, pageOf (bootPageRemoved.mem 2 j) = if j = 1 then some 3 else none := by
    intro j
    rw [bootPageRemoved, Phys.write_mem, Phys.decref_mem]
    by_cases hj : j = 0
    · simp [hj]
    · have hlt : j < 2 ↔ j = 1 := by omega
      simp [hj, bootPageMachine_entry, hlt]
  have hslots := slots_dirOne htab
  have hrun : Client.run dirOne ⟨bootPageMachine, []⟩ (.remove () 0) = .ok ⟨bootPageRemoved, []⟩ :=
    rfl
  have hv : Client.Valid dirOne ⟨bootPageMachine, []⟩ (.remove () 0) :=
    ⟨by simp [dirOne], by decide⟩
  refine ⟨.step (.refl _) hv hrun fun p => ?_, fun h => ?_⟩
  · refine (tally_le_length (l := [.own (), .pde () ⟨0, h0⟩, .pte () ⟨0, h0⟩ ⟨1, h1⟩])
      fun r hr => ?_).trans (by simp)
    rw [hslots] at hr
    cases r <;> simp_all [Fin.ext_iff, Option.bind_eq_some_iff]
  · obtain ⟨free, hchain, -, hfree⟩ := h.free
    have hmem : 3 ∈ free := by
      obtain ⟨l, rfl⟩ := hchain.eq_cons rfl
      exact List.mem_cons_self ..
    refine (hfree 3 hmem).2 (.pte () ⟨0, h0⟩ ⟨1, h1⟩) ?_
    rw [hslots]
    simp [hentry]

/-- Page 5 is allocated, and mapped at the second page of the address space. -/
def selfTableMapped : Phys :=
  ((selfTableMachine.alloced 5 0).write 1 1 (pteFor 5 7)).incref 5

theorem selfTableMapped_slots (r : Slot Unit) : slots selfTableMapped dirOne r =
    match r with
    | .own _ => some 1
    | .pde _ i => if i.val = 0 then some 1 else if i.val = 1 then some 5 else none
    | .pte _ i j =>
      if i.val = 0 then if j.val = 0 then some 1 else if j.val = 1 then some 5 else none
      else none := by
  have htab : ∀ i, table selfTableMapped 1 i =
      if i = 0 then some 1 else if i = 1 then some 5 else none := by
    intro i
    by_cases hi : i = 0
    · subst hi; rfl
    · by_cases hi1 : i = 1
      · subst hi1; rfl
      · simp [table, selfTableMapped, Phys.write_mem, Phys.alloced_mem, selfTableMachine, hi, hi1]
  have hfive : ∀ j, pageOf (selfTableMapped.mem 5 j) = none := by
    intro j
    simp [selfTableMapped, Phys.write_mem, Phys.alloced_mem, selfTableMachine]
  rw [slots_dirOne htab]
  cases r with
  | own o => rfl
  | pde o i => rfl
  | pte o i j =>
    by_cases hi : i.val = 0
    · simp only [hi, if_true, Option.bind_some]
      exact htab j
    · by_cases hi1 : i.val = 1 <;> simp [hi, hi1, hfive]

/-- The one store sets an entry of a table and an entry of the directory:
page 5 has two references and the count 1. -/
theorem selfTable_run : Client.Run dirOne ⟨selfTableMachine, []⟩ ⟨selfTableMapped, []⟩ ∧
    ¬ Counted selfTableMapped dirOne (fun p => p = 1 ∨ p = 5) := by
  have h0 : (0 : Nat) < NPDU := by decide
  have h1 : (1 : Nat) < NPDU := by decide
  have h0' : (0 : Nat) < NPTENTRIES := by decide
  have h1' : (1 : Nat) < NPTENTRIES := by decide
  have hbound : ∀ {s : Phys}, (∀ r p, slots s dirOne r = some p → r ∈ ([.own (), .pde () ⟨0, h0⟩,
      .pde () ⟨1, h1⟩, .pte () ⟨0, h0⟩ ⟨0, h0'⟩, .pte () ⟨0, h0⟩ ⟨1, h1'⟩] : List (Slot Unit))) →
      ∀ p, refs s dirOne p ≤ 65535 := by
    intro s h p
    exact (tally_le_length fun r hr => h r p hr).trans (by simp)
  have hv₁ : Client.Valid dirOne ⟨selfTableMachine, []⟩ (.alloc 0) := trivial
  have hrun₁ : Client.run dirOne ⟨selfTableMachine, []⟩ (.alloc 0) =
      .ok ⟨selfTableMachine.alloced 5 0, [5]⟩ := rfl
  have hv₂ : Client.Valid dirOne ⟨selfTableMachine.alloced 5 0, [5]⟩ (.insert () 5 0x1000 7) :=
    ⟨by simp [dirOne], by decide, by decide, Or.inl (List.mem_singleton.mpr rfl)⟩
  have hrun₂ : Client.run dirOne ⟨selfTableMachine.alloced 5 0, [5]⟩ (.insert () 5 0x1000 7) =
      .ok ⟨selfTableMapped, []⟩ := rfl
  refine ⟨.step (.step (.refl _) hv₁ hrun₁ (hbound fun r p hr => ?_)) hv₂ hrun₂
    (hbound fun r p hr => ?_), fun h => ?_⟩
  · have hr : slots selfTableMachine dirOne r = some p := hr
    rw [slots_dirOne selfTableMachine_table] at hr
    cases r <;> simp_all [Fin.ext_iff, Option.bind_eq_some_iff, selfTableMachine_entry]
  · rw [selfTableMapped_slots] at hr
    cases r <;> grind
  · have htwo : refs selfTableMapped dirOne 5 = 2 := by
      refine tally_eq_length (l := [.pde () ⟨1, h1⟩, .pte () ⟨0, h0⟩ ⟨1, h1'⟩]) (by simp) fun r => ?_
      rw [selfTableMapped_slots]
      cases r <;> grind
    have hcount := h.counts 5 (Or.inr rfl)
    rw [htwo] at hcount
    exact absurd hcount (by decide)

/-- Right counts alone are not kept. A page that `page_alloc` never handed
out has a count that is not the number of its references, so removing one of
its two entries frees it. A directory that is its own page table gives a new
page two references at once. -/
theorem counts_alone_are_not_kept :
    (Counted bootPageMachine dirOne (fun p => p = 1 ∨ p = 2) ∧
      Client.Run dirOne ⟨bootPageMachine, []⟩ ⟨bootPageRemoved, []⟩ ∧
      ¬ Counted bootPageRemoved dirOne (fun p => p = 1 ∨ p = 2)) ∧
    (Counted selfTableMachine dirOne (fun p => p = 1 ∨ p = 5) ∧
      Client.Run dirOne ⟨selfTableMachine, []⟩ ⟨selfTableMapped, []⟩ ∧
      ¬ Counted selfTableMapped dirOne (fun p => p = 1 ∨ p = 5)) :=
  ⟨⟨bootPageMachine_counted, bootPage_run⟩, ⟨selfTableMachine_counted, selfTable_run⟩⟩

end jos
