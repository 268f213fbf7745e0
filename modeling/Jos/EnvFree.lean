-- What `env_free` gives back. An environment holds a page once for each of
-- its mappings of it, and once if the page is its directory or one of its
-- page tables. When it is freed the counts go down by what it held, the pages
-- that nobody else holds come to the free list, and nothing else changes.
import Jos.Mappings

namespace jos

open linked_list (Chain)
open ledger

/-! ## What an environment holds -/

/-- How often the directory `d` maps page `p` below `UTOP`. -/
def mappings (s : Phys) (d p : Nat) : Nat :=
  (Finset.univ.filter fun x : Fin NPDU × Fin NPTENTRIES =>
    (entry s d x.1 x.2).bind pageOf = some p).card

/-- The references to `p` from the address space of `d`: its mappings, and one more
if `p` is the directory or one of its page tables. -/
def held (s : Phys) (d p : Nat) : Nat :=
  mappings s d p + if p = d ∨ ∃ i : Fin NPDU, table s d i = some p then 1 else 0

section holding

variable {ι : Type} [Fintype ι] [DecidableEq ι] {s s' : Phys} {dir : ι → Option Nat}
  {kept : Nat → Prop} {free : List Nat} {o : ι} {d p : Nat}

/-- The owner of the address space that a slot is in. -/
def Slot.owner : Slot ι → ι
  | .own o => o
  | .pde o _ => o
  | .pte o _ _ => o

/-- At most one slot that is no mapping refers to a page. -/
theorem card_private (h : Accounted s dir kept free) (ho : dir o = some d)
    [DecidablePred (Slot.shared (ι := ι))] :
    (Finset.univ.filter fun r : Slot ι =>
      (r.owner = o ∧ slots s dir r = some p) ∧ ¬ r.shared).card =
      if p = d ∨ ∃ i : Fin NPDU, table s d i = some p then 1 else 0 := by
  split
  · rename_i hp
    obtain ⟨r, hown, hr, hsh⟩ :
        ∃ r : Slot ι, r.owner = o ∧ slots s dir r = some p ∧ ¬ r.shared := by
      rcases hp with rfl | ⟨i, hi⟩
      · exact ⟨.own o, rfl, ho, not_false⟩
      · exact ⟨.pde o i, rfl, by simp [slots, ho, hi], not_false⟩
    refine Finset.card_eq_one.mpr ⟨r, Finset.eq_singleton_iff_unique_mem.mpr ⟨?_, ?_⟩⟩
    · exact Finset.mem_filter.mpr ⟨Finset.mem_univ r, ⟨hown, hr⟩, hsh⟩
    · intro r' hr'
      obtain ⟨-, ⟨-, hr'⟩, -⟩ := Finset.mem_filter.mp hr'
      exact (h.exclusive r' r p hr' hr).resolve_right fun hx => hsh hx.2
  · rename_i hp
    refine Finset.card_eq_zero.mpr (Finset.filter_eq_empty_iff.mpr ?_)
    rintro r - ⟨⟨rfl, hr⟩, hsh⟩
    cases r with
    | own o => exact hp (Or.inl (Option.some.inj (hr.symm.trans ho)))
    | pde o i =>
      have ho : dir o = some d := ho
      exact hp (Or.inr ⟨i, by simpa [slots, ho] using hr⟩)
    | pte => exact hsh trivial

/-- The slots that are mappings are the entries of the page tables. -/
theorem card_mapped (ho : dir o = some d) [DecidablePred (Slot.shared (ι := ι))] :
    (Finset.univ.filter fun r : Slot ι =>
      (r.owner = o ∧ slots s dir r = some p) ∧ r.shared).card = mappings s d p := by
  have hinj : Function.Injective fun x : Fin NPDU × Fin NPTENTRIES => Slot.pte o x.1 x.2 := by
    rintro ⟨i, j⟩ ⟨i', j'⟩ hx
    cases hx
    rfl
  rw [mappings, ← Finset.card_image_of_injective _ hinj]
  refine congrArg Finset.card ?_
  ext r
  simp only [Finset.mem_filter, Finset.mem_univ, true_and, Finset.mem_image, Prod.exists]
  constructor
  · rintro ⟨⟨rfl, hr⟩, hsh⟩
    cases r with
    | own | pde => exact hsh.elim
    | pte o i j =>
      have ho : dir o = some d := ho
      exact ⟨i, j, by simpa [slots, ho] using hr, rfl⟩
  · rintro ⟨i, j, hp, rfl⟩
    exact ⟨⟨rfl, by simpa [slots, ho] using hp⟩, trivial⟩

theorem card_owned (h : Accounted s dir kept free) (ho : dir o = some d) :
    (Finset.univ.filter fun r : Slot ι => r.owner = o ∧ slots s dir r = some p).card =
      held s d p := by
  classical
  rw [held, ← card_mapped ho, ← card_private h ho,
    ← Finset.card_filter_add_card_filter_not Slot.shared, Finset.filter_filter,
    Finset.filter_filter]

/-- With one address space gone, the slots of the others refer to what they did. -/
theorem slots_freed (h : Accounted s dir kept free) (ho : dir o = some d)
    (hm : OnlyTables s s' d) (r : Slot ι) :
    slots s' (Function.update dir o none) r = if r.owner = o then none else slots s dir r := by
  have hrest : ∀ o' d', o' ≠ o → dir o' = some d' →
      (∀ i, table s' d' i = table s d' i) ∧
      ∀ (i : Fin NPDU) (j : Fin NPTENTRIES), entry s' d' i j = entry s d' i j := by
    intro o' d' hne ho'
    obtain ⟨hdir, htab⟩ := hm.others h ho ho' hne
    have hsame : ∀ i, table s' d' i = table s d' i := fun i => by unfold table; rw [hdir]
    refine ⟨hsame, fun i j => ?_⟩
    unfold entry
    rw [hsame]
    rcases ht : table s d' i with _ | t
    · rfl
    · rw [Option.map_some, Option.map_some, htab i i.isLt t ht]
  by_cases hr : r.owner = o
  · rw [if_pos hr]
    cases r <;> simp only [Slot.owner] at hr <;> simp [slots, hr]
  · rw [if_neg hr]
    rcases hd : dir r.owner with _ | d'
    · cases r <;> simp only [Slot.owner] at hr hd <;> simp [slots, Function.update_of_ne hr, hd]
    · obtain ⟨htab, hent⟩ := hrest r.owner d' hr hd
      cases r <;> simp only [Slot.owner] at hr hd <;>
        simp [slots, Function.update_of_ne hr, hd, htab, hent]

theorem ref_freed {free' : List Nat} (h : Accounted s dir kept free) (ho : dir o = some d)
    (h' : Accounted s' (Function.update dir o none) kept free') (hm : OnlyTables s s' d)
    (hf : Falls kept s s') (p : Nat) :
    (s'.ref p).toNat + held s d p = (s.ref p).toNat := by
  have hsplit := tally_erase (slots_freed h ho hm) p
  rw [card_owned h ho] at hsplit
  by_cases hp : kept p
  · rw [h.count hp, h'.count hp, refs, refs, hsplit]
  · -- nothing refers to a page that was never handed out
    have h0 : tally (slots s dir) p = 0 := tally_eq_zero.mpr fun r hr => hp (h.named hr)
    rw [hf.own p hp]
    omega

/-- The pages that come to the free list are those that lost their last reference. -/
theorem freed_pages {free' : List Nat} (h : Accounted s dir kept free)
    (h' : Accounted s' (Function.update dir o none) kept free') (hl : NoLoss s s')
    (hf : Falls kept s s') :
    ∃ added, free' = added ++ free ∧ ∀ p, p ∈ added ↔ s.ref p ≠ 0 ∧ s'.ref p = 0 := by
  obtain ⟨added, hchain, hadded⟩ := hf.free free h.chain
  obtain rfl := hchain.unique h'.chain
  refine ⟨added, rfl, fun p => ⟨fun hp => ?_, fun hp => ?_⟩⟩
  · exact ⟨hadded p hp, h'.ref_free (List.mem_append_left _ hp)⟩
  · -- a page without references that is on no list would have been lost
    by_contra hnew
    refine hp.1 (hl p ⟨hp.2, fun free' hc hmem => ?_⟩).1
    obtain rfl := hc.unique hchain
    rcases List.mem_append.mp hmem with hmem | hmem
    · exact hnew hmem
    · exact hp.1 (h.ref_free hmem)

end holding

/-! ## The whole of `env_free` -/

/-- Freeing an environment takes from each count what the environment held. The
pages that come to the free list are those with no reference left, the other
address spaces and the kernel's tables stay as they are, and the slot is the
first free one. -/
theorem env_free_gives_back {kept : Nat → Prop} {k : Kernel} {free : List Nat} {e : EnvIx}
    (h : Accounted k.pm k.dir kept free) (hlive : ∀ e, k.dir e = none ↔ k.status e = .ENV_FREE)
    (hkern : ¬ kept k.kern_pgdir)
    (htables : ∀ i t, NPDU ≤ i → i < NPTENTRIES → table k.pm k.kern_pgdir i = some t → ¬ kept t)
    (he : k.status e ≠ .ENV_FREE) (c : Nat) :
    ∃ k' d added, env_free k c e = .ok k' ∧ k.dir e = some d ∧
      (∀ p, (k'.pm.ref p).toNat + held k.pm d p = (k.pm.ref p).toNat) ∧
      Chain k'.pm.link k'.pm.page_free_list (added ++ free) ∧ (added ++ free).Nodup ∧
      (∀ p, p ∈ added ↔ k.pm.ref p ≠ 0 ∧ k'.pm.ref p = 0) ∧
      (∀ o d', o ≠ e → k.dir o = some d' → k'.dir o = some d' ∧ k'.pm.mem d' = k.pm.mem d' ∧
        ∀ i < NPDU, ∀ t, table k.pm d' i = some t → k'.pm.mem t = k.pm.mem t) ∧
      k'.kern_pgdir = k.kern_pgdir ∧ k'.pm.mem k.kern_pgdir = k.pm.mem k.kern_pgdir ∧
      (∀ i t, NPDU ≤ i → i < NPTENTRIES → table k.pm k.kern_pgdir i = some t →
        k'.pm.mem t = k.pm.mem t) ∧
      k'.status e = .ENV_FREE ∧ k'.env_free_list = some e ∧ k'.link e = k.env_free_list := by
  obtain ⟨d, hd⟩ : ∃ d, k.dir e = some d :=
    Option.ne_none_iff_exists'.mp fun hn => he ((hlive e).mp hn)
  obtain ⟨pm, free', hrun, h', -, honly, hlost, hfalls⟩ := env_free_pages_falls h hd
  obtain ⟨added, rfl, hadded⟩ := freed_pages h h' hlost hfalls
  -- the kernel's own pages are no directory and no page table of the environment
  have hown : ∀ x, ¬ kept x → pm.mem x = k.pm.mem x := by
    intro x hx
    funext j
    rcases honly x j with hsame | rfl | ⟨i, hi, ht⟩
    · exact hsame
    · exact absurd (h.named (r := .own e) hd) hx
    · exact absurd (h.named (r := .pde e ⟨i, hi⟩) (by rw [slots_pde hi hd, ht])) hx
  refine ⟨k.release c e pm, d, added, env_free_run c hd hrun, hd, ref_freed h hd h' honly hfalls,
    h'.chain, h'.balanced.nodup, hadded, fun o d' hne ho => ⟨?_, honly.others h hd ho hne⟩,
    Kernel.release_kern_pgdir .., hown _ hkern, fun i t hi hlt ht => hown t (htables i t hi hlt ht),
    ?_, rfl, ?_⟩
  · rw [Kernel.release_dir, Function.update_of_ne hne, ho]
  · rw [Kernel.release_status, Function.update_self]
  · rw [Kernel.release_link, Function.update_self]

/-- An environment with one page, mapped twice, is freed: the page, its page table
and the directory come back. -/
theorem env_free_gives_back_twice : ∃ (t : Traced) (k' : Kernel) (added : List Nat),
    runs.runFrom pageStep oneEnv mapTwice = some t ∧
    t.k.dir 0 = some 2 ∧ env_free t.k 0 0 = .ok k' ∧ t.k.pm.ref 3 = 2 ∧ k'.pm.ref 3 = 0 ∧
    (∀ p, (k'.pm.ref p).toNat + held t.k.pm 2 p = (t.k.pm.ref p).toNat) ∧
    (∀ p, p ∈ added ↔ t.k.pm.ref p ≠ 0 ∧ k'.pm.ref p = 0) ∧ k'.env_free_list = some 0 := by
  have hrun : (runs.runFrom pageStep oneEnv mapTwice).map (fun t => (t.k.dir 0, t.k.status 0,
      t.k.kern_pgdir, (List.range NPTENTRIES).all fun i => t.k.pm.mem 1 i == 0)) =
      some (some 2, .ENV_RUNNABLE, 1, true) := by decide +kernel
  have hfree : (runs.runFrom pageStep oneEnv mapTwice).map (fun t => (t.k.pm.ref 3,
      (env_free t.k 0 0).toOption.map fun k => k.pm.ref 3)) = some (2, some 0) := by decide +kernel
  obtain ⟨t, hr, hfacts⟩ := Option.map_eq_some_iff.mp hrun
  rw [hr, Option.map_some, Option.some.injEq] at hfree
  simp only [Prod.mk.injEq] at hfacts hfree
  obtain ⟨hdir, hst, hkern, hzero⟩ := hfacts
  obtain ⟨href, hafter⟩ := hfree
  obtain ⟨hm, -⟩ : Memory (fun p => 2 ≤ p ∧ p < 64) t.k ∧ Tracked t :=
    runs.runFrom_keeps (fun _ _ _ => tracked_step) oneEnv_tracked hr mapTwice_orderly
  obtain ⟨free, ha⟩ := hm.accounts
  have hnone : ∀ i < NPTENTRIES, table t.k.pm t.k.kern_pgdir i = none := by
    intro i hi
    have hi := List.all_eq_true.mp hzero i (List.mem_range.mpr hi)
    rw [table, hkern, beq_iff_eq.mp hi]
    rfl
  obtain ⟨k', d, added, hk, hd, hheld, -, -, hadded, -, -, -, -, -, hlist, -⟩ :=
    env_free_gives_back ha hm.live hm.kern.own
      (fun i p _ hlt ht => by rw [hnone i hlt] at ht; cases ht) (by rw [hst]; decide) 0
  rw [hdir] at hd
  cases hd
  rw [hk] at hafter
  exact ⟨t, k', added, hr, hdir, hk, href, Option.some.inj hafter, hheld, hadded, hlist⟩

/-! ## Right counts alone -/

/-- Two environments whose directories, the pages 2 and 3, name the same page table,
page 4, where page 5 is mapped. -/
def sharedTable : Kernel :=
  { zeroKernel 64 pages_64 1 with
    pm := { bootPhys 64 pages_64 with
      pages := fun p => ⟨none, if p = 4 ∨ p = 5 then 2 else 1⟩
      page_free_list := none
      mem := fun p i => if i = 0 then
        if p = 2 ∨ p = 3 then pteFor 4 7 else if p = 4 then pteFor 5 7 else 0 else 0 }
    envs := fun e =>
      if e = 0 then { zeroEnv with env_status := .ENV_RUNNABLE, env_pgdir := some 2 }
      else if e = 1 then { zeroEnv with env_status := .ENV_RUNNABLE, env_pgdir := some 3 }
      else zeroEnv }

/-- The references of `sharedTable`. -/
def sharedTableSlots : Slot EnvIx → Option Nat
  | .own o => if o = 0 then some 2 else if o = 1 then some 3 else none
  | .pde o i => if (o = 0 ∨ o = 1) ∧ i.val = 0 then some 4 else none
  | .pte o i j => if (o = 0 ∨ o = 1) ∧ i.val = 0 ∧ j.val = 0 then some 5 else none

theorem NENV_ne_one : NENV ≠ 1 := by decide

theorem sharedTable_dir (o : EnvIx) :
    sharedTable.dir o = if o = 0 then some 2 else if o = 1 then some 3 else none := by
  by_cases h0 : o = 0
  · simp [Kernel.dir, sharedTable, h0]
  · by_cases h1 : o = 1 <;> simp [Kernel.dir, sharedTable, h0, h1, zeroEnv, NENV_ne_one]

theorem sharedTable_table (d i : Nat) : table sharedTable.pm d i =
    if i = 0 then if d = 2 ∨ d = 3 then some 4 else if d = 4 then some 5 else none else none := by
  have h4 : pageOf (pteFor 4 7) = some 4 := by decide
  have h5 : pageOf (pteFor 5 7) = some 5 := by decide
  simp only [table, sharedTable]
  split
  · split
    · exact h4
    · split
      · exact h5
      · rfl
  · rfl

theorem sharedTable_slots : slots sharedTable.pm sharedTable.dir = sharedTableSlots := by
  have hentry : ∀ d i j, d = 2 ∨ d = 3 → (entry sharedTable.pm d i j).bind pageOf =
      if i = 0 ∧ j = 0 then some 5 else none := by
    intro d i j hd
    rw [entry, sharedTable_table]
    by_cases hi : i = 0
    · simp only [hi, hd, if_true, Option.map_some, Option.bind_some, true_and]
      exact sharedTable_table 4 j
    · simp [hi]
  funext r
  cases r with
  | own o => exact sharedTable_dir o
  | pde o i =>
    simp only [slots, sharedTableSlots, sharedTable_dir]
    by_cases h0 : o = 0
    · simp [h0, sharedTable_table]
    · by_cases h1 : o = 1 <;> simp [h0, h1, sharedTable_table, NENV_ne_one]
  | pte o i j =>
    simp only [slots, sharedTableSlots, sharedTable_dir]
    by_cases h0 : o = 0
    · simp [h0, hentry]
    · by_cases h1 : o = 1 <;> simp [h0, h1, hentry, NENV_ne_one]

theorem sharedTable_counted :
    Counted sharedTable.pm sharedTable.dir (fun p => 2 ≤ p ∧ p ≤ 5) := by
  have h0 : (0 : Nat) < NPDU := by decide
  have h0' : (0 : Nat) < NPTENTRIES := by decide
  have h01 : (0 : EnvIx) ≠ 1 := by decide
  refine ⟨⟨[], rfl, List.nodup_nil, fun p hp => nomatch hp⟩, ?_⟩
  rintro p ⟨hlow, hhigh⟩
  rw [refs, sharedTable_slots]
  obtain rfl | rfl | rfl | rfl : p = 2 ∨ p = 3 ∨ p = 4 ∨ p = 5 := by omega
  · exact (tally_eq_length (l := [.own 0]) (by simp) fun r => by
      cases r <;> simp only [sharedTableSlots] <;> grind).symm
  · exact (tally_eq_length (l := [.own 1]) (by simp) fun r => by
      cases r <;> simp only [sharedTableSlots] <;> grind).symm
  · exact (tally_eq_length (l := [.pde 0 ⟨0, h0⟩, .pde 1 ⟨0, h0⟩]) (by simp [h01]) fun r => by
      cases r <;> simp only [sharedTableSlots] <;> grind).symm
  · exact (tally_eq_length (l := [.pte 0 ⟨0, h0⟩ ⟨0, h0'⟩, .pte 1 ⟨0, h0⟩ ⟨0, h0'⟩])
      (by simp [h01]) fun r => by cases r <;> simp only [sharedTableSlots] <;> grind).symm

/-- Right counts alone are not enough. Both page tables are one page with two
references, so freeing one environment empties the page table of the other. -/
theorem freeing_empties_a_shared_table :
    Counted sharedTable.pm sharedTable.dir (fun p => 2 ≤ p ∧ p ≤ 5) ∧
    (∀ e, sharedTable.dir e = none ↔ sharedTable.status e = .ENV_FREE) ∧
    sharedTable.kern_pgdir = 1 ∧ (∀ i, table sharedTable.pm 1 i = none) ∧
    sharedTable.dir 0 = some 2 ∧ sharedTable.dir 1 = some 3 ∧ table sharedTable.pm 3 0 = some 4 ∧
    ∃ k', env_free sharedTable 0 0 = .ok k' ∧ k'.dir 1 = some 3 ∧ table k'.pm 3 0 = some 4 ∧
      sharedTable.pm.mem 4 0 = pteFor 5 7 ∧ k'.pm.mem 4 0 = 0 := by
  have hrun : (env_free sharedTable 0 0).toOption.map
      (fun k => (k.dir 1, table k.pm 3 0, k.pm.mem 4 0)) = some (some 3, some 4, 0) := by
    decide +kernel
  refine ⟨sharedTable_counted, fun e => ?_, rfl, fun i => ?_, rfl, rfl, rfl, ?_⟩
  · rw [sharedTable_dir]
    by_cases h0 : e = 0
    · simp [Kernel.status, sharedTable, h0]
    · by_cases h1 : e = 1 <;> simp [Kernel.status, sharedTable, h0, h1, zeroEnv, NENV_ne_one]
  · rw [sharedTable_table]
    split <;> simp
  · rcases hk : env_free sharedTable 0 0 with p | k'
    · simp [hk, Except.toOption] at hrun
    · simp only [hk, Except.toOption, Option.map_some, Option.some.injEq, Prod.mk.injEq] at hrun
      exact ⟨k', rfl, hrun.1, hrun.2.1, rfl, hrun.2.2⟩

end jos
