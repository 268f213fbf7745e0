-- The two-level page table of a directory is a finite map: page numbers
-- below `UTOP` to a physical page and 12 permission bits. `page_insert`,
-- `page_remove` and `page_lookup` are the update, the removal and the
-- lookup of that map, and no other directory sees them.
import Jos.PageRuns

namespace jos

open linked_list (Chain)
open ledger

/-! ## The map -/

/-- A map from page numbers to a physical page with its permissions. -/
abbrev PageMap := Nat → Option (Nat × Word)

/-- What an entry of a page table says. -/
def readPte (w : Word) : Option (Nat × Word) := (pageOf w).map fun p => (p, permOf w)

/-- The map of page directory `d`. -/
def pageMap (s : Phys) (d : Nat) : PageMap := fun n => readPte (pteAt s d (n / 1024) (n % 1024))

/-- The first page number that is not below `UTOP`. -/
def NPGU : Nat := PGNUM UTOP

/-- The maps of all live directories stay as they are, but for one place of
directory `d`. -/
def MapsSet {ι : Type} (s s' : Phys) (dir : ι → Option Nat) (d n : Nat) (v : Option (Nat × Word)) :
    Prop :=
  ∀ o d', dir o = some d' → ∀ m < NPGU,
    pageMap s' d' m = if d' = d then Function.update (pageMap s d) n v m else pageMap s d' m

/-- The counts are right, as `Counted` says it, the free pages and the page
tables below `UTOP` are pages that `page_alloc` hands out, and each of these
tables has one reference, the directory entry that names it. -/
structure TablesOwned {ι : Type} [Fintype ι] (s : Phys) (dir : ι → Option Nat) (kept : Nat → Prop) :
    Prop extends Counted s dir kept where
  kept_lt : ∀ p, kept p → p < s.npages
  free_kept : ∀ l, Chain s.link s.page_free_list l → ∀ p ∈ l, kept p
  table_kept : ∀ o i t, slots s dir (.pde o i) = some t → kept t
  table_once : ∀ o i t, slots s dir (.pde o i) = some t → refs s dir t = 1

theorem NPGU_eq : NPGU = 977920 := by decide

theorem readPte_zero : readPte 0#32 = none := by decide

theorem readPte_pteFor {pp : Nat} {perm : Word} (hp : pp < 2 ^ 20) (hperm : perm.toNat < 4096) :
    readPte (pteFor pp perm) = some (pp, perm ||| PTE_P) := by
  simp [readPte, pageOf_pteFor hp hperm, permOf_pteFor hp hperm]

theorem PGNUM_div (va : Word) : PGNUM va / 1024 = PDX va := by
  have := PTX_lt va
  rw [PGNUM_split]
  omega

theorem PGNUM_mod (va : Word) : PGNUM va % 1024 = PTX va := by
  have := PTX_lt va
  rw [PGNUM_split]
  omega

section map

variable {ι : Type} {s s' : Phys} {dir : ι → Option Nat} {kept : Nat → Prop} {free : List Nat}
  {o : ι} {d n : Nat} {va w : Word}

/-- One entry set is one place of one map set. -/
theorem mapsSet_of_entries
    (h : ∀ o' d' i' j', dir o' = some d' → i' < NPDU → pteAt s' d' i' j' =
      if d' = d ∧ i' = n / 1024 ∧ j' = n % 1024 then w else pteAt s d' i' j') :
    MapsSet s s' dir d n (readPte w) := by
  intro o' d' ho' m hm
  have hi : m / 1024 < NPDU := by rw [NPGU_eq] at hm; rw [NPDU_eq]; omega
  have hsame : m / 1024 = n / 1024 ∧ m % 1024 = n % 1024 ↔ m = n := by omega
  simp only [pageMap, h o' d' _ _ ho' hi, hsame, Function.update_apply]
  by_cases hd : d' = d <;> by_cases hm : m = n <;> simp [hd, hm]

variable [Fintype ι]

/-- With one reference for each table, the tables, the directories and the
free pages are apart. -/
theorem TablesOwned.separated [DecidableEq ι] (h : TablesOwned s dir kept) :
    ∃ free, Separated s dir free := by
  obtain ⟨free, hchain, -, hfree⟩ := h.free
  -- a table has no second slot of any kind
  have honly : ∀ {o d i t}, dir o = some d → (hi : i < NPDU) → table s d i = some t →
      slots s dir (.pde o ⟨i, hi⟩) = some t ∧
        ∀ r, slots s dir r = some t → r = .pde o ⟨i, hi⟩ := by
    intro o d i t ho hi ht
    have hslot : slots s dir (.pde o ⟨i, hi⟩) = some t := by rw [slots_pde hi ho, ht]
    exact ⟨hslot, (tally_eq_one hslot).mp (h.table_once o ⟨i, hi⟩ t hslot)⟩
  refine ⟨free, ⟨?_, ?_, ?_⟩, hchain, ?_, ?_, ?_⟩
  · intro o d i t ho hi ht
    exact h.kept_lt t (h.table_kept o ⟨i, hi⟩ t (honly ho hi ht).1)
  · intro o d i t ho hi ht o' ho'
    cases (honly ho hi ht).2 (.own o') ho'
  · intro o o' d d' i i' t ho ho' hi hi' ht ht'
    cases (honly ho hi ht).2 _ (honly ho' hi' ht').1
    rw [ho] at ho'
    exact ⟨Option.some.inj ho', rfl⟩
  · intro p hp
    exact h.kept_lt p (h.free_kept free hchain p hp)
  · intro p hp o ho
    exact (hfree p hp).2 (.own o) ho
  · intro p hp o d i ho hi ht
    exact (hfree p hp).2 _ (honly ho hi ht).1

/-- Right accounts own their tables. -/
theorem Accounted.tablesOwned [DecidableEq ι] (h : Accounted s dir kept free) :
    TablesOwned s dir kept where
  toCounted := h.counted
  kept_lt := h.kept_lt
  free_kept l hl p hp := by
    rw [hl.unique h.chain] at hp
    exact h.balanced.free_kept p hp
  table_kept o i t ht := h.named ht
  table_once o i t ht := by
    refine (tally_eq_one ht).mpr fun r hr => ?_
    rcases h.exclusive r _ t hr ht with he | ⟨-, he⟩
    · exact he
    · exact he.elim

omit [Fintype ι] in
/-- `page_lookup` and `pgdir_walk` read the map. -/
theorem lookup_reads_map (hs : Apart s dir) (ho : dir o = some d) (hva : va < UTOP) :
    (∃ r, page_lookup s d va = .ok r ∧
      (r.map fun x => (x.1, permOf (s.mem x.2.page x.2.idx))) = pageMap s d (PGNUM va)) ∧
    ∃ pte, pgdir_walk s d va false = .ok (pte, s) ∧
      (pte.bind fun a => readPte (s.mem a.page a.idx)) = pageMap s d (PGNUM va) := by
  have hlt := fun t => hs.table_lt o d (PDX va) t ho (PDX_lt_NPDU hva)
  have hmap : pageMap s d (PGNUM va) = readPte (pteAt s d (PDX va) (PTX va)) := by
    rw [pageMap, PGNUM_div, PGNUM_mod]
  rw [hmap]
  refine ⟨⟨lookup s d va, page_lookup_eq hlt, ?_⟩, ?_⟩
  · rcases ht : table s d (PDX va) with _ | t
    · simp [lookup, pteAt, entry, ht, readPte_zero]
    · simp only [lookup, pteAt, entry, ht, readPte, Option.bind_some, Option.map_some,
        Option.getD_some]
      cases pageOf (s.mem t (PTX va)) <;> rfl
  · rcases ht : table s d (PDX va) with _ | t
    · exact ⟨none, walk_absent ht, by simp [pteAt, entry, ht, readPte_zero]⟩
    · exact ⟨_, walk_present ht (hlt t ht), by simp [pteAt, entry, ht]⟩

omit [Fintype ι] in
theorem insert_sets_map {pp : Nat} {perm : Word} (hs : Separated s dir free) (ho : dir o = some d)
    (hva : va < UTOP) (hp : pp < s.npages) (hperm : perm < 0x1000) :
    page_insert s d pp va perm = .ok (-E_NO_MEM, s) ∨
    ∃ s', page_insert s d pp va perm = .ok (0, s') ∧
      MapsSet s s' dir d (PGNUM va) (some (pp, perm ||| PTE_P)) := by
  have hle := s.npages_le
  have hi := PDX_lt_NPDU hva
  have hset : ∀ s', EntrySet s s' dir d (PDX va) (PTX va) (pteFor pp perm) →
      MapsSet s s' dir d (PGNUM va) (some (pp, perm ||| PTE_P)) := by
    intro s' hs'
    rw [← readPte_pteFor (by omega) hperm]
    refine mapsSet_of_entries ?_
    rw [PGNUM_div, PGNUM_mod]
    exact hs'.pteAt
  rcases page_insert_cases perm hs ho hva hp with ⟨t, ht, he⟩ | ⟨-, -, he⟩ | ⟨q, rest, ht, rfl, he⟩
  · exact Or.inr ⟨_, he, hset _ (entrySet_insertAt hs.toApart ho hi ht)⟩
  · exact Or.inl he
  · exact Or.inr ⟨_, he, hset _ (entrySet_newTable hs ho hi ht)⟩

omit [Fintype ι] in
theorem remove_sets_map (hs : Apart s dir) (ho : dir o = some d) (hva : va < UTOP) :
    ∃ s', page_remove s d va = .ok s' ∧ MapsSet s s' dir d (PGNUM va) none := by
  have hi := PDX_lt_NPDU hva
  rcases page_remove_cases hs ho hva with ⟨hnone, he⟩ | ⟨t, q, ht, -, he⟩
  · refine ⟨s, he, fun o' d' _ m _ => ?_⟩
    -- there was nothing to remove
    have habs : pageMap s d (PGNUM va) = none := by
      rw [pageMap, PGNUM_div, PGNUM_mod, readPte, hnone, Option.map_none]
    rw [← habs, Function.update_eq_self]
    split
    · rename_i hd; rw [hd]
    · rfl
  · refine ⟨_, he, ?_⟩
    rw [← readPte_zero]
    refine mapsSet_of_entries ?_
    rw [PGNUM_div, PGNUM_mod]
    exact (entrySet_unlink hs ho hi ht).pteAt

/-! ## The law -/

/-- The page tables are the maps. A lookup reads the map of its directory. An
insertion fails with `-E_NO_MEM` and nothing changed, or it sets one place
of one map. A removal clears one place of one map. -/
theorem page_tables_are_maps [DecidableEq ι] (h : TablesOwned s dir kept) (ho : dir o = some d)
    (hva : va < UTOP) :
    ((∃ r, page_lookup s d va = .ok r ∧
        (r.map fun x => (x.1, permOf (s.mem x.2.page x.2.idx))) = pageMap s d (PGNUM va)) ∧
      ∃ pte, pgdir_walk s d va false = .ok (pte, s) ∧
        (pte.bind fun a => readPte (s.mem a.page a.idx)) = pageMap s d (PGNUM va)) ∧
    (∀ pp < s.npages, ∀ perm < (0x1000 : Word),
      page_insert s d pp va perm = .ok (-E_NO_MEM, s) ∨
      ∃ s', page_insert s d pp va perm = .ok (0, s') ∧
        MapsSet s s' dir d (PGNUM va) (some (pp, perm ||| PTE_P))) ∧
    ∃ s', page_remove s d va = .ok s' ∧ MapsSet s s' dir d (PGNUM va) none := by
  obtain ⟨free, hs⟩ := h.separated
  refine ⟨lookup_reads_map hs.toApart ho hva, ?_, remove_sets_map hs.toApart ho hva⟩
  intro pp hp perm hperm
  exact insert_sets_map hs ho hva hp hperm

end map

/-- On the small machine, with page 3 mapped at the first page. -/
theorem page_tables_are_maps_small :
    TablesOwned smallMachine dirOne (fun p => p ∈ [2, 3] ∨ ∃ o, dirOne o = some p) ∧
    ∃ s', page_insert smallMachine 1 3 0 7 = .ok (0, s') ∧
      MapsSet smallMachine s' dirOne 1 0 (some (3, 7)) := by
  have hown := smallMachine_accounted.tablesOwned
  refine ⟨hown, ?_⟩
  have h := @page_tables_are_maps Unit _ _ _ () 1 0 _ _ hown rfl (by decide)
  rcases h.2.1 3 (by decide) 7 (by decide) with he | he
  · exact absurd (congrArg (Except.map Prod.fst) he) (by decide)
  · exact he

end jos
