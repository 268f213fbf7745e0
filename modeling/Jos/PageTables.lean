-- What each function of the page allocator and of the page tables does, as
-- one equation, and what the page tables say afterwards. The page tables of
-- all live directories are kept apart (`Separated`), so one store changes
-- one entry of one directory.
import Jos.Pmap
import Jos.Lib.LinkedList

namespace jos

open linked_list (Chain)

/-! ## The two levels, read -/

/-- The page table that entry `i` of a page directory names. -/
def table (s : Phys) (d i : Nat) : Option Nat := pageOf (s.mem d i)

/-- Entry `j` of that table, when there is one. -/
def entry (s : Phys) (d i j : Nat) : Option Word := (table s d i).map fun t => s.mem t j

/-- The page at an address, with the place of its entry. -/
def lookup (s : Phys) (d : Nat) (va : Word) : Option (Nat × PteAddr) :=
  (table s d (PDX va)).bind fun t =>
    (pageOf (s.mem t (PTX va))).map fun p => (p, ⟨t, PTX va⟩)

/-- The entry of a page, with 0 where there is no table. -/
def pteAt (s : Phys) (d i j : Nat) : Word := (entry s d i j).getD 0

/-- The live page directories, one for each owner that has one, and their
page tables below `UTOP` are pairwise different pages. -/
structure Apart {ι : Type} (s : Phys) (dir : ι → Option Nat) : Prop where
  table_lt : ∀ o d i t, dir o = some d → i < NPDU → table s d i = some t → t < s.npages
  table_dir : ∀ o d i t, dir o = some d → i < NPDU → table s d i = some t → ∀ o', dir o' ≠ some t
  table_inj : ∀ o o' d d' i i' t, dir o = some d → dir o' = some d' → i < NPDU → i' < NPDU →
    table s d i = some t → table s d' i' = some t → d = d' ∧ i = i'

/-- The free pages are none of them. -/
structure Separated {ι : Type} (s : Phys) (dir : ι → Option Nat) (free : List Nat) : Prop
    extends Apart s dir where
  chain : Chain s.link s.page_free_list free
  free_lt : ∀ p ∈ free, p < s.npages
  free_dir : ∀ p ∈ free, ∀ o, dir o ≠ some p
  free_table : ∀ p ∈ free, ∀ o d i, dir o = some d → i < NPDU → table s d i ≠ some p

/-! ## The states that the functions leave -/

namespace Phys

/-- The free list without its head `p`. -/
def taken (s : Phys) (p : Nat) : Phys := { s with page_free_list := s.link p }.setLink p none

/-- `p` as `page_alloc` hands it out. -/
def alloced (s : Phys) (p : Nat) (alloc_flags : Word) : Phys :=
  (if alloc_flags = 0 then s.taken p else (s.taken p).zero p).setRef p 0

/-- `p` as a new page table at entry `i` of directory `d`. -/
def newTable (s : Phys) (d i p : Nat) : Phys :=
  (((s.alloced p (BitVec.ofNat 32 PGSIZE)).setRef p 1).zero p).write d i
    (page2pa p ||| PTE_P ||| PTE_W ||| PTE_U)

/-- One reference to `p` less. -/
def decref (s : Phys) (p : Nat) : Phys :=
  if s.ref p - 1 = 0 then (s.setRef p (s.ref p - 1)).pushFree p else s.setRef p (s.ref p - 1)

/-- One reference to `p` more. -/
def incref (s : Phys) (p : Nat) : Phys := s.setRef p (s.ref p + 1)

variable (s : Phys) (p d i q j : Nat) (fl : Word)

@[simp] theorem alloced_npages : (s.alloced p fl).npages = s.npages := by
  unfold alloced; split <;> rfl

@[simp] theorem alloced_free : (s.alloced p fl).page_free_list = s.link p := by
  unfold alloced; split <;> rfl

@[simp] theorem alloced_link : (s.alloced p fl).link = Function.update s.link p none := by
  unfold alloced taken
  split <;> simp <;> rfl

@[simp] theorem alloced_ref : (s.alloced p fl).ref = Function.update s.ref p 0 := by
  unfold alloced taken
  split <;> simp <;> rfl

theorem alloced_mem : (s.alloced p fl).mem q j = if fl ≠ 0 ∧ q = p then 0 else s.mem q j := by
  have htaken : (s.taken p).mem = s.mem := rfl
  unfold alloced
  split
  · rw [setRef_mem, htaken, if_neg (fun h => h.1 ‹_›)]
  · rw [setRef_mem, zero_mem, htaken]
    by_cases hq : q = p
    · rw [if_pos hq, if_pos ⟨‹_›, hq⟩]
    · rw [if_neg hq, if_neg (fun h => hq h.2)]

@[simp] theorem newTable_npages : (s.newTable d i p).npages = s.npages := by simp [newTable]

@[simp] theorem newTable_free : (s.newTable d i p).page_free_list = s.link p := by simp [newTable]

@[simp] theorem newTable_link : (s.newTable d i p).link = Function.update s.link p none := by
  simp [newTable]

@[simp] theorem newTable_ref : (s.newTable d i p).ref = Function.update s.ref p 1 := by
  simp [newTable]

theorem newTable_mem : (s.newTable d i p).mem q j =
    if q = d ∧ j = i then page2pa p ||| PTE_P ||| PTE_W ||| PTE_U
    else if q = p then 0 else s.mem q j := by
  have hfl : BitVec.ofNat 32 PGSIZE ≠ 0 := by decide
  rw [newTable, write_mem, zero_mem, setRef_mem, alloced_mem]
  by_cases hq : q = p <;> simp [hq]

@[simp] theorem decref_npages : (s.decref p).npages = s.npages := by
  unfold decref; split <;> rfl

@[simp] theorem decref_mem : (s.decref p).mem = s.mem := by
  unfold decref; split <;> rfl

@[simp] theorem decref_ref : (s.decref p).ref = Function.update s.ref p (s.ref p - 1) := by
  unfold decref; split <;> simp

theorem decref_free : (s.decref p).page_free_list =
    if s.ref p - 1 = 0 then some p else s.page_free_list := by
  unfold decref; split <;> rfl

theorem decref_link : (s.decref p).link =
    if s.ref p - 1 = 0 then Function.update s.link p s.page_free_list else s.link := by
  unfold decref; split <;> simp

@[simp] theorem incref_npages : (s.incref p).npages = s.npages := rfl
@[simp] theorem incref_mem : (s.incref p).mem = s.mem := rfl
@[simp] theorem incref_free : (s.incref p).page_free_list = s.page_free_list := rfl
@[simp] theorem incref_link : (s.incref p).link = s.link := setRef_link ..
@[simp] theorem incref_ref : (s.incref p).ref = Function.update s.ref p (s.ref p + 1) := setRef_ref ..

end Phys

/-! ## The functions as equations -/

variable {s : Phys} {d p t : Nat} {va perm fl : Word}

theorem PGNUM_page2pa (h : p < s.npages) : PGNUM (page2pa p) = p := by
  have := s.npages_le
  rw [PGNUM_eq, page2pa_toNat (by omega)]
  omega

theorem page2kva_eq (h : p < s.npages) : page2kva s p = .ok p := by
  rw [page2kva, KADDR, PGNUM_page2pa h, if_neg (by omega)]

theorem KADDR_eq {w : Word} (hw : pageOf w = some t) (h : t < s.npages) :
    KADDR s (PTE_ADDR w) = .ok t := by
  have ht := (pageOf_eq_some.mp hw).2
  rw [KADDR, PGNUM_PTE_ADDR, ht, if_neg (by omega)]

theorem page_alloc_none (h : s.page_free_list = none) : page_alloc s fl = .ok (none, s) := by
  rw [page_alloc, h]

theorem page_alloc_eq_none {s' : Phys} (h : page_alloc s fl = .ok (none, s')) : s' = s := by
  rcases hf : s.page_free_list with _ | p
  · rw [page_alloc_none hf] at h; cases h; rfl
  · simp only [page_alloc, hf] at h
    split at h
    · rcases hk : page2kva (s.taken p) p with e | kva
      · have h : (do let kva ← page2kva (s.taken p) p; _) = _ := h
        rw [hk] at h; cases h
      · have h : (do let kva ← page2kva (s.taken p) p; _) = _ := h
        rw [hk] at h; cases h
    · cases h

theorem page_alloc_some (h : s.page_free_list = some p) (hp : p < s.npages) :
    page_alloc s fl = .ok (some p, s.alloced p fl) := by
  rw [page_alloc, h]
  have hkva : page2kva (s.taken p) p = .ok p := page2kva_eq hp
  have hone : ALLOC_ZERO ≠ 0 := by decide
  simp only [Phys.alloced]
  by_cases hfl : fl = 0
  · simp [hfl]; rfl
  · simp only [hfl, ne_eq, not_false_eq_true, hone, and_self, if_true, if_false]
    show (do let kva ← page2kva (s.taken p) p; _) = _
    rw [hkva]
    rfl

theorem page_free_eq (h : s.ref p = 0) : page_free s p = .ok (s.pushFree p) := by
  rw [page_free, if_neg]
  exact fun hne => hne h

theorem page_decref_eq : page_decref s p = .ok (s.decref p) := by
  have href : ((s.setRef p ((s.pages p).pp_ref - 1)).pages p).pp_ref = s.ref p - 1 := by
    simp [Phys.setRef, Phys.ref]
  unfold page_decref Phys.decref
  simp only [href]
  split
  · rw [page_free_eq (by rw [Phys.setRef_ref, Function.update_self]; assumption)]; rfl
  · rfl

theorem walk_present {create : Bool} (h : table s d (PDX va) = some t) (ht : t < s.npages) :
    pgdir_walk s d va create = .ok (some ⟨t, PTX va⟩, s) := by
  have hp := (pageOf_eq_some.mp h).1
  unfold pgdir_walk
  simp only [hp, if_true, KADDR_eq h ht]
  rfl

theorem walk_absent (h : table s d (PDX va) = none) :
    pgdir_walk s d va false = .ok (none, s) := by
  have hp := pageOf_eq_none.mp h
  unfold pgdir_walk
  simp [hp]
  rfl

theorem walk_no_mem (h : table s d (PDX va) = none) (hf : s.page_free_list = none) :
    pgdir_walk s d va true = .ok (none, s) := by
  have hp := pageOf_eq_none.mp h
  unfold pgdir_walk
  simp [hp, page_alloc_none hf]
  rfl

theorem walk_new (h : table s d (PDX va) = none) (hf : s.page_free_list = some p)
    (hp : p < s.npages) :
    pgdir_walk s d va true = .ok (some ⟨p, PTX va⟩, s.newTable d (PDX va) p) := by
  have habs := pageOf_eq_none.mp h
  have href : ((s.alloced p (BitVec.ofNat 32 PGSIZE)).pages p).pp_ref + 1 = 1 := by
    have : (s.alloced p (BitVec.ofNat 32 PGSIZE)).ref p + 1 = 1 := by simp
    exact this
  have hkva : page2kva ((s.alloced p (BitVec.ofNat 32 PGSIZE)).setRef p 1) p = .ok p :=
    page2kva_eq (by simpa using hp)
  unfold pgdir_walk
  simp only [habs, Bool.false_eq_true, if_false, Bool.not_true, page_alloc_some hf hp]
  show (do let pgTab ← page2kva ((s.alloced p (BitVec.ofNat 32 PGSIZE)).setRef p _) p; _) = _
  rw [href, hkva]
  rfl

theorem page_lookup_eq (h : ∀ t, table s d (PDX va) = some t → t < s.npages) :
    page_lookup s d va = .ok (lookup s d va) := by
  unfold page_lookup lookup
  rcases ht : table s d (PDX va) with _ | t
  · rw [walk_absent ht]; rfl
  · rw [walk_present ht (h t ht)]
    simp only [Option.bind_some, pageOf]
    show (if _ then _ else _) = _
    split <;> simp <;> rfl

theorem page_remove_none (h : ∀ t, table s d (PDX va) = some t → t < s.npages)
    (hl : lookup s d va = none) : page_remove s d va = .ok s := by
  unfold page_remove
  rw [page_lookup_eq h, hl]
  rfl

theorem page_remove_some {a : PteAddr} (h : ∀ t, table s d (PDX va) = some t → t < s.npages)
    (hl : lookup s d va = some (p, a)) :
    page_remove s d va = .ok ((s.decref p).write a.page a.idx 0) := by
  unfold page_remove
  rw [page_lookup_eq h, hl]
  show (do let s ← page_decref s p; _) = _
  rw [page_decref_eq]
  rfl

/-- What `page_insert` does once it has the entry `j` of table `t`: a page
that stands there already keeps its references, another one is removed. -/
def Phys.insertAt (s : Phys) (t j pp : Nat) (perm : Word) : Phys :=
  match pageOf (s.mem t j) with
  | none => (s.write t j (pteFor pp perm)).incref pp
  | some q =>
    if q = pp then s.write t j (pteFor pp perm)
    else (((s.decref q).write t j 0).write t j (pteFor pp perm)).incref pp

theorem PTE_ADDR_eq_page2pa {w : Word} (hw : pageOf w = some t) (hp : p < s.npages) :
    PTE_ADDR w = page2pa p ↔ t = p := by
  have hlt := s.npages_le
  have ht := (pageOf_eq_some.mp hw).2
  have hw32 := w.isLt
  rw [← BitVec.toNat_inj, page2pa_toNat (by omega), PTE_ADDR_toNat]
  omega

theorem page_insert_walk {s₀ : Phys}
    (hw : pgdir_walk s₀ d va true = .ok (some ⟨t, PTX va⟩, s))
    (ht : table s d (PDX va) = some t) (htlt : t < s.npages) (hp : p < s.npages) :
    page_insert s₀ d p va perm = .ok (0, s.insertAt t (PTX va) p perm) := by
  have hlt : ∀ t, table s d (PDX va) = some t → t < s.npages := by
    intro t' ht'
    rw [ht] at ht'
    cases ht'
    exact htlt
  unfold page_insert Phys.insertAt
  rw [hw]
  rcases hq : pageOf (s.mem t (PTX va)) with _ | q
  · have habs := pageOf_eq_none.mp hq
    show (if present (s.mem t (PTX va)) then _ else _) = _
    rw [habs]
    rfl
  · have hpres := (pageOf_eq_some.mp hq).1
    have hl : lookup s d va = some (q, ⟨t, PTX va⟩) := by simp [lookup, ht, hq]
    show (if present (s.mem t (PTX va)) then _ else _) = _
    rw [hpres, if_pos rfl]
    by_cases hqp : q = p
    · rw [if_pos ((PTE_ADDR_eq_page2pa hq hp).mpr hqp)]
      simp only [hqp, if_true]
      rfl
    · rw [if_neg (fun h => hqp ((PTE_ADDR_eq_page2pa hq hp).mp h)), page_remove_some hlt hl]
      simp only [hqp, if_false]
      rfl

/-- No table and no page for one: `page_insert` fails and does nothing else. -/
theorem page_insert_no_mem (h : table s d (PDX va) = none) (hf : s.page_free_list = none) :
    page_insert s d p va perm = .ok (-E_NO_MEM, s) := by
  unfold page_insert
  rw [walk_no_mem h hf]
  rfl

/-! ## What the stores change in the tables -/

theorem table_congr {s' : Phys} (h : s'.mem = s.mem) : table s' = table s := by
  funext d i; simp [table, h]

theorem pteAt_congr {s' : Phys} (h : s'.mem = s.mem) : pteAt s' = pteAt s := by
  funext d i j; simp [pteAt, entry, table, h]

@[simp] theorem table_decref (q : Nat) : table (s.decref q) = table s :=
  table_congr (Phys.decref_mem ..)

theorem Phys.insertAt_mem (j : Nat) :
    (s.insertAt t j p perm).mem = (s.write t j (pteFor p perm)).mem := by
  unfold Phys.insertAt
  split
  · rfl
  · split
    · rfl
    · rw [Phys.write_write, Phys.incref_mem, Phys.write, Phys.write, Phys.decref_mem]

/-- The entry at `va` says what `page_lookup` finds there. -/
theorem lookup_map (s : Phys) (d : Nat) (va : Word) :
    (lookup s d va).map Prod.fst = (entry s d (PDX va) (PTX va)).bind pageOf := by
  unfold lookup entry
  rcases table s d (PDX va) with _ | t
  · rfl
  · simp only [Option.bind_some, Option.map_some]
    cases pageOf (s.mem t (PTX va)) <;> rfl

section stores

variable {ι : Type} {dir : ι → Option Nat} {free : List Nat} {o o' : ι} {d' i i' j j' : Nat}
  {w : Word}

theorem table_write (hs : Apart s dir) (ho : dir o = some d) (hi : i < NPDU)
    (ht : table s d i = some t) (ho' : dir o' = some d') :
    table (s.write t j w) d' i' = table s d' i' := by
  have hne : d' ≠ t := fun he => hs.table_dir o d i t ho hi ht o' (he ▸ ho')
  simp [table, Phys.write_mem, hne]

theorem entry_write (hs : Apart s dir) (ho : dir o = some d) (hi : i < NPDU)
    (ht : table s d i = some t) (ho' : dir o' = some d') (hi' : i' < NPDU) :
    entry (s.write t j w) d' i' j' =
      if d' = d ∧ i' = i ∧ j' = j then some w else entry s d' i' j' := by
  unfold entry
  rw [table_write hs ho hi ht ho']
  rcases ht' : table s d' i' with _ | t'
  · have : ¬ (d' = d ∧ i' = i ∧ j' = j) := by
      rintro ⟨rfl, rfl, -⟩
      rw [ht] at ht'
      cases ht'
    simp [this]
  · by_cases he : t' = t
    · obtain ⟨rfl, rfl⟩ := hs.table_inj o' o d' d i' i t' ho' ho hi' hi ht' (he ▸ ht)
      by_cases hj : j' = j <;> simp [Phys.write_mem, he, hj]
    · have : ¬ (d' = d ∧ i' = i ∧ j' = j) := by
        rintro ⟨rfl, rfl, -⟩
        rw [ht] at ht'
        exact he (Option.some.inj ht').symm
      simp [Phys.write_mem, he, this]

/-- A page from the free list is no directory and no table, so clearing it
changes no entry. -/
theorem table_alloced (hs : Separated s dir free) (hp : p ∈ free) (ho' : dir o' = some d') :
    table (s.alloced p fl) d' i' = table s d' i' := by
  have hne : d' ≠ p := fun he => hs.free_dir p hp o' (he ▸ ho')
  simp [table, Phys.alloced_mem, hne]

theorem entry_alloced (hs : Separated s dir free) (hp : p ∈ free) (ho' : dir o' = some d')
    (hi' : i' < NPDU) : entry (s.alloced p fl) d' i' j' = entry s d' i' j' := by
  unfold entry
  rw [table_alloced hs hp ho']
  rcases ht' : table s d' i' with _ | t'
  · rfl
  · have hne : t' ≠ p := fun he => hs.free_table p hp o' d' i' ho' hi' (he ▸ ht')
    simp [Phys.alloced_mem, hne]

theorem pageOf_pde (hp : p < s.npages) :
    pageOf (page2pa p ||| PTE_P ||| PTE_W ||| PTE_U) = some p := by
  have hlt := s.npages_le
  have h := @pageOf_pteFor p (PTE_W ||| PTE_U) (by omega) (by decide)
  unfold pteFor at h
  rwa [← BitVec.or_assoc] at h

theorem table_newTable (hs : Separated s dir free) (hp : p ∈ free) (ho' : dir o' = some d') :
    table (s.newTable d i p) d' i' = if d' = d ∧ i' = i then some p else table s d' i' := by
  have hne : d' ≠ p := fun he => hs.free_dir p hp o' (he ▸ ho')
  by_cases hdi : d' = d ∧ i' = i
  · simp only [table, Phys.newTable_mem, hdi, and_self, if_true]
    exact pageOf_pde (hs.free_lt p hp)
  · simp [table, Phys.newTable_mem, hne, hdi]

theorem entry_newTable (hs : Separated s dir free) (hp : p ∈ free) (ho : dir o = some d)
    (ho' : dir o' = some d') (hi' : i' < NPDU) :
    entry (s.newTable d i p) d' i' j' = if d' = d ∧ i' = i then some 0 else entry s d' i' j' := by
  have hpd : p ≠ d := fun he => hs.free_dir p hp o (he ▸ ho)
  unfold entry
  rw [table_newTable hs hp ho']
  by_cases hdi : d' = d ∧ i' = i
  · simp [hdi, Phys.newTable_mem, hpd]
  · simp only [hdi, if_false]
    rcases ht' : table s d' i' with _ | t'
    · rfl
    · have hne : t' ≠ p := fun he => hs.free_table p hp o' d' i' ho' hi' (he ▸ ht')
      have hne' : t' ≠ d := fun he => hs.table_dir o' d' i' t' ho' hi' ht' o (he ▸ ho)
      simp [Phys.newTable_mem, hne, hne']

theorem Apart.write (hs : Apart s dir) (ho : dir o = some d) (hi : i < NPDU)
    (ht : table s d i = some t) : Apart (s.write t j w) dir where
  table_lt o₁ d₁ i₁ t₁ h₁ hi₁ := by
    rw [table_write hs ho hi ht h₁]; exact hs.table_lt o₁ d₁ i₁ t₁ h₁ hi₁
  table_dir o₁ d₁ i₁ t₁ h₁ hi₁ := by
    rw [table_write hs ho hi ht h₁]; exact hs.table_dir o₁ d₁ i₁ t₁ h₁ hi₁
  table_inj o₁ o₂ d₁ d₂ i₁ i₂ t₁ h₁ h₂ := by
    rw [table_write hs ho hi ht h₁, table_write hs ho hi ht h₂]
    exact hs.table_inj o₁ o₂ d₁ d₂ i₁ i₂ t₁ h₁ h₂

theorem Apart.decref (hs : Apart s dir) (q : Nat) : Apart (s.decref q) dir where
  table_lt := by simpa using hs.table_lt
  table_dir := by simpa using hs.table_dir
  table_inj := by simpa using hs.table_inj

/-- A free page becomes a table of one directory, and everything stays apart. -/
theorem Separated.newTable (hs : Separated s dir (p :: free)) :
    Separated (s.newTable d i p) dir free := by
  have hp : p ∈ p :: free := List.mem_cons_self ..
  have hpfree := (List.nodup_cons.mp hs.chain.nodup).1
  have htab : ∀ {o' d' i'}, dir o' = some d' → table (s.newTable d i p) d' i' =
      if d' = d ∧ i' = i then some p else table s d' i' := fun ho' => table_newTable hs hp ho'
  refine ⟨⟨?_, ?_, ?_⟩, ?_, ?_, ?_, ?_⟩
  · intro o' d' i' t' ho' hi' ht'
    rw [htab ho'] at ht'
    split at ht'
    · cases ht'; simpa using hs.free_lt p hp
    · simpa using hs.table_lt o' d' i' t' ho' hi' ht'
  · intro o' d' i' t' ho' hi' ht'
    rw [htab ho'] at ht'
    split at ht'
    · cases ht'; exact hs.free_dir p hp
    · exact hs.table_dir o' d' i' t' ho' hi' ht'
  · intro o₁ o₂ d₁ d₂ i₁ i₂ t' h₁ h₂ hi₁ hi₂ ht₁ ht₂
    rw [htab h₁] at ht₁
    rw [htab h₂] at ht₂
    split at ht₁ <;> split at ht₂
    · simp_all
    · cases ht₁; exact absurd ht₂ (hs.free_table p hp o₂ d₂ i₂ h₂ hi₂)
    · cases ht₂; exact absurd ht₁ (hs.free_table p hp o₁ d₁ i₁ h₁ hi₁)
    · exact hs.table_inj o₁ o₂ d₁ d₂ i₁ i₂ t' h₁ h₂ hi₁ hi₂ ht₁ ht₂
  · rw [Phys.newTable_link, Phys.newTable_free]
    exact hs.chain.pop
  · intro q hq
    simpa using hs.free_lt q (List.mem_cons_of_mem _ hq)
  · intro q hq
    exact hs.free_dir q (List.mem_cons_of_mem _ hq)
  · intro q hq o' d' i' ho' hi'
    rw [htab ho']
    split
    · rintro ⟨⟩; exact hpfree hq
    · exact hs.free_table q (List.mem_cons_of_mem _ hq) o' d' i' ho' hi'

/-! ## What the functions change in the tables -/

theorem pteAt_write (hs : Apart s dir) (ho : dir o = some d) (hi : i < NPDU)
    (ht : table s d i = some t) (ho' : dir o' = some d') (hi' : i' < NPDU) :
    pteAt (s.write t j w) d' i' j' =
      if d' = d ∧ i' = i ∧ j' = j then w else pteAt s d' i' j' := by
  unfold pteAt
  rw [entry_write hs ho hi ht ho' hi']
  split <;> rfl

theorem pteAt_newTable (hs : Separated s dir free) (hp : p ∈ free) (ho : dir o = some d)
    (h : table s d i = none) (ho' : dir o' = some d') (hi' : i' < NPDU) :
    pteAt (s.newTable d i p) d' i' j' = pteAt s d' i' j' := by
  unfold pteAt
  rw [entry_newTable hs hp ho ho' hi']
  split
  · rename_i he
    simp [entry, he, h]
  · rfl

theorem table_insertAt (hs : Apart s dir) (ho : dir o = some d) (hi : i < NPDU)
    (ht : table s d i = some t) (ho' : dir o' = some d') :
    table (s.insertAt t j p perm) d' i' = table s d' i' := by
  rw [table_congr (Phys.insertAt_mem j)]
  exact table_write hs ho hi ht ho'

theorem pteAt_insertAt (hs : Apart s dir) (ho : dir o = some d) (hi : i < NPDU)
    (ht : table s d i = some t) (ho' : dir o' = some d') (hi' : i' < NPDU) :
    pteAt (s.insertAt t j p perm) d' i' j' =
      if d' = d ∧ i' = i ∧ j' = j then pteFor p perm else pteAt s d' i' j' := by
  rw [pteAt_congr (Phys.insertAt_mem j)]
  exact pteAt_write hs ho hi ht ho' hi'

/-- `page_insert` finds a table, makes one, or has no page for one. -/
theorem page_insert_cases (perm : Word) (hs : Separated s dir free) (ho : dir o = some d) (hva : va < UTOP)
    (hp : p < s.npages) :
    (∃ t, table s d (PDX va) = some t ∧
      page_insert s d p va perm = .ok (0, s.insertAt t (PTX va) p perm)) ∨
    (table s d (PDX va) = none ∧ free = [] ∧
      page_insert s d p va perm = .ok (-E_NO_MEM, s)) ∨
    (∃ q rest, table s d (PDX va) = none ∧ free = q :: rest ∧
      page_insert s d p va perm =
        .ok (0, (s.newTable d (PDX va) q).insertAt q (PTX va) p perm)) := by
  have hi := PDX_lt_NPDU hva
  rcases ht : table s d (PDX va) with _ | t
  · refine Or.inr ?_
    rcases free with _ | ⟨q, rest⟩
    · exact Or.inl ⟨rfl, rfl, page_insert_no_mem ht hs.chain⟩
    · have hq := List.mem_cons_self (a := q) (l := rest)
      refine Or.inr ⟨q, rest, rfl, rfl, ?_⟩
      refine page_insert_walk (walk_new ht hs.chain.1 (hs.free_lt q hq)) ?_ ?_ ?_
      · rw [table_newTable hs hq ho]; simp
      · simpa using hs.free_lt q hq
      · simpa using hp
  · have hlt := hs.table_lt o d _ t ho hi ht
    exact Or.inl ⟨t, rfl, page_insert_walk (walk_present ht hlt) ht hlt hp⟩

/-- `page_remove` finds no page, or clears the entry of the page it finds. -/
theorem page_remove_cases (hs : Apart s dir) (ho : dir o = some d) (hva : va < UTOP) :
    (pageOf (pteAt s d (PDX va) (PTX va)) = none ∧ page_remove s d va = .ok s) ∨
    (∃ t q, table s d (PDX va) = some t ∧ pageOf (s.mem t (PTX va)) = some q ∧
      page_remove s d va = .ok ((s.decref q).write t (PTX va) 0)) := by
  have hlt := fun t => hs.table_lt o d (PDX va) t ho (PDX_lt_NPDU hva)
  rcases ht : table s d (PDX va) with _ | t
  · refine Or.inl ⟨by simp [pteAt, entry, ht], page_remove_none hlt ?_⟩
    simp [lookup, ht]
  · rcases hq : pageOf (s.mem t (PTX va)) with _ | q
    · refine Or.inl ⟨by simp [pteAt, entry, ht, hq], page_remove_none hlt ?_⟩
      simp [lookup, ht, hq]
    · have hl : lookup s d va = some (q, ⟨t, PTX va⟩) := by simp [lookup, ht, hq]
      exact Or.inr ⟨t, q, rfl, hq, page_remove_some hlt hl⟩

end stores

end jos
