-- The memory of an environment, from the first page to the last: a new page
-- directory, the stores of a user, and `env_free`, which takes a whole
-- address space apart. The accounts of the pages stay right throughout.
import Jos.Env
import Jos.PageAccounting

namespace jos

open linked_list (Chain)
open ledger
open loop (forUpto forUpto_total)

variable {ι : Type} [Fintype ι] [DecidableEq ι] {s s' : Phys} {dir : ι → Option Nat}
  {kept : Nat → Prop} {free : List Nat} {o : ι} {d p t kern : Nat} {w : Word}

/-! ## A new page directory -/

namespace Phys

/-- `p` as a new page directory: the kernel's entries, and itself at `UVPT`. -/
def newDir (s : Phys) (kern p : Nat) : Phys :=
  let s := (s.alloced p ALLOC_ZERO).setRef p 1
  { s with mem := Function.update s.mem p fun i =>
      if i < NPTENTRIES then s.mem kern i else s.mem p i }.write p (PDX UVPT)
    (page2pa p ||| PTE_P ||| PTE_U)

@[simp] theorem newDir_npages : (s.newDir kern p).npages = s.npages := by simp [newDir]

@[simp] theorem newDir_free : (s.newDir kern p).page_free_list = s.link p := by simp [newDir]

@[simp] theorem newDir_link : (s.newDir kern p).link = Function.update s.link p none := by
  have h : (s.newDir kern p).link = ((s.alloced p ALLOC_ZERO).setRef p 1).link := rfl
  rw [h]; simp

@[simp] theorem newDir_ref : (s.newDir kern p).ref = Function.update s.ref p 1 := by
  have h : (s.newDir kern p).ref = ((s.alloced p ALLOC_ZERO).setRef p 1).ref := rfl
  rw [h]; simp

theorem newDir_mem_ne {q : Nat} (hq : q ≠ p) : (s.newDir kern p).mem q = s.mem q := by
  funext j
  simp [newDir, write_mem, hq, alloced_mem]

theorem newDir_mem {i : Nat} (hkern : kern ≠ p) (hi : i < NPTENTRIES) (hself : i ≠ PDX UVPT) :
    (s.newDir kern p).mem p i = s.mem kern i := by
  simp [newDir, write_mem, hself, alloced_mem, hi, hkern]

end Phys

theorem env_setup_vm_some (hf : s.page_free_list = some p) (hp : p < s.npages) :
    env_setup_vm s kern = .ok (some p, s.newDir kern p) := by
  have href : ((s.alloced p ALLOC_ZERO).pages p).pp_ref + 1 = 1 := by
    have : (s.alloced p ALLOC_ZERO).ref p + 1 = 1 := by simp
    exact this
  have hkva : page2kva ((s.alloced p ALLOC_ZERO).setRef p 1) p = .ok p :=
    page2kva_eq (by simpa using hp)
  simp only [env_setup_vm, page_alloc_some hf hp, href, hkva]
  rfl

omit [Fintype ι] in
/-- A new directory refers to itself and to nothing else below `UTOP`. -/
theorem slots_newDir (hs : Separated s dir free) (hp : p ∈ free) (ho : dir o = none)
    (hkern : kern ≠ p) (hempty : ∀ i < NPDU, table s kern i = none) :
    slots (s.newDir kern p) (Function.update dir o (some p)) =
      Function.update (slots s dir) (.own o) (some p) := by
  have hlow : ∀ i < NPDU, i < NPTENTRIES ∧ i ≠ PDX UVPT := by
    intro i hi
    have huvpt : PDX UVPT = 957 := by decide
    have hn : NPTENTRIES = 1024 := rfl
    rw [NPDU_eq] at hi
    omega
  have hnew : ∀ i < NPDU, table (s.newDir kern p) p i = none := by
    intro i hi
    unfold table
    rw [Phys.newDir_mem hkern (hlow i hi).1 (hlow i hi).2]
    exact hempty i hi
  have htable : ∀ o' d' i, dir o' = some d' → table (s.newDir kern p) d' i = table s d' i := by
    intro o' d' i ho'
    unfold table
    rw [Phys.newDir_mem_ne fun he : d' = p => hs.free_dir p hp o' (he ▸ ho')]
  funext r
  cases r with
  | own o' => by_cases h : o' = o <;> simp [slots, h]
  | pde o' i =>
    rw [Function.update_of_ne (by simp)]
    by_cases h : o' = o
    · simp [slots, h, ho, hnew i i.isLt]
    · rcases hd : dir o' with _ | d'
      · simp [slots, h, hd]
      · simp [slots, h, hd, htable o' d' i hd]
  | pte o' i j =>
    rw [Function.update_of_ne (by simp)]
    by_cases h : o' = o
    · simp [slots, h, ho, entry, hnew i i.isLt]
    · rcases hd : dir o' with _ | d'
      · simp [slots, h, hd]
      · simp only [slots, h, hd, ne_eq, not_false_eq_true, Function.update_of_ne,
          Option.bind_some, entry, htable o' d' i hd]
        rcases ht : table s d' i with _ | t
        · rfl
        · rw [Option.map_some, Option.map_some,
            Phys.newDir_mem_ne fun he : t = p => hs.free_table p hp o' d' i hd i.isLt (he ▸ ht)]

theorem Accounted.newDir (h : Accounted s dir kept (p :: free)) (ho : dir o = none)
    (hkern : kern ≠ p) (hempty : ∀ i < NPDU, table s kern i = none) :
    Accounted (s.newDir kern p) (Function.update dir o (some p)) kept free := by
  have hp : p ∈ p :: free := List.mem_cons_self ..
  have h₁ : Accounted (s.alloced p 1) dir kept free := h.alloced
  have hsame : slots (s.alloced p 1) dir = slots s dir := slots_alloced h.separated hp
  refine h₁.linked (r := .own o) ?_ ?_ (h.balanced.free_kept p hp)
    (List.nodup_cons.mp h.balanced.nodup).1 (Or.inl ?_) (by simp) (by simp) ?_ (by simp)
  · rw [slots_newDir h.separated hp ho hkern hempty, hsame]
  · exact ho
  · rw [hsame]; exact h.unnamed hp
  · rw [Phys.newDir_link, Phys.newDir_free]; exact h.chain.pop

omit [Fintype ι] [DecidableEq ι] in
theorem noLoss_newDir (hc : Chain s.link s.page_free_list (p :: free)) :
    NoLoss s (s.newDir kern p) := by
  intro x hx
  rcases lost_taken hc Phys.newDir_ref Phys.newDir_link Phys.newDir_free hx with h | ⟨-, h⟩
  · exact h
  · cases h

/-! ## Data pages -/

omit [Fintype ι] [DecidableEq ι] in
/-- A store to a page that is no directory and no page table changes no
reference. -/
theorem slots_data {i : Nat} (hdata : ∀ r, slots s dir r = some p → r.shared) :
    slots (s.write p i w) dir = slots s dir := by
  have htable : ∀ o d i', dir o = some d → table (s.write p i w) d i' = table s d i' := by
    intro o d i' ho
    have hne : d ≠ p := fun he => hdata (.own o) (he ▸ ho)
    simp [table, Phys.write_mem, hne]
  funext r
  cases r with
  | own o => rfl
  | pde o i' =>
    rcases ho : dir o with _ | d
    · simp [slots, ho]
    · simp [slots, ho, htable o d i' ho]
  | pte o i' j =>
    rcases ho : dir o with _ | d
    · simp [slots, ho]
    · simp only [slots, ho, Option.bind_some, entry, htable o d i' ho]
      rcases ht : table s d i' with _ | t
      · rfl
      · have hne : t ≠ p := fun he => hdata (.pde o i') (by simp [slots, ho, ht, he])
        simp [Phys.write_mem, hne]

omit [DecidableEq ι] in
theorem Accounted.data {i : Nat} (h : Accounted s dir kept free)
    (hdata : ∀ r, slots s dir r = some p → r.shared) : Accounted (s.write p i w) dir kept free := by
  have hnames := slots_data (i := i) (w := w) hdata
  have hledger : ledgerOf (s.write p i w) dir free = ledgerOf s dir free := by
    simp [ledgerOf, hnames]
  exact ⟨h.chain, hledger ▸ h.balanced, hnames ▸ h.exclusive, h.kept_lt⟩

omit [DecidableEq ι] in
/-- A page that is mapped is no directory and no page table. -/
theorem Accounted.mapped_shared (h : Accounted s dir kept free) {i : Fin NPDU} {j : Fin NPTENTRIES}
    (hp : slots s dir (.pte o i j) = some p) (r : Slot ι) (hr : slots s dir r = some p) :
    r.shared := by
  rcases h.exclusive r (.pte o i j) p hr hp with rfl | ⟨hs, -⟩
  · trivial
  · exact hs

omit [DecidableEq ι] in
theorem Accounted.pushFree (h : Accounted s dir kept free) (hp : kept p) (hfree : p ∉ free)
    (hun : ∀ r, slots s dir r ≠ some p) : Accounted (s.pushFree p) dir kept (p :: free) := by
  have hnames : slots (s.pushFree p) dir = slots s dir := slots_congr rfl
  have href : (s.pushFree p).ref = s.ref := Phys.pushFree_ref ..
  refine ⟨?_, ⟨?_, ?_, ?_, ?_, ?_⟩, by rw [hnames]; exact h.exclusive, h.kept_lt⟩
  · rw [Phys.pushFree_link, Phys.pushFree_free]
    exact h.chain.push hfree
  · exact List.nodup_cons.mpr ⟨hfree, h.balanced.nodup⟩
  · intro q hq
    rcases List.mem_cons.mp hq with rfl | hq
    · exact hp
    · exact h.balanced.free_kept q hq
  · intro q hq r
    show slots (s.pushFree p) dir r ≠ some q
    rw [hnames]
    rcases List.mem_cons.mp hq with rfl | hq
    · exact hun r
    · exact h.unnamed hq r
  · intro r q hr
    have hr : slots (s.pushFree p) dir r = some q := hr
    rw [hnames] at hr
    exact h.named hr
  · intro q hq
    show ((s.pushFree p).ref q).toNat = tally (slots (s.pushFree p) dir) q
    rw [hnames, href]
    exact h.count hq

/-! ## Taking an address space apart -/

/-- Memory may differ in the directory `d` and in its page tables alone. -/
def OnlyTables (s s' : Phys) (d : Nat) : Prop :=
  ∀ x k, s'.mem x k = s.mem x k ∨ x = d ∨ ∃ i < NPDU, table s d i = some x

/-- Counts only go down, those of the kernel's pages not at all, and the pages that
come to the free list had a count. -/
structure Falls (kept : Nat → Prop) (s s' : Phys) : Prop where
  ref : ∀ p, (s'.ref p).toNat ≤ (s.ref p).toNat
  own : ∀ p, ¬ kept p → s'.ref p = s.ref p
  free : ∀ free, Chain s.link s.page_free_list free → ∃ added,
    Chain s'.link s'.page_free_list (added ++ free) ∧ ∀ p ∈ added, s.ref p ≠ 0

omit [Fintype ι] [DecidableEq ι] in
theorem Falls.refl : Falls kept s s :=
  ⟨fun _ => Nat.le_refl _, fun _ _ => rfl, fun _ hc => ⟨[], hc, fun _ h => nomatch h⟩⟩

omit [Fintype ι] [DecidableEq ι] in
theorem Falls.trans {s₁ : Phys} (h : Falls kept s s₁) (h' : Falls kept s₁ s') :
    Falls kept s s' where
  ref p := (h'.ref p).trans (h.ref p)
  own p hp := (h'.own p hp).trans (h.own p hp)
  free free hc := by
    obtain ⟨added, hc₁, hadded⟩ := h.free free hc
    obtain ⟨added', hc₂, hadded'⟩ := h'.free _ hc₁
    refine ⟨added' ++ added, by rwa [List.append_assoc], fun p hp => ?_⟩
    rcases List.mem_append.mp hp with hp | hp
    · intro h0
      refine hadded' p hp (BitVec.eq_of_toNat_eq (Nat.le_zero.mp ?_))
      simpa [h0] using h.ref p
    · exact hadded p hp

omit [Fintype ι] [DecidableEq ι] in
theorem Falls.congr {s₁ : Phys} (h : Falls kept s s₁) (href : s'.ref = s₁.ref)
    (hlink : s'.link = s₁.link) (hlist : s'.page_free_list = s₁.page_free_list) :
    Falls kept s s' where
  ref p := by rw [href]; exact h.ref p
  own p hp := by rw [href]; exact h.own p hp
  free free hc := by rw [hlink, hlist]; exact h.free free hc

omit [DecidableEq ι] in
theorem Accounted.falls (h : Accounted s dir kept free) {r : Slot ι}
    (hr : slots s dir r = some p) : Falls kept s (s.decref p) := by
  have hpos := h.ref_pos hr
  have hsub := sub_one_toNat hpos
  refine ⟨fun q => ?_, fun q hq => ?_, fun free' hc => ?_⟩
  · rw [Phys.decref_ref, Function.update_apply]
    split
    · rename_i hqp
      rw [hsub, hqp]
      omega
    · exact Nat.le_refl _
  · have hne : q ≠ p := fun he => hq (he ▸ h.named hr)
    rw [Phys.decref_ref, Function.update_of_ne hne]
  · obtain rfl := hc.unique h.chain
    have hchain := h.chain_decref (h.not_free hr)
    unfold freeAfter at hchain
    split at hchain
    · refine ⟨[p], hchain, fun q hq h0 => ?_⟩
      rw [List.mem_singleton.mp hq] at h0
      rw [h0] at hpos
      exact absurd hpos (by decide)
    · exact ⟨[], hchain, fun _ h => nomatch h⟩

/-- One page table after its first `n` entries have been removed. -/
structure Emptied (s s' : Phys) (dir : ι → Option Nat) (kept : Nat → Prop) (d i t n : Nat) :
    Prop where
  accounts : ∃ free', Accounted s' dir kept free'
  npages : s'.npages = s.npages
  table : table s' d i = some t
  gone : ∀ j < n, pageOf (s'.mem t j) = none
  mem : ∀ x, x ≠ t → s'.mem x = s.mem x
  lost : NoLoss s s'

theorem env_free_pte_ok (ho : dir o = some d) {i : Nat} (hi : i < NPDU) {j : Nat}
    (hj : j < NPTENTRIES) {s₁ : Phys} (he₁ : Emptied s s₁ dir kept d i t j) :
    ∃ s₂, (if present (s₁.mem t j) then page_remove s₁ d (PGADDR i j 0) else .ok s₁) = .ok s₂ ∧
      Emptied s s₂ dir kept d i t (j + 1) ∧ Falls kept s₁ s₂ := by
  obtain ⟨⟨free₁, h₁⟩, hn, ht₁, hgone, hmem, hlost⟩ := he₁
  have hi' : i < 1024 := by rw [NPDU_eq] at hi; omega
  have hj' : j < 1024 := hj
  split
  · -- a page is mapped there, and `page_remove` takes it away
    rename_i hpres
    have hs := h₁.separated.toApart
    have hva := PGADDR_lt_UTOP hi hj'
    have hcases := page_remove_cases hs ho hva
    rw [PDX_PGADDR hi' hj', PTX_PGADDR hi' hj'] at hcases
    rcases hcases with ⟨hnone, -⟩ | ⟨t', q, ht', hq, he⟩
    · simp only [pteAt, entry, ht₁, Option.map_some, Option.getD_some] at hnone
      rw [pageOf_eq_none.mp hnone] at hpres
      cases hpres
    · cases ht₁.symm.trans ht'
      have hslot : slots s₁ dir (.pte o ⟨i, hi⟩ ⟨j, hj⟩) = some q := by
        rw [slots_pte hi hj ho]
        simpa [pteAt, entry, ht₁] using hq
      refine ⟨_, he, ⟨⟨_, h₁.unlink ho hi hj ht₁ hq⟩, by simpa using hn, ?_, ?_, ?_, ?_⟩,
        (h₁.falls hslot).congr rfl rfl rfl⟩
      · rw [table_write (hs.decref q) ho hi (by simpa using ht₁) ho]
        simpa using ht₁
      · intro j' hj''
        rw [Phys.write_mem, Phys.decref_mem]
        by_cases hjj : j' = j
        · simp [hjj]
        · simpa [hjj] using hgone j' (by omega)
      · intro x hx
        rw [← hmem x hx]
        funext y
        simp [Phys.write_mem, hx]
      · exact hlost.trans (noLoss_page_remove h₁ ho hva he)
  · rename_i hpres
    refine ⟨s₁, rfl, ⟨⟨free₁, h₁⟩, hn, ht₁, fun j' hj'' => ?_, hmem, hlost⟩, .refl⟩
    by_cases hjj : j' = j
    · rw [hjj]; exact pageOf_eq_none.mpr (by simpa using hpres)
    · exact hgone j' (by omega)

theorem env_free_ptes_ok (h : Accounted s dir kept free) (ho : dir o = some d) {i : Nat}
    (hi : i < NPDU) (ht : table s d i = some t) :
    ∃ s', env_free_ptes d i t s = .ok s' ∧ Emptied s s' dir kept d i t NPTENTRIES ∧
      Falls kept s s' := by
  refine forUpto_total (fun n s' => Emptied s s' dir kept d i t n ∧ Falls kept s s')
    ⟨⟨⟨free, h⟩, rfl, ht, fun j hj => absurd hj (by omega), fun _ _ => rfl, NoLoss.refl s⟩, .refl⟩ ?_
  rintro j hj s₁ ⟨he₁, hf₁⟩
  obtain ⟨s₂, hrun, he₂, hf₂⟩ := env_free_pte_ok ho hi hj he₁
  exact ⟨s₂, hrun, he₂, hf₁.trans hf₂⟩

omit [Fintype ι] in
theorem slots_clear (hs : Apart s dir) (hinj : ∀ o', dir o' = some d → o' = o)
    (ho : dir o = some d) {i : Nat} (hi : i < NPDU)
    (ht : table s d i = some t) (hempty : ∀ j < NPTENTRIES, pageOf (s.mem t j) = none) :
    slots (s.write d i 0) dir = Function.update (slots s dir) (.pde o ⟨i, hi⟩) none := by
  have htable : ∀ o' d' i', dir o' = some d' →
      table (s.write d i 0) d' i' = if d' = d ∧ i' = i then none else table s d' i' := by
    intro o' d' i' _
    unfold table
    rw [Phys.write_mem]
    split
    · simp
    · rfl
  funext r
  cases r with
  | own o' => rfl
  | pde o' i' =>
    rcases hd : dir o' with _ | d'
    · have hne : Slot.pde o' i' ≠ .pde o ⟨i, hi⟩ := by rintro ⟨⟩; simp [ho] at hd
      simp [slots, hd, Function.update_of_ne hne]
    · simp only [slots, hd, Option.bind_some, htable o' d' i' hd]
      by_cases he : d' = d ∧ i'.val = i
      · obtain ⟨rfl, rfl⟩ := he
        obtain rfl := hinj o' hd
        simp
      · have hne : Slot.pde o' i' ≠ .pde o ⟨i, hi⟩ := by
          rintro ⟨⟩
          rw [ho] at hd
          exact he ⟨(Option.some.inj hd).symm, rfl⟩
        simp [slots, he, hd, Function.update_of_ne hne]
  | pte o' i' j =>
    rw [Function.update_of_ne (by simp)]
    rcases hd : dir o' with _ | d'
    · simp [slots, hd]
    · simp only [slots, hd, Option.bind_some, entry, htable o' d' i' hd]
      by_cases he : d' = d ∧ i'.val = i
      · obtain ⟨rfl, rfl⟩ := he
        simp [ht, hempty j j.isLt]
      · rw [if_neg he]
        rcases ht' : table s d' i' with _ | t'
        · rfl
        · have hne : t' ≠ d := fun he' => hs.table_dir o' d' i' t' hd i'.isLt ht' o (he' ▸ ho)
          simp [Phys.write_mem, hne]

/-- The directory after its first `n` page tables have been freed. -/
structure Cleared (s s' : Phys) (dir : ι → Option Nat) (kept : Nat → Prop) (d n : Nat) : Prop where
  accounts : ∃ free', Accounted s' dir kept free'
  npages : s'.npages = s.npages
  gone : ∀ i < n, table s' d i = none
  rest : ∀ i, n ≤ i → s'.mem d i = s.mem d i
  mem : OnlyTables s s' d
  lost : NoLoss s s'

theorem env_free_pde_ok (ho : dir o = some d) {n : Nat} (hn : n < NPDU) {s₁ : Phys}
    (hc : Cleared s s₁ dir kept d n) :
    ∃ s₂, env_free_pde d n s₁ = .ok s₂ ∧ Cleared s s₂ dir kept d (n + 1) ∧ Falls kept s₁ s₂ := by
  obtain ⟨⟨free₁, h₁⟩, hnp, hgone, hrest, hmem, hlost⟩ := hc
  unfold env_free_pde
  dsimp only
  rcases ht : table s₁ d n with _ | t
  · have habs := pageOf_eq_none.mp ht
    refine ⟨s₁, by simp [habs], ⟨⟨free₁, h₁⟩, hnp, fun i hi => ?_, fun i hi => hrest i (by omega),
      hmem, hlost⟩, .refl⟩
    by_cases hin : i = n
    · rw [hin]; exact ht
    · exact hgone i (by omega)
  · have hpres := (pageOf_eq_some.mp ht).1
    have htlt : t < s₁.npages := h₁.separated.table_lt o d n t ho hn ht
    obtain ⟨s₂, he₂, ⟨⟨free₂, h₂⟩, hnp₂, ht₂, hempty, hmem₂, hlost₂⟩, hfalls₂⟩ :=
      env_free_ptes_ok h₁ ho hn ht
    have hdt : d ≠ t := fun he => h₁.separated.table_dir o d n t ho hn ht o (he ▸ ho)
    -- the empty table loses its only reference
    have hslot : slots s₂ dir (.pde o ⟨n, hn⟩) = some t := by rw [slots_pde hn ho, ht₂]
    have hclear := slots_clear h₂.separated.toApart (fun o' ho' => h₂.dir_inj ho' ho) ho hn ht₂ hempty
    have h₃ : Accounted ((s₂.write d n 0).decref t) dir kept (freeAfter s₂ t free₂) := by
      refine h₂.dropped ?_ hslot (by simp) ?_ ?_ (by simp)
      · rw [← hclear]; exact slots_congr (Phys.decref_mem ..)
      · rw [Phys.decref_link, Phys.decref_link]; rfl
      · rw [Phys.decref_free, Phys.decref_free]; rfl
    have hpa : PGNUM (PTE_ADDR (s₁.mem d n)) = t := by
      rw [PGNUM_PTE_ADDR]; exact (pageOf_eq_some.mp ht).2
    have hrun : pa2page (s₂.write d n 0) (PTE_ADDR (s₁.mem d n)) = .ok t := by
      rw [pa2page, hpa, if_neg (by simp [hnp₂]; omega)]
    have hlost₃ : NoLoss s₂ ((s₂.write d n 0).decref t) :=
      noLoss_decref (s := s₂.write d n 0) h₂.chain (h₂.not_free hslot)
    have hfalls₃ : Falls kept s₂ ((s₂.write d n 0).decref t) :=
      (h₂.falls hslot).congr (by simp) (by rw [Phys.decref_link, Phys.decref_link]; rfl)
        (by rw [Phys.decref_free, Phys.decref_free]; rfl)
    refine ⟨(s₂.write d n 0).decref t, ?_, ⟨⟨_, h₃⟩, by simp [hnp₂, hnp], ?_, ?_, ?_,
      (hlost.trans hlost₂).trans hlost₃⟩, hfalls₂.trans hfalls₃⟩
    · simp only [hpres, Bool.not_true, Bool.false_eq_true, if_false, KADDR_eq ht htlt, bind,
        Except.bind, he₂, hrun, page_decref_eq]
    · intro i hi
      unfold table
      rw [Phys.decref_mem, Phys.write_mem]
      by_cases hin : i = n
      · simp [hin]
      · rw [if_neg (fun hx => hin hx.2), hmem₂ d hdt]
        exact hgone i (by omega)
    · intro i hi
      rw [Phys.decref_mem, Phys.write_mem, if_neg (fun hx => by omega), hmem₂ d hdt]
      exact hrest i (by omega)
    · intro x k
      by_cases hxd : x = d
      · exact Or.inr (Or.inl hxd)
      · by_cases hxt : x = t
        · refine Or.inr (Or.inr ⟨n, hn, ?_⟩)
          have hsame : table s d n = table s₁ d n := by
            unfold table; rw [hrest n (Nat.le_refl n)]
          rw [hsame, ht, hxt]
        · rw [Phys.decref_mem, Phys.write_mem, if_neg (fun hx => hxd hx.1), hmem₂ x hxt]
          exact hmem x k

omit [Fintype ι] in
theorem slots_disown (ho : dir o = some d) (hempty : ∀ i < NPDU, table s d i = none) :
    slots s (Function.update dir o none) = Function.update (slots s dir) (.own o) none := by
  funext r
  cases r with
  | own o' => by_cases h : o' = o <;> simp [slots, h]
  | pde o' i =>
    rw [Function.update_of_ne (by simp)]
    by_cases h : o' = o
    · simp [slots, h, ho, hempty i i.isLt]
    · simp [slots, h]
  | pte o' i j =>
    rw [Function.update_of_ne (by simp)]
    by_cases h : o' = o
    · simp [slots, h, ho, entry, hempty i i.isLt]
    · simp [slots, h]

/-- `env_free` takes the whole address space apart. It never panics, the
accounts stay right, no memory changes but the directory and its page
tables, and counts go down. -/
theorem env_free_pages_falls (h : Accounted s dir kept free) (ho : dir o = some d) :
    ∃ s' free', env_free_pages s d = .ok s' ∧
      Accounted s' (Function.update dir o none) kept free' ∧ s'.npages = s.npages ∧
      OnlyTables s s' d ∧ NoLoss s s' ∧ Falls kept s s' := by
  obtain ⟨s₁, he, ⟨⟨free₁, h₁⟩, hnp, hgone, -, hmem, hlost⟩, hfalls⟩ :=
    forUpto_total (fun n s' => Cleared s s' dir kept d n ∧ Falls kept s s')
      (f := env_free_pde d) (n := PDX UTOP)
      ⟨⟨⟨free, h⟩, rfl, fun i hi => absurd hi (by omega), fun _ _ => rfl, fun _ _ => Or.inl rfl,
        NoLoss.refl s⟩, .refl⟩
      fun n hn x hx => by
        obtain ⟨y, hrun, hy, hfalls⟩ := env_free_pde_ok ho hn hx.1
        exact ⟨y, hrun, hy, hx.2.trans hfalls⟩
  have hdlt : d < s₁.npages := h₁.kept_lt d (h₁.named (r := .own o) ho)
  have hrun : pa2page s₁ (page2pa d) = .ok d := by
    rw [pa2page, PGNUM_page2pa hdlt, if_neg (by omega)]
  have h₂ : Accounted (s₁.decref d) (Function.update dir o none) kept (freeAfter s₁ d free₁) := by
    refine h₁.dropped (r := .own o) ?_ ho rfl rfl rfl (by simp)
    rw [slots_congr (Phys.decref_mem ..)]
    exact slots_disown ho hgone
  have hlost₂ : NoLoss s₁ (s₁.decref d) := noLoss_decref h₁.chain (h₁.not_free (r := .own o) ho)
  refine ⟨s₁.decref d, _, ?_, h₂, by simp [hnp], fun x k => ?_, hlost.trans hlost₂,
    hfalls.trans (h₁.falls (r := .own o) ho)⟩
  · simp only [env_free_pages, bind, Except.bind, he, hrun, page_decref_eq]
  · rw [Phys.decref_mem]
    exact hmem x k

theorem env_free_pages_ok (h : Accounted s dir kept free) (ho : dir o = some d) :
    ∃ s' free', env_free_pages s d = .ok s' ∧
      Accounted s' (Function.update dir o none) kept free' ∧ s'.npages = s.npages ∧
      OnlyTables s s' d ∧ NoLoss s s' := by
  obtain ⟨s', free', hrun, ha, hn, honly, hlost, -⟩ := env_free_pages_falls h ho
  exact ⟨s', free', hrun, ha, hn, honly, hlost⟩

omit [DecidableEq ι] in
/-- The tables of every other directory stay as they are. -/
theorem OnlyTables.others {o' : ι} {d' : Nat} (hm : OnlyTables s s' d) (h : Accounted s dir kept free)
    (ho : dir o = some d) (ho' : dir o' = some d') (hne : o' ≠ o) :
    s'.mem d' = s.mem d' ∧ ∀ i < NPDU, ∀ t, table s d' i = some t → s'.mem t = s.mem t := by
  have hs := h.separated.toApart
  have hdd : d' ≠ d := fun he => hne (h.dir_inj ho' (he ▸ ho))
  refine ⟨?_, fun i hi t ht => ?_⟩
  · funext k
    rcases hm d' k with hsame | hx | ⟨i, hi, hx⟩
    · exact hsame
    · exact absurd hx hdd
    · exact absurd ho' (hs.table_dir o d i d' ho hi hx o')
  · funext k
    rcases hm t k with hsame | hx | ⟨i', hi', hx⟩
    · exact hsame
    · exact absurd (hx ▸ ho) (hs.table_dir o' d' i t ho' hi ht o)
    · exact absurd (hs.table_inj o' o d' d i i' t ho' ho hi hi' ht hx).1 hdd

/-! ## What the kernel keeps for itself -/

/-- The pages that `page_alloc` does not hand out stay as they are, and so do
the entries of the live directories from `UTOP` on. -/
structure KernelKept (kept : Nat → Prop) (dir : ι → Option Nat) (s s' : Phys) : Prop where
  npages : s'.npages = s.npages
  own : ∀ x, ¬ kept x → s'.mem x = s.mem x
  upper : ∀ o d i, dir o = some d → NPDU ≤ i → s'.mem d i = s.mem d i

omit [Fintype ι] [DecidableEq ι] in
theorem KernelKept.refl : KernelKept kept dir s s := ⟨rfl, fun _ _ => rfl, fun _ _ _ _ _ => rfl⟩

omit [Fintype ι] [DecidableEq ι] in
theorem KernelKept.trans {s'' : Phys} (h : KernelKept kept dir s s')
    (h' : KernelKept kept dir s' s'') : KernelKept kept dir s s'' where
  npages := h'.npages.trans h.npages
  own x hx := (h'.own x hx).trans (h.own x hx)
  upper o d i ho hi := (h'.upper o d i ho hi).trans (h.upper o d i ho hi)

omit [Fintype ι] [DecidableEq ι] in
/-- All changes are in one page, which is handed out and no directory. -/
theorem KernelKept.page (hn : s'.npages = s.npages) (hmem : ∀ x, x ≠ p → s'.mem x = s.mem x)
    (hp : kept p) (hdir : ∀ o, dir o ≠ some p) : KernelKept kept dir s s' where
  npages := hn
  own x hx := hmem x fun he => hx (he ▸ hp)
  upper o d i ho _ := by rw [hmem d fun he => hdir o (he ▸ ho)]

omit [DecidableEq ι] in
theorem kernelKept_entrySet {i j : Nat} (he : EntrySet s s' dir d i j w)
    (h' : Accounted s' dir kept free) (ho : dir o = some d) (hi : i < NPDU) :
    KernelKept kept dir s s' := by
  have hkept : ∀ x, table s' d i = some x → kept x := fun x hx =>
    h'.named (r := .pde o ⟨i, hi⟩) (by rw [slots_pde hi ho, hx])
  refine ⟨he.npages, fun x hx => ?_, fun o' d' k ho' hk => ?_⟩
  · funext k
    rcases he.mem x k with hsame | ⟨rfl, -, -⟩ | ht
    · exact hsame
    · exact absurd (h'.named (r := .own o) ho) hx
    · exact absurd (hkept x ht) hx
  · rcases he.mem d' k with hsame | ⟨-, rfl, -⟩ | ht
    · exact hsame
    · omega
    · exact absurd ho' (h'.separated.table_dir o d i d' ho hi ht o')

/-! ## Pages for a program -/

omit [DecidableEq ι] in
theorem Accounted.page_alloc_ok (h : Accounted s dir kept free) (fl : Word) :
    (free = [] ∧ page_alloc s fl = .ok (none, s)) ∨
    ∃ p rest, free = p :: rest ∧ page_alloc s fl = .ok (some p, s.alloced p fl) := by
  rcases free with _ | ⟨p, rest⟩
  · exact Or.inl ⟨rfl, page_alloc_none h.chain⟩
  · refine Or.inr ⟨p, rest, rfl, page_alloc_some h.chain.1 ?_⟩
    exact h.kept_lt p (h.balanced.free_kept p (List.mem_cons_self ..))

omit [DecidableEq ι] in
theorem Accounted.kernelKept_alloced {fl : Word} (h : Accounted s dir kept (p :: free)) :
    KernelKept kept dir s (s.alloced p fl) := by
  refine KernelKept.page (p := p) (by simp) (fun x hx => ?_)
    (h.balanced.free_kept p (List.mem_cons_self ..)) (h.separated.free_dir p (List.mem_cons_self ..))
  funext k
  simp [Phys.alloced_mem, hx]

/-- A page straight from `page_alloc` is put into a directory. -/
theorem Accounted.insert_fresh {fl va perm : Word} {r : Int} (h : Accounted s dir kept (p :: free))
    (ho : dir o = some d) (hva : va < UTOP) (hperm : perm.toNat < 4096)
    (he : page_insert (s.alloced p fl) d p va perm = .ok (r, s')) :
    (r = -E_NO_MEM ∧ s' = s.alloced p fl) ∨
    (r = 0 ∧ (∃ free', Accounted s' dir kept free') ∧ KernelKept kept dir s s' ∧
      EntrySet (s.alloced p fl) s' dir d (PDX va) (PTX va) (pteFor p perm)) := by
  have hp : p ∈ p :: free := List.mem_cons_self ..
  have h₁ : Accounted (s.alloced p fl) dir kept free := h.alloced
  have hkept := h.balanced.free_kept p hp
  have hfree : p ∉ free := (List.nodup_cons.mp h.balanced.nodup).1
  have hun : ∀ r, slots (s.alloced p fl) dir r ≠ some p := by
    rw [slots_alloced h.separated hp]; exact h.unnamed hp
  rcases page_insert_effect h₁ ho hva hperm hkept with ⟨-, -, he'⟩ | ⟨s₂, f, he', hset, -, -⟩
  · cases he.symm.trans he'
    exact Or.inl ⟨rfl, rfl⟩
  · cases he.symm.trans he'
    have hcount : refs (s.alloced p fl) dir p < 65535 := by
      rw [refs, tally_eq_zero.mpr hun]; omega
    obtain ⟨free', h₂, -⟩ := page_insert_accounted h₁ ho hva hperm hkept hfree
      (fun r hr => absurd hr (hun r)) (Or.inl hcount) he'
    exact Or.inr ⟨rfl, ⟨free', h₂⟩,
      h.kernelKept_alloced.trans (kernelKept_entrySet hset h₂ ho (PDX_lt_NPDU hva)), hset⟩

/-- The page that was taken is the one that is mapped. -/
theorem Accounted.noLoss_fresh {fl va perm : Word} (h : Accounted s dir kept (p :: free))
    (ho : dir o = some d) (hva : va < UTOP)
    (he : page_insert (s.alloced p fl) d p va perm = .ok (0, s')) : NoLoss s s' := by
  have hkept : kept p := h.balanced.free_kept p (List.mem_cons_self ..)
  have hcount : refs (s.alloced p fl) dir p < 65535 := by
    rw [← h.alloced.count hkept]
    simp
  intro x hx
  obtain ⟨hlost, hne⟩ := lost_page_insert h.alloced ho hva hkept
    (List.nodup_cons.mp h.balanced.nodup).1 (Or.inl hcount) he hx
  have htaken := lost_taken h.chain (Phys.alloced_ref ..) (Phys.alloced_link ..)
    (Phys.alloced_free ..) hlost
  exact htaken.resolve_right fun hx => hne hx.1

end jos
