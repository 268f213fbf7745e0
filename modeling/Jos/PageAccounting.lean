-- The accounts of the physical pages. Every page that `page_alloc` hands out
-- has in `pp_ref` the number of its references, and no free page has one.
-- The page tables and the counts are a ledger, and each function of
-- `pmap.c` makes moves on it that keep it balanced.
import Jos.PageTables
import Jos.Lib.Ledger
import Mathlib

namespace jos

open linked_list (Chain)
open ledger

/-! ## The references -/

/-- The places that may refer to a page: the directory that an owner has,
an entry of it below `UTOP`, and an entry of one of its page tables. -/
inductive Slot (ι : Type)
  | own (o : ι)
  | pde (o : ι) (i : Fin NPDU)
  | pte (o : ι) (i : Fin NPDU) (j : Fin NPTENTRIES)
deriving DecidableEq, Fintype

variable {ι : Type}

/-- Only entries of page tables share their page. -/
def Slot.shared : Slot ι → Prop
  | .pte .. => True
  | _ => False

/-- The page that a slot refers to. -/
def slots (s : Phys) (dir : ι → Option Nat) : Slot ι → Option Nat
  | .own o => dir o
  | .pde o i => (dir o).bind fun d => table s d i
  | .pte o i j => (dir o).bind fun d => (entry s d i j).bind pageOf

/-- The page tables and the counts, as a ledger. -/
def ledgerOf (s : Phys) (dir : ι → Option Nat) (free : List Nat) : Ledger (Slot ι) Nat :=
  ⟨slots s dir, fun p => (s.ref p).toNat, free⟩

/-- The number of references to a page. -/
def refs [Fintype ι] (s : Phys) (dir : ι → Option Nat) (p : Nat) : Nat := tally (slots s dir) p

/-- The free list ends and holds no page twice, no page on it has a count or
a reference, and the count of every page that `page_alloc` hands out
(`kept`) is the number of its references. -/
structure Counted [Fintype ι] (s : Phys) (dir : ι → Option Nat) (kept : Nat → Prop) : Prop where
  free : ∃ free, Chain s.link s.page_free_list free ∧ free.Nodup ∧
    ∀ p ∈ free, s.ref p = 0 ∧ ∀ r, slots s dir r ≠ some p
  counts : ∀ p, kept p → (s.ref p).toNat = refs s dir p

/-- The accounts are right, with `free` on the free list. All references go
to pages that `page_alloc` hands out, and a page directory or a page table
has one reference and no other use. -/
structure Accounted [Fintype ι] (s : Phys) (dir : ι → Option Nat) (kept : Nat → Prop)
    (free : List Nat) : Prop where
  chain : Chain s.link s.page_free_list free
  balanced : Balanced kept (ledgerOf s dir free)
  exclusive : Exclusive Slot.shared (slots s dir)
  kept_lt : ∀ p, kept p → p < s.npages

theorem slots_congr {s s' : Phys} {dir : ι → Option Nat} (h : s'.mem = s.mem) :
    slots s' dir = slots s dir := by
  funext r
  cases r <;> simp [slots, table, entry, h]

section accounts

variable [Fintype ι] {s : Phys} {dir : ι → Option Nat} {kept : Nat → Prop} {free : List Nat}
  {o o' : ι} {d d' p q t : Nat} {perm va fl w : Word}

omit [Fintype ι] in
theorem slots_pde {i : Nat} (hi : i < NPDU) (ho : dir o = some d) :
    slots s dir (.pde o ⟨i, hi⟩) = table s d i := by simp [slots, ho]

omit [Fintype ι] in
theorem slots_pte {i j : Nat} (hi : i < NPDU) (hj : j < NPTENTRIES) (ho : dir o = some d) :
    slots s dir (.pte o ⟨i, hi⟩ ⟨j, hj⟩) = pageOf (pteAt s d i j) := by
  simp only [slots, ho, Option.bind_some, pteAt]
  cases entry s d i j <;> simp

theorem Accounted.named (h : Accounted s dir kept free) {r : Slot ι}
    (hr : slots s dir r = some p) : kept p := h.balanced.named_kept r p hr

theorem Accounted.unnamed (h : Accounted s dir kept free) (hp : p ∈ free) (r : Slot ι) :
    slots s dir r ≠ some p := h.balanced.free_unnamed p hp r

theorem Accounted.dir_inj (h : Accounted s dir kept free) (ho : dir o = some d)
    (ho' : dir o' = some d) : o = o' := by
  rcases h.exclusive (.own o) (.own o') d ho ho' with he | ⟨he, -⟩
  · cases he; rfl
  · exact he.elim

/-- Directories, tables and free pages are apart, since the first two have
no other reference and the last have none. -/
theorem Accounted.separated (h : Accounted s dir kept free) : Separated s dir free := by
  have hpde : ∀ o d i t, dir o = some d → (hi : i < NPDU) → table s d i = some t →
      slots s dir (.pde o ⟨i, hi⟩) = some t := by
    intro o d i t ho hi ht
    rw [slots_pde hi ho, ht]
  refine ⟨⟨?_, ?_, ?_⟩, h.chain, ?_, ?_, ?_⟩
  · intro o d i t ho hi ht
    exact h.kept_lt t (h.named (hpde o d i t ho hi ht))
  · intro o d i t ho hi ht o' ho'
    rcases h.exclusive _ (.own o') t (hpde o d i t ho hi ht) ho' with he | ⟨he, -⟩
    · cases he
    · exact he
  · intro o o' d d' i i' t ho ho' hi hi' ht ht'
    rcases h.exclusive _ _ t (hpde o d i t ho hi ht) (hpde o' d' i' t ho' hi' ht') with
      he | ⟨he, -⟩
    · cases he
      rw [ho] at ho'
      exact ⟨Option.some.inj ho', rfl⟩
    · exact he.elim
  · intro p hp
    exact h.kept_lt p (h.balanced.free_kept p hp)
  · intro p hp o ho
    exact h.unnamed hp (.own o) ho
  · intro p hp o d i ho hi ht
    exact h.unnamed hp _ (hpde o d i p ho hi ht)

theorem Accounted.count (h : Accounted s dir kept free) (hp : kept p) :
    (s.ref p).toNat = refs s dir p := h.balanced.exact_count p hp

theorem Accounted.ref_free (h : Accounted s dir kept free) (hp : p ∈ free) : s.ref p = 0 := by
  have hc := h.count (h.balanced.free_kept p hp)
  rw [refs, tally_eq_zero.mpr (h.unnamed hp)] at hc
  exact BitVec.toNat_inj.mp hc

/-- Right accounts are right as `Counted` says it. -/
theorem Accounted.counted (h : Accounted s dir kept free) : Counted s dir kept where
  free := ⟨free, h.chain, h.balanced.nodup, fun _ hp => ⟨h.ref_free hp, h.unnamed hp⟩⟩
  counts _ hp := h.count hp

/-- No page has more than 65535 references. -/
theorem Accounted.refs_le (h : Accounted s dir kept free) (p : Nat) : refs s dir p ≤ 65535 := by
  by_cases hp : kept p
  · rw [← h.count hp]
    have := (s.ref p).isLt
    omega
  · have h0 : refs s dir p = 0 := tally_eq_zero.mpr fun r hr => hp (h.named hr)
    omega

omit [Fintype ι] in
/-- With nothing mapped below `UTOP`, the owners alone refer to pages. -/
theorem slots_of_empty (hempty : ∀ o d i, dir o = some d → i < NPDU → table s d i = none)
    {r : Slot ι} (hr : slots s dir r = some p) : ∃ o, r = .own o ∧ dir o = some p := by
  cases r with
  | own o => exact ⟨o, rfl, hr⟩
  | pde o i =>
    rcases ho : dir o with _ | d
    · simp [slots, ho] at hr
    · simp [slots, ho, hempty o d i ho i.isLt] at hr
  | pte o i j =>
    rcases ho : dir o with _ | d
    · simp [slots, ho] at hr
    · simp [slots, ho, entry, hempty o d i ho i.isLt] at hr

/-- The accounts of a machine on which nothing is mapped below `UTOP`. -/
theorem accounted_of_empty [DecidableEq ι]
    (hempty : ∀ o d i, dir o = some d → i < NPDU → table s d i = none)
    (hchain : Chain s.link s.page_free_list free)
    (hinj : ∀ o o' d, dir o = some d → dir o' = some d → o = o')
    (hfree : ∀ p ∈ free, p < s.npages ∧ s.ref p = 0 ∧ ∀ o, dir o ≠ some p)
    (hdir : ∀ o d, dir o = some d → d < s.npages ∧ s.ref d = 1) :
    Accounted s dir (fun p => p ∈ free ∨ ∃ o, dir o = some p) free := by
  have hown := fun {r p} => slots_of_empty (r := r) (p := p) hempty
  refine ⟨hchain, ⟨hchain.nodup, fun p hp => Or.inl hp, ?_, ?_, ?_⟩, ?_, ?_⟩
  · intro p hp r hr
    obtain ⟨o, -, ho⟩ := hown hr
    exact (hfree p hp).2.2 o ho
  · intro r p hr
    obtain ⟨o, -, ho⟩ := hown hr
    exact Or.inr ⟨o, ho⟩
  · rintro p (hp | ⟨o, ho⟩)
    · have h0 : tally (slots s dir) p = 0 := by
        refine tally_eq_zero.mpr fun r hr => ?_
        obtain ⟨o, -, ho⟩ := hown hr
        exact (hfree p hp).2.2 o ho
      simp [ledgerOf, (hfree p hp).2.1, h0]
    · have h1 : tally (slots s dir) p = 1 := by
        refine (tally_eq_one (r := .own o) ho).mpr fun r hr => ?_
        obtain ⟨o', rfl, ho'⟩ := hown hr
        rw [hinj o' o p ho' ho]
      simp [ledgerOf, (hdir o p ho).2, h1]
  · intro r r' p hr hr'
    obtain ⟨o, rfl, ho⟩ := hown hr
    obtain ⟨o', rfl, ho'⟩ := hown hr'
    exact Or.inl (by rw [hinj o o' p ho ho'])
  · rintro p (hp | ⟨o, ho⟩)
    · exact (hfree p hp).1
    · exact (hdir o p ho).1

/-! ## The moves -/

omit [Fintype ι] in
theorem slots_alloced (hs : Separated s dir free) (hp : p ∈ free) :
    slots (s.alloced p fl) dir = slots s dir := by
  funext r
  cases r with
  | own o => rfl
  | pde o i =>
    rcases ho : dir o with _ | d
    · simp [slots, ho]
    · simp [slots, ho, table_alloced hs hp ho]
  | pte o i j =>
    rcases ho : dir o with _ | d
    · simp [slots, ho]
    · simp [slots, ho, entry_alloced hs hp ho i.isLt]

theorem Accounted.alloced (h : Accounted s dir kept (p :: free)) :
    Accounted (s.alloced p fl) dir kept free := by
  have hp : p ∈ p :: free := List.mem_cons_self ..
  have hnames : slots (s.alloced p fl) dir = slots s dir := slots_alloced h.separated hp
  have hledger : ledgerOf (s.alloced p fl) dir free = (ledgerOf s dir (p :: free)).take := by
    have href : (s.alloced p fl).ref = s.ref := by
      rw [Phys.alloced_ref, ← h.ref_free hp, Function.update_eq_self]
    simp [ledgerOf, Ledger.take, hnames, href]
  refine ⟨?_, ?_, ?_, ?_⟩
  · rw [Phys.alloced_link, Phys.alloced_free]; exact h.chain.pop
  · rw [hledger]; exact h.balanced.take
  · rw [hnames]; exact h.exclusive
  · simpa using h.kept_lt

variable [DecidableEq ι]

theorem slots_newTable {i : Nat} (h : Accounted s dir kept (p :: free)) (ho : dir o = some d)
    (hi : i < NPDU) (ht : table s d i = none) :
    slots (s.newTable d i p) dir = Function.update (slots s dir) (.pde o ⟨i, hi⟩) (some p) := by
  have hs := h.separated
  have hp : p ∈ p :: free := List.mem_cons_self ..
  funext r
  cases r with
  | own o' => rfl
  | pde o' i' =>
    rcases ho' : dir o' with _ | d'
    · have hne : Slot.pde o' i' ≠ .pde o ⟨i, hi⟩ := by rintro ⟨⟩; simp [ho] at ho'
      simp [slots, ho', Function.update_of_ne hne]
    · simp only [slots, ho', Option.bind_some, table_newTable hs hp ho']
      by_cases he : d' = d ∧ i'.val = i
      · obtain ⟨rfl, rfl⟩ := he
        obtain rfl := h.dir_inj ho ho'
        simp
      · have hne : Slot.pde o' i' ≠ .pde o ⟨i, hi⟩ := by
          rintro ⟨⟩
          rw [ho] at ho'
          exact he ⟨(Option.some.inj ho').symm, rfl⟩
        simp [slots, he, ho', Function.update_of_ne hne]
  | pte o' i' j' =>
    rw [Function.update_of_ne (by simp)]
    rcases ho' : dir o' with _ | d'
    · simp [slots, ho']
    · simp only [slots, ho', Option.bind_some, entry_newTable hs hp ho ho' i'.isLt]
      split
      · rename_i he
        obtain ⟨rfl, rfl⟩ := he
        simp [entry, ht]
      · rfl

/-- An empty slot refers to page `p` from now on, and the count of `p` goes up.
Only slots that share their pages may refer to a page that has a reference. -/
theorem Accounted.linked {s' : Phys} {dir' : ι → Option Nat} {r : Slot ι}
    (h : Accounted s dir kept free) (hslots : slots s' dir' = Function.update (slots s dir) r (some p))
    (hempty : slots s dir r = none) (hp : kept p) (hfree : p ∉ free)
    (hshared : (∀ r', slots s dir r' ≠ some p) ∨
      (r.shared ∧ ∀ r', slots s dir r' = some p → r'.shared))
    (hcount : (s.ref p).toNat < 65535) (href : s'.ref = Function.update s.ref p (s.ref p + 1))
    (hchain : Chain s'.link s'.page_free_list free) (hn : s'.npages = s.npages) :
    Accounted s' dir' kept free := by
  have hledger : ledgerOf s' dir' free = (ledgerOf s dir free).link r p := by
    have hc : (fun q => (s'.ref q).toNat) =
        Function.update (fun q => (s.ref q).toNat) p ((s.ref p).toNat + 1) := by
      funext q
      by_cases hq : q = p
      · subst hq
        simp [href, BitVec.toNat_add]
        omega
      · simp [href, hq]
    simp only [ledgerOf, Ledger.link, hslots, hc]
  have hx : Exclusive Slot.shared (ledgerOf s' dir' free).names := by
    rw [hledger]
    rcases hshared with hun | ⟨hr, hall⟩
    · exact Exclusive.link h.exclusive hun
    · exact Exclusive.link_shared h.exclusive hr hall
  refine ⟨hchain, ?_, hx, ?_⟩
  · rw [hledger]; exact h.balanced.link hempty hp hfree
  · rw [hn]; exact h.kept_lt

theorem Accounted.newTable {i : Nat} (h : Accounted s dir kept (p :: free)) (ho : dir o = some d)
    (hi : i < NPDU) (ht : table s d i = none) : Accounted (s.newTable d i p) dir kept free := by
  have hp : p ∈ p :: free := List.mem_cons_self ..
  have h₁ : Accounted (s.alloced p 1) dir kept free := h.alloced
  have hsame : slots (s.alloced p 1) dir = slots s dir := slots_alloced h.separated hp
  refine h₁.linked (r := .pde o ⟨i, hi⟩) ?_ ?_ (h.balanced.free_kept p hp)
    (List.nodup_cons.mp h.balanced.nodup).1 (Or.inl ?_) (by simp) (by simp) ?_ (by simp)
  · rw [slots_newTable h ho hi ht, hsame]
  · rw [hsame, slots_pde hi ho, ht]
  · rw [hsame]; exact h.unnamed hp
  · rw [Phys.newTable_link, Phys.newTable_free]; exact h.chain.pop

/-- A store to an entry of a page table changes what one slot refers to. -/
theorem slots_write {i j : Nat} {w : Word} (h : Accounted s dir kept free) (ho : dir o = some d)
    (hi : i < NPDU) (hj : j < NPTENTRIES) (ht : table s d i = some t) :
    slots (s.write t j w) dir =
      Function.update (slots s dir) (.pte o ⟨i, hi⟩ ⟨j, hj⟩) (pageOf w) := by
  have hs := h.separated.toApart
  funext r
  cases r with
  | own o' => rfl
  | pde o' i' =>
    rw [Function.update_of_ne (by simp)]
    rcases ho' : dir o' with _ | d'
    · simp [slots, ho']
    · simp [slots, ho', table_write hs ho hi ht ho']
  | pte o' i' j' =>
    rcases ho' : dir o' with _ | d'
    · have hne : Slot.pte o' i' j' ≠ .pte o ⟨i, hi⟩ ⟨j, hj⟩ := by rintro ⟨⟩; simp [ho] at ho'
      simp [slots, ho', Function.update_of_ne hne]
    · simp only [slots, ho', Option.bind_some, entry_write hs ho hi ht ho' i'.isLt]
      by_cases he : d' = d ∧ i'.val = i ∧ j'.val = j
      · obtain ⟨rfl, rfl, rfl⟩ := he
        obtain rfl := h.dir_inj ho ho'
        simp
      · have hne : Slot.pte o' i' j' ≠ .pte o ⟨i, hi⟩ ⟨j, hj⟩ := by
          rintro ⟨⟩
          rw [ho] at ho'
          exact he ⟨(Option.some.inj ho').symm, rfl, rfl⟩
        simp [slots, he, ho', Function.update_of_ne hne]

/-- The free list once page `q` has lost a reference. -/
def freeAfter (s : Phys) (q : Nat) (free : List Nat) : List Nat :=
  if s.ref q - 1 = 0 then q :: free else free

omit [Fintype ι] [DecidableEq ι] in
theorem mem_freeAfter (hp : p ∈ freeAfter s q free) : p = q ∨ p ∈ free := by
  unfold freeAfter at hp
  split at hp
  · exact List.mem_cons.mp hp
  · exact Or.inr hp

omit [DecidableEq ι] in
theorem Accounted.ref_pos (h : Accounted s dir kept free) {r : Slot ι}
    (hr : slots s dir r = some q) : 0 < (s.ref q).toNat := by
  rw [h.count (h.named hr)]
  exact tally_pos.mpr ⟨r, hr⟩

omit [Fintype ι] [DecidableEq ι] in
theorem sub_one_toNat {x : BitVec 16} (h : 0 < x.toNat) : (x - 1).toNat = x.toNat - 1 := by
  have hlt := x.isLt
  rw [BitVec.toNat_sub]
  simp
  omega

omit [DecidableEq ι] in
theorem Accounted.chain_decref (h : Accounted s dir kept free) (hq : q ∉ free) :
    Chain (s.decref q).link (s.decref q).page_free_list (freeAfter s q free) := by
  rw [Phys.decref_link, Phys.decref_free, freeAfter]
  split
  · exact h.chain.push hq
  · exact h.chain

omit [DecidableEq ι] in
theorem Accounted.not_free (h : Accounted s dir kept free) {r : Slot ι}
    (hr : slots s dir r = some q) : q ∉ free := fun hf => h.unnamed hf r hr

theorem slots_unlink {i j : Nat} (h : Accounted s dir kept free) (ho : dir o = some d)
    (hi : i < NPDU) (hj : j < NPTENTRIES) (ht : table s d i = some t) :
    slots ((s.decref q).write t j 0) dir =
      Function.update (slots s dir) (.pte o ⟨i, hi⟩ ⟨j, hj⟩) none := by
  -- `decref` does not touch memory, so the store is one on `s`
  rw [slots_congr (s := s.write t j 0) (by simp [Phys.write]), slots_write h ho hi hj ht]
  simp

/-- A slot no longer refers to page `q`, and the count of `q` goes down. -/
theorem Accounted.dropped {s' : Phys} {dir' : ι → Option Nat} {r : Slot ι}
    (h : Accounted s dir kept free) (hslots : slots s' dir' = Function.update (slots s dir) r none)
    (hr : slots s dir r = some q) (href : s'.ref = (s.decref q).ref)
    (hlink : s'.link = (s.decref q).link)
    (hlist : s'.page_free_list = (s.decref q).page_free_list) (hn : s'.npages = s.npages) :
    Accounted s' dir' kept (freeAfter s q free) := by
  have hsub := sub_one_toNat (h.ref_pos hr)
  have hledger : ledgerOf s' dir' (freeAfter s q free) = (ledgerOf s dir free).drop r q := by
    have hcount : (fun p => (s'.ref p).toNat) =
        Function.update (fun p => (s.ref p).toNat) q ((s.ref q).toNat - 1) := by
      funext p
      by_cases hp : p = q
      · simp [href, hp, ← hsub]
      · simp [href, hp]
    have hzero : s.ref q - 1 = 0 ↔ (s.ref q).toNat - 1 = 0 := by
      rw [← BitVec.toNat_inj, hsub]
      simp
    have hfree : freeAfter s q free = if (s.ref q).toNat - 1 = 0 then q :: free else free :=
      if_congr hzero rfl rfl
    simp only [ledgerOf, Ledger.drop, hslots, hcount, hfree]
    rfl
  have hx : Exclusive Slot.shared (ledgerOf s' dir' (freeAfter s q free)).names := by
    rw [hledger]
    exact Exclusive.drop h.exclusive
  refine ⟨?_, ?_, hx, ?_⟩
  · rw [hlink, hlist]; exact h.chain_decref (h.not_free hr)
  · rw [hledger]; exact h.balanced.drop hr
  · rw [hn]; exact h.kept_lt

theorem Accounted.unlink {i j : Nat} (h : Accounted s dir kept free) (ho : dir o = some d)
    (hi : i < NPDU) (hj : j < NPTENTRIES) (ht : table s d i = some t)
    (hq : pageOf (s.mem t j) = some q) :
    Accounted ((s.decref q).write t j 0) dir kept (freeAfter s q free) := by
  refine h.dropped (slots_unlink h ho hi hj ht) ?_ rfl rfl rfl (by simp)
  rw [slots_pte hi hj ho]
  simpa [pteAt, entry, ht] using hq

theorem Accounted.link {i j : Nat} (h : Accounted s dir kept free) (ho : dir o = some d)
    (hi : i < NPDU) (hj : j < NPTENTRIES) (ht : table s d i = some t)
    (hempty : pageOf (s.mem t j) = none) (hperm : perm.toNat < 4096) (hp : kept p)
    (hfree : p ∉ free) (hshared : ∀ r, slots s dir r = some p → r.shared)
    (hcount : (s.ref p).toNat < 65535) :
    Accounted ((s.write t j (pteFor p perm)).incref p) dir kept free := by
  have hplt := h.kept_lt p hp
  have hle := s.npages_le
  refine h.linked (r := .pte o ⟨i, hi⟩ ⟨j, hj⟩) ?_ ?_ hp hfree (Or.inr ⟨trivial, hshared⟩) hcount
    (by simp) (by simpa using h.chain) (by simp)
  · rw [← pageOf_pteFor (by omega) hperm, ← slots_write h ho hi hj ht]
    rfl
  · rw [slots_pte hi hj ho]
    simpa [pteAt, entry, ht] using hempty

/-- The same page is set again in its entry: only the permissions change. -/
theorem Accounted.relink {i j : Nat} (h : Accounted s dir kept free) (ho : dir o = some d)
    (hi : i < NPDU) (hj : j < NPTENTRIES) (ht : table s d i = some t)
    (hold : pageOf (s.mem t j) = pageOf w) : Accounted (s.write t j w) dir kept free := by
  have hnames : slots (s.write t j w) dir = slots s dir := by
    rw [slots_write h ho hi hj ht, ← hold]
    refine Function.update_eq_self_iff.mpr ?_
    rw [slots_pte hi hj ho]
    simp [pteAt, entry, ht]
  have hledger : ledgerOf (s.write t j w) dir free = ledgerOf s dir free := by
    simp [ledgerOf, hnames]
  exact ⟨h.chain, hledger ▸ h.balanced, hnames ▸ h.exclusive, h.kept_lt⟩

/-! ## Pages that are lost -/

/-- Page `p` counts no reference and is not on the free list. -/
def Phys.Lost (s : Phys) (p : Nat) : Prop :=
  s.ref p = 0 ∧ ∀ free, Chain s.link s.page_free_list free → p ∉ free

/-- No page is lost in `s'` that was not lost in `s`. -/
def NoLoss (s s' : Phys) : Prop := ∀ p, s'.Lost p → s.Lost p

section lost

omit [Fintype ι] [DecidableEq ι]

variable {s₁ s' : Phys}

theorem NoLoss.refl (s : Phys) : NoLoss s s := fun _ h => h

theorem NoLoss.trans (h : NoLoss s s₁) (h' : NoLoss s₁ s') : NoLoss s s' :=
  fun p hp => h p (h' p hp)

theorem NoLoss.of_eq (href : s'.ref = s.ref) (hlink : s'.link = s.link)
    (hlist : s'.page_free_list = s.page_free_list) : NoLoss s s' := by
  intro p hp
  unfold Phys.Lost at hp ⊢
  rwa [href, hlink, hlist] at hp

/-- A page whose count goes down to 0 goes to the free list. -/
theorem noLoss_decref (hc : Chain s.link s.page_free_list free) (hq : q ∉ free) :
    NoLoss s (s.decref q) := by
  rintro p ⟨href, hlist⟩
  have hchain : Chain (s.decref q).link (s.decref q).page_free_list (freeAfter s q free) := by
    rw [Phys.decref_link, Phys.decref_free, freeAfter]
    split
    · exact hc.push hq
    · exact hc
  have hout := hlist _ hchain
  rw [Phys.decref_ref, Function.update_apply] at href
  split at href
  · rename_i hpq
    rw [freeAfter, if_pos href, hpq] at hout
    exact absurd (List.mem_cons_self ..) hout
  · refine ⟨href, fun free' hc' hp => hout ?_⟩
    rw [hc'.unique hc] at hp
    unfold freeAfter
    split
    · exact List.mem_cons_of_mem _ hp
    · exact hp

/-- A page that gets a reference is lost no longer. -/
theorem lost_incref (hcount : (s.ref q).toNat < 65535) (h : (s.incref q).Lost p) :
    s.Lost p ∧ p ≠ q := by
  obtain ⟨href, hlist⟩ := h
  rw [Phys.incref_ref, Function.update_apply] at href
  split at href
  · have h0 : (s.ref q + 1).toNat = 0 := by rw [href]; rfl
    rw [BitVec.toNat_add] at h0
    simp at h0
    omega
  · refine ⟨⟨href, fun free' hc => hlist free' ?_⟩, ‹_›⟩
    rwa [Phys.incref_link]

/-- The first free page is taken, and counts one reference, or is lost. -/
theorem lost_taken (hc : Chain s.link s.page_free_list (q :: free)) {n : BitVec 16}
    (href : s'.ref = Function.update s.ref q n) (hlink : s'.link = Function.update s.link q none)
    (hlist : s'.page_free_list = s.link q) (h : s'.Lost p) : s.Lost p ∨ (p = q ∧ n = 0) := by
  obtain ⟨h0, hout⟩ := h
  rw [href, Function.update_apply] at h0
  split at h0
  · exact Or.inr ⟨‹_›, h0⟩
  · rename_i hpq
    refine Or.inl ⟨h0, fun free' hc' hp => ?_⟩
    rw [hc'.unique hc] at hp
    refine hout free ?_ ((List.mem_cons.mp hp).resolve_left hpq)
    rw [hlink, hlist]
    exact hc.pop

theorem noLoss_newTable {i : Nat} (hc : Chain s.link s.page_free_list (q :: free)) :
    NoLoss s (s.newTable d i q) := by
  intro p hp
  rcases lost_taken hc (Phys.newTable_ref ..) (Phys.newTable_link ..) (Phys.newTable_free ..) hp with
    h | ⟨-, h⟩
  · exact h
  · cases h

/-- `page_insert` loses no page, and its own page is lost no longer. -/
theorem lost_insertAt {j : Nat} {x : Nat} (hc : Chain s.link s.page_free_list free)
    (hold : ∀ q, pageOf (s.mem t j) = some q → q ∉ free ∧ (s.ref q).toNat ≠ 0)
    (hcount : (s.ref p).toNat < 65535 ∨ pageOf (s.mem t j) = some p)
    (h : (s.insertAt t j p perm).Lost x) : s.Lost x ∧ x ≠ p := by
  unfold Phys.insertAt at h
  rcases hq : pageOf (s.mem t j) with _ | q
  · rw [hq] at h hcount
    exact lost_incref (s := s.write t j _) (hcount.resolve_right (by simp)) h
  · obtain ⟨hqfree, hqref⟩ := hold q hq
    rw [hq] at h hcount
    by_cases hqp : q = p
    · simp only [hqp, if_true] at h
      have hx : s.Lost x := h
      exact ⟨hx, fun hxp => hqref (by rw [hqp, ← hxp, hx.1]; rfl)⟩
    · simp only [hqp, if_false] at h
      have hc' : ((s.decref q).ref p).toNat < 65535 := by
        rw [Phys.decref_ref, Function.update_of_ne (Ne.symm hqp)]
        exact hcount.resolve_right fun he => hqp (Option.some.inj he)
      obtain ⟨hx, hne⟩ := lost_incref (s := ((s.decref q).write t j 0).write t j _) hc' h
      exact ⟨noLoss_decref hc hqfree x hx, hne⟩

end lost

/-! ## The functions -/

theorem slots_insertAt {i j : Nat} (h : Accounted s dir kept free) (ho : dir o = some d)
    (hi : i < NPDU) (hj : j < NPTENTRIES) (ht : table s d i = some t) (hperm : perm.toNat < 4096)
    (hp : kept p) :
    slots (s.insertAt t j p perm) dir =
      Function.update (slots s dir) (.pte o ⟨i, hi⟩ ⟨j, hj⟩) (some p) := by
  have hle := s.npages_le
  have hplt := h.kept_lt p hp
  rw [slots_congr (Phys.insertAt_mem j), slots_write h ho hi hj ht,
    pageOf_pteFor (by omega) hperm]

theorem Accounted.insertAt {i j : Nat} (h : Accounted s dir kept free) (ho : dir o = some d)
    (hi : i < NPDU) (hj : j < NPTENTRIES) (ht : table s d i = some t) (hperm : perm.toNat < 4096)
    (hp : kept p) (hfree : p ∉ free) (hshared : ∀ r, slots s dir r = some p → r.shared)
    (hcount : (s.ref p).toNat < 65535 ∨ pageOf (s.mem t j) = some p) :
    ∃ free', Accounted (s.insertAt t j p perm) dir kept free' ∧
      ∀ x ∈ free', x ∈ free ∨ (pageOf (s.mem t j) = some x ∧ x ≠ p) := by
  have hle := s.npages_le
  have hplt := h.kept_lt p hp
  unfold Phys.insertAt
  rcases hq : pageOf (s.mem t j) with _ | q
  · have hc : (s.ref p).toNat < 65535 := by
      rcases hcount with hc | hc
      · exact hc
      · rw [hq] at hc; cases hc
    exact ⟨free, h.link ho hi hj ht hq hperm hp hfree hshared hc, fun x hx => Or.inl hx⟩
  · by_cases hqp : q = p
    · subst hqp
      refine ⟨free, ?_, fun x hx => Or.inl hx⟩
      simp only [if_true]
      exact h.relink ho hi hj ht (by rw [hq, pageOf_pteFor (by omega) hperm])
    · have hc : (s.ref p).toNat < 65535 := by
        rcases hcount with hc | hc
        · exact hc
        · rw [hq] at hc; exact absurd (Option.some.inj hc) hqp
      -- the old page goes first, and the entry is empty in between
      have h₁ := h.unlink ho hi hj ht hq
      have ht₁ : table ((s.decref q).write t j 0) d i = some t := by
        rw [table_write (h.separated.toApart.decref q) ho hi (by simpa using ht) ho]
        simpa using ht
      have hsub : ∀ r, slots ((s.decref q).write t j 0) dir r = some p → r.shared := by
        intro r hr
        rw [slots_unlink h ho hi hj ht, Function.update_apply] at hr
        split at hr
        · cases hr
        · exact hshared r hr
      have hfree₁ : p ∉ freeAfter s q free := by
        intro hm
        rcases mem_freeAfter hm with he | hm
        · exact hqp he.symm
        · exact hfree hm
      refine ⟨freeAfter s q free, ?_, ?_⟩
      · simp only [hqp, if_false]
        refine h₁.link ho hi hj ht₁ (by simp [Phys.write_mem]) hperm hp hfree₁ hsub ?_
        simpa [Ne.symm hqp] using hc
      · intro x hx
        rcases mem_freeAfter hx with rfl | hx
        · exact Or.inr ⟨rfl, hqp⟩
        · exact Or.inl hx

/-- Entry `j` of table `i` of directory `d` becomes `w`, and nothing else
changes in a live page table. Memory changes in that table alone, and in
the directory where the table is new. -/
structure EntrySet (s s' : Phys) (dir : ι → Option Nat) (d i j : Nat) (w : Word) : Prop where
  npages : s'.npages = s.npages
  pteAt : ∀ o' d' i' j', dir o' = some d' → i' < NPDU →
    pteAt s' d' i' j' = if d' = d ∧ i' = i ∧ j' = j then w else pteAt s d' i' j'
  table : ∀ o' d' i', dir o' = some d' → i' < NPDU → table s d' i' ≠ none ∨ ¬ (d' = d ∧ i' = i) →
    table s' d' i' = table s d' i'
  mem : ∀ x k, s'.mem x k = s.mem x k ∨ (x = d ∧ k = i ∧ jos.table s d i = none) ∨
    jos.table s' d i = some x

omit [Fintype ι] [DecidableEq ι] in
theorem mem_insertAt {j : Nat} (x k : Nat) (hx : x ≠ t) :
    (s.insertAt t j p perm).mem x k = s.mem x k := by
  rw [Phys.insertAt_mem, Phys.write_mem, if_neg (fun h => hx h.1)]

omit [Fintype ι] [DecidableEq ι] in
theorem npages_insertAt {j : Nat} : (s.insertAt t j p perm).npages = s.npages := by
  unfold Phys.insertAt
  split
  · simp
  · split <;> simp

omit [Fintype ι] [DecidableEq ι] in
theorem entrySet_insertAt {i j : Nat} (hs : Apart s dir) (ho : dir o = some d) (hi : i < NPDU)
    (ht : table s d i = some t) :
    EntrySet s (s.insertAt t j p perm) dir d i j (pteFor p perm) where
  npages := npages_insertAt
  pteAt o' d' i' j' ho' hi' := pteAt_insertAt hs ho hi ht ho' hi'
  table o' d' i' ho' _ _ := table_insertAt hs ho hi ht ho'
  mem x k := by
    by_cases hx : x = t
    · rw [table_insertAt hs ho hi ht ho, hx]
      exact Or.inr (Or.inr ht)
    · exact Or.inl (mem_insertAt x k hx)

omit [Fintype ι] [DecidableEq ι] in
theorem entrySet_newTable {i j : Nat} (hs : Separated s dir (q :: free)) (ho : dir o = some d)
    (hi : i < NPDU) (ht : table s d i = none) :
    EntrySet s ((s.newTable d i q).insertAt q j p perm) dir d i j (pteFor p perm) := by
  have hq : q ∈ q :: free := List.mem_cons_self ..
  have hs₁ : Apart (s.newTable d i q) dir := (Separated.newTable hs).toApart
  have ht₁ : table (s.newTable d i q) d i = some q := by rw [table_newTable hs hq ho]; simp
  refine ⟨?_, ?_, ?_, ?_⟩
  · rw [npages_insertAt, Phys.newTable_npages]
  · intro o' d' i' j' ho' hi'
    rw [pteAt_insertAt hs₁ ho hi ht₁ ho' hi', pteAt_newTable hs hq ho ht ho' hi']
  · intro o' d' i' ho' hi' hne
    rw [table_insertAt hs₁ ho hi ht₁ ho', table_newTable hs hq ho']
    split
    · rename_i he
      rcases hne with hne | hne
      · rw [he.1, he.2] at hne; exact absurd ht hne
      · exact absurd he hne
    · rfl
  · intro x k
    by_cases hx : x = q
    · refine Or.inr (Or.inr ?_)
      rw [table_insertAt hs₁ ho hi ht₁ ho, ht₁, hx]
    · rw [mem_insertAt x k hx, Phys.newTable_mem]
      split
      · rename_i he; exact Or.inr (Or.inl ⟨he.1, he.2, ht⟩)
      · simp

/-- What the slots refer to before `page_insert` sets its entry: as in `s`, with
a free page as the new table where there was none. -/
def WithTable (s : Phys) (dir : ι → Option Nat) (free : List Nat) (o : ι) (i : Fin NPDU)
    (f : Slot ι → Option Nat) : Prop :=
  (slots s dir (.pde o i) ≠ none ∧ f = slots s dir) ∨
    (slots s dir (.pde o i) = none ∧
      ∃ q ∈ free, f = Function.update (slots s dir) (.pde o i) (some q))

/-- `page_insert` fails for want of a page table, with nothing changed, or it
sets one entry. -/
theorem page_insert_effect (h : Accounted s dir kept free) (ho : dir o = some d)
    (hva : va < UTOP) (hperm : perm.toNat < 4096) (hp : kept p) :
    (table s d (PDX va) = none ∧ free = [] ∧ page_insert s d p va perm = .ok (-E_NO_MEM, s)) ∨
    ∃ s' f, page_insert s d p va perm = .ok (0, s') ∧
      EntrySet s s' dir d (PDX va) (PTX va) (pteFor p perm) ∧
      WithTable s dir free o ⟨PDX va, PDX_lt_NPDU hva⟩ f ∧ slots s' dir =
        Function.update f (.pte o ⟨PDX va, PDX_lt_NPDU hva⟩ ⟨PTX va, PTX_lt va⟩) (some p) := by
  have hs := h.separated
  have hi := PDX_lt_NPDU hva
  have hj : PTX va < NPTENTRIES := PTX_lt va
  rcases page_insert_cases perm hs ho hva (h.kept_lt p hp) with
    ⟨t, ht, he⟩ | ⟨ht, hf, he⟩ | ⟨q, rest, ht, rfl, he⟩
  · refine Or.inr ⟨_, slots s dir, he, entrySet_insertAt hs.toApart ho hi ht, ?_,
      slots_insertAt h ho hi hj ht hperm hp⟩
    exact Or.inl ⟨by rw [slots_pde hi ho, ht]; simp, rfl⟩
  · exact Or.inl ⟨ht, hf, he⟩
  · have ht₁ : table (s.newTable d (PDX va) q) d (PDX va) = some q := by
      rw [table_newTable hs (List.mem_cons_self ..) ho]; simp
    refine Or.inr ⟨_, _, he, entrySet_newTable hs ho hi ht, ?_,
      slots_insertAt (h.newTable ho hi ht) ho hi hj ht₁ hperm hp⟩
    exact Or.inr ⟨by rw [slots_pde hi ho, ht], q, List.mem_cons_self .., slots_newTable h ho hi ht⟩

omit [Fintype ι] in
/-- After `page_insert`, a slot refers to the page it set, to the page it
referred to before, or to a page from the free list. -/
theorem names_insert {i : Fin NPDU} {j : Fin NPTENTRIES} {f : Slot ι → Option Nat} {s' : Phys}
    {r : Slot ι} (hf : WithTable s dir free o i f)
    (hslots : slots s' dir = Function.update f (.pte o i j) (some p))
    (hr : slots s' dir r = some q) : q = p ∨ slots s dir r = some q ∨ q ∈ free := by
  simp only [hslots, Function.update_apply] at hr
  split at hr
  · exact Or.inl (Option.some.inj hr).symm
  · rcases hf with ⟨-, rfl⟩ | ⟨-, x, hx, rfl⟩
    · exact Or.inr (Or.inl hr)
    · simp only [Function.update_apply] at hr
      split at hr
      · cases hr; exact Or.inr (Or.inr hx)
      · exact Or.inr (Or.inl hr)

/-- `page_insert` gives its page one reference more, unless the page stood
there already. -/
theorem refs_insert {i : Fin NPDU} {j : Fin NPTENTRIES} {f : Slot ι → Option Nat} {s' : Phys}
    (hf : WithTable s dir free o i f)
    (hslots : slots s' dir = Function.update f (.pte o i j) (some p)) (hfree : p ∉ free) :
    refs s' dir p + (if slots s dir (.pte o i j) = some p then 1 else 0) = refs s dir p + 1 := by
  have hsame : tally f p = tally (slots s dir) p ∧ f (.pte o i j) = slots s dir (.pte o i j) := by
    rcases hf with ⟨-, rfl⟩ | ⟨hnone, x, hx, rfl⟩
    · exact ⟨rfl, rfl⟩
    · have hxp : x ≠ p := fun he => hfree (he ▸ hx)
      refine ⟨?_, Function.update_of_ne (by simp) ..⟩
      have := tally_update (slots s dir) (.pde o i) (some x) p
      simpa [hnone, hxp] using this
  have h := tally_update f (.pte o i j) (some p) p
  simp only [hsame.1, hsame.2, if_true] at h
  rw [refs, hslots]
  exact h

theorem room_for_one {i : Fin NPDU} {j : Fin NPTENTRIES} {f : Slot ι → Option Nat} {s' : Phys}
    (hf : WithTable s dir free o i f)
    (hslots : slots s' dir = Function.update f (.pte o i j) (some p)) (hfree : p ∉ free)
    (hmax : refs s' dir p ≤ 65535) :
    refs s dir p < 65535 ∨ slots s dir (.pte o i j) = some p := by
  have h := refs_insert hf hslots hfree
  split at h
  · exact Or.inr ‹_›
  · left; omega

/-- A page that only page tables refer to, with room for one more reference,
may be mapped: `page_insert` then keeps the accounts. -/
theorem page_insert_accounted (h : Accounted s dir kept free) (ho : dir o = some d)
    (hva : va < UTOP) (hperm : perm.toNat < 4096) (hp : kept p) (hfree : p ∉ free)
    (hshared : ∀ r, slots s dir r = some p → r.shared)
    (hcount : refs s dir p < 65535 ∨ pageOf (pteAt s d (PDX va) (PTX va)) = some p) {s' : Phys}
    (he : page_insert s d p va perm = .ok (0, s')) :
    ∃ free', Accounted s' dir kept free' ∧
      ∀ x ∈ free', x ∈ free ∨ (pageOf (pteAt s d (PDX va) (PTX va)) = some x ∧ x ≠ p) := by
  have hs := h.separated
  have hi := PDX_lt_NPDU hva
  have hj : PTX va < NPTENTRIES := PTX_lt va
  rw [← h.count hp] at hcount
  rcases page_insert_cases perm hs ho hva (h.kept_lt p hp) with
    ⟨t, ht, he'⟩ | ⟨ht, hf, he'⟩ | ⟨q, rest, ht, rfl, he'⟩
  · cases he.symm.trans he'
    have hpte : pteAt s d (PDX va) (PTX va) = s.mem t (PTX va) := by simp [pteAt, entry, ht]
    rw [hpte] at hcount ⊢
    exact h.insertAt ho hi hj ht hperm hp hfree hshared hcount
  · cases he.symm.trans he'
  · cases he.symm.trans he'
    have hpq : p ≠ q := fun hpq => hfree (hpq ▸ List.mem_cons_self ..)
    have hpte : pteAt s d (PDX va) (PTX va) = 0 := by simp [pteAt, entry, ht]
    have h₁ := h.newTable ho hi ht
    have ht₁ : table (s.newTable d (PDX va) q) d (PDX va) = some q := by
      rw [table_newTable hs (List.mem_cons_self ..) ho]; simp
    have hqd : q ≠ d := fun hqd => hs.free_dir q (List.mem_cons_self ..) o (hqd ▸ ho)
    have hempty : pageOf ((s.newTable d (PDX va) q).mem q (PTX va)) = none := by
      simp [Phys.newTable_mem, hqd]
    have hshared₁ : ∀ r, slots (s.newTable d (PDX va) q) dir r = some p → r.shared := by
      intro r hr
      rw [slots_newTable h ho hi ht, Function.update_apply] at hr
      split at hr
      · exact absurd (Option.some.inj hr).symm hpq
      · exact hshared r hr
    have hc : ((s.newTable d (PDX va) q).ref p).toNat < 65535 := by
      rw [hpte] at hcount
      simpa [hpq] using hcount
    obtain ⟨free', h', hsub⟩ := h₁.insertAt ho hi hj ht₁ hperm hp
      (fun hm => hfree (List.mem_cons_of_mem _ hm)) hshared₁ (Or.inl hc)
    refine ⟨free', h', fun x hx => ?_⟩
    rcases hsub x hx with hx | ⟨hx, -⟩
    · exact Or.inl (List.mem_cons_of_mem _ hx)
    · rw [hempty] at hx; cases hx

/-- `page_insert` loses no page, and the page that it was given is lost no
longer. -/
theorem lost_page_insert (h : Accounted s dir kept free) (ho : dir o = some d) (hva : va < UTOP)
    (hp : kept p) (hfree : p ∉ free)
    (hcount : refs s dir p < 65535 ∨ pageOf (pteAt s d (PDX va) (PTX va)) = some p) {s' : Phys}
    (he : page_insert s d p va perm = .ok (0, s')) {x : Nat} (hx : s'.Lost x) :
    s.Lost x ∧ x ≠ p := by
  have hs := h.separated
  have hi := PDX_lt_NPDU hva
  rw [← h.count hp] at hcount
  rcases page_insert_cases perm hs ho hva (h.kept_lt p hp) with
    ⟨t, ht, he'⟩ | ⟨ht, hf, he'⟩ | ⟨q, rest, ht, rfl, he'⟩
  · cases he.symm.trans he'
    have hpte : pteAt s d (PDX va) (PTX va) = s.mem t (PTX va) := by simp [pteAt, entry, ht]
    rw [hpte] at hcount
    refine lost_insertAt h.chain (fun q hq => ?_) hcount hx
    have hslot := slots_pte (s := s) hi (PTX_lt va) ho
    rw [hpte, hq] at hslot
    exact ⟨h.not_free hslot, Nat.ne_of_gt (h.ref_pos hslot)⟩
  · cases he.symm.trans he'
  · cases he.symm.trans he'
    have hpq : p ≠ q := fun hpq => hfree (hpq ▸ List.mem_cons_self ..)
    have hqd : q ≠ d := fun hqd => hs.free_dir q (List.mem_cons_self ..) o (hqd ▸ ho)
    have hempty : pageOf ((s.newTable d (PDX va) q).mem q (PTX va)) = none := by
      simp [Phys.newTable_mem, hqd]
    have hpte : pteAt s d (PDX va) (PTX va) = 0 := by simp [pteAt, entry, ht]
    rw [hpte] at hcount
    have hc : ((s.newTable d (PDX va) q).ref p).toNat < 65535 := by simpa [hpq] using hcount
    have hchain := (h.newTable ho hi ht).chain
    obtain ⟨hx', hne⟩ := lost_insertAt hchain
      (fun q' hq' => by rw [hempty] at hq'; cases hq') (Or.inl hc) hx
    exact ⟨noLoss_newTable h.chain x hx', hne⟩

omit [DecidableEq ι] in
theorem noLoss_page_remove (h : Accounted s dir kept free) (ho : dir o = some d) (hva : va < UTOP)
    {s' : Phys} (he : page_remove s d va = .ok s') : NoLoss s s' := by
  have hi := PDX_lt_NPDU hva
  rcases page_remove_cases h.separated.toApart ho hva with ⟨-, he'⟩ | ⟨t, q, ht, hq, he'⟩
  · cases he.symm.trans he'
    exact NoLoss.refl s
  · cases he.symm.trans he'
    have hslot := slots_pte (s := s) hi (PTX_lt va) ho
    rw [show pteAt s d (PDX va) (PTX va) = s.mem t (PTX va) by simp [pteAt, entry, ht], hq] at hslot
    exact noLoss_decref h.chain (h.not_free hslot)

omit [Fintype ι] [DecidableEq ι] in
theorem entrySet_unlink {i j : Nat} (hs : Apart s dir) (ho : dir o = some d) (hi : i < NPDU)
    (ht : table s d i = some t) : EntrySet s ((s.decref q).write t j 0) dir d i j 0 := by
  have ht' : table (s.decref q) d i = some t := by simpa using ht
  have hdec : pteAt (s.decref q) = pteAt s := pteAt_congr (Phys.decref_mem ..)
  refine ⟨by simp, ?_, ?_, ?_⟩
  · intro o' d' i' j' ho' hi'
    rw [pteAt_write (hs.decref q) ho hi ht' ho' hi', hdec]
  · intro o' d' i' ho' hi' _
    rw [table_write (hs.decref q) ho hi ht' ho', table_decref]
  · intro x k
    by_cases hx : x = t
    · refine Or.inr (Or.inr ?_)
      rw [table_write (hs.decref q) ho hi ht' ho, ht', hx]
    · exact Or.inl (by simp [Phys.write_mem, hx])

/-- `page_remove` keeps the accounts. It does nothing where no page is
mapped, and else it clears one entry. -/
theorem page_remove_spec (h : Accounted s dir kept free) (ho : dir o = some d) (hva : va < UTOP) :
    (pageOf (pteAt s d (PDX va) (PTX va)) = none ∧ page_remove s d va = .ok s) ∨
    ∃ s' q, pageOf (pteAt s d (PDX va) (PTX va)) = some q ∧ page_remove s d va = .ok s' ∧
      Accounted s' dir kept (freeAfter s q free) ∧
      EntrySet s s' dir d (PDX va) (PTX va) 0 ∧ slots s' dir =
        Function.update (slots s dir) (.pte o ⟨PDX va, PDX_lt_NPDU hva⟩ ⟨PTX va, PTX_lt va⟩)
          none := by
  have hs := h.separated.toApart
  have hi := PDX_lt_NPDU hva
  rcases page_remove_cases hs ho hva with he | ⟨t, q, ht, hq, he⟩
  · exact Or.inl he
  · exact Or.inr ⟨_, q, by simpa [pteAt, entry, ht] using hq, he,
      h.unlink ho hi (PTX_lt va) ht hq, entrySet_unlink hs ho hi ht,
      slots_unlink h ho hi (PTX_lt va) ht⟩

end accounts

end jos
