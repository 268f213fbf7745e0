-- Counted references. A ledger has slots that may name things, a count
-- for each thing, and a list of the things that are free. It is balanced
-- when each count is the number of slots that name the thing. The rules
-- below say what the three moves on a ledger keep.
import Mathlib

namespace ledger

variable {σ α : Type} [Fintype σ] [DecidableEq σ] [DecidableEq α]

/-! ## How many slots name a thing -/

/-- The number of slots that name `a`. -/
def tally (f : σ → Option α) (a : α) : ℕ := (Finset.univ.filter fun r => f r = some a).card

variable {f g : σ → Option α} {a : α} {r : σ}

omit [DecidableEq σ] in
theorem tally_eq_zero : tally f a = 0 ↔ ∀ r, f r ≠ some a := by
  simp [tally, Finset.card_eq_zero, Finset.filter_eq_empty_iff]

omit [DecidableEq σ] in
theorem tally_pos : 0 < tally f a ↔ ∃ r, f r = some a := by
  rw [Nat.pos_iff_ne_zero, ne_eq, tally_eq_zero]
  push Not
  rfl

/-- One slot changes what it names: its old thing has one name less, and
its new thing one more. -/
theorem tally_update (f : σ → Option α) (r : σ) (v : Option α) (a : α) :
    tally (Function.update f r v) a + (if f r = some a then 1 else 0) =
      tally f a + (if v = some a then 1 else 0) := by
  have hsum : ∀ g : σ → Option α, tally g a =
      (if g r = some a then 1 else 0) + ∑ x ∈ Finset.univ.erase r, if g x = some a then 1 else 0 := by
    intro g
    rw [tally, Finset.card_filter]
    exact (Finset.add_sum_erase _ (fun x => if g x = some a then 1 else 0) (Finset.mem_univ r)).symm
  have hrest : ∑ x ∈ Finset.univ.erase r, (if Function.update f r v x = some a then 1 else 0) =
      ∑ x ∈ Finset.univ.erase r, if f x = some a then 1 else 0 := by
    refine Finset.sum_congr rfl fun x hx => ?_
    rw [Function.update_of_ne (Finset.ne_of_mem_erase hx)]
  rw [hsum (Function.update f r v), hsum f, hrest, Function.update_self]
  omega

/-- A thing that one slot alone names has the tally 1, and the other way round. -/
theorem tally_eq_one (hr : f r = some a) : tally f a = 1 ↔ ∀ r', f r' = some a → r' = r := by
  have hcut := tally_update f r none a
  simp only [hr, if_true, reduceCtorEq, if_false] at hcut
  constructor
  · intro h1 r' hr'
    by_contra hne
    have h0 : tally (Function.update f r none) a = 0 := by omega
    exact tally_eq_zero.mp h0 r' (by rw [Function.update_of_ne hne]; exact hr')
  · intro hall
    have h0 : tally (Function.update f r none) a = 0 := by
      refine tally_eq_zero.mpr fun r' hr' => ?_
      by_cases hne : r' = r
      · subst hne; simp at hr'
      · rw [Function.update_of_ne hne] at hr'
        exact hne (hall r' hr')
    omega

omit [DecidableEq σ] in
/-- Some slots name nothing any more: what they named has so many names less. -/
theorem tally_erase {mine : σ → Prop} [DecidablePred mine]
    (h : ∀ r, g r = if mine r then none else f r) (a : α) :
    tally f a = tally g a + (Finset.univ.filter fun r => mine r ∧ f r = some a).card := by
  have hrest : (Finset.univ.filter fun r => g r = some a) =
      (Finset.univ.filter fun r => f r = some a).filter fun r => ¬ mine r := by
    ext r
    by_cases hr : mine r <;> simp [h, hr]
  have hmine : (Finset.univ.filter fun r => mine r ∧ f r = some a) =
      (Finset.univ.filter fun r => f r = some a).filter mine := by
    ext r
    simp [and_comm]
  rw [tally, tally, hrest, hmine, Nat.add_comm, Finset.card_filter_add_card_filter_not]

/-- Slots that all stand in a list are no more than its length. -/
theorem tally_le_length {l : List σ} (h : ∀ r, f r = some a → r ∈ l) : tally f a ≤ l.length := by
  have hsub : (Finset.univ.filter fun r => f r = some a) ⊆ l.toFinset := by
    intro r hr
    exact List.mem_toFinset.mpr (h r (Finset.mem_filter.mp hr).2)
  exact (Finset.card_le_card hsub).trans (List.toFinset_card_le l)

theorem tally_eq_length {l : List σ} (hl : l.Nodup) (h : ∀ r, f r = some a ↔ r ∈ l) :
    tally f a = l.length := by
  have heq : (Finset.univ.filter fun r => f r = some a) = l.toFinset := by
    ext r
    simp [h]
  rw [tally, heq, List.toFinset_card_of_nodup hl]

/-! ## The ledger -/

/-- The slots, the counts and the free things. -/
structure Ledger (σ α : Type) where
  names : σ → Option α
  count : α → ℕ
  free : List α

/-- The counts of the things in `kept` are right, and no free thing has a name. -/
structure Balanced (kept : α → Prop) (L : Ledger σ α) : Prop where
  nodup : L.free.Nodup
  free_kept : ∀ a ∈ L.free, kept a
  free_unnamed : ∀ a ∈ L.free, ∀ r, L.names r ≠ some a
  named_kept : ∀ r a, L.names r = some a → kept a
  exact_count : ∀ a, kept a → L.count a = tally L.names a

/-- A thing with two names has both of them in shared slots. -/
def Exclusive (shared : σ → Prop) (f : σ → Option α) : Prop :=
  ∀ r r' a, f r = some a → f r' = some a → r = r' ∨ (shared r ∧ shared r')

namespace Ledger

/-- The first free thing is taken from the list. -/
def take (L : Ledger σ α) : Ledger σ α := { L with free := L.free.tail }

/-- Slot `r` names `a` from now on. -/
def link (L : Ledger σ α) (r : σ) (a : α) : Ledger σ α :=
  { L with names := Function.update L.names r (some a)
           count := Function.update L.count a (L.count a + 1) }

/-- Slot `r` no longer names `a`. With its last name gone, `a` is free. -/
def drop (L : Ledger σ α) (r : σ) (a : α) : Ledger σ α :=
  { names := Function.update L.names r none
    count := Function.update L.count a (L.count a - 1)
    free := if L.count a - 1 = 0 then a :: L.free else L.free }

end Ledger

variable {kept : α → Prop} {shared : σ → Prop} {L : Ledger σ α}

omit [DecidableEq σ] in
theorem Balanced.take (h : Balanced kept L) : Balanced kept L.take where
  nodup := h.nodup.tail
  free_kept a ha := h.free_kept a (List.mem_of_mem_tail ha)
  free_unnamed a ha := h.free_unnamed a (List.mem_of_mem_tail ha)
  named_kept := h.named_kept
  exact_count := h.exact_count

theorem Balanced.link (h : Balanced kept L) (hr : L.names r = none) (ha : kept a)
    (hfree : a ∉ L.free) : Balanced kept (L.link r a) where
  nodup := h.nodup
  free_kept := h.free_kept
  free_unnamed b hb r' := by
    by_cases hrr : r' = r
    · subst hrr
      simp only [Ledger.link, Function.update_self, ne_eq, Option.some.injEq]
      rintro rfl
      exact hfree hb
    · simp only [Ledger.link, Function.update_of_ne hrr]
      exact h.free_unnamed b hb r'
  named_kept r' b hb := by
    by_cases hrr : r' = r
    · subst hrr
      simp only [Ledger.link, Function.update_self, Option.some.injEq] at hb
      exact hb ▸ ha
    · simp only [Ledger.link, Function.update_of_ne hrr] at hb
      exact h.named_kept r' b hb
  exact_count b hb := by
    have ht := tally_update L.names r (some a) b
    have hc := h.exact_count b hb
    simp only [hr, reduceCtorEq, if_false, Option.some.injEq] at ht
    simp only [Ledger.link]
    by_cases hab : a = b
    · subst hab
      rw [Function.update_self]
      simp only [if_true] at ht
      omega
    · rw [Function.update_of_ne (Ne.symm hab)]
      simp only [hab, if_false] at ht
      omega

omit [Fintype σ] in
/-- A thing without a name may take any slot. -/
theorem Exclusive.link (h : Exclusive shared L.names) (ha : ∀ r, L.names r ≠ some a) :
    Exclusive shared (L.link r a).names := by
  intro r₁ r₂ b h₁ h₂
  simp only [Ledger.link, Function.update_apply] at h₁ h₂
  split at h₁ <;> split at h₂
  · exact Or.inl (by simp_all)
  · cases h₁; exact absurd h₂ (ha _)
  · cases h₂; exact absurd h₁ (ha _)
  · exact h r₁ r₂ b h₁ h₂

omit [Fintype σ] in
/-- A thing with names in shared slots alone may take one more shared slot. -/
theorem Exclusive.link_shared (h : Exclusive shared L.names) (hr : shared r)
    (ha : ∀ r', L.names r' = some a → shared r') : Exclusive shared (L.link r a).names := by
  intro r₁ r₂ b h₁ h₂
  simp only [Ledger.link, Function.update_apply] at h₁ h₂
  split at h₁ <;> split at h₂
  · exact Or.inl (by simp_all)
  · rename_i he _; cases h₁; subst he; exact Or.inr ⟨hr, ha _ h₂⟩
  · rename_i _ he; cases h₂; subst he; exact Or.inr ⟨ha _ h₁, hr⟩
  · exact h r₁ r₂ b h₁ h₂

omit [Fintype σ] in
theorem names_drop (r' : σ) (b : α) (h : (L.drop r a).names r' = some b) :
    r' ≠ r ∧ L.names r' = some b := by
  simp only [Ledger.drop, Function.update_apply] at h
  split at h
  · cases h
  · exact ⟨‹_›, h⟩

omit [Fintype σ] in
theorem Exclusive.drop (h : Exclusive shared L.names) : Exclusive shared (L.drop r a).names :=
  fun r₁ r₂ b h₁ h₂ => h r₁ r₂ b (names_drop r₁ b h₁).2 (names_drop r₂ b h₂).2

theorem Balanced.drop (h : Balanced kept L) (hr : L.names r = some a) :
    Balanced kept (L.drop r a) := by
  have hka := h.named_kept r a hr
  have hnew : ∀ b, kept b → (L.drop r a).count b = tally (L.drop r a).names b := by
    intro b hb
    have ht := tally_update L.names r none b
    have hc := h.exact_count b hb
    simp only [hr, reduceCtorEq, if_false, Option.some.injEq] at ht
    simp only [Ledger.drop]
    by_cases hab : a = b
    · subst hab
      rw [Function.update_self]
      simp only [if_true] at ht
      omega
    · rw [Function.update_of_ne (Ne.symm hab)]
      simp only [hab, if_false] at ht
      omega
  have hmem : ∀ b ∈ (L.drop r a).free, b ∈ L.free ∨ (b = a ∧ L.count a - 1 = 0) := by
    intro b hb
    simp only [Ledger.drop] at hb
    split at hb
    · rcases List.mem_cons.mp hb with rfl | hb
      · exact Or.inr ⟨rfl, ‹_›⟩
      · exact Or.inl hb
    · exact Or.inl hb
  refine ⟨?_, ?_, ?_, fun r' b hb => h.named_kept r' b (names_drop r' b hb).2, hnew⟩
  · simp only [Ledger.drop]
    split
    · exact List.nodup_cons.mpr ⟨fun hf => h.free_unnamed a hf r hr, h.nodup⟩
    · exact h.nodup
  · intro b hb
    rcases hmem b hb with hb | ⟨rfl, -⟩
    · exact h.free_kept b hb
    · exact hka
  · intro b hb r' hr'
    rcases hmem b hb with hb | ⟨rfl, h0⟩
    · exact h.free_unnamed b hb r' (names_drop r' b hr').2
    · -- the count of `b` is now 0, and it is right
      have hc := hnew b hka
      simp only [Ledger.drop, Function.update_self] at hc
      exact tally_eq_zero.mp (hc.symm.trans h0) r' hr'

end ledger
