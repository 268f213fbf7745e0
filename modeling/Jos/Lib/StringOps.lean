-- The string instructions of IA-32 over a memory of bytes: `rep movs` and `rep stos`, by
-- bytes and by double words, up and down. Each unit is read as a whole before it is
-- written, so a repeated move copies a range as long as it goes away from the overlap.
import Mathlib

namespace string_ops

variable {k : Nat}

abbrev Mem (k : Nat) := BitVec k → BitVec 8

/-! ## Ranges -/

/-- The address is one of the `n` from `d` on. -/
def InRange (d : BitVec k) (n : Nat) (a : BitVec k) : Prop :=
  d.toNat ≤ a.toNat ∧ a.toNat < d.toNat + n

instance (d : BitVec k) (n : Nat) (a : BitVec k) : Decidable (InRange d n a) :=
  inferInstanceAs (Decidable (_ ∧ _))

/-- The `n` bytes at `d` are those that were at `s`. -/
def copied (m : Mem k) (d s : BitVec k) (n : Nat) : Mem k :=
  fun a => if InRange d n a then m (s + (a - d)) else m a

/-- The `n` bytes at `d` are all `b`. -/
def filled (m : Mem k) (d : BitVec k) (b : BitVec 8) (n : Nat) : Mem k :=
  fun a => if InRange d n a then b else m a

variable {m : Mem k} {d s a : BitVec k} {b : BitVec 8} {n w p q : Nat}

theorem not_inRange_zero : ¬ InRange d 0 a := by
  rintro ⟨hlow, hhigh⟩
  omega

theorem copied_zero : copied m d s 0 = m := funext fun _ => if_neg not_inRange_zero

theorem filled_zero : filled m d b 0 = m := funext fun _ => if_neg not_inRange_zero

theorem toNat_add_ofNat (h : d.toNat + n < 2 ^ k) : (d + BitVec.ofNat k n).toNat = d.toNat + n := by
  rw [BitVec.toNat_add, BitVec.toNat_ofNat, Nat.mod_eq_of_lt (by omega : n < 2 ^ k),
    Nat.mod_eq_of_lt h]

/-- A range is its first part and the rest. -/
theorem inRange_append (h : d.toNat + p < 2 ^ k) :
    InRange d (p + q) a ↔ InRange d p a ∨ InRange (d + BitVec.ofNat k p) q a := by
  rw [InRange, InRange, InRange, toNat_add_ofNat h]
  omega

/-- The byte that belongs to an address of the range. -/
theorem toNat_source (hs : s.toNat + n ≤ 2 ^ k) (h : InRange d n a) :
    (s + (a - d)).toNat = s.toNat + (a.toNat - d.toNat) := by
  obtain ⟨hlow, hhigh⟩ := h
  have hsub : (a - d).toNat = a.toNat - d.toNat := BitVec.toNat_sub_of_le hlow
  rw [BitVec.toNat_add, hsub]
  exact Nat.mod_eq_of_lt (by omega)

/-- Pointers that have moved as far as each other have the same distance. -/
theorem source_moved (x : BitVec k) : s + x + (a - (d + x)) = s + (a - d) := by
  rw [← BitVec.sub_sub, BitVec.add_assoc, BitVec.add_comm x, BitVec.sub_add_cancel]

/-- The first part of a range is copied before the rest. The source does not begin before
the destination, or it ends before it. -/
theorem copied_rest (hd : d.toNat + (p + q) < 2 ^ k) (hs : s.toNat + (p + q) < 2 ^ k)
    (hsafe : d.toNat ≤ s.toNat ∨ s.toNat + (p + q) ≤ d.toNat) :
    copied (copied m d s p) (d + BitVec.ofNat k p) (s + BitVec.ofNat k p) q =
      copied m d s (p + q) := by
  have hsplit : ∀ a, InRange d (p + q) a ↔ _ := fun a => inRange_append (by omega)
  funext a
  by_cases hrest : InRange (d + BitVec.ofNat k p) q a
  · have hin := (hsplit a).mpr (.inr hrest)
    have hsrc := toNat_source (s := s) (by omega) hin
    have hout : ¬ InRange d p (s + (a - d)) := by
      rintro ⟨hlow, hhigh⟩
      obtain ⟨hlow', hhigh'⟩ := hrest
      rw [toNat_add_ofNat (by omega)] at hlow' hhigh'
      omega
    rw [copied, if_pos hrest, source_moved, copied, if_neg hout, copied, if_pos hin]
  · rw [copied, if_neg hrest, copied, copied]
    refine if_congr ?_ rfl rfl
    rw [hsplit]
    exact (or_iff_left hrest).symm

/-- The rest of a range is copied before its first part. The source does not begin behind
the destination. -/
theorem copied_first (hd : d.toNat + (p + q) < 2 ^ k) (hs : s.toNat + (p + q) < 2 ^ k)
    (hsafe : s.toNat ≤ d.toNat) :
    copied (copied m (d + BitVec.ofNat k p) (s + BitVec.ofNat k p) q) d s p =
      copied m d s (p + q) := by
  have hsplit : ∀ a, InRange d (p + q) a ↔ _ := fun a => inRange_append (by omega)
  funext a
  by_cases hfirst : InRange d p a
  · have hin := (hsplit a).mpr (.inl hfirst)
    have hsrc := toNat_source (s := s) (by omega) hfirst
    have hout : ¬ InRange (d + BitVec.ofNat k p) q (s + (a - d)) := by
      rintro ⟨hlow, hhigh⟩
      obtain ⟨hlow', hhigh'⟩ := hfirst
      rw [toNat_add_ofNat (by omega)] at hlow
      omega
    rw [copied, if_pos hfirst, copied, if_neg hout, copied, if_pos hin]
  · rw [copied, if_neg hfirst, copied, source_moved, copied]
    refine if_congr ?_ rfl rfl
    rw [hsplit]
    exact (or_iff_right hfirst).symm

theorem filled_rest (hd : d.toNat + (p + q) < 2 ^ k) :
    filled (filled m d b p) (d + BitVec.ofNat k p) b q = filled m d b (p + q) := by
  funext a
  have hsplit : InRange d (p + q) a ↔ _ := inRange_append (by omega)
  by_cases hrest : InRange (d + BitVec.ofNat k p) q a
  · rw [filled, if_pos hrest, filled, if_pos (hsplit.mpr (.inr hrest))]
  · rw [filled, if_neg hrest, filled, filled]
    refine if_congr ?_ rfl rfl
    rw [hsplit]
    exact (or_iff_left hrest).symm

/-! ## Repeated instructions -/

/-- `rep movs`: the destination and the source move by `δ` after each unit. -/
def repMovs (unit : Mem k → BitVec k → BitVec k → Mem k) (δ : BitVec k) :
    Nat → BitVec k → BitVec k → Mem k → Mem k
  | 0, _, _, m => m
  | n + 1, d, s, m => repMovs unit δ n (d + δ) (s + δ) (unit m d s)

/-- `rep stos`: the destination moves by `δ` after each unit. -/
def repStos (unit : Mem k → BitVec k → Mem k) (δ : BitVec k) : Nat → BitVec k → Mem k → Mem k
  | 0, _, m => m
  | n + 1, d, m => repStos unit δ n (d + δ) (unit m d)

/-- Units that do the same at all addresses that come up. -/
theorem repMovs_congr {u v : Mem k → BitVec k → BitVec k → Mem k} {δ : BitVec k}
    (P : BitVec k → Prop) (hP : ∀ x, P x → P (x + δ))
    (h : ∀ m d s, P d → P s → u m d s = v m d s) (hd : P d) (hs : P s) :
    repMovs u δ n d s m = repMovs v δ n d s m := by
  induction n generalizing d s m with
  | zero => rfl
  | succ n ih => rw [repMovs, repMovs, h m d s hd hs, ih (hP d hd) (hP s hs)]

theorem repStos_congr {u v : Mem k → BitVec k → Mem k} {δ : BitVec k}
    (P : BitVec k → Prop) (hP : ∀ x, P x → P (x + δ)) (h : ∀ m d, P d → u m d = v m d)
    (hd : P d) : repStos u δ n d m = repStos v δ n d m := by
  induction n generalizing d m with
  | zero => rfl
  | succ n ih => rw [repStos, repStos, h m d hd, ih (hP d hd)]

theorem repMovs_up (hd : d.toNat + n * w < 2 ^ k) (hs : s.toNat + n * w < 2 ^ k)
    (hsafe : d.toNat ≤ s.toNat ∨ s.toNat + n * w ≤ d.toNat) :
    repMovs (copied · · · w) (BitVec.ofNat k w) n d s m = copied m d s (n * w) := by
  induction n generalizing d s m with
  | zero => rw [Nat.zero_mul, copied_zero]; rfl
  | succ n ih =>
    rw [Nat.succ_mul, Nat.add_comm (n * w) w] at hd hs hsafe ⊢
    have hd' : (d + BitVec.ofNat k w).toNat = d.toNat + w := toNat_add_ofNat (by omega)
    have hs' : (s + BitVec.ofNat k w).toNat = s.toNat + w := toNat_add_ofNat (by omega)
    rw [repMovs, ih (by omega) (by omega) (by omega), copied_rest hd hs hsafe]

/-- Downwards, the pointers start at the last unit. -/
theorem repMovs_down (hd : d.toNat + n * w < 2 ^ k) (hs : s.toNat + n * w < 2 ^ k)
    (hsafe : s.toNat ≤ d.toNat) :
    repMovs (copied · · · w) (-BitVec.ofNat k w) n
      (d + BitVec.ofNat k (n * w) - BitVec.ofNat k w)
      (s + BitVec.ofNat k (n * w) - BitVec.ofNat k w) m = copied m d s (n * w) := by
  induction n generalizing m with
  | zero => rw [Nat.zero_mul, copied_zero]; rfl
  | succ n ih =>
    have hlast : ∀ x : BitVec k, x + BitVec.ofNat k ((n + 1) * w) - BitVec.ofNat k w =
        x + BitVec.ofNat k (n * w) := by
      intro x
      rw [Nat.succ_mul, BitVec.ofNat_add, ← BitVec.add_assoc, BitVec.add_sub_cancel]
    have hneg : ∀ x : BitVec k, x + -BitVec.ofNat k w = x - BitVec.ofNat k w := fun x =>
      (BitVec.sub_eq_add_neg ..).symm
    rw [hlast, hlast, repMovs, hneg, hneg]
    rw [Nat.succ_mul] at hd hs ⊢
    rw [ih (by omega) (by omega), copied_first hd hs hsafe]

theorem repStos_eq (hd : d.toNat + n * w < 2 ^ k) :
    repStos (filled · · b w) (BitVec.ofNat k w) n d m = filled m d b (n * w) := by
  induction n generalizing d m with
  | zero => rw [Nat.zero_mul, filled_zero]; rfl
  | succ n ih =>
    rw [Nat.succ_mul, Nat.add_comm (n * w) w] at hd ⊢
    have hd' : (d + BitVec.ofNat k w).toNat = d.toNat + w := toNat_add_ofNat (by omega)
    rw [repStos, ih (by omega), filled_rest hd]

/-! ## Bytes and double words -/

/-- `movsb` and `stosb` -/
def movsb (m : Mem k) (d s : BitVec k) : Mem k := Function.update m d (m s)

def stosb (b : BitVec 8) (m : Mem k) (d : BitVec k) : Mem k := Function.update m d b

theorem inRange_one : InRange d 1 a ↔ a = d := by
  rw [InRange, ← BitVec.toNat_inj]
  omega

theorem movsb_eq : movsb m d s = copied m d s 1 := by
  funext a
  by_cases h : a = d
  · rw [movsb, h, Function.update_self, copied, if_pos (inRange_one.mpr rfl), BitVec.sub_self,
      BitVec.add_zero]
  · rw [movsb, Function.update_of_ne h, copied, if_neg fun he => h (inRange_one.mp he)]

theorem stosb_eq : stosb b m d = filled m d b 1 := by
  funext a
  by_cases h : a = d
  · rw [stosb, h, Function.update_self, filled, if_pos (inRange_one.mpr rfl)]
  · rw [stosb, Function.update_of_ne h, filled, if_neg fun he => h (inRange_one.mp he)]

/-- The double word with the bytes `b`, the lowest first. -/
def wordOf (b : Nat → BitVec 8) : BitVec 32 :=
  (b 3).setWidth 32 <<< 24 ||| (b 2).setWidth 32 <<< 16 ||| (b 1).setWidth 32 <<< 8 |||
    (b 0).setWidth 32

/-- Byte `i` of a double word. -/
def byteOf (v : BitVec 32) (i : Nat) : BitVec 8 := (v >>> (8 * i)).setWidth 8

/-- A byte that is shifted by whole bytes, at one bit. -/
theorem getLsbD_shifted (b : BitVec 8) {i j l : Nat} (hj : j < 8) (hi : i < 4) :
    (b.setWidth 32 <<< (8 * l)).getLsbD (8 * i + j) = if i = l then b.getLsbD j else false := by
  rw [BitVec.getLsbD_shiftLeft, BitVec.getLsbD_setWidth]
  have hlt : 8 * i + j < 32 := by omega
  have hlt' : 8 * i + j - 8 * l < 32 := by omega
  by_cases hil : i = l
  · subst hil
    simp [hlt]
    omega
  · rw [if_neg hil]
    by_cases hlow : 8 * i + j < 8 * l
    · simp [hlow]
    · rw [BitVec.getLsbD_of_ge b _ (by omega)]
      simp

theorem byteOf_wordOf (b : Nat → BitVec 8) {i : Nat} (hi : i < 4) : byteOf (wordOf b) i = b i := by
  apply BitVec.eq_of_getLsbD_eq
  intro j hj
  have hword : wordOf b = (b 3).setWidth 32 <<< (8 * 3) ||| (b 2).setWidth 32 <<< (8 * 2) |||
      (b 1).setWidth 32 <<< (8 * 1) ||| (b 0).setWidth 32 <<< (8 * 0) := by
    rw [wordOf, Nat.mul_zero, BitVec.shiftLeft_zero]
  rw [byteOf, BitVec.getLsbD_setWidth, BitVec.getLsbD_ushiftRight, hword]
  simp only [BitVec.getLsbD_or, getLsbD_shifted _ hj hi, hj, decide_true, Bool.true_and]
  have hcases : i = 0 ∨ i = 1 ∨ i = 2 ∨ i = 3 := by omega
  rcases hcases with rfl | rfl | rfl | rfl <;> simp

/-- A double word is stored, its lowest byte first. -/
def stosl (v : BitVec 32) (m : Mem k) (d : BitVec k) : Mem k :=
  Function.update (Function.update (Function.update (Function.update m d (byteOf v 0))
    (d + BitVec.ofNat k 1) (byteOf v 1)) (d + BitVec.ofNat k 2) (byteOf v 2))
    (d + BitVec.ofNat k 3) (byteOf v 3)

def movsl (m : Mem k) (d s : BitVec k) : Mem k :=
  stosl (wordOf fun i => m (s + BitVec.ofNat k i)) m d

/-- An address of a double word that does not wrap, by its number. -/
theorem inRange_four (hd : d.toNat + 3 < 2 ^ k) :
    InRange d 4 a ↔ ∃ i < 4, a = d + BitVec.ofNat k i := by
  constructor
  · rintro ⟨hlow, hhigh⟩
    refine ⟨a.toNat - d.toNat, by omega, BitVec.eq_of_toNat_eq ?_⟩
    rw [toNat_add_ofNat (by omega)]
    omega
  · rintro ⟨i, hi, rfl⟩
    rw [InRange, toNat_add_ofNat (by omega)]
    omega

theorem stosl_at (v : BitVec 32) (hd : d.toNat + 3 < 2 ^ k) {i : Nat} (hi : i < 4) :
    stosl v m d (d + BitVec.ofNat k i) = byteOf v i := by
  have hne : ∀ i < 4, ∀ j < 4, i ≠ j → d + BitVec.ofNat k i ≠ d + BitVec.ofNat k j := by
    intro i hi j hj hij he
    have := congrArg BitVec.toNat he
    rw [toNat_add_ofNat (by omega), toNat_add_ofNat (by omega)] at this
    omega
  have hzero : d = d + BitVec.ofNat k 0 := (BitVec.add_zero d).symm
  have hcases : i = 3 ∨ i = 2 ∨ i = 1 ∨ i = 0 := by omega
  unfold stosl
  rcases hcases with rfl | rfl | rfl | rfl
  · rw [Function.update_self]
  · rw [Function.update_of_ne (hne 2 (by omega) 3 (by omega) (by omega)), Function.update_self]
  · rw [Function.update_of_ne (hne 1 (by omega) 3 (by omega) (by omega)),
      Function.update_of_ne (hne 1 (by omega) 2 (by omega) (by omega)), Function.update_self]
  · rw [Function.update_of_ne (hne 0 (by omega) 3 (by omega) (by omega)),
      Function.update_of_ne (hne 0 (by omega) 2 (by omega) (by omega)),
      Function.update_of_ne (hne 0 (by omega) 1 (by omega) (by omega)), ← hzero,
      Function.update_self]

theorem stosl_outside (v : BitVec 32) (hd : d.toNat + 3 < 2 ^ k) (ha : ¬ InRange d 4 a) :
    stosl v m d a = m a := by
  have hne : ∀ i < 4, a ≠ d + BitVec.ofNat k i := fun i hi he =>
    ha ((inRange_four hd).mpr ⟨i, hi, he⟩)
  have hzero : a ≠ d := fun he => hne 0 (by omega) (he.trans (BitVec.add_zero d).symm)
  unfold stosl
  rw [Function.update_of_ne (hne 3 (by omega)), Function.update_of_ne (hne 2 (by omega)),
    Function.update_of_ne (hne 1 (by omega)), Function.update_of_ne hzero]

theorem movsl_eq (hd : d.toNat + 3 < 2 ^ k) : movsl m d s = copied m d s 4 := by
  funext a
  by_cases ha : InRange d 4 a
  · obtain ⟨i, hi, rfl⟩ := (inRange_four hd).mp ha
    rw [movsl, stosl_at _ hd hi, byteOf_wordOf _ hi, copied, if_pos ha, BitVec.add_comm d,
      BitVec.add_sub_cancel]
  · rw [movsl, stosl_outside _ hd ha, copied, if_neg ha]

theorem stosl_eq (hd : d.toNat + 3 < 2 ^ k) : stosl (wordOf fun _ => b) m d = filled m d b 4 := by
  funext a
  by_cases ha : InRange d 4 a
  · obtain ⟨i, hi, rfl⟩ := (inRange_four hd).mp ha
    rw [stosl_at _ hd hi, byteOf_wordOf _ hi, filled, if_pos ha]
  · rw [stosl_outside _ hd ha, filled, if_neg ha]

end string_ops
