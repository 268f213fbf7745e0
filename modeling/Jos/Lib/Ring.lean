-- A ring of `n` cells through which a stream of values passes. Value `j` of the
-- stream lies in cell `j % n` from when it is stored to when it is taken, and
-- no more than `n` values are on their way.
import Mathlib

namespace ring

variable {α : Type} {n : Nat} [NeZero n]

/-- The values from number `lo` to the end of `sent` lie in the ring. -/
def Holds (buf : Fin n → α) (sent : List α) (lo : Nat) : Prop :=
  ∀ j, lo ≤ j → ∀ h : j < sent.length, buf (Fin.ofNat n j) = sent[j]

variable {buf : Fin n → α} {sent : List α} {lo : Nat} {v : α}

/-- Values less than a round apart lie in different cells. -/
theorem cell_ne {i j : Nat} (hlt : i < j) (hround : j < i + n) :
    Fin.ofNat n i ≠ Fin.ofNat n j := by
  intro h
  have hmod : i % n = j % n := congrArg Fin.val h
  have hdvd : n ∣ j - i := (Nat.modEq_iff_dvd' hlt.le).mp hmod
  exact absurd (Nat.le_of_dvd (by omega) hdvd) (by omega)

theorem Holds.mono {hi : Nat} (h : Holds buf sent lo) (hle : lo ≤ hi) : Holds buf sent hi :=
  fun j hj => h j (hle.trans hj)

/-- A store behind the end leaves what is on its way alone. -/
theorem Holds.store (h : Holds buf sent lo) (hroom : sent.length < lo + n) :
    Holds (Function.update buf (Fin.ofNat n sent.length) v) sent lo := by
  intro j hj hlt
  rw [Function.update_of_ne (cell_ne hlt (by omega))]
  exact h j hj hlt

/-- A value counts once its cell is filled. -/
theorem Holds.send (h : Holds buf sent lo) (hv : buf (Fin.ofNat n sent.length) = v) :
    Holds buf (sent ++ [v]) lo := by
  intro j hj hlt
  rw [List.length_append, List.length_singleton] at hlt
  by_cases hend : j = sent.length
  · subst hend
    simpa using hv
  · rw [List.getElem_append_left (by omega)]
    exact h j hj (by omega)

/-- What has been taken, and the value at the front, are the start of the stream. -/
theorem take_front (h : Holds buf sent lo) {got : List α} (hgot : got <+: sent)
    (hlo : got.length = lo) (hlt : lo < sent.length) :
    got ++ [buf (Fin.ofNat n lo)] <+: sent := by
  rw [h lo le_rfl hlt, List.prefix_iff_eq_take.mp hgot, hlo, List.take_append_getElem]
  exact List.take_prefix ..

end ring
