-- Loops that may fail: counted ones, which run their body for 0, 1, up to
-- n - 1, and ones with a condition. The rules below carry an invariant through
-- them. Nothing here knows what the body does.
import Mathlib

namespace loop

variable {ε σ : Type} {f : ℕ → σ → Except ε σ} {n : ℕ} {s s' : σ}

/-- The state after the body has run for 0, 1, up to `n - 1`. -/
def forUpto (f : ℕ → σ → Except ε σ) : ℕ → σ → Except ε σ
  | 0, s => .ok s
  | n + 1, s => (forUpto f n s).bind (f n)

theorem bind_eq_ok {α β : Type} {x : Except ε α} {g : α → Except ε β} {b : β} :
    x.bind g = .ok b ↔ ∃ a, x = .ok a ∧ g a = .ok b := by
  cases x <;> simp [Except.bind]

/-- A body that always succeeds and moves the invariant one on takes the
loop to its end. -/
theorem forUpto_total (I : ℕ → σ → Prop) (h₀ : I 0 s)
    (hstep : ∀ i < n, ∀ x, I i x → ∃ y, f i x = .ok y ∧ I (i + 1) y) :
    ∃ y, forUpto f n s = .ok y ∧ I n y := by
  induction n with
  | zero => exact ⟨s, rfl, h₀⟩
  | succ n ih =>
    obtain ⟨x, hx, hI⟩ := ih fun i hi => hstep i (by omega)
    obtain ⟨y, hy, hI'⟩ := hstep n (by omega) x hI
    exact ⟨y, bind_eq_ok.mpr ⟨x, hx, hy⟩, hI'⟩

/-! ## Loops with a condition -/

section While

variable {guard : σ → Bool} {body : σ → Except ε σ} {s₁ : σ}

/-- A loop that runs its body while the condition holds, `n` times at most. -/
def whileUpto (guard : σ → Bool) (body : σ → Except ε σ) : ℕ → σ → Except ε σ
  | 0, s => .ok s
  | n + 1, s => if guard s then (body s).bind (whileUpto guard body n) else .ok s

/-- The loop that starts in one state ends in the other, where the condition
does not hold. -/
inductive Ends (guard : σ → Bool) (body : σ → Except ε σ) : σ → σ → Prop
  | stop {s : σ} : guard s = false → Ends guard body s s
  | turn {s s₁ s' : σ} : guard s = true → body s = .ok s₁ → Ends guard body s₁ s' →
    Ends guard body s s'

theorem Ends.guard_eq (h : Ends guard body s s') : guard s' = false := by
  induction h with
  | stop hg => exact hg
  | turn _ _ _ ih => exact ih

/-- What every turn of the body keeps, the loop keeps. -/
theorem Ends.keeps (I : σ → Prop) (h : Ends guard body s s') (h₀ : I s)
    (hstep : ∀ x y, I x → guard x = true → body x = .ok y → I y) : I s' := by
  induction h with
  | stop => exact h₀
  | turn hg hb _ ih => exact ih (hstep _ _ h₀ hg hb)

/-- Another body that makes the same turns takes the loop to the same end. -/
theorem Ends.congr {body' : σ → Except ε σ} (I : σ → Prop) (h : Ends guard body s s') (h₀ : I s)
    (hstep : ∀ x y, I x → guard x = true → body x = .ok y → I y ∧ body' x = .ok y) :
    Ends guard body' s s' := by
  induction h with
  | stop hg => exact .stop hg
  | turn hg hb _ ih =>
    obtain ⟨hI, hb'⟩ := hstep _ _ h₀ hg hb
    exact .turn hg hb' (ih hI)

/-- A body that makes a measure smaller, or stops with an error, takes the loop to its
end. -/
theorem whileUpto_stops (I : σ → Prop) (E : ε → Prop) (size : σ → ℕ) (h₀ : I s) (hn : size s < n)
    (hstep : ∀ x, I x → guard x = true →
      (∃ e, body x = .error e ∧ E e) ∨ ∃ y, body x = .ok y ∧ I y ∧ size y < size x) :
    (∃ e, whileUpto guard body n s = .error e ∧ E e) ∨
      ∃ s', whileUpto guard body n s = .ok s' ∧ Ends guard body s s' ∧ I s' := by
  induction n generalizing s with
  | zero => omega
  | succ n ih =>
    cases hg : guard s with
    | false => exact .inr ⟨s, by rw [whileUpto, hg]; rfl, .stop hg, h₀⟩
    | true =>
      rcases hstep s h₀ hg with ⟨e, he, hE⟩ | ⟨y, hy, hI, hlt⟩
      · refine .inl ⟨e, ?_, hE⟩
        rw [whileUpto, hg, if_pos rfl, he]
        rfl
      · have hrun : whileUpto guard body (n + 1) s = whileUpto guard body n y := by
          rw [whileUpto, hg, if_pos rfl, hy]
          rfl
        rw [hrun]
        rcases ih hI (by omega) with herr | ⟨s', hs', hends, hI'⟩
        · exact .inl herr
        · exact .inr ⟨s', hs', .turn hg hy hends, hI'⟩

/-- A body that always succeeds and makes a measure smaller takes the loop to
its end. -/
theorem whileUpto_total (I : σ → Prop) (size : σ → ℕ) (h₀ : I s) (hn : size s ≤ n)
    (hstep : ∀ x, I x → guard x = true → ∃ y, body x = .ok y ∧ I y ∧ size y < size x) :
    ∃ s', whileUpto guard body n s = .ok s' ∧ Ends guard body s s' := by
  induction n generalizing s with
  | zero =>
    cases hg : guard s with
    | false => exact ⟨s, rfl, .stop hg⟩
    | true =>
      obtain ⟨y, -, -, hlt⟩ := hstep s h₀ hg
      omega
  | succ n ih =>
    cases hg : guard s with
    | false => exact ⟨s, by rw [whileUpto, hg]; rfl, .stop hg⟩
    | true =>
      obtain ⟨y, hy, hI, hlt⟩ := hstep s h₀ hg
      obtain ⟨s', hrun, hends⟩ := ih hI (by omega)
      refine ⟨s', ?_, .turn hg hy hends⟩
      rw [whileUpto, hg, if_pos rfl, hy]
      exact hrun

end While

end loop
