-- Runs of a machine that takes one step for each event. An event that cannot
-- happen in a state ends the run. What each allowed step keeps, a run of
-- allowed steps keeps.
import Mathlib

namespace runs

variable {σ ε : Type} (step : σ → ε → Option σ)

/-- The state that the events lead to. -/
def runFrom (s : σ) : List ε → Option σ
  | [] => some s
  | ev :: evs => (step s ev).bind fun s' => runFrom s' evs

/-- Every event of the run is allowed in the state before it. -/
def Along (allowed : σ → ε → Prop) : σ → List ε → Prop
  | _, [] => True
  | s, ev :: evs => allowed s ev ∧
    match step s ev with
    | some s' => Along allowed s' evs
    | none => True

variable {step} {allowed : σ → ε → Prop}

instance decidableAlong [∀ s ev, Decidable (allowed s ev)] :
    ∀ (s : σ) (evs : List ε), Decidable (Along step allowed s evs)
  | _, [] => .isTrue trivial
  | s, ev :: evs =>
    have : Decidable (match step s ev with
        | some s' => Along step allowed s' evs
        | none => True) :=
      match step s ev with
      | some s' => decidableAlong s' evs
      | none => .isTrue trivial
    inferInstanceAs (Decidable (allowed s ev ∧ _))

theorem runFrom_append (s : σ) (evs evs' : List ε) :
    runFrom step s (evs ++ evs') = (runFrom step s evs).bind fun s' => runFrom step s' evs' := by
  induction evs generalizing s with
  | nil => rfl
  | cons ev evs ih =>
    simp only [List.cons_append, runFrom]
    rcases step s ev with _ | s'
    · rfl
    · exact ih s'

theorem runFrom_snoc {s s' s'' : σ} {evs : List ε} {ev : ε} (hr : runFrom step s evs = some s')
    (hs : step s' ev = some s'') : runFrom step s (evs ++ [ev]) = some s'' := by
  rw [runFrom_append, hr, Option.bind_some, runFrom, hs]
  rfl

theorem runFrom_keeps {I : σ → Prop}
    (hstep : ∀ s ev s', I s → allowed s ev → step s ev = some s' → I s') {s s' : σ} (hI : I s)
    {evs : List ε} (hr : runFrom step s evs = some s') (hall : Along step allowed s evs) :
    I s' := by
  induction evs generalizing s with
  | nil => cases hr; exact hI
  | cons ev evs ih =>
    obtain ⟨s₁, hs₁, hr⟩ := Option.bind_eq_some_iff.mp hr
    simp only [Along, hs₁] at hall
    exact ih (hstep s ev s₁ hI hall.1 hs₁) hr hall.2

theorem Along.of_forall (h : ∀ s ev, allowed s ev) {s : σ} {evs : List ε} :
    Along step allowed s evs := by
  induction evs generalizing s with
  | nil => trivial
  | cons ev evs ih =>
    refine ⟨h s ev, ?_⟩
    split
    · exact ih
    · trivial

theorem Along.snoc {s s' : σ} {evs : List ε} {ev : ε} (h : Along step allowed s evs)
    (hr : runFrom step s evs = some s') (hev : allowed s' ev) :
    Along step allowed s (evs ++ [ev]) := by
  induction evs generalizing s with
  | nil =>
    cases hr
    refine ⟨hev, ?_⟩
    split <;> trivial
  | cons ev' evs ih =>
    obtain ⟨s₁, hs₁, hr⟩ := Option.bind_eq_some_iff.mp hr
    obtain ⟨hev', hrest⟩ := h
    refine ⟨hev', ?_⟩
    rw [hs₁] at hrest ⊢
    exact ih hrest hr

theorem Along.and {allowed' : σ → ε → Prop} {s : σ} {evs : List ε}
    (h : Along step allowed s evs) (h' : Along step allowed' s evs) :
    Along step (fun s ev => allowed s ev ∧ allowed' s ev) s evs := by
  induction evs generalizing s with
  | nil => trivial
  | cons ev evs ih =>
    obtain ⟨hev, hrest⟩ := h
    obtain ⟨hev', hrest'⟩ := h'
    refine ⟨⟨hev, hev'⟩, ?_⟩
    rcases hs : step s ev with _ | s'
    · trivial
    · rw [hs] at hrest hrest'
      exact ih hrest hrest'

/-- Where an invariant holds, another condition may be checked in place of the
one that is wanted. -/
theorem Along.imp {I : σ → Prop} {wanted : σ → ε → Prop}
    (himp : ∀ s ev, I s → allowed s ev → wanted s ev)
    (hstep : ∀ s ev s', I s → wanted s ev → step s ev = some s' → I s') {s : σ} (hI : I s)
    {evs : List ε} (hall : Along step allowed s evs) : Along step wanted s evs := by
  induction evs generalizing s with
  | nil => trivial
  | cons ev evs ih =>
    obtain ⟨hev, hrest⟩ := hall
    have hw := himp s ev hI hev
    refine ⟨hw, ?_⟩
    rcases hs : step s ev with _ | s'
    · trivial
    · rw [hs] at hrest
      exact ih (hstep s ev s' hI hw hs) hrest

end runs
