-- Code that need not come back. A function of a kernel or a runtime may
-- return to its caller, hand the machine over to something else for good,
-- never end, or stop with an error. The rules below carry pre- and
-- postconditions through a sequence of such functions. Nothing here knows
-- what the state is.
import Mathlib

namespace outcome

/-- How a function on states `σ` ends, with a result of type `α` when it
returns, and an error of type `π` when it stops. -/
inductive Outcome (σ π α : Type)
  | ret (a : α) (s : σ)
  | left (s : σ)
  | stuck
  | panic (p : π)

namespace Outcome

variable {σ π α β : Type}

/-- What follows a function that returns. -/
def bind : Outcome σ π α → (α → σ → Outcome σ π β) → Outcome σ π β
  | ret a s, f => f a s
  | left s, _ => left s
  | stuck, _ => stuck
  | panic p, _ => panic p

/-- The result of a function that does not return, where a caller of any
type waits for it. -/
def noreturn : Outcome σ π Empty → Outcome σ π α
  | left s => left s
  | stuck => stuck
  | panic p => panic p

/-- The result of a function that returns. -/
def result? : Outcome σ π α → Option α
  | ret a _ => some a
  | _ => none

theorem result?_eq_some {r : Outcome σ π α} {a : α} (h : r.result? = some a) :
    ∃ s, r = ret a s := by
  cases r with
  | ret b s => cases h; exact ⟨s, rfl⟩
  | _ => cases h

@[simp] theorem bind_ret (a : α) (s : σ) (f : α → σ → Outcome σ π β) :
    (ret a s).bind f = f a s := rfl

@[simp] theorem bind_panic (p : π) (f : α → σ → Outcome σ π β) :
    (panic p : Outcome σ π α).bind f = panic p := rfl

theorem bind_assoc {γ : Type} (r : Outcome σ π α) (f : α → σ → Outcome σ π β)
    (g : β → σ → Outcome σ π γ) : (r.bind f).bind g = r.bind fun a s => (f a s).bind g := by
  cases r <;> rfl

theorem noreturn_bind (r : Outcome σ π Empty) (f : α → σ → Outcome σ π Empty) :
    r.noreturn.bind f = r := by
  cases r with
  | ret a _ => exact a.elim
  | _ => rfl

/-- If it returns, then with `P`; if it leaves, then in a state with `Q`; and
if it stops, then with an error that `N` allows. -/
def Holds (P : α → σ → Prop) (Q : σ → Prop) (N : π → Prop) : Outcome σ π α → Prop
  | ret a s => P a s
  | left s => Q s
  | stuck => True
  | panic p => N p

variable {P P' : α → σ → Prop} {R : β → σ → Prop} {Q Q' : σ → Prop} {N N' : π → Prop}
  {r : Outcome σ π α} {f : α → σ → Outcome σ π β} {a : α} {s : σ} {p : π}

/-- Sequencing: what the first function promises is what the second needs. -/
theorem Holds.bind (h : r.Holds P Q N) (hf : ∀ a s, P a s → (f a s).Holds R Q N) :
    (r.bind f).Holds R Q N := by
  cases r with
  | ret a s => exact hf a s h
  | left s => exact h
  | stuck => trivial
  | panic p => exact h

/-- Consequence. -/
theorem Holds.mono (h : r.Holds P Q N) (hP : ∀ a s, P a s → P' a s) (hQ : ∀ s, Q s → Q' s)
    (hN : ∀ p, N p → N' p) : r.Holds P' Q' N' := by
  cases r with
  | ret a s => exact hP a s h
  | left s => exact hQ s h
  | stuck => trivial
  | panic p => exact hN p h

/-- What is known of the states in which it leaves. -/
theorem holds_noreturn_of_left {r : Outcome σ π Empty} (h : ∀ s, r = left s → Q s) :
    (r.noreturn : Outcome σ π α).Holds P Q fun _ => True := by
  cases r with
  | ret a s => exact a.elim
  | left s => exact h s rfl
  | stuck => trivial
  | panic p => trivial

end Outcome

end outcome
