-- Lists that live in memory. A list is a head and a link of each node,
-- and `Chain` says which nodes a walk along the links meets. Nothing
-- here knows what the nodes are.
import Mathlib

namespace linked_list

variable {α : Type} {next : α → Option α} {h : Option α} {a : α} {l l' : List α}

/-- A walk from `h` along `next` meets the nodes of `l`, in this order, and
then ends. -/
def Chain (next : α → Option α) : Option α → List α → Prop
  | h, [] => h = none
  | h, a :: l => h = some a ∧ Chain next (next a) l

instance decidableChain [DecidableEq α] : ∀ h l, Decidable (Chain next h l)
  | h, [] => inferInstanceAs (Decidable (h = none))
  | h, a :: l =>
    have := decidableChain (next a) l
    inferInstanceAs (Decidable (h = some a ∧ Chain next (next a) l))

@[simp] theorem chain_none : Chain next none l ↔ l = [] := by
  cases l <;> simp [Chain]

@[simp] theorem chain_nil : Chain next h [] ↔ h = none := Iff.rfl

/-- A chain with a head begins with it. -/
theorem Chain.eq_cons (hc : Chain next h l) (hh : h = some a) : ∃ l', l = a :: l' := by
  subst hh
  cases l with
  | nil => cases hc
  | cons x l => cases hc.1; exact ⟨l, rfl⟩

/-- The nodes after a node are a chain of their own. -/
theorem Chain.suffix (xs : List α) (hc : Chain next h (xs ++ a :: l)) :
    Chain next (some a) (a :: l) := by
  induction xs generalizing h with
  | nil => exact ⟨rfl, hc.2⟩
  | cons x xs ih => exact ih hc.2

/-- A head and its links fix the nodes of the walk. -/
theorem Chain.unique (hl : Chain next h l) (hl' : Chain next h l') : l = l' := by
  induction l generalizing h l' with
  | nil => rw [chain_nil] at hl; subst hl; exact (chain_none.mp hl').symm
  | cons x l ih =>
    obtain ⟨rfl, hl⟩ := hl
    cases l' with
    | nil => cases hl'
    | cons y l' =>
      obtain ⟨hxy, hl'⟩ := hl'
      cases hxy
      rw [ih hl hl']

/-- A walk that ends meets no node twice: from its second visit on, it
would have to go on as it did from the first. -/
theorem Chain.nodup (hl : Chain next h l) : l.Nodup := by
  induction l generalizing h with
  | nil => exact List.nodup_nil
  | cons x l ih =>
    obtain ⟨rfl, hl⟩ := hl
    refine List.nodup_cons.mpr ⟨fun hx => ?_, ih hl⟩
    obtain ⟨xs, ys, rfl⟩ := List.append_of_mem hx
    have hself : Chain next (some x) (x :: (xs ++ x :: ys)) := ⟨rfl, hl⟩
    have := congrArg List.length (hself.unique (hl.suffix xs))
    simp at this
    omega

/-- Only the links of the nodes on the chain matter. -/
theorem Chain.congr {next' : α → Option α} (hl : Chain next h l)
    (he : ∀ x ∈ l, next' x = next x) : Chain next' h l := by
  induction l generalizing h with
  | nil => exact hl
  | cons x l ih =>
    obtain ⟨rfl, hl⟩ := hl
    refine ⟨rfl, ?_⟩
    rw [he x (List.mem_cons_self ..)]
    exact ih hl (fun y hy => he y (List.mem_cons_of_mem _ hy))

/-! ## A part of a list -/

/-- A walk from `h` along `next` meets the nodes of `l`, in this order, and is at `v`
then. -/
def Seg (next : α → Option α) : Option α → List α → Option α → Prop
  | h, [], v => h = v
  | h, a :: l, v => h = some a ∧ Seg next (next a) l v

theorem seg_none : Seg next h l none ↔ Chain next h l := by
  induction l generalizing h with
  | nil => exact Iff.rfl
  | cons a l ih => exact and_congr_right' ih

theorem seg_append {v : Option α} :
    Seg next h (l ++ l') v ↔ ∃ w, Seg next h l w ∧ Seg next w l' v := by
  induction l generalizing h with
  | nil => exact ⟨fun hs => ⟨h, rfl, hs⟩, by rintro ⟨w, rfl, hs⟩; exact hs⟩
  | cons a l ih =>
    refine (and_congr_right' ih).trans ⟨?_, ?_⟩
    · rintro ⟨rfl, w, hl, hl'⟩
      exact ⟨w, ⟨rfl, hl⟩, hl'⟩
    · rintro ⟨w, ⟨rfl, hl⟩, hl'⟩
      exact ⟨rfl, w, hl, hl'⟩

/-- Only the links of the nodes that are met matter. -/
theorem Seg.congr {next' : α → Option α} {v : Option α} (hl : Seg next h l v)
    (he : ∀ x ∈ l, next' x = next x) : Seg next' h l v := by
  induction l generalizing h with
  | nil => exact hl
  | cons x l ih =>
    obtain ⟨rfl, hl⟩ := hl
    refine ⟨rfl, ?_⟩
    rw [he x (List.mem_cons_self ..)]
    exact ih hl fun y hy => he y (List.mem_cons_of_mem _ hy)

/-- The link of the last node can be set to lead somewhere else. -/
theorem Seg.redirect {next' : α → Option α} {v : Option α} (hl : Seg next h l v) (hd : l.Nodup)
    (ha : l.getLast? = some a) (he : ∀ x ∈ l, x ≠ a → next' x = next x) :
    Seg next' h l (next' a) := by
  induction l generalizing h with
  | nil => cases ha
  | cons x l ih =>
    obtain ⟨rfl, hl⟩ := hl
    refine ⟨rfl, ?_⟩
    cases l with
    | nil =>
      cases ha
      exact rfl
    | cons y l =>
      rw [List.getLast?_cons_cons] at ha
      have hx : x ≠ a := by
        rintro rfl
        exact (List.nodup_cons.mp hd).1 (List.mem_of_getLast? ha)
      rw [he x (List.mem_cons_self ..) hx]
      exact ih hl (List.nodup_cons.mp hd).2 ha fun z hz => he z (List.mem_cons_of_mem _ hz)

/-- A new node behind the last one. -/
theorem Seg.snoc {next' : α → Option α} {v : Option α} {b : α} (hl : Seg next h l v)
    (hd : l.Nodup) (ha : l.getLast? = some a) (he : ∀ x ∈ l, x ≠ a → next' x = next x)
    (hb : next' a = some b) : Seg next' h (l ++ [b]) (next' b) := by
  refine seg_append.mpr ⟨some b, ?_, rfl, rfl⟩
  rw [← hb]
  exact hl.redirect hd ha he

variable [DecidableEq α]

/-- A new head in front of a chain that does not hold it. -/
theorem Chain.push (hl : Chain next h l) (ha : a ∉ l) :
    Chain (Function.update next a h) (some a) (a :: l) := by
  refine ⟨rfl, ?_⟩
  rw [Function.update_self]
  refine hl.congr fun x hx => ?_
  rw [Function.update_of_ne]
  rintro rfl
  exact ha hx

/-- The rest of the chain stands when its head is cut off and its link cleared. -/
theorem Chain.pop {v : Option α} (hl : Chain next h (a :: l)) :
    Chain (Function.update next a v) (next a) l := by
  refine hl.2.congr fun x hx => ?_
  rw [Function.update_of_ne]
  rintro rfl
  exact (List.nodup_cons.mp hl.nodup).1 hx

end linked_list
