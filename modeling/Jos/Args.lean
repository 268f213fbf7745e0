-- Flags on a command line (`lib/args.c`). The parser takes arguments out of the
-- array in place, and keeps a pointer into one that it has taken out.
import Mathlib
import Jos.Mmu

namespace jos.args

/-- A string, without its NUL. -/
abbrev Str := List (BitVec 8)

/-- `struct Argstate`, with the number of arguments and the array that it points
to. -/
structure Argstate where
  argc : Nat
  argv : Nat → Option Str
  curarg : Option Str
  argvalue : Option Str

def argstart (argc : Nat) (argv : Nat → Option Str) : Argstate :=
  ⟨argc, argv, if 1 < argc then some [] else none, none⟩

/-- `memmove(argv + 1, argv + 2, sizeof(const char *) * (argc - 1))`, and one
argument less. -/
def Argstate.shift (a : Argstate) : Argstate :=
  { a with
    argv := fun i => if 1 ≤ i ∧ i < a.argc then a.argv (i + 1) else a.argv i
    argc := a.argc - 1 }

/-- A string that starts with `-` and has more. -/
def isFlag (f : Str) : Bool := f.head? = some 45 ∧ f.tail ≠ []

/-- The next character of the current argument, which is not at its end. -/
def Argstate.take (a : Argstate) (cur : Str) : Int × Argstate :=
  ((cur.headD 0).toNat, { a with curarg := some cur.tail })

def Argstate.endofargs (a : Argstate) : Int × Argstate := (-1, { a with curarg := none })

def argnext (a : Argstate) : Int × Argstate :=
  let a := { a with argvalue := none }
  match a.curarg with
  | none => (-1, a)
  | some cur =>
    if cur ≠ [] then a.take cur
    else if a.argc = 1 ∨ ¬ (a.argv 1).any isFlag then a.endofargs
    else
      let cur := ((a.argv 1).getD []).tail
      if cur = [45] then a.shift.endofargs else a.shift.take cur

def argnextvalue (a : Argstate) : Option Str × Argstate :=
  match a.curarg with
  | none => (none, a)
  | some cur =>
    if cur ≠ [] then (some cur, { a with argvalue := some cur, curarg := some [] })
    else if 1 < a.argc then (a.argv 1, { a.shift with argvalue := a.argv 1 })
    else (none, { a with argvalue := none, curarg := none })

def argvalue (a : Argstate) : Option Str × Argstate :=
  match a.argvalue with
  | some v => (some v, a)
  | none => argnextvalue a

/-! ## What is to be parsed -/

/-- The flags at the front of a list of arguments. -/
def flags : List Str → List (BitVec 8)
  | [] => []
  | f :: rest => if isFlag f ∧ f ≠ [45, 45] then f.tail ++ flags rest else []

/-- The arguments behind the flags. -/
def remaining : List Str → List Str
  | [] => []
  | f :: rest =>
    if f = [45, 45] then rest else if isFlag f then remaining rest else f :: rest

variable {a : Argstate} {name f cur : Str} {args rest : List Str}

/-- The array holds the name of the program, the arguments and a NULL, and the
current argument is `cur`. -/
structure Represents (a : Argstate) (name : Str) (cur : Option Str) (args : List Str) :
    Prop where
  argc : a.argc = args.length + 1
  argv : ∀ i ≤ a.argc, a.argv i = (name :: args)[i]?
  curarg : a.curarg = cur

/-- The state does not depend on the current value. -/
theorem Represents.congr {b : Argstate} {c c' : Option Str} (h : Represents a name c args)
    (hargc : b.argc = a.argc) (hargv : b.argv = a.argv) (hcur : b.curarg = c') :
    Represents b name c' args := by
  refine ⟨hargc.trans h.argc, fun i hi => ?_, hcur⟩
  rw [hargv]
  exact h.argv i (by omega)

/-- The first argument is taken out. -/
theorem Represents.shift {c c' : Option Str} {v : Option Str}
    (h : Represents a name c (f :: rest)) :
    Represents { a.shift with curarg := c', argvalue := v } name c' rest := by
  have hargc := h.argc
  rw [List.length_cons] at hargc
  have hargc' : a.shift.argc = rest.length + 1 := by
    rw [Argstate.shift]
    dsimp only
    omega
  refine ⟨hargc', fun i hi => ?_, rfl⟩
  have hi : i ≤ rest.length + 1 := hi.trans hargc'.le
  show (if 1 ≤ i ∧ i < a.argc then a.argv (i + 1) else a.argv i) = _
  by_cases hi0 : i = 0
  · subst hi0
    rw [if_neg (by omega), h.argv 0 (Nat.zero_le _)]
    rfl
  · obtain ⟨j, rfl⟩ : ∃ j, i = j + 1 := ⟨i - 1, by omega⟩
    rw [if_pos (by omega), h.argv _ (by omega)]
    simp only [List.getElem?_cons_succ]

theorem Represents.first {c : Option Str} (h : Represents a name c (f :: rest)) :
    a.argv 1 = some f := by
  rw [h.argv 1 (by rw [h.argc]; omega)]
  rfl

/-! ## Calls -/

theorem argnext_ended (h : Represents a name none args) :
    (argnext a).1 = -1 ∧ Represents (argnext a).2 name none args := by
  rw [argnext]
  dsimp only
  rw [h.curarg]
  exact ⟨rfl, h.congr rfl rfl rfl⟩

/-- In an argument. -/
theorem argnext_more {x : BitVec 8} (h : Represents a name (some (x :: cur)) args) :
    (argnext a).1 = x.toNat ∧ Represents (argnext a).2 name (some cur) args := by
  rw [argnext]
  dsimp only
  rw [h.curarg]
  exact ⟨rfl, h.congr rfl rfl rfl⟩

/-- At the end of an argument, and no flag follows. -/
theorem argnext_stop (h : Represents a name (some []) args)
    (hno : ∀ f ∈ args.head?, isFlag f = false) :
    (argnext a).1 = -1 ∧ Represents (argnext a).2 name none args := by
  have hstop : a.argc = 1 ∨ ¬ (a.argv 1).any isFlag = true := by
    cases args with
    | nil => exact .inl h.argc
    | cons f rest =>
      refine .inr ?_
      rw [h.first, Option.any_some, hno f rfl]
      exact Bool.false_ne_true
  rw [argnext]
  dsimp only
  rw [h.curarg]
  dsimp only
  rw [if_neg (fun h => h rfl), if_pos hstop]
  exact ⟨rfl, h.congr rfl rfl rfl⟩

/-- At the end of an argument, and a flag follows. -/
theorem argnext_flag (h : Represents a name (some []) (f :: rest)) (hf : isFlag f = true) :
    (f = [45, 45] → (argnext a).1 = -1 ∧ Represents (argnext a).2 name none rest) ∧
    (f ≠ [45, 45] → (argnext a).1 = (f.tail.headD 0).toNat ∧
      Represents (argnext a).2 name (some f.tail.tail) rest) := by
  have hgo : ¬ (a.argc = 1 ∨ ¬ (a.argv 1).any isFlag = true) := by
    rintro (hone | hno)
    · have := h.argc
      rw [List.length_cons] at this
      omega
    · rw [h.first, Option.any_some] at hno
      exact hno hf
  have hrun : argnext a = if f.tail = [45]
      then { a with argvalue := none }.shift.endofargs
      else { a with argvalue := none }.shift.take f.tail := by
    rw [argnext]
    dsimp only
    rw [h.curarg]
    dsimp only
    rw [if_neg (fun h => h rfl), if_neg hgo, h.first]
    rfl
  have htail : f.tail = [45] ↔ f = [45, 45] := by
    have hhead : f.head? = some 45 := (of_decide_eq_true hf).1
    cases f with
    | nil => cases hhead
    | cons x xs =>
      obtain rfl : x = 45 := Option.some.inj hhead
      simp
  rw [hrun]
  constructor
  · intro heq
    rw [if_pos (htail.mpr heq)]
    exact ⟨rfl, h.shift⟩
  · intro hne
    rw [if_neg (mt htail.mp hne)]
    exact ⟨rfl, h.shift⟩

/-- The value of a flag is what is left of its argument, or else the next
argument. -/
theorem argnextvalue_spec (h : Represents a name (some cur) args) :
    (cur ≠ [] → (argnextvalue a).1 = some cur ∧
      Represents (argnextvalue a).2 name (some []) args) ∧
    (cur = [] → ∀ f rest, args = f :: rest → (argnextvalue a).1 = some f ∧
      Represents (argnextvalue a).2 name (some []) rest) ∧
    (cur = [] → args = [] → (argnextvalue a).1 = none ∧
      Represents (argnextvalue a).2 name none []) := by
  have hargc := h.argc
  rw [argnextvalue, h.curarg]
  dsimp only
  refine ⟨fun hne => ?_, ?_, ?_⟩
  · rw [if_pos hne]
    exact ⟨rfl, h.congr rfl rfl rfl⟩
  · rintro rfl f rest rfl
    rw [List.length_cons] at hargc
    rw [if_neg (fun h => h rfl), if_pos (by omega)]
    refine ⟨h.first, ?_⟩
    have hs : Represents { a.shift with curarg := some [], argvalue := a.argv 1 } name (some [])
        rest := h.shift
    exact hs.congr rfl rfl h.curarg
  · rintro rfl rfl
    rw [if_neg (fun h => h rfl), if_neg (by rw [hargc]; exact lt_irrefl 1)]
    exact ⟨rfl, h.congr rfl rfl rfl⟩

/-- One call of the parser. -/
inductive Call
  | next
  | nextvalue
  | value

def Call.run (a : Argstate) : Call → Argstate
  | .next => (argnext a).2
  | .nextvalue => (argnextvalue a).2
  | .value => (argvalue a).2

/-- What is left of the arguments after some calls: an end of the list, and before
it the argument that `cur` is the end of. -/
structure Left (rest : List Str) (cur : Option Str) (args : List Str) : Prop where
  suffix : args <:+ rest
  current : ∀ c ∈ cur, c ≠ [] → ∃ before f, rest = before ++ f :: args ∧ isFlag f = true ∧
    c <:+ f.tail

theorem Left.drop {c : Option Str} (h : Left rest c (f :: args)) : args <:+ rest :=
  (List.suffix_cons f args).trans h.suffix

theorem Left.done {c : Option Str} (hargs : args <:+ rest) (hc : ∀ x ∈ c, x = []) :
    Left rest c args := ⟨hargs, fun x hx hne => absurd (hc x hx) hne⟩

theorem Left.next {c : Option Str} (h : Left rest c args) (hr : Represents a name c args) :
    ∃ c' args', Left rest c' args' ∧ Represents (argnext a).2 name c' args' := by
  cases c with
  | none => exact ⟨none, args, h, (argnext_ended hr).2⟩
  | some cur =>
    cases cur with
    | cons x cur =>
      refine ⟨some cur, args, ⟨h.suffix, ?_⟩, (argnext_more hr).2⟩
      rintro _ ⟨⟩ -
      obtain ⟨before, f, hrest, hf, hsuffix⟩ := h.current _ rfl (List.cons_ne_nil _ _)
      exact ⟨before, f, hrest, hf, (List.suffix_cons x cur).trans hsuffix⟩
    | nil =>
      cases args with
      | nil => exact ⟨none, [], .done h.suffix (by rintro _ ⟨⟩),
          (argnext_stop hr (by rintro _ ⟨⟩)).2⟩
      | cons f args =>
        by_cases hf : isFlag f = true
        · by_cases hdash : f = [45, 45]
          · exact ⟨none, args, .done h.drop (by rintro _ ⟨⟩), ((argnext_flag hr hf).1 hdash).2⟩
          · refine ⟨some f.tail.tail, args, ⟨h.drop, ?_⟩, ((argnext_flag hr hf).2 hdash).2⟩
            rintro _ ⟨⟩ -
            obtain ⟨before, hrest⟩ := h.suffix
            exact ⟨before, f, hrest.symm, hf, List.tail_suffix _⟩
        · refine ⟨none, f :: args, .done h.suffix (by rintro _ ⟨⟩), (argnext_stop hr ?_).2⟩
          rintro _ ⟨⟩
          exact Bool.eq_false_iff.mpr hf

theorem Left.nextvalue {c : Option Str} (h : Left rest c args) (hr : Represents a name c args) :
    ∃ c' args', Left rest c' args' ∧ Represents (argnextvalue a).2 name c' args' := by
  cases c with
  | none =>
    refine ⟨none, args, h, ?_⟩
    rw [argnextvalue, hr.curarg]
    exact hr
  | some cur =>
    obtain ⟨h₁, h₂, h₃⟩ := argnextvalue_spec hr
    by_cases hcur : cur = []
    · cases args with
      | nil => exact ⟨none, [], .done h.suffix (by rintro _ ⟨⟩), (h₃ hcur rfl).2⟩
      | cons f args =>
        refine ⟨some [], args, .done h.drop ?_, (h₂ hcur f args rfl).2⟩
        rintro _ ⟨⟩
        rfl
    · refine ⟨some [], args, .done h.suffix ?_, (h₁ hcur).2⟩
      rintro _ ⟨⟩
      rfl

/-- Any calls leave an end of the arguments in the array. -/
theorem Left.calls {c : Option Str} (h : Left rest c args) (hr : Represents a name c args)
    (calls : List Call) :
    ∃ c' args', Left rest c' args' ∧ Represents (calls.foldl Call.run a) name c' args' := by
  induction calls generalizing a c args with
  | nil => exact ⟨c, args, h, hr⟩
  | cons call calls ih =>
    obtain ⟨c', args', h', hr'⟩ : ∃ c' args', Left rest c' args' ∧
        Represents (call.run a) name c' args' := by
      cases call with
      | next => exact h.next hr
      | nextvalue => exact h.nextvalue hr
      | value =>
        rw [Call.run, argvalue]
        split
        · exact ⟨c, args, h, hr⟩
        · exact h.nextvalue hr
    exact ih h' hr'

theorem argstart_represents {argc : Nat} {argv : Nat → Option Str}
    (hargc : argc = rest.length + 1) (hargv : ∀ i ≤ argc, argv i = (name :: rest)[i]?) :
    Represents (argstart argc argv) name (if rest = [] then none else some []) rest := by
  refine ⟨hargc, hargv, ?_⟩
  rw [argstart]
  dsimp only
  cases rest with
  | nil => rw [if_neg (by rw [hargc]; exact lt_irrefl 1), if_pos rfl]
  | cons f rest =>
    rw [List.length_cons] at hargc
    rw [if_pos (by omega), if_neg (List.cons_ne_nil _ _)]

/-- The flags `fl` are still to be given: they are in the current argument and in
those behind it. The arguments `rem` will remain. -/
def Awaits (name : Str) (fl : List (BitVec 8)) (rem : List Str) (a : Argstate) : Prop :=
  (fl = [] ∧ Represents a name none rem) ∨
  ∃ cur args, fl = cur ++ flags args ∧ remaining args = rem ∧ Represents a name (some cur) args

/-- One call of `argnext`. -/
theorem Awaits.next {fl : List (BitVec 8)} {rem : List Str} (h : Awaits name fl rem a) :
    (argnext a).1 = fl.head?.elim (-1) (fun c => (c.toNat : Int)) ∧
    Awaits name fl.tail rem (argnext a).2 ∧ (fl = [] → Represents (argnext a).2 name none rem) := by
  -- the end of the flags
  have hend : (argnext a).1 = -1 ∧ Represents (argnext a).2 name none rem →
      fl = [] → (argnext a).1 = fl.head?.elim (-1) (fun c => (c.toNat : Int)) ∧
        Awaits name fl.tail rem (argnext a).2 ∧
        (fl = [] → Represents (argnext a).2 name none rem) := by
    rintro ⟨h₁, h₂⟩ rfl
    exact ⟨h₁, .inl ⟨rfl, h₂⟩, fun _ => h₂⟩
  rcases h with ⟨hfl, hr⟩ | ⟨cur, args, rfl, rfl, hr⟩
  · exact hend (argnext_ended hr) hfl
  cases cur with
  | cons x cur =>
    obtain ⟨h₁, h₂⟩ := argnext_more hr
    exact ⟨h₁, .inr ⟨cur, args, rfl, rfl, h₂⟩, fun h => absurd h (List.cons_ne_nil _ _)⟩
  | nil =>
    cases args with
    | nil => exact hend (argnext_stop hr (by rintro _ ⟨⟩)) rfl
    | cons f args =>
      by_cases hf : isFlag f = true
      · by_cases hdash : f = [45, 45]
        · rw [remaining, if_pos hdash] at hend ⊢
          exact hend ((argnext_flag hr hf).1 hdash)
            (by rw [flags, if_neg (fun h => h.2 hdash)]; rfl)
        · have hfl : flags (f :: args) = f.tail ++ flags args := if_pos ⟨hf, hdash⟩
          have hrem : remaining (f :: args) = remaining args := by
            rw [remaining, if_neg hdash, if_pos hf]
          obtain ⟨h₁, h₂⟩ := (argnext_flag hr hf).2 hdash
          have hne : f.tail ≠ [] := (of_decide_eq_true hf).2
          obtain ⟨x, xs, hx⟩ : ∃ x xs, f.tail = x :: xs := List.exists_cons_of_ne_nil hne
          rw [List.nil_append, hfl, hrem]
          rw [hx] at h₁ h₂ ⊢
          exact ⟨h₁, .inr ⟨xs, args, rfl, rfl, h₂⟩, fun h => absurd h (List.cons_ne_nil _ _)⟩
      · have hdash : f ≠ [45, 45] := by
          rintro rfl
          exact hf (by decide)
        rw [remaining, if_neg hdash, if_neg hf] at hend ⊢
        refine hend (argnext_stop hr ?_) (by rw [flags, if_neg (fun h => hf h.1)]; rfl)
        rintro _ ⟨⟩
        exact Bool.eq_false_iff.mpr hf

/-- After any number of calls the flags from there on are still to be given. -/
theorem Awaits.calls {rem : List Str} {fl : List (BitVec 8)} (h : Awaits name fl rem a) (n : Nat) :
    Awaits name (fl.drop n) rem ((fun a => (argnext a).2)^[n] a) := by
  induction n with
  | zero => exact h
  | succ n ih =>
    rw [Function.iterate_succ_apply', ← List.tail_drop]
    exact ih.next.2.1

/-- `argnext` gives the flags in their order and then -1 for ever, and leaves the
other arguments in the array. A value is the rest of the current argument, or the
next argument if there is no rest. -/
theorem flags_are_parsed {argc : Nat} {argv : Nat → Option Str} (hargc : argc = rest.length + 1)
    (hargv : ∀ i ≤ argc, argv i = (name :: rest)[i]?) :
    (∀ n, (argnext ((fun a => (argnext a).2)^[n] (argstart argc argv))).1 =
      (flags rest)[n]?.elim (-1) fun c => (c.toNat : Int)) ∧
    (∀ n, (flags rest).length < n →
      Represents ((fun a => (argnext a).2)^[n] (argstart argc argv)) name none (remaining rest)) ∧
    ∀ (calls : List Call) (cur : Str), (calls.foldl Call.run (argstart argc argv)).curarg = some cur →
      ∃ args, Left rest (some cur) args ∧
      Represents (calls.foldl Call.run (argstart argc argv)) name (some cur) args ∧
      (cur ≠ [] → (argnextvalue (calls.foldl Call.run (argstart argc argv))).1 = some cur ∧
        Represents (argnextvalue (calls.foldl Call.run (argstart argc argv))).2 name (some [])
          args) ∧
      (cur = [] → ∀ f args', args = f :: args' →
        (argnextvalue (calls.foldl Call.run (argstart argc argv))).1 = some f ∧
        Represents (argnextvalue (calls.foldl Call.run (argstart argc argv))).2 name (some [])
          args') ∧
      (cur = [] → args = [] →
        (argnextvalue (calls.foldl Call.run (argstart argc argv))).1 = none ∧
        Represents (argnextvalue (calls.foldl Call.run (argstart argc argv))).2 name none []) := by
  have hstart := argstart_represents hargc hargv
  have hawaits : Awaits name (flags rest) (remaining rest) (argstart argc argv) := by
    cases rest with
    | nil => exact .inl ⟨rfl, hstart⟩
    | cons f rest => exact .inr ⟨[], f :: rest, rfl, rfl, hstart⟩
  refine ⟨fun n => ?_, fun n hn => ?_, fun calls cur hcur => ?_⟩
  · rw [(hawaits.calls n).next.1, List.head?_drop]
  · obtain ⟨k, rfl⟩ : ∃ k, n = k + 1 := ⟨n - 1, by omega⟩
    rw [Function.iterate_succ_apply']
    exact (hawaits.calls k).next.2.2 (List.drop_eq_nil_of_le (by omega))
  · have hleft : Left rest (if rest = [] then none else some []) rest := by
      refine .done (List.suffix_refl _) fun x hx => ?_
      split at hx
      · cases hx
      · exact (Option.some.inj hx).symm
    obtain ⟨c, args, hl, hr⟩ := hleft.calls hstart calls
    obtain rfl : c = some cur := hr.curarg.symm.trans hcur
    exact ⟨args, hl, hr, argnextvalue_spec hr⟩

/-- `sh -x -- f` -/
theorem flags_are_parsed_sh :
    (argnext (argstart 4 fun i => [[115, 104], [45, 120], [45, 45], [102]][i]?)).1 = 120 ∧
    Represents ((fun a => (argnext a).2)^[2]
      (argstart 4 fun i => [[115, 104], [45, 120], [45, 45], [102]][i]?)) [115, 104] none
      [[102]] := by
  have hargv : ∀ i ≤ 4, (fun i => [[115, 104], [45, 120], [45, 45], [102]][i]?) i =
      ([115, 104] :: [[45, 120], [45, 45], [102]] : List Str)[i]? := fun _ _ => rfl
  have h := flags_are_parsed (rfl : 4 = ([[45, 120], [45, 45], [102]] : List Str).length + 1) hargv
  exact ⟨h.1 0, h.2.1 2 (by decide)⟩

end jos.args
