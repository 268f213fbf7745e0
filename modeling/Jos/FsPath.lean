-- Paths (walk_path of fs/fs.c): the scanner goes from slash to slash and
-- looks up the pieces between them, one after the other.
import Mathlib
import Jos.FsFlat

namespace jos.fs

open blockstore ia32
open blockstore.Prog (loadByte loadBytes loadWord storeBytes storeWord flushAt flat)

variable {m m' m'' : Mem} {path path' name : List Byte} {names : List (List Byte)} {f g d : Nat}

/-! ## The scanner -/

/-- The pieces between the slashes of a path that are not empty. -/
def components (path : List Byte) : List (List Byte) :=
  (path.splitOn 47).filter (· ≠ [])

theorem components_nil : components [] = [] := rfl

theorem components_append (path path' : List Byte) :
    components (path ++ 47 :: path') = components path ++ components path' := by
  rw [components, List.splitOn_append_cons_self, List.filter_append]
  rfl

theorem components_slash (path : List Byte) : components (47 :: path) = components path :=
  components_append [] path

/-- One slash more: at the start, at the end, or next to another one. -/
inductive MoreSlashes : List Byte → List Byte → Prop
  | first (path : List Byte) : MoreSlashes path (47 :: path)
  | last (path : List Byte) : MoreSlashes path (path ++ [47])
  | again (path path' : List Byte) : MoreSlashes (path ++ 47 :: path') (path ++ 47 :: 47 :: path')

/-- Two paths that differ only in leading, repeated or trailing slashes. -/
def SameButSlashes : List Byte → List Byte → Prop := Relation.EqvGen MoreSlashes

theorem SameButSlashes.components (h : SameButSlashes path path') :
    fs.components path = fs.components path' := by
  induction h with
  | rel _ _ h =>
    cases h with
    | first => rw [components_slash]
    | last => rw [components_append, components_nil, List.append_nil]
    | again => rw [components_append, components_append, components_slash]
  | refl => rfl
  | symm _ _ _ ih => exact ih.symm
  | trans _ _ _ _ _ ih ih' => exact ih.trans ih'

theorem components_skip (path : List Byte) : components (skip_slash path) = components path := by
  unfold skip_slash
  induction path with
  | nil => rfl
  | cons c path ih =>
    by_cases hc : c = 47
    · rw [List.dropWhile_cons_of_pos (by simpa using hc), ih, hc, components_slash]
    · rw [List.dropWhile_cons_of_neg (by simpa using hc)]

/-- The first piece of a path that does not start with a slash. -/
theorem components_cons (hne : path ≠ []) (hhead : path.head? ≠ some 47) :
    components path = path.takeWhile (· ≠ 47) :: components (path.dropWhile (· ≠ 47)) := by
  have hfirst : path.takeWhile (· ≠ 47) ≠ [] := by
    cases path with
    | nil => exact absurd rfl hne
    | cons c path =>
      rw [List.takeWhile_cons_of_pos (by simpa using hhead)]
      exact List.cons_ne_nil _ _
  have hpiece : ∀ c ∈ path.takeWhile (· ≠ 47), (c == 47) = false := fun c hc => by
    simpa using List.mem_takeWhile_imp hc
  have hsplit := List.takeWhile_append_dropWhile (p := fun c => decide (c ≠ (47 : Byte))) (l := path)
  rcases hrest : path.dropWhile (fun c => decide (c ≠ (47 : Byte))) with _ | ⟨c, rest⟩
  · -- the path ends with the piece
    rw [hrest, List.append_nil] at hsplit
    rw [hsplit] at hpiece
    have hone : path.splitOn 47 = [path] := List.splitOnP_eq_singleton hpiece
    rw [hsplit, components, hone, List.filter_cons_of_pos (by simpa using hne)]
    rfl
  · have hc : c = 47 := by
      have := List.head_dropWhile_not (fun c => decide (c ≠ (47 : Byte))) (l := path)
        (by rw [hrest]; exact List.cons_ne_nil _ _)
      simp only [hrest, List.head_cons] at this
      simpa using this
    have hone : path.splitOn 47 = path.takeWhile (· ≠ 47) :: rest.splitOn 47 := by
      rw [hrest] at hsplit
      conv_lhs => rw [← hsplit]
      exact List.splitOnP_append_cons_of_forall_mem hpiece c (by simpa using hc) rest
    rw [hc, components_slash, components, hone,
      List.filter_cons_of_pos (by simpa using hfirst)]
    rfl

theorem mem_of_mem_components {c : Byte} (h : name ∈ components path) (hc : c ∈ name) :
    c ∈ path := by
  have hmem : name ∈ path.splitOn 47 := (List.mem_filter.mp h).1
  clear h
  induction path generalizing name with
  | nil =>
    rw [List.splitOn_nil, List.mem_singleton] at hmem
    rw [hmem] at hc
    exact hc
  | cons a path ih =>
    rw [List.splitOn, List.splitOnP_cons_eq_if_modifyHead] at hmem
    split at hmem
    · rcases List.mem_cons.mp hmem with rfl | hmem
      · cases hc
      · exact List.mem_cons_of_mem _ (ih hc hmem)
    · rcases hsplit : path.splitOnP (· == 47) with _ | ⟨piece, rest⟩
      · rw [hsplit] at hmem
        cases hmem
      · rw [hsplit, List.modifyHead_cons] at hmem
        have hrest : ∀ n ∈ piece :: rest, n ∈ path.splitOn 47 := fun n hn => by
          rw [List.splitOn, hsplit]
          exact hn
        rcases List.mem_cons.mp hmem with rfl | hmem
        · rcases List.mem_cons.mp hc with rfl | hc
          · exact List.mem_cons_self
          · exact List.mem_cons_of_mem _ (ih hc (hrest _ List.mem_cons_self))
        · exact List.mem_cons_of_mem _ (ih hc (hrest _ (List.mem_cons_of_mem _ hmem)))

theorem skip_slash_head (path : List Byte) : (skip_slash path).head? ≠ some 47 := by
  intro h
  have := List.head?_dropWhile_not (fun c => decide (c = (47 : Byte))) path
  rw [skip_slash] at h
  rw [h] at this
  simp at this

theorem skip_slash_length (path : List Byte) : (skip_slash path).length ≤ path.length :=
  List.length_dropWhile_le _ _

/-- The loop of `walk_path` over the pieces. -/
def walk_names : Nat → Option Nat → List (List Byte) → Io Walk
  | f, dir, [] => pure ⟨0, dir, some f, []⟩
  | f, _, name :: rest =>
    if MAXNAMELEN ≤ name.length then pure ⟨-E_BAD_PATH, none, none, []⟩
    else do
      let ty ← loadWord (f_type f)
      if ty ≠ FTYPE_DIR then pure ⟨-E_NOT_FOUND, none, none, []⟩
      else
        let g ← dir_lookup f name
        match g with
        | .ok g => walk_names g (some f) rest
        | .error r =>
          if r = -E_NOT_FOUND ∧ rest = [] then pure ⟨r, some f, none, name⟩
          else pure ⟨r, none, none, []⟩

/-- A path that starts with no slash is empty exactly if it has no pieces. -/
theorem components_eq_nil (hhead : path.head? ≠ some 47) : components path = [] ↔ path = [] := by
  constructor
  · intro h
    by_contra hne
    rw [components_cons hne hhead] at h
    cases h
  · rintro rfl
    rfl

theorem walk_path_from_eq (left f : Nat) (dir : Option Nat) (hhead : path.head? ≠ some 47)
    (hleft : path.length ≤ left) :
    walk_path_from left f dir path = walk_names f dir (components path) := by
  induction left generalizing f dir path with
  | zero =>
    obtain rfl : path = [] := List.eq_nil_of_length_eq_zero (by omega)
    rfl
  | succ left ih =>
    rw [walk_path_from]
    by_cases hne : path = []
    · rw [if_pos hne, hne]
      rfl
    · have hlt : (skip_slash (path.dropWhile (· ≠ 47))).length ≤ left := by
        have hle := skip_slash_length (path.dropWhile (· ≠ 47))
        cases path with
        | nil => exact absurd rfl hne
        | cons c path =>
          rw [List.dropWhile_cons_of_pos (by simpa using hhead)] at hle ⊢
          have := List.length_dropWhile_le (fun c => decide (c ≠ (47 : Byte))) path
          rw [List.length_cons] at hleft
          omega
      have hrest := skip_slash_head (path.dropWhile (· ≠ 47))
      rw [if_neg hne, components_cons hne hhead, ← components_skip (path.dropWhile (· ≠ 47)),
        walk_names]
      refine if_congr Iff.rfl rfl ?_
      refine congrArg (loadWord (f_type f) >>= ·) (funext fun ty => if_congr Iff.rfl rfl ?_)
      refine congrArg (dir_lookup f _ >>= ·) (funext fun r => ?_)
      cases r with
      | ok g => exact ih g (some f) hrest hlt
      | error r => exact if_congr (and_congr_right' (components_eq_nil hrest).symm) rfl rfl

theorem walk_path_eq (path : List Byte) :
    walk_path path = walk_names s_root none (components path) := by
  rw [walk_path, walk_path_from_eq _ _ _ (skip_slash_head path) le_rfl, components_skip]

end jos.fs
