-- Path resolution (walk_path, file_create and file_open of fs/fs.c): what is
-- answered for every path, and that only the pieces between the slashes matter.
import Mathlib
import Jos.FsDirs

namespace jos.fs

open blockstore ia32
open blockstore.Prog (loadByte loadBytes loadWord storeBytes storeWord flushAt flat)

variable {m m' m₁ : Mem} {f g d : Nat} {dir dir' : Option Nat} {name c : List Byte}
  {names pre rest : List (List Byte)} {w : Walk}

/-! ## Looking up pieces in turn -/

/-- The pieces are looked up in turn, from `f` in the directory `dir`, and lead to `g` in the
directory `dir'`. A lookup may fill a hole of a directory, so it may change the memory. -/
inductive Reaches : Mem → Nat → Option Nat → List (List Byte) → Nat → Option Nat → Mem → Prop
  | nil {m : Mem} {f : Nat} {dir : Option Nat} : Reaches m f dir [] f dir m
  | cons {m m₁ m' : Mem} {f g h : Nat} {dir dir' : Option Nat} {c : List Byte}
    {names : List (List Byte)} : c.length < MAXNAMELEN → m.word (f_type f) = FTYPE_DIR →
    flat (dir_lookup f c) m = .ok (.ok g, m₁) → Reaches m₁ g (some f) names h dir' m' →
    Reaches m f dir (c :: names) h dir' m'

/-- The piece that cannot be looked up, and the file that the pieces before it lead to. -/
def StopsAt (m : Mem) (f : Nat) (dir : Option Nat) (names : List (List Byte)) (g : Nat)
    (c : List Byte) (rest : List (List Byte)) (m₁ : Mem) : Prop :=
  ∃ pre dir', names = pre ++ c :: rest ∧ Reaches m f dir pre g dir' m₁

/-- The answer for a path whose pieces are `names`. -/
inductive Outcome (m : Mem) (f : Nat) (dir : Option Nat) (names : List (List Byte)) :
    Walk → Mem → Prop
  | found {g : Nat} {dir' : Option Nat} {m' : Mem} : Reaches m f dir names g dir' m' →
    Outcome m f dir names ⟨0, dir', some g, []⟩ m'
  | tooLong {g : Nat} {c : List Byte} {rest : List (List Byte)} {m' : Mem} :
    StopsAt m f dir names g c rest m' → MAXNAMELEN ≤ c.length →
    Outcome m f dir names ⟨-E_BAD_PATH, none, none, []⟩ m'
  | notDir {g : Nat} {c : List Byte} {rest : List (List Byte)} {m' : Mem} :
    StopsAt m f dir names g c rest m' → c.length < MAXNAMELEN → m'.word (f_type g) ≠ FTYPE_DIR →
    Outcome m f dir names ⟨-E_NOT_FOUND, none, none, []⟩ m'
  | missing {g : Nat} {c : List Byte} {rest : List (List Byte)} {m₁ m' : Mem} :
    StopsAt m f dir names g c rest m₁ → c.length < MAXNAMELEN → m₁.word (f_type g) = FTYPE_DIR →
    flat (dir_lookup g c) m₁ = .ok (.error (-E_NOT_FOUND), m') → rest ≠ [] →
    Outcome m f dir names ⟨-E_NOT_FOUND, none, none, []⟩ m'
  | last {g : Nat} {c : List Byte} {m₁ m' : Mem} :
    StopsAt m f dir names g c [] m₁ → c.length < MAXNAMELEN → m₁.word (f_type g) = FTYPE_DIR →
    flat (dir_lookup g c) m₁ = .ok (.error (-E_NOT_FOUND), m') →
    Outcome m f dir names ⟨-E_NOT_FOUND, some g, none, c⟩ m'

/-- No lookup fails for another reason than that a name is missing. -/
def LookupsWork (m : Mem) (f : Nat) (dir : Option Nat) (names : List (List Byte)) : Prop :=
  ∀ g c rest m₁, StopsAt m f dir names g c rest m₁ → c.length < MAXNAMELEN →
    m₁.word (f_type g) = FTYPE_DIR → ∃ r m', flat (dir_lookup g c) m₁ = .ok (r, m') ∧
      (r = .error (-E_NOT_FOUND) ∨ ∃ h, r = .ok h)

/-- One piece of the walk that is found. -/
theorem walk_names_cons (hlen : c.length < MAXNAMELEN) (hdir : m.word (f_type f) = FTYPE_DIR)
    (hlook : flat (dir_lookup f c) m = .ok (.ok g, m₁)) :
    flat (walk_names f dir (c :: names)) m = flat (walk_names g (some f) names) m₁ := by
  rw [walk_names, if_neg (by omega), Prog.flat_loadWord_bind, if_neg (not_not.mpr hdir),
    Prog.flat_bind_ok hlook]

theorem Reaches.walk (h : Reaches m f dir pre g dir' m₁) (rest : List (List Byte)) :
    flat (walk_names f dir (pre ++ rest)) m = flat (walk_names g dir' rest) m₁ := by
  induction h with
  | nil => rfl
  | cons hlen hdir hlook _ ih => rw [List.cons_append, walk_names_cons hlen hdir hlook, ih]

theorem StopsAt.walk (h : StopsAt m f dir names g c rest m₁) :
    ∃ dir', flat (walk_names f dir names) m = flat (walk_names g dir' (c :: rest)) m₁ := by
  obtain ⟨pre, dir', rfl, hr⟩ := h
  exact ⟨dir', hr.walk _⟩

theorem Outcome.walk (h : Outcome m f dir names w m') :
    flat (walk_names f dir names) m = .ok (w, m') := by
  cases h with
  | found hr =>
    rw [← List.append_nil names, hr.walk]
    rfl
  | tooLong hs hlen =>
    obtain ⟨dir', hw⟩ := hs.walk
    rw [hw, walk_names, if_pos hlen]
    rfl
  | notDir hs hlen hdir =>
    obtain ⟨dir', hw⟩ := hs.walk
    rw [hw, walk_names, if_neg (by omega), Prog.flat_loadWord_bind, if_pos hdir]
    rfl
  | missing hs hlen hdir hlook hrest =>
    obtain ⟨dir', hw⟩ := hs.walk
    rw [hw, walk_names, if_neg (by omega), Prog.flat_loadWord_bind, if_neg (not_not.mpr hdir),
      Prog.flat_bind_ok hlook]
    simp only
    rw [if_neg fun hc => hrest hc.2]
    rfl
  | last hs hlen hdir hlook =>
    obtain ⟨dir', hw⟩ := hs.walk
    rw [hw, walk_names, if_neg (by omega), Prog.flat_loadWord_bind, if_neg (not_not.mpr hdir),
      Prog.flat_bind_ok hlook]
    simp only
    rw [if_pos ⟨trivial, trivial⟩]
    rfl

section Step

variable (hlen : c.length < MAXNAMELEN) (hdir : m.word (f_type f) = FTYPE_DIR)
  (hlook : flat (dir_lookup f c) m = .ok (.ok g, m₁))

include hlen hdir hlook

theorem StopsAt.cons {h : Nat} {a : List Byte} (hs : StopsAt m₁ g (some f) names h a rest m') :
    StopsAt m f dir (c :: names) h a rest m' := by
  obtain ⟨pre, dir', rfl, hr⟩ := hs
  exact ⟨c :: pre, dir', rfl, .cons hlen hdir hlook hr⟩

/-- The outcome is that of the rest of the pieces. -/
theorem Outcome.cons (h : Outcome m₁ g (some f) names w m') : Outcome m f dir (c :: names) w m' := by
  cases h with
  | found hr => exact .found (.cons hlen hdir hlook hr)
  | tooLong hs h₁ => exact .tooLong (hs.cons hlen hdir hlook) h₁
  | notDir hs h₁ h₂ => exact .notDir (hs.cons hlen hdir hlook) h₁ h₂
  | missing hs h₁ h₂ h₃ h₄ => exact .missing (hs.cons hlen hdir hlook) h₁ h₂ h₃ h₄
  | last hs h₁ h₂ h₃ => exact .last (hs.cons hlen hdir hlook) h₁ h₂ h₃

end Step

theorem stopsAt_here : StopsAt m f dir (c :: rest) f c rest m := ⟨[], dir, rfl, .nil⟩

/-- There is an outcome, if the lookups work. -/
theorem LookupsWork.outcome (h : LookupsWork m f dir names) : ∃ w m', Outcome m f dir names w m' := by
  induction names generalizing m f dir with
  | nil => exact ⟨_, _, .found .nil⟩
  | cons c names ih =>
    by_cases hlen : MAXNAMELEN ≤ c.length
    · exact ⟨_, _, .tooLong stopsAt_here hlen⟩
    have hlen : c.length < MAXNAMELEN := by omega
    by_cases hdir : m.word (f_type f) = FTYPE_DIR
    swap
    · exact ⟨_, _, .notDir stopsAt_here hlen hdir⟩
    obtain ⟨r, m₁, hlook, hr⟩ := h f c names m stopsAt_here hlen hdir
    rcases hr with rfl | ⟨g, rfl⟩
    · by_cases hrest : names = []
      · subst hrest
        exact ⟨_, _, .last stopsAt_here hlen hdir hlook⟩
      · exact ⟨_, _, .missing stopsAt_here hlen hdir hlook hrest⟩
    · obtain ⟨w, m', ho⟩ := ih fun g' c' rest m₂ hs => h g' c' rest m₂ (hs.cons hlen hdir hlook)
      exact ⟨w, m', ho.cons hlen hdir hlook⟩

/-! ## Trees -/

/-- In a tree of full directories a lookup changes nothing. -/
theorem Tree.reaches (hT : Tree m) (h : Reaches m f dir names g dir' m') (hf : IsFile m f)
    (hne : ∀ c ∈ names, c ≠ []) : m' = m ∧ IsFile m g := by
  induction h with
  | nil => exact ⟨rfl, hf⟩
  | @cons m m₁ m' f g h dir dir' c names hlen hdir hlook _ ih =>
    have hfull := hT.dirs f hf hdir
    rw [hfull.flat_dir_lookup] at hlook
    rcases hl : lookup m f c with _ | g'
    · rw [hl] at hlook
      cases hlook
    · rw [hl] at hlook
      cases hlook
      exact ih hT (.child hf (hfull.child_lookup hdir (hne c List.mem_cons_self) hl))
        fun n hn => hne n (List.mem_cons_of_mem _ hn)

theorem Tree.lookupsWork (hT : Tree m) (path : List Byte) :
    LookupsWork m s_root none (components path) := by
  intro g c rest m₁ hs _ hdir
  obtain ⟨pre, dir', hpre, hr⟩ := hs
  obtain ⟨rfl, hg⟩ := hT.reaches hr .root fun n hn =>
    components_ne_nil n (by rw [hpre]; exact List.mem_append_left _ hn)
  refine ⟨_, _, (hT.dirs g hg hdir).flat_dir_lookup c, ?_⟩
  rcases lookup m₁ g c with _ | x
  · exact .inl rfl
  · exact .inr ⟨x, rfl⟩

/-- A file that was created is found, under every spelling of its path. -/
theorem Tree.open_created {p q : List Byte} (hT : Tree m) (hp : ∀ a ∈ p, a ≠ 0)
    (hpq : SameButSlashes p q) (h : flat (file_create p) m = .ok (.ok f, m')) :
    flat (file_open q) m' = .ok (.ok f, m') := by
  obtain ⟨d, name, hP, hd, hA⟩ := hT.create_ok hp h
  have hwalk := hA.walk hT hd hP.last.2.2.1 hP .root components_ne_nil none
  rw [hpq.components, ← walk_path_eq] at hwalk
  exact Prog.flat_bind_ok hwalk

/-! ## Path resolution -/

/-- Every path is resolved piece by piece; slashes do not matter beyond that; and a path that
was created can be opened. -/
theorem paths_are_resolved (m : Mem) :
    (∀ path, LookupsWork m s_root none (components path) →
      ∃ w m', flat (walk_path path) m = .ok (w, m') ∧
        Outcome m s_root none (components path) w m' ∧
        ((w.r = -E_NOT_FOUND ∧ w.pdir ≠ none) ↔
          ∃ d c m₁, StopsAt m s_root none (components path) d c [] m₁ ∧ c.length < MAXNAMELEN ∧
            m₁.word (f_type d) = FTYPE_DIR ∧
            flat (dir_lookup d c) m₁ = .ok (.error (-E_NOT_FOUND), m'))) ∧
    (∀ p q, SameButSlashes p q → walk_path p = walk_path q) ∧
    ∀ p q f m', Tree m → (∀ a ∈ p, a ≠ 0) → SameButSlashes p q →
      flat (file_create p) m = .ok (.ok f, m') → flat (file_open q) m' = .ok (.ok f, m') := by
  refine ⟨fun path h => ?_, fun p q h => ?_, fun p q f m' hT hp hpq h => hT.open_created hp hpq h⟩
  · obtain ⟨w, m', ho⟩ := h.outcome
    refine ⟨w, m', by rw [walk_path_eq]; exact ho.walk, ho, ?_, ?_⟩
    · rintro ⟨hr, hpdir⟩
      cases ho with
      | found => cases hr
      | tooLong => exact absurd rfl hpdir
      | notDir => exact absurd rfl hpdir
      | missing => exact absurd rfl hpdir
      | last hs hlen hdir hlook => exact ⟨_, _, _, hs, hlen, hdir, hlook⟩
    · rintro ⟨d, c, m₁, hs, hlen, hdir, hlook⟩
      have hlast := (Outcome.last hs hlen hdir hlook).walk
      rw [ho.walk] at hlast
      cases hlast
      exact ⟨rfl, Option.some_ne_none d⟩
  · rw [walk_path_eq, walk_path_eq, h.components]

theorem tinyImage_tree : Tree tinyImage := by
  refine ⟨tinyImage_owned, fun d hd hdir => ?_⟩
  rcases tinyImage_files hd with rfl | rfl
  · have hblocks : dirBlocks tinyImage s_root = 1 := by decide +kernel
    exact ⟨by decide +kernel, by omega, fun i hi =>
      tinyImage_dense s_root .root hdir i hi (by omega)⟩
  · have hreg : tinyImage.word (f_type 12288) = FTYPE_REG := by decide +kernel
    rw [hreg] at hdir
    cases hdir

/-- `/a` is found, and `b` is created and then found as `//b/`. -/
theorem paths_are_resolved_tiny :
    (∃ w m', flat (walk_path [47, 97]) tinyImage = .ok (w, m') ∧
      Outcome tinyImage s_root none [[97]] w m') ∧
    ∃ m', flat (file_create [98]) tinyImage = .ok (.ok 12544, m') ∧
      flat (file_open [47, 47, 98, 47]) m' = .ok (.ok 12544, m') := by
  obtain ⟨hwalk, -, hopen⟩ := paths_are_resolved tinyImage
  obtain ⟨w, m₁, hw, ho, -⟩ := hwalk [47, 97] (tinyImage_tree.lookupsWork _)
  obtain ⟨m', hrun, -⟩ : ∃ m', flat (file_create [98]) tinyImage = .ok (.ok 12544, m') ∧ () = () :=
    exists_flat_eq (fun _ => ()) (by decide +kernel)
  have hslash : SameButSlashes [98] [47, 47, 98, 47] :=
    .trans _ _ _ (.rel _ _ (.first [98])) (.trans _ _ _ (.rel _ _ (.first [47, 98]))
      (.rel _ _ (.last [47, 47, 98])))
  exact ⟨⟨w, m₁, hw, ho⟩, m', hrun,
    hopen [98] _ 12544 m' tinyImage_tree (by decide) hslash hrun⟩

end jos.fs
