-- The debugging information of a program (`kern/kdebug.c`): a binary search in a
-- table of stabs, of which only those of one type are in order. A stab that is
-- read outside the table ends the search with its index.
import Mathlib
import Jos.Mmu
import Jos.Lib.Loop

namespace jos.kdebug

open loop

def N_FUN : Int := 0x24
def N_SLINE : Int := 0x44
def N_SO : Int := 0x64
def N_SOL : Int := 0x84
def N_PSYM : Int := 0xa0

/-- `struct Stab`, without `n_other`. -/
structure Stab where
  n_strx : Word
  n_type : BitVec 8
  n_desc : BitVec 16
  n_value : Word
deriving DecidableEq, Inhabited

/-! ## The search -/

/-- `stabs[i]`. -/
def stabAt (stabs : List Stab) (i : Int) : Except Int Stab :=
  if i < 0 then .error i else stabs[i.toNat]?.elim (.error i) .ok

/-- Looks for a stab of the type from index `base + k - 1` down to `base`. If there
is none the index is that before `base`. -/
def scan (stabs : List Stab) (type : Int) (base : Int) : Nat → Except Int Int
  | 0 => pure (base - 1)
  | k + 1 => do
    let s ← stabAt stabs (base + k)
    if (s.n_type.toNat : Int) = type then pure (base + k) else scan stabs type base k

/-- The variables of `stab_binsearch`, with what its two pointers point to. -/
structure Search where
  l : Int
  r : Int
  region_left : Int
  region_right : Int
  addr : Word
  any_matches : Bool
deriving DecidableEq

def Search.more (s : Search) : Bool := s.l ≤ s.r

/-- One turn of the loop. A table in memory has less than 2^29 stabs, so the sum of two
indices does not overflow. -/
def Search.turn (stabs : List Stab) (type : Int) (s : Search) : Except Int Search := do
  let true_m := (s.l + s.r).tdiv 2
  let m ← scan stabs type s.l (true_m + 1 - s.l).toNat
  if m < s.l then pure { s with l := true_m + 1 }
  else
    let x ← stabAt stabs m
    if x.n_value < s.addr then
      pure { s with any_matches := true, region_left := m, l := true_m + 1 }
    else if s.addr < x.n_value then
      pure { s with any_matches := true, region_right := m - 1, r := m - 1 }
    else pure { s with any_matches := true, region_left := m, l := m, addr := s.addr + 1 }

/-- The end of `stab_binsearch`: what it leaves in `*region_left` and
`*region_right`. -/
def Search.finish (stabs : List Stab) (type : Int) (s : Search) : Except Int (Int × Int) :=
  if s.any_matches then do
    let l ← if s.region_left ≤ s.region_right
      then scan stabs type (s.region_left + 1) (s.region_right - s.region_left).toNat
      else pure s.region_right
    pure (l, s.region_right)
  else pure (s.region_left, s.region_left - 1)

/-- The turns that are enough for a region. -/
def turns (left right : Int) : Nat := 2 * (right - left + 1).toNat + 1

def stab_binsearch (stabs : List Stab) (region_left region_right type : Int) (addr : Word) :
    Except Int (Int × Int) := do
  let s ← whileUpto Search.more (Search.turn stabs type) (turns region_left region_right)
    ⟨region_left, region_right, region_left, region_right, addr, false⟩
  s.finish stabs type

/-! ## One turn -/

section Turn

variable {stabs : List Stab} {type l r m : Int} {s s' : Search}

/-- The stab at an index of the table. -/
def stabOf (stabs : List Stab) (i : Int) : Stab := stabs.getD i.toNat default

def value (stabs : List Stab) (i : Int) : Word := (stabOf stabs i).n_value

/-- The stab at the index has the type. -/
def Typed (stabs : List Stab) (type i : Int) : Prop := ((stabOf stabs i).n_type.toNat : Int) = type

instance {i : Int} : Decidable (Typed stabs type i) :=
  inferInstanceAs (Decidable ((_ : Int) = _))

theorem stabAt_of_lt (stabs : List Stab) {i : Int} (h₀ : 0 ≤ i) (hn : i < stabs.length) :
    stabAt stabs i = .ok (stabOf stabs i) := by
  have hlt : i.toNat < stabs.length := by omega
  rw [stabAt, if_neg (by omega), List.getElem?_eq_getElem hlt, stabOf,
    List.getD_eq_getElem _ _ hlt]
  rfl

/-- The scan gives the last stab of the type, if there is one. -/
theorem scan_spec (stabs : List Stab) (type : Int) {base : Int} (k : Nat) (h₀ : 0 ≤ base) (hn : base + k ≤ stabs.length) :
    ∃ m, scan stabs type base k = .ok m ∧ base - 1 ≤ m ∧ m < base + k ∧
      (base ≤ m → Typed stabs type m) ∧ ∀ i, m < i → i < base + k → ¬ Typed stabs type i := by
  induction k with
  | zero => exact ⟨base - 1, rfl, le_rfl, by omega, fun h => by omega, fun i _ _ => by omega⟩
  | succ k ih =>
    have hstab := stabAt_of_lt stabs (i := base + k) (by omega) (by omega)
    by_cases ht : Typed stabs type (base + k)
    · refine ⟨base + k, ?_, by omega, by omega, fun _ => ht, fun i _ _ => by omega⟩
      rw [scan, hstab]
      exact if_pos ht
    · obtain ⟨m, hm, hlo, hhi, htyped, hnone⟩ := ih (by omega)
      refine ⟨m, ?_, hlo, by omega, htyped, fun i hi hik => ?_⟩
      · rw [scan, hstab]
        exact (if_neg ht).trans hm
      · by_cases hie : i = base + k
        · rw [hie]
          exact ht
        · exact hnone i hi (by omega)

/-- The stab that the search looks at in a region: the last one of the type up to
the middle. -/
structure Looks (stabs : List Stab) (type l r m : Int) : Prop where
  low : l ≤ m
  mid : m ≤ (l + r) / 2
  typed : Typed stabs type m
  last : ∀ i, m < i → i ≤ (l + r) / 2 → ¬ Typed stabs type i

theorem Looks.unique {m' : Int} (h : Looks stabs type l r m) (h' : Looks stabs type l r m') :
    m = m' := by
  by_contra hne
  rcases lt_or_gt_of_ne hne with hlt | hlt
  · exact h.last m' hlt h'.mid h'.typed
  · exact h'.last m hlt h.mid h.typed

/-- What one turn does. -/
theorem turn_cases (type : Int) (hl : 0 ≤ s.l) (hlr : s.l ≤ s.r) (hr : s.r < stabs.length) :
    ((∀ i, s.l ≤ i → i ≤ (s.l + s.r) / 2 → ¬ Typed stabs type i) ∧
      s.turn stabs type = .ok { s with l := (s.l + s.r) / 2 + 1 }) ∨
    ∃ m, Looks stabs type s.l s.r m ∧
      ((value stabs m < s.addr ∧ s.turn stabs type =
          .ok { s with any_matches := true, region_left := m, l := (s.l + s.r) / 2 + 1 }) ∨
      (s.addr < value stabs m ∧ s.turn stabs type =
          .ok { s with any_matches := true, region_right := m - 1, r := m - 1 }) ∨
      (value stabs m = s.addr ∧ s.turn stabs type =
          .ok { s with any_matches := true, region_left := m, l := m, addr := s.addr + 1 })) := by
  have hdiv : (s.l + s.r).tdiv 2 = (s.l + s.r) / 2 := Int.tdiv_eq_ediv_of_nonneg (by omega)
  obtain ⟨m, hm, hlo, hhi, htyped, hnone⟩ := scan_spec stabs type
    ((s.l + s.r) / 2 + 1 - s.l).toNat hl (by omega)
  by_cases hml : m < s.l
  · refine .inl ⟨fun i hi hi' => hnone i (by omega) (by omega), ?_⟩
    rw [Search.turn, hdiv, hm]
    exact if_pos hml
  · have hlook : Looks stabs type s.l s.r m :=
      ⟨by omega, by omega, htyped (by omega), fun i hi hi' => hnone i hi (by omega)⟩
    have hstab := stabAt_of_lt stabs (i := m) (by omega) (by omega)
    refine .inr ⟨m, hlook, ?_⟩
    have hturn : s.turn stabs type =
        if value stabs m < s.addr then
          pure { s with any_matches := true, region_left := m, l := (s.l + s.r) / 2 + 1 }
        else if s.addr < value stabs m then
          pure { s with any_matches := true, region_right := m - 1, r := m - 1 }
        else pure { s with any_matches := true, region_left := m, l := m, addr := s.addr + 1 } := by
      rw [Search.turn, hdiv, hm]
      refine (if_neg hml).trans ?_
      rw [hstab]
      rfl
    rw [hturn]
    by_cases hlt : value stabs m < s.addr
    · exact .inl ⟨hlt, if_pos hlt⟩
    · by_cases hgt : s.addr < value stabs m
      · exact .inr (.inl ⟨hgt, (if_neg hlt).trans (if_pos hgt)⟩)
      · refine .inr (.inr ⟨?_, (if_neg hlt).trans (if_neg hgt)⟩)
        rw [BitVec.lt_def] at hlt hgt
        exact BitVec.eq_of_toNat_eq (by omega)

end Turn

/-! ## The way of a search through the table -/

section Path

variable {stabs : List Stab} {type l r l' r' m : Int} {addr : Word}

/-- One halving of a region for an address: the search goes on to the right of
the middle, or to the left of a stab. There is none at a stab with the address
itself. -/
inductive Halve (stabs : List Stab) (type : Int) (addr : Word) : Int × Int → Int × Int → Prop
  | skip {l r : Int} : l ≤ r → (∀ i, l ≤ i → i ≤ (l + r) / 2 → ¬ Typed stabs type i) →
    Halve stabs type addr (l, r) ((l + r) / 2 + 1, r)
  | right {l r m : Int} : l ≤ r → Looks stabs type l r m → value stabs m < addr →
    Halve stabs type addr (l, r) ((l + r) / 2 + 1, r)
  | left {l r m : Int} : l ≤ r → Looks stabs type l r m → addr < value stabs m →
    Halve stabs type addr (l, r) (l, m - 1)

theorem Halve.looks {p q : Int × Int} (h : Halve stabs type addr p q)
    (hm : Looks stabs type p.1 p.2 m) :
    (value stabs m < addr ∧ q = ((p.1 + p.2) / 2 + 1, p.2)) ∨
      (addr < value stabs m ∧ q = (p.1, m - 1)) := by
  cases h with
  | skip _ hnone => exact absurd hm.typed (hnone m hm.low hm.mid)
  | right _ hk hlt =>
    rw [hk.unique hm] at hlt
    exact .inl ⟨hlt, rfl⟩
  | left _ hk hlt =>
    rw [hk.unique hm] at hlt ⊢
    exact .inr ⟨hlt, rfl⟩

theorem halve_rightUnique : Relator.RightUnique (Halve stabs type addr) := by
  intro p q q' h h'
  cases h with
  | skip _ hnone =>
    cases h' with
    | skip => rfl
    | right => rfl
    | left _ hk => exact absurd hk.typed (hnone _ hk.low hk.mid)
  | right _ hk hlt =>
    rcases h'.looks hk with ⟨-, rfl⟩ | ⟨hgt, -⟩
    · rfl
    · exact absurd hgt (BitVec.lt_asymm hlt)
  | left _ hk hgt =>
    rcases h'.looks hk with ⟨hlt, -⟩ | ⟨-, rfl⟩
    · exact absurd hgt (BitVec.lt_asymm hlt)
    · rfl

/-- The regions that a search for the address comes to before it finds it. -/
def Path (stabs : List Stab) (type : Int) (addr : Word) : Int × Int → Int × Int → Prop :=
  Relation.ReflTransGen (Halve stabs type addr)

/-- The search for the address in `[l, r]` comes to look at stab `m`, when the
right end of its region is `r'`. -/
def Comes (stabs : List Stab) (type : Int) (addr : Word) (l r m r' : Int) : Prop :=
  ∃ l', l' ≤ r' ∧ Path stabs type addr (l, r) (l', r') ∧ Looks stabs type l' r' m

theorem Path.bounds {p q : Int × Int} (h : Path stabs type addr p q) (hle : p.1 ≤ p.2 + 1) :
    p.1 ≤ q.1 ∧ q.2 ≤ p.2 ∧ q.1 ≤ q.2 + 1 := by
  induction h with
  | refl => exact ⟨le_rfl, le_rfl, hle⟩
  | tail _ hstep ih =>
    cases hstep with
    | skip => dsimp only at ih ⊢; omega
    | right => dsimp only at ih ⊢; omega
    | left _ hk _ =>
      have := hk.low
      have := hk.mid
      dsimp only at ih ⊢
      omega

/-- The right end is the first one, or it lies before a stab that was looked at. -/
theorem Path.right_end (h : Path stabs type addr (l, r) (l', r')) :
    r' = r ∨ ∃ r₁, Comes stabs type addr l r (r' + 1) r₁ ∧ addr < value stabs (r' + 1) := by
  suffices ∀ q, Path stabs type addr (l, r) q →
      q.2 = r ∨ ∃ r₁, Comes stabs type addr l r (q.2 + 1) r₁ ∧ addr < value stabs (q.2 + 1) from
    this _ h
  intro q h
  induction h with
  | refl => exact .inl rfl
  | tail hpath hstep ih =>
    cases hstep with
    | skip => exact ih
    | right => exact ih
    | left hle hk hgt =>
      rw [sub_add_cancel]
      exact .inr ⟨_, ⟨_, hle, hpath, hk⟩, hgt⟩

/-- The values of the stabs of the type do not decrease from `l` to `r`. -/
def Sorted (stabs : List Stab) (type l r : Int) : Prop :=
  ∀ i j, l ≤ i → i ≤ j → j ≤ r → Typed stabs type i → Typed stabs type j →
    value stabs i ≤ value stabs j

theorem Sorted.mono (h : Sorted stabs type l r) (hl : l ≤ l') (hr : r' ≤ r) :
    Sorted stabs type l' r' :=
  fun i j hi hij hj => h i j (hl.trans hi) hij (hj.trans hr)

/-- In a sorted region the search leaves smaller values behind on the left, and
larger ones on the right. -/
theorem Path.sorted {p q : Int × Int} (h : Path stabs type addr p q)
    (hs : Sorted stabs type p.1 p.2) {i : Int} (hi : p.1 ≤ i) (hi' : i ≤ p.2)
    (ht : Typed stabs type i) :
    (q.1 ≤ i ∧ i ≤ q.2) ∨ (i < q.1 ∧ value stabs i < addr) ∨ (q.2 < i ∧ addr < value stabs i) := by
  have hp : p.1 ≤ p.2 + 1 := by omega
  induction h with
  | refl => exact .inl ⟨hi, hi'⟩
  | tail hpath hstep ih =>
    have hb := Path.bounds hpath hp
    rcases ih with hin | hlow | hhigh
    · cases hstep with
      | skip _ hnone =>
        have hmid : ¬ i ≤ _ := fun hle => hnone i hin.1 hle ht
        dsimp only at hin hmid ⊢
        exact .inl ⟨by omega, hin.2⟩
      | right _ hk hlt =>
        dsimp only at hin hb ⊢
        have hlow := hk.low
        have hmid := hk.mid
        rename_i l₁ r₁ m _
        by_cases him : i ≤ m
        · refine .inr (.inl ⟨by omega, ?_⟩)
          exact Nat.lt_of_le_of_lt (hs i m hi him (by omega) ht hk.typed) hlt
        · have : ¬ i ≤ (l₁ + r₁) / 2 := fun hle => hk.last i (by omega) hle ht
          exact .inl ⟨by omega, hin.2⟩
      | left _ hk hgt =>
        dsimp only at hin hb ⊢
        have hlow := hk.low
        rename_i l₁ r₁ m _
        by_cases him : m ≤ i
        · refine .inr (.inr ⟨by omega, ?_⟩)
          exact Nat.lt_of_lt_of_le hgt (hs m i (by omega) him hi' hk.typed ht)
        · exact .inl ⟨hin.1, by omega⟩
    · refine .inr (.inl ⟨?_, hlow.2⟩)
      have := (Path.bounds (.single hstep) hb.2.2).1
      omega
    · refine .inr (.inr ⟨?_, hhigh.2⟩)
      have := (Path.bounds (.single hstep) hb.2.2).2.1
      omega

/-- The search does not go on by halves where it finds the address. -/
theorem Path.eq_of_found {q : Int × Int} (h : Path stabs type addr (l, r) q)
    (hm : Looks stabs type l r m) (hv : value stabs m = addr) : q = (l, r) := by
  rcases Relation.ReflTransGen.cases_head h with h | ⟨c, hstep, -⟩
  · exact h.symm
  · rcases hstep.looks hm with ⟨hlt, -⟩ | ⟨hlt, -⟩
    · rw [hv] at hlt
      exact absurd hlt (BitVec.lt_irrefl _)
    · rw [hv] at hlt
      exact absurd hlt (BitVec.lt_irrefl _)

theorem Comes.unique {m₁ r₁ : Int} (h : Comes stabs type addr l r m r')
    (hv : value stabs m = addr) (h₁ : Comes stabs type addr l r m₁ r₁)
    (hv₁ : value stabs m₁ = addr) : m₁ = m ∧ r₁ = r' := by
  obtain ⟨l', -, hpath, hm⟩ := h
  obtain ⟨l₁, -, hpath₁, hm₁⟩ := h₁
  have heq : (l₁, r₁) = (l', r') := by
    rcases Relation.ReflTransGen.total_of_right_unique halve_rightUnique hpath hpath₁ with h | h
    · exact Path.eq_of_found h hm hv
    · exact (Path.eq_of_found h hm₁ hv₁).symm
  obtain ⟨rfl, rfl⟩ := Prod.mk.inj heq
  exact ⟨hm₁.unique hm, rfl⟩

/-- A larger value that is looked at bounds the region in which the address is
found. -/
theorem Comes.lt_of_found {j r₁ : Int} (hle : l ≤ r + 1) (h : Comes stabs type addr l r m r')
    (hv : value stabs m = addr) (hj : Comes stabs type addr l r j r₁)
    (hlt : addr < value stabs j) : r' < j := by
  obtain ⟨l', -, hpath, hm⟩ := h
  obtain ⟨l₁, hle₁, hpath₁, hj⟩ := hj
  have hpath₂ : Path stabs type addr (l, r) (l₁, j - 1) := hpath₁.tail (.left hle₁ hj hlt)
  rcases Relation.ReflTransGen.total_of_right_unique halve_rightUnique hpath hpath₂ with h | h
  · obtain ⟨-, rfl⟩ := Prod.mk.inj (Path.eq_of_found h hm hv)
    omega
  · have := (Path.bounds h (Path.bounds hpath₂ hle).2.2).2.1
    dsimp only at this
    omega

end Path

/-! ## The loop -/

section Loop

variable {stabs : List Stab} {type : Int} {s s' : Search}

/-- A search in the table. -/
structure Within (stabs : List Stab) (s : Search) : Prop where
  low : 0 ≤ s.l
  high : s.r < stabs.length
  right : s.region_right = s.r

/-- What a turn leaves to be searched. It is twice the length of the region, and
one more if the address is that of the first stab: then the region may stay. -/
def Search.size (stabs : List Stab) (type : Int) (s : Search) : Nat :=
  2 * (s.r - s.l + 1).toNat +
    if Typed stabs type s.l ∧ value stabs s.l = s.addr then 1 else 0

theorem Search.size_le (stabs : List Stab) (type : Int) (s : Search) :
    2 * (s.r - s.l + 1).toNat ≤ s.size stabs type ∧
    s.size stabs type ≤ 2 * (s.r - s.l + 1).toNat + 1 := by
  unfold Search.size
  split <;> omega

theorem Within.turn (type : Int) (h : Within stabs s) (hle : s.l ≤ s.r) :
    ∃ s₁, s.turn stabs type = .ok s₁ ∧ Within stabs s₁ ∧
      s₁.size stabs type < s.size stabs type := by
  obtain ⟨hl, hr, hright⟩ := h
  have hsize := Search.size_le stabs type s
  rcases turn_cases type hl hle hr with
    ⟨-, hrun⟩ | ⟨m, hm, ⟨-, hrun⟩ | ⟨-, hrun⟩ | ⟨hv, hrun⟩⟩
  · refine ⟨_, hrun, ⟨by dsimp only; omega, hr, hright⟩, ?_⟩
    refine lt_of_le_of_lt (Search.size_le ..).2 ?_
    dsimp only
    omega
  · refine ⟨_, hrun, ⟨by dsimp only; omega, hr, hright⟩, ?_⟩
    refine lt_of_le_of_lt (Search.size_le ..).2 ?_
    dsimp only
    omega
  · have hlow := hm.low
    have hmid := hm.mid
    refine ⟨_, hrun, ⟨hl, by dsimp only; omega, rfl⟩, ?_⟩
    refine lt_of_le_of_lt (Search.size_le ..).2 ?_
    dsimp only
    omega
  · have hlow := hm.low
    refine ⟨_, hrun, ⟨by dsimp only; omega, hr, hright⟩, ?_⟩
    by_cases hml : m = s.l
    · -- the region stays, but its first stab now has less than the address
      subst hml
      have hne : value stabs s.l ≠ s.addr + 1 := by
        rw [hv]
        bv_omega
      unfold Search.size
      dsimp only
      rw [if_neg fun h => hne h.2, if_pos ⟨hm.typed, hv⟩]
      exact Nat.lt_succ_self _
    · refine lt_of_le_of_lt (Search.size_le ..).2 ?_
      dsimp only
      have := hm.mid
      omega

/-- A match stays one. -/
theorem turn_any (h : s.any_matches = true) (hrun : s.turn stabs type = .ok s') :
    s'.any_matches = true := by
  unfold Search.turn at hrun
  obtain ⟨m, -, hrun⟩ := bind_eq_ok.mp hrun
  split at hrun
  · cases hrun
    exact h
  · obtain ⟨x, -, hrun⟩ := bind_eq_ok.mp hrun
    split at hrun
    · cases hrun
      rfl
    · split at hrun <;> cases hrun <;> rfl

theorem Within.ends {n : Nat} (type : Int) (h : Within stabs s) (hn : 2 * (s.r - s.l + 1).toNat + 1 ≤ n) :
    ∃ s', whileUpto Search.more (Search.turn stabs type) n s = .ok s' ∧
      Ends Search.more (Search.turn stabs type) s s' :=
  whileUpto_total (Within stabs) (Search.size stabs type) h ((Search.size_le ..).2.trans hn)
    fun _ h hmore => h.turn type (of_decide_eq_true hmore)

theorem Within.keeps (h : Within stabs s)
    (hends : Ends Search.more (Search.turn stabs type) s s') : Within stabs s' :=
  hends.keeps _ h fun x y hx hmore hy => by
    obtain ⟨s₁, hs₁, hw, -⟩ := hx.turn type (of_decide_eq_true hmore)
    rw [hs₁] at hy
    cases hy
    exact hw

/-- How a search ends that does not find the address. -/
structure Missed (stabs : List Stab) (type : Int) (s s' : Search) : Prop where
  path : Path stabs type s.addr (s.l, s.r) (s'.l, s'.r)
  done : s'.r < s'.l
  left : s'.region_left = s.region_left ∨ (s.l ≤ s'.region_left ∧ s'.region_left ≤ s'.r ∧
    Typed stabs type s'.region_left ∧ value stabs s'.region_left < s.addr)
  any : s'.any_matches = true ∨ (s.any_matches = false ∧ s'.any_matches = false ∧
    s'.region_left = s.region_left ∧ ∀ i, s.l ≤ i → i ≤ s.r → ¬ Typed stabs type i)

/-- A search finds the address, and goes on with the next one from there, or ends
without. -/
theorem Within.phase (h : Within stabs s) (hle : s.l ≤ s.r + 1)
    (hends : Ends Search.more (Search.turn stabs type) s s') :
    Missed stabs type s s' ∨
    ∃ m r', Comes stabs type s.addr s.l s.r m r' ∧ value stabs m = s.addr ∧
      Ends Search.more (Search.turn stabs type) ⟨m, r', m, r', s.addr + 1, true⟩ s' := by
  induction hends with
  | @stop s hstop =>
    have hlt : s.r < s.l := not_le.mp (of_decide_eq_false hstop)
    refine .inl ⟨.refl, hlt, .inl rfl, ?_⟩
    cases hany : s.any_matches with
    | true => exact .inl rfl
    | false => exact .inr ⟨rfl, rfl, rfl, fun i hi hi' => by omega⟩
  | @turn s s₁ s' hmore hturn hends ih =>
    have hlr : s.l ≤ s.r := of_decide_eq_true hmore
    obtain ⟨s₂, hs₂, hw, -⟩ := h.turn type hlr
    rw [hturn] at hs₂
    cases hs₂
    -- the rest of the path, after one more halving
    have hpath : ∀ l r, Halve stabs type s.addr (s.l, s.r) (l, r) → s₁.l = l → s₁.r = r →
        s₁.addr = s.addr → ∀ q, Path stabs type s₁.addr (s₁.l, s₁.r) q →
        Path stabs type s.addr (s.l, s.r) q := by
      rintro l r hstep rfl rfl ha q hq
      rw [ha] at hq
      exact .head hstep hq
    have hfound : s₁.addr = s.addr → (∀ q, Path stabs type s₁.addr (s₁.l, s₁.r) q →
        Path stabs type s.addr (s.l, s.r) q) →
        (∃ m r', Comes stabs type s₁.addr s₁.l s₁.r m r' ∧ value stabs m = s₁.addr ∧
          Ends Search.more (Search.turn stabs type) ⟨m, r', m, r', s₁.addr + 1, true⟩ s') →
        ∃ m r', Comes stabs type s.addr s.l s.r m r' ∧ value stabs m = s.addr ∧
          Ends Search.more (Search.turn stabs type) ⟨m, r', m, r', s.addr + 1, true⟩ s' := by
      rintro ha hq ⟨m, r', ⟨l', hle', hp, hm⟩, hv, he⟩
      rw [ha] at hv he
      exact ⟨m, r', ⟨l', hle', hq _ hp, hm⟩, hv, he⟩
    rcases turn_cases type h.low hlr h.high with
      ⟨hnone, hrun⟩ | ⟨m, hm, ⟨hlt, hrun⟩ | ⟨hgt, hrun⟩ | ⟨hv, hrun⟩⟩
    · rw [hturn] at hrun
      cases hrun
      have hq := hpath _ _ (.skip hlr hnone) rfl rfl rfl
      rcases ih hw (by dsimp only; omega) with hmiss | hhit
      · refine .inl ⟨hq _ hmiss.path, hmiss.done, ?_, ?_⟩
        · rcases hmiss.left with h₁ | ⟨h₁, h₂⟩
          · exact .inl h₁
          · exact .inr ⟨by dsimp only at h₁; omega, h₂⟩
        · rcases hmiss.any with h₁ | ⟨h₁, h₂, h₃, h₄⟩
          · exact .inl h₁
          · refine .inr ⟨h₁, h₂, h₃, fun i hi hi' => ?_⟩
            by_cases hmid : i ≤ (s.l + s.r) / 2
            · exact hnone i hi hmid
            · exact h₄ i (by dsimp only; omega) hi'
      · exact .inr (hfound rfl hq hhit)
    · rw [hturn] at hrun
      cases hrun
      have hlow := hm.low
      have hmid := hm.mid
      have hq := hpath _ _ (.right hlr hm hlt) rfl rfl rfl
      rcases ih hw (by dsimp only; omega) with hmiss | hhit
      · have hb := Path.bounds hmiss.path (by dsimp only; omega)
        dsimp only at hb
        refine .inl ⟨hq _ hmiss.path, hmiss.done, .inr ?_, .inl ?_⟩
        · rcases hmiss.left with h₁ | ⟨h₁, h₂⟩
          · rw [h₁]
            exact ⟨hlow, by dsimp only; omega, hm.typed, hlt⟩
          · exact ⟨by dsimp only at h₁; omega, h₂⟩
        · rcases hmiss.any with h₁ | ⟨h₁, -⟩
          · exact h₁
          · cases h₁
      · exact .inr (hfound rfl hq hhit)
    · rw [hturn] at hrun
      cases hrun
      have hlow := hm.low
      have hq := hpath _ _ (.left hlr hm hgt) rfl rfl rfl
      rcases ih hw (by dsimp only; omega) with hmiss | hhit
      · refine .inl ⟨hq _ hmiss.path, hmiss.done, hmiss.left, .inl ?_⟩
        rcases hmiss.any with h₁ | ⟨h₁, -⟩
        · exact h₁
        · cases h₁
      · exact .inr (hfound rfl hq hhit)
    · rw [hturn] at hrun
      cases hrun
      refine .inr ⟨m, s.r, ⟨s.l, hlr, .refl, hm⟩, hv, ?_⟩
      rw [h.right] at hends
      exact hends

/-- A stab with less than the address stays in the region when it is at its left
end, and the search does not come back before it. -/
theorem Within.stays {k : Int} (h : Within stabs s)
    (hends : Ends Search.more (Search.turn stabs type) s s')
    (hl : k < s.l ∨ (s.l = k ∧ Typed stabs type k ∧ value stabs k < s.addr)) (hr : k ≤ s.r)
    (hleft : k ≤ s.region_left) : k ≤ s'.r ∧ k ≤ s'.region_left := by
  suffices (Within stabs s' ∧ (k < s'.l ∨ (s'.l = k ∧ Typed stabs type k ∧
      value stabs k < s'.addr)) ∧ k ≤ s'.r ∧ k ≤ s'.region_left) from this.2.2
  refine hends.keeps (fun s => Within stabs s ∧ (k < s.l ∨ (s.l = k ∧ Typed stabs type k ∧
    value stabs k < s.addr)) ∧ k ≤ s.r ∧ k ≤ s.region_left) ⟨h, hl, hr, hleft⟩ ?_
  rintro x y ⟨hx, hl, hr, hleft⟩ hmore hy
  have hlr : x.l ≤ x.r := of_decide_eq_true hmore
  obtain ⟨y', hy', hw, -⟩ := hx.turn type hlr
  rw [hy] at hy'
  cases hy'
  refine ⟨hw, ?_⟩
  rcases turn_cases type hx.low hlr hx.high with
    ⟨-, hrun⟩ | ⟨m, hm, ⟨-, hrun⟩ | ⟨hgt, hrun⟩ | ⟨hv, hrun⟩⟩
  · rw [hy] at hrun
    cases hrun
    exact ⟨.inl (by dsimp only; omega), hr, hleft⟩
  · rw [hy] at hrun
    cases hrun
    have := hm.low
    exact ⟨.inl (by dsimp only; omega), hr, by dsimp only; omega⟩
  · rw [hy] at hrun
    cases hrun
    have hlow := hm.low
    refine ⟨hl, ?_, hleft⟩
    rcases hl with hl | ⟨hl, -, hlt⟩
    · dsimp only
      omega
    · have hne : m ≠ k := by
        rintro rfl
        exact BitVec.lt_asymm hlt hgt
      dsimp only
      omega
  · rw [hy] at hrun
    cases hrun
    have hlow := hm.low
    refine ⟨.inl ?_, hr, by dsimp only; omega⟩
    rcases hl with hl | ⟨hl, -, hlt⟩
    · dsimp only
      omega
    · have hne : m ≠ k := by
        rintro rfl
        rw [hv] at hlt
        exact BitVec.lt_irrefl _ hlt
      dsimp only
      omega

/-- The end of a search with a match. -/
theorem finish_spec (type : Int) (hany : s.any_matches = true) (hl : 0 ≤ s.region_left)
    (hr : s.region_right < stabs.length) :
    ∃ l, s.finish stabs type = .ok (l, s.region_right) ∧
      (s.region_right < s.region_left → l = s.region_right) ∧
      (s.region_left ≤ s.region_right → s.region_left ≤ l ∧ l ≤ s.region_right ∧
        (s.region_left < l → Typed stabs type l) ∧
        ∀ i, l < i → i ≤ s.region_right → ¬ Typed stabs type i) := by
  unfold Search.finish
  rw [if_pos hany]
  by_cases hle : s.region_left ≤ s.region_right
  · obtain ⟨m, hm, hlo, hhi, htyped, hnone⟩ := scan_spec stabs type
      (s.region_right - s.region_left).toNat (show 0 ≤ s.region_left + 1 by omega) (by omega)
    rw [if_pos hle, hm]
    exact ⟨m, rfl, fun h => by omega, fun _ => ⟨by omega, by omega, fun h => htyped (by omega),
      fun i hi hi' => hnone i hi (by omega)⟩⟩
  · rw [if_neg hle]
    exact ⟨s.region_right, rfl, fun _ => rfl, fun h => absurd h hle⟩

/-- The call runs its loop to the end, and finishes there. -/
theorem stab_binsearch_ends {left right : Int} (type : Int) (addr : Word) (hl : 0 ≤ left)
    (hr : right < stabs.length) :
    ∃ s', Ends Search.more (Search.turn stabs type) ⟨left, right, left, right, addr, false⟩ s' ∧
      stab_binsearch stabs left right type addr = s'.finish stabs type := by
  have hw : Within stabs ⟨left, right, left, right, addr, false⟩ := ⟨hl, hr, rfl⟩
  obtain ⟨s', hrun, hends⟩ := hw.ends (n := turns left right) type le_rfl
  refine ⟨s', hends, ?_⟩
  rw [stab_binsearch, hrun]
  rfl

end Loop

end jos.kdebug
