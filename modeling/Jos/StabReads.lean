-- What `stab_binsearch` reads. The search is written once more over the read of a
-- stab, so that a read outside the region can be refused, and with the sum of the
-- two ends as an `int`. On a table that fits into memory it is the search of before.
import Mathlib
import Jos.Kdebug

namespace jos.kdebug

open loop

/-! ## The search over a read -/

/-- `a + b` of two `int`s. -/
def int_add (a b : Int) : Int := (BitVec.ofInt 32 a + BitVec.ofInt 32 b).toInt

/-- `while (m >= l && stabs[m].n_type != type) m--`, with `k` indices left. -/
def scanBy (read : Int → Except Int Stab) (type base : Int) : Nat → Except Int Int
  | 0 => pure (base - 1)
  | k + 1 => do
    let s ← read (base + k)
    if (s.n_type.toNat : Int) = type then pure (base + k) else scanBy read type base k

def turnBy (read : Int → Except Int Stab) (type : Int) (s : Search) : Except Int Search := do
  let true_m := (int_add s.l s.r).tdiv 2
  let m ← scanBy read type s.l (true_m + 1 - s.l).toNat
  if m < s.l then pure { s with l := true_m + 1 }
  else
    let x ← read m
    if x.n_value < s.addr then
      pure { s with any_matches := true, region_left := m, l := true_m + 1 }
    else if s.addr < x.n_value then
      pure { s with any_matches := true, region_right := m - 1, r := m - 1 }
    else pure { s with any_matches := true, region_left := m, l := m, addr := s.addr + 1 }

def finishBy (read : Int → Except Int Stab) (type : Int) (s : Search) : Except Int (Int × Int) :=
  if s.any_matches then do
    let l ← if s.region_left ≤ s.region_right
      then scanBy read type (s.region_left + 1) (s.region_right - s.region_left).toNat
      else pure s.region_right
    pure (l, s.region_right)
  else pure (s.region_left, s.region_left - 1)

/-- An array of stabs. Each takes 12 bytes of the 32-bit address space. -/
structure Table where
  stabs : List Stab
  fits : 12 * stabs.length ≤ 2 ^ 32

/-- A read of the table in `[L, R]`. Every other index is refused. -/
def Table.read (t : Table) (L R i : Int) : Except Int Stab :=
  if L ≤ i ∧ i ≤ R then stabAt t.stabs i else .error i

/-! ## The same search -/

section

variable {t : Table} {type L R : Int} {s s' : Search}

theorem int_add_eq {a b : Int} (ha : 0 ≤ a) (hb : 0 ≤ b) (h : a + b < 2 ^ 31) :
    int_add a b = a + b := by
  rw [int_add, ← BitVec.ofInt_add, BitVec.toInt_ofInt]
  exact Int.bmod_eq_of_le (by omega) (by omega)

theorem Table.read_eq {i : Int} (hL : L ≤ i) (hR : i ≤ R) : t.read L R i = stabAt t.stabs i :=
  if_pos ⟨hL, hR⟩

theorem scanBy_eq {base : Int} (k : Nat) (hL : L ≤ base) (hR : base + k ≤ R + 1) :
    scanBy (t.read L R) type base k = scan t.stabs type base k := by
  induction k with
  | zero => rfl
  | succ k ih =>
    rw [scanBy, scan, Table.read_eq (by omega) (by omega), ih (by omega)]

/-- The search is in the region, which is in the table. -/
structure Inside (t : Table) (L R : Int) (s : Search) : Prop where
  nonneg : 0 ≤ L
  size : R < t.stabs.length
  low : L ≤ s.l
  high : s.r ≤ R
  left : L ≤ s.region_left
  right : s.region_right = s.r

theorem Inside.within (h : Inside t L R s) : Within t.stabs s :=
  ⟨h.nonneg.trans h.low, lt_of_le_of_lt h.high h.size, h.right⟩

theorem Inside.turnBy_eq (h : Inside t L R s) (hle : s.l ≤ s.r) :
    turnBy (t.read L R) type s = s.turn t.stabs type := by
  have hfits := t.fits
  obtain ⟨hL, hsize, hlow, hhigh, -, -⟩ := h
  have hadd : int_add s.l s.r = s.l + s.r := int_add_eq (by omega) (by omega) (by omega)
  have hdiv : (s.l + s.r).tdiv 2 = (s.l + s.r) / 2 := Int.tdiv_eq_ediv_of_nonneg (by omega)
  obtain ⟨m, hm, hlo, hhi, -, -⟩ := scan_spec t.stabs type
    ((s.l + s.r) / 2 + 1 - s.l).toNat (by omega : 0 ≤ s.l) (by omega)
  rw [turnBy, Search.turn, hadd, hdiv, scanBy_eq _ hlow (by omega), hm]
  show (if m < s.l then _ else _) = (if m < s.l then _ else _)
  by_cases hml : m < s.l
  · rw [if_pos hml, if_pos hml]
  · rw [if_neg hml, if_neg hml, Table.read_eq (by omega) (by omega)]

theorem Inside.step (h : Inside t L R s) (hle : s.l ≤ s.r)
    (hturn : s.turn t.stabs type = .ok s') : Inside t L R s' := by
  obtain ⟨hL, hsize, hlow, hhigh, hleft, hright⟩ := h
  rcases turn_cases type (hL.trans hlow) hle (lt_of_le_of_lt hhigh hsize) with
    ⟨-, hrun⟩ | ⟨m, hm, ⟨-, hrun⟩ | ⟨-, hrun⟩ | ⟨-, hrun⟩⟩
  · rw [hturn] at hrun
    cases hrun
    exact ⟨hL, hsize, by dsimp only; omega, hhigh, hleft, hright⟩
  · rw [hturn] at hrun
    cases hrun
    exact ⟨hL, hsize, by dsimp only; omega, hhigh, hlow.trans hm.low, hright⟩
  · rw [hturn] at hrun
    cases hrun
    have hmid := hm.mid
    exact ⟨hL, hsize, hlow, by dsimp only; omega, hleft, rfl⟩
  · rw [hturn] at hrun
    cases hrun
    exact ⟨hL, hsize, hlow.trans hm.low, hhigh, hlow.trans hm.low, hright⟩

theorem Inside.finishBy_eq (h : Inside t L R s) :
    finishBy (t.read L R) type s = s.finish t.stabs type := by
  obtain ⟨-, -, -, hhigh, hleft, hright⟩ := h
  rw [finishBy, Search.finish]
  by_cases hle : s.region_left ≤ s.region_right
  · rw [if_pos hle, if_pos hle, scanBy_eq _ (by omega) (by omega)]
  · rw [if_neg hle, if_neg hle]

end

/-! ## Its end -/

/-- On every table and for every region of it, the search comes to its end, although
no stab outside the region can be read. -/
theorem search_stays_in_its_region (t : Table) (L R type : Int) (addr : Word) (hL : 0 ≤ L)
    (hR : R < t.stabs.length) :
    ∃ s' p, Ends Search.more (turnBy (t.read L R) type) ⟨L, R, L, R, addr, false⟩ s' ∧
      finishBy (t.read L R) type s' = .ok p ∧ stab_binsearch t.stabs L R type addr = .ok p := by
  have hin : Inside t L R ⟨L, R, L, R, addr, false⟩ := ⟨hL, hR, le_rfl, le_rfl, le_rfl, rfl⟩
  obtain ⟨s', hends, hsearch⟩ := stab_binsearch_ends type addr hL hR
  have hstep : ∀ x y, Inside t L R x → x.more = true → x.turn t.stabs type = .ok y →
      Inside t L R y ∧ turnBy (t.read L R) type x = .ok y := by
    intro x y hx hmore hy
    have hle : x.l ≤ x.r := of_decide_eq_true hmore
    exact ⟨hx.step hle hy, (hx.turnBy_eq hle).trans hy⟩
  have hin' : Inside t L R s' := hends.keeps _ hin fun x y hx hmore hy => (hstep x y hx hmore hy).1
  obtain ⟨p, hp⟩ : ∃ p, s'.finish t.stabs type = .ok p := by
    cases hany : s'.any_matches with
    | true =>
      obtain ⟨l, hl, -⟩ := finish_spec type hany (hL.trans hin'.left) (by
        rw [hin'.right]
        exact hin'.within.high)
      exact ⟨_, hl⟩
    | false => exact ⟨(s'.region_left, s'.region_left - 1), by rw [Search.finish, hany]; rfl⟩
  exact ⟨s', p, hends.congr _ hin hstep, hin'.finishBy_eq.trans hp, hsearch.trans hp⟩

/-- Two functions with the values 2^32 - 1 and 0, in the wrong order. -/
def unsortedStabs : List Stab := [⟨0, 0x24, 0, 0xFFFFFFFF⟩, ⟨0, 0x24, 0, 0⟩]

theorem unsortedStabs_fit : 12 * unsortedStabs.length ≤ 2 ^ 32 := by decide

/-- The last address is found, and the next one is 0. -/
theorem search_stays_in_its_region_wraps :
    stab_binsearch unsortedStabs 0 1 N_FUN 0xFFFFFFFF = .ok (-1, -1) ∧
    ∃ s' p, Ends Search.more (turnBy (Table.read ⟨unsortedStabs, unsortedStabs_fit⟩ 0 1) N_FUN)
        ⟨0, 1, 0, 1, 0xFFFFFFFF, false⟩ s' ∧
      finishBy (Table.read ⟨unsortedStabs, unsortedStabs_fit⟩ 0 1) N_FUN s' = .ok p ∧
      stab_binsearch unsortedStabs 0 1 N_FUN 0xFFFFFFFF = .ok p :=
  ⟨by decide, search_stays_in_its_region ⟨unsortedStabs, unsortedStabs_fit⟩ 0 1 N_FUN 0xFFFFFFFF
    (by decide) (by decide)⟩

end jos.kdebug
