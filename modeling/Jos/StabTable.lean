-- `debuginfo_eip` on any table of stabs, in particular on one that a user program
-- has written. Three searches follow each other, each in a part of what the one
-- before gives. A search may give the index before its region.
import Mathlib
import Jos.StabSearch

namespace jos.kdebug

open loop

/-! ## The lookup -/

/-- The table of stabs and the string table, from `stabstr` to `stabstr_end`. -/
structure Tables where
  stabs : List Stab
  stabstr : List (BitVec 8)
deriving DecidableEq

/-- `struct Eipdebuginfo`. A string is an offset in the string table, and none is
"<unknown>". -/
structure Eipdebuginfo where
  eip_file : Option Nat
  eip_line : Nat
  eip_fn_name : Option Nat
  eip_fn_namelen : Nat
  eip_fn_addr : Word
  eip_fn_narg : Nat
deriving DecidableEq

/-- A string at the offset, if it lies in the string table. -/
def stringAt (stabstr : List (BitVec 8)) (n_strx : Word) : Option Nat :=
  if n_strx.toNat < stabstr.length then some n_strx.toNat else none

/-- `strfind(name, ':') - name`. -/
def namelen (stabstr : List (BitVec 8)) : Option Nat → Nat
  | none => 9
  | some off => ((stabstr.drop off).takeWhile fun c => c ≠ 0 ∧ c ≠ 58#8).length

/-- Goes back from the line to the stab of its file, which is not before `lfile`.
The argument is the number of stabs from `lfile` to the line. -/
def file_of_line (stabs : List Stab) (lfile : Int) : Nat → Except Int Int
  | 0 => pure (lfile - 1)
  | k + 1 => do
    let s ← stabAt stabs (lfile + k)
    if (s.n_type.toNat : Int) ≠ N_SOL ∧ ((s.n_type.toNat : Int) ≠ N_SO ∨ s.n_value = 0)
    then file_of_line stabs lfile k
    else pure (lfile + k)

/-- The number of parameters from index `i` on, among `k` stabs. -/
def count_args (stabs : List Stab) : Nat → Int → Except Int Nat
  | 0, _ => pure 0
  | k + 1, i => do
    let s ← stabAt stabs i
    if (s.n_type.toNat : Int) = N_PSYM then
      let n ← count_args stabs k (i + 1)
      pure (n + 1)
    else pure 0

/-- Fills in the file, if there is a stab for it. -/
def fill_file (t : Tables) (info : Eipdebuginfo) (lfile file : Int) : Except Int Eipdebuginfo :=
  if lfile ≤ file then do
    let s ← stabAt t.stabs file
    pure { info with eip_file := stringAt t.stabstr s.n_strx }
  else pure info

/-- The number of parameters of the function. -/
def fn_narg (stabs : List Stab) (lfun rfun : Int) : Except Int Nat :=
  if lfun < rfun then count_args stabs (rfun - (lfun + 1)).toNat (lfun + 1) else pure 0

/-- What follows the search for a line. -/
def finish_line (t : Tables) (info : Eipdebuginfo) (lfile lfun rfun lline rline : Int) :
    Except Int (Int × Eipdebuginfo) :=
  if rline < lline then pure (-1, info)
  else do
    let s ← stabAt t.stabs lline
    let file ← file_of_line t.stabs lfile (lline + 1 - lfile).toNat
    let info ← fill_file t { info with eip_line := s.n_desc.toNat } lfile file
    let narg ← fn_narg t.stabs lfun rfun
    pure (0, { info with eip_fn_narg := narg })

/-- What follows the search for a function. -/
def finish_fun (t : Tables) (info : Eipdebuginfo) (addr : Word) (lfile rfile lfun rfun : Int) :
    Except Int (Int × Eipdebuginfo) :=
  if lfun ≤ rfun then do
    let s ← stabAt t.stabs lfun
    let name := stringAt t.stabstr s.n_strx
    let info := { info with
      eip_fn_name := name, eip_fn_addr := s.n_value, eip_fn_namelen := namelen t.stabstr name }
    let line ← stab_binsearch t.stabs lfun rfun N_SLINE (addr - s.n_value)
    finish_line t info lfile lfun rfun line.1 line.2
  else do
    let line ← stab_binsearch t.stabs lfile rfile N_SLINE addr
    finish_line t info lfile lfun rfun line.1 line.2

def Eipdebuginfo.unknown (addr : Word) : Eipdebuginfo := ⟨none, 0, none, 9, addr, 0⟩

/-- The string table ends with a NUL. -/
def Tables.terminated (t : Tables) : Bool := t.stabstr.getLast? = some 0

def search_tables (t : Tables) (addr : Word) : Except Int (Int × Eipdebuginfo) :=
  if t.terminated then do
    let file ← stab_binsearch t.stabs 0 (t.stabs.length - 1) N_SO addr
    if file.1 = 0 then pure (-1, .unknown addr)
    else
      let fun_ ← stab_binsearch t.stabs file.1 file.2 N_FUN addr
      finish_fun t (.unknown addr) addr file.1 file.2 fun_.1 fun_.2
  else pure (-1, .unknown addr)

/-- The tables for an address. Those of the user program are none if one of the
three calls of `user_mem_check` refuses them. -/
def tables (kern : Tables) (user : Option Tables) (addr : Word) : Option Tables :=
  if ULIM ≤ addr then some kern else user

def debuginfo_eip (kern : Tables) (user : Option Tables) (addr : Word) :
    Except Int (Int × Eipdebuginfo) :=
  (tables kern user addr).elim (pure (-1, .unknown addr)) (search_tables · addr)

/-! ## Searches that give the index before their region -/

section Drops

variable {stabs : List Stab} {type l r r' m x y : Int} {addr : Word} {any : Bool} {s s' : Search}

/-- The search finds the last address at stab `m`, goes on with address 0, and
comes to the same stab once more. -/
def Wraps (stabs : List Stab) (type : Int) (addr : Word) (l r m : Int) : Prop :=
  addr = 0xffffffff#32 ∧ value stabs m = addr ∧
    ∃ r₁ r₂, Comes stabs type addr l r m r₁ ∧ Comes stabs type 0 m r₁ m r₂

/-- The search comes to the first stab of its region, and the address lies before
it. -/
def Drops (stabs : List Stab) (type : Int) (addr : Word) (l r : Int) : Prop :=
  (∃ r', Comes stabs type addr l r l r' ∧ addr < value stabs l) ∨ Wraps stabs type addr l r l

theorem Path.eq_of_empty {q : Int × Int} (h : Path stabs type addr (l, r) q) (hlt : r < l) :
    q = (l, r) := by
  rcases Relation.ReflTransGen.cases_head h with h | ⟨c, hstep, -⟩
  · exact h.symm
  · cases hstep <;> omega

/-- A search does not leave its region by more than one. -/
theorem Within.near (h : Within stabs s) (hle : s.l ≤ s.r + 1) (hleft : s.l ≤ s.region_left)
    (hends : Ends Search.more (Search.turn stabs type) s s') :
    s.l - 1 ≤ s'.r ∧ s'.r ≤ s.r ∧ s.l ≤ s'.region_left := by
  obtain ⟨-, -, h₁, h₂, h₃⟩ := hends.keeps
    (fun x => Within stabs x ∧ s.l ≤ x.l ∧ s.l - 1 ≤ x.r ∧ x.r ≤ s.r ∧ s.l ≤ x.region_left)
    ⟨h, le_rfl, by omega, le_rfl, hleft⟩ (by
      rintro x y ⟨hx, h₀, h₁, h₂, h₃⟩ hmore hy
      have hlr : x.l ≤ x.r := of_decide_eq_true hmore
      obtain ⟨y', hy', hw, -⟩ := hx.turn type hlr
      rw [hy] at hy'
      cases hy'
      refine ⟨hw, ?_⟩
      rcases turn_cases type hx.low hlr hx.high with
        ⟨-, hrun⟩ | ⟨m, hm, ⟨-, hrun⟩ | ⟨-, hrun⟩ | ⟨-, hrun⟩⟩
      · rw [hy] at hrun
        cases hrun
        exact ⟨by dsimp only; omega, h₁, h₂, h₃⟩
      all_goals
        rw [hy] at hrun
        cases hrun
        have hlow := hm.low
        have hmid := hm.mid
        dsimp only
        omega)
  exact ⟨h₁, h₂, h₃⟩

/-- What a search gives. -/
theorem finish_near (type : Int) (hw : Within stabs s') (hl : 0 ≤ l) (hleft : l ≤ s'.region_left)
    (hr : l - 1 ≤ s'.r) (hany : s'.any_matches = false → s'.region_left = l) :
    ∃ x y, s'.finish stabs type = .ok (x, y) ∧ l - 1 ≤ x ∧ l - 1 ≤ y ∧
      ((x = l ∧ y = l - 1) ∨ (x ≤ y ∧ y = s'.r)) ∧
      (x < l → s'.r < s'.region_left ∧ x = s'.r ∧ y = s'.r) := by
  cases hm : s'.any_matches with
  | false =>
    rw [Search.finish, hm]
    refine ⟨s'.region_left, s'.region_left - 1, rfl, by omega, by omega, .inl ?_, fun h => ?_⟩
    · exact ⟨hany hm, by rw [hany hm]⟩
    · omega
  | true =>
    obtain ⟨x, hfin, hlow, hscan⟩ := finish_spec type hm (by omega)
      (by rw [hw.right]; exact hw.high)
    rw [hw.right] at hfin hlow hscan
    refine ⟨x, s'.r, hfin, ?_⟩
    by_cases hle : s'.region_left ≤ s'.r
    · obtain ⟨h₁, h₂, -⟩ := hscan hle
      exact ⟨by omega, hr, .inr ⟨h₂, rfl⟩, fun h => by omega⟩
    · have hx := hlow (by omega)
      exact ⟨by omega, hr, .inr ⟨by omega, rfl⟩, fun _ => ⟨by omega, hx, rfl⟩⟩

/-- Without a match the left end stays. -/
theorem left_of_no_match (hw : Within stabs s)
    (hends : Ends Search.more (Search.turn stabs type) s s') (h : s'.any_matches = false) :
    s'.region_left = s.region_left := by
  obtain ⟨-, hkeep⟩ := hends.keeps
    (fun x => Within stabs x ∧ (x.any_matches = false → x.region_left = s.region_left))
    ⟨hw, fun _ => rfl⟩ (by
      rintro x y ⟨hx, hkeep⟩ hmore hy
      have hlr : x.l ≤ x.r := of_decide_eq_true hmore
      obtain ⟨y', hy', hw, -⟩ := hx.turn type hlr
      rw [hy] at hy'
      cases hy'
      refine ⟨hw, ?_⟩
      rcases turn_cases type hx.low hlr hx.high with
        ⟨-, hrun⟩ | ⟨m, -, ⟨-, hrun⟩ | ⟨-, hrun⟩ | ⟨-, hrun⟩⟩
      · rw [hy] at hrun
        cases hrun
        exact hkeep
      all_goals
        rw [hy] at hrun
        cases hrun
        rintro ⟨⟩)
  exact hkeep h

/-- A search that comes to its first stab with a smaller address ends before it. -/
theorem finish_of_comes (hl : 0 ≤ l) (hr : r < stabs.length) (hlr : l ≤ r)
    (hc : Comes stabs type addr l r l r') (hgt : addr < value stabs l)
    (hends : Ends Search.more (Search.turn stabs type) ⟨l, r, l, r, addr, any⟩ s') :
    s'.finish stabs type = .ok (l - 1, l - 1) := by
  have hw : Within stabs ⟨l, r, l, r, addr, any⟩ := ⟨hl, hr, rfl⟩
  have hw' := hw.keeps hends
  rcases hw.phase (by dsimp only; omega) hends with h | ⟨m, r₁, hm, hv, -⟩
  · obtain ⟨l₁, hle₁, hpath, hlook⟩ := hc
    have hpath₁ : Path stabs type addr (l, r) (l₁, l - 1) := hpath.tail (.left hle₁ hlook hgt)
    have hb := Path.bounds hpath₁ (by dsimp only; omega)
    have hb' := Path.bounds h.path (by dsimp only; omega)
    have hdone := h.done
    dsimp only at hb hb'
    have heq : s'.r = l - 1 := by
      rcases Relation.ReflTransGen.total_of_right_unique halve_rightUnique h.path hpath₁ with h₁ | h₁
      · exact (Prod.mk.inj (Path.eq_of_empty h₁ hdone)).2.symm
      · exact (Prod.mk.inj (Path.eq_of_empty h₁ (by omega))).2
    have hleft : s'.region_left = l := by
      rcases h.left with h₁ | ⟨h₁, h₂, -⟩
      · exact h₁
      · dsimp only at h₁
        omega
    obtain ⟨x, hfin, hlow, -⟩ := finish_spec type
      (h.any_of_typed le_rfl hlr (Comes.bounds ⟨l₁, hle₁, hpath, hlook⟩ (by omega)).2.2.2)
      (by omega) (by rw [hw'.right]; exact hw'.high)
    rw [hw'.right, heq] at hfin hlow
    rw [hfin, hlow (by omega)]
  · dsimp only at hm hv
    have := hm.lt_of_found (by omega) hv hc hgt
    have := hm.bounds (by omega)
    omega

/-- A search that comes back to a stab at address 0 ends before it. -/
theorem stab_binsearch_wraps (hl : 0 ≤ l) (hr : r < stabs.length) (hlr : l ≤ r)
    (h : Wraps stabs type addr l r m) :
    stab_binsearch stabs l r type addr = .ok (m - 1, m - 1) := by
  obtain ⟨rfl, hv, r₁, r₂, hm, hm₂⟩ := h
  obtain ⟨s', hends, hrun⟩ := stab_binsearch_ends type 0xffffffff#32 hl hr
  rw [hrun]
  have hw : Within stabs ⟨l, r, l, r, 0xffffffff#32, false⟩ := ⟨hl, hr, rfl⟩
  obtain ⟨h₁, h₂, h₃, htm⟩ := hm.bounds (by omega)
  rcases hw.phase (by dsimp only; omega) hends with h | ⟨m', r', hm', hv', hends'⟩
  · -- it does find the address
    obtain ⟨l₁, hle₁, hpath, hlook⟩ := hm
    have hdone := h.done
    rcases Relation.ReflTransGen.total_of_right_unique halve_rightUnique h.path hpath with h₄ | h₄
    · obtain ⟨rfl, rfl⟩ := Prod.mk.inj (Path.eq_of_empty h₄ hdone)
      omega
    · obtain ⟨h₅, h₆⟩ := Prod.mk.inj (Path.eq_of_found h₄ hlook hv)
      omega
  · dsimp only at hm' hv' hends'
    obtain ⟨rfl, rfl⟩ := hm.unique hv hm' hv'
    refine finish_of_comes (by omega) (by omega) h₂ hm₂ ?_ hends'
    rw [hv]
    decide

/-- Searches that give less than their region are those that drop. -/
theorem drops_of_lt (hl : 0 ≤ l) (hr : r < stabs.length) (hlr : l ≤ r)
    (hends : Ends Search.more (Search.turn stabs type) ⟨l, r, l, r, addr, any⟩ s')
    (hfin : s'.finish stabs type = .ok (x, y)) (hx : x < l) : Drops stabs type addr l r := by
  have hw : Within stabs ⟨l, r, l, r, addr, any⟩ := ⟨hl, hr, rfl⟩
  -- what is known of the end of a search that starts at `k`
  have hnear : ∀ (k r₁ : Int) (a : Word) (any : Bool), l ≤ k → k ≤ r₁ → r₁ ≤ r →
      Ends Search.more (Search.turn stabs type) ⟨k, r₁, k, r₁, a, any⟩ s' →
      k - 1 ≤ x ∧ (x < k → s'.r < s'.region_left ∧ x = s'.r) := by
    intro k r₁ a any hk hkr hr₁ he
    have hwk : Within stabs ⟨k, r₁, k, r₁, a, any⟩ :=
      ⟨by dsimp only; omega, by dsimp only; omega, rfl⟩
    obtain ⟨h₁, -, h₃⟩ := hwk.near (by dsimp only; omega) le_rfl he
    obtain ⟨x', y', hfin', h₄, -, -, h₅⟩ := finish_near (l := k) type
      (hwk.keeps he) (by omega) h₃ h₁ fun h => left_of_no_match hwk he h
    rw [hfin] at hfin'
    cases hfin'
    exact ⟨h₄, fun h => ⟨(h₅ h).1, (h₅ h).2.1⟩⟩
  -- a search that misses its address and gives less has come to its first stab
  have hmissed : ∀ (k r₁ : Int) (a : Word) (any : Bool), l ≤ k → k ≤ r₁ → r₁ ≤ r →
      Ends Search.more (Search.turn stabs type) ⟨k, r₁, k, r₁, a, any⟩ s' → x < k →
      Missed stabs type ⟨k, r₁, k, r₁, a, any⟩ s' →
      ∃ r₂, Comes stabs type a k r₁ k r₂ ∧ a < value stabs k := by
    intro k r₁ a any hk hkr hr₁ he hxk h
    obtain ⟨h₁, h₂⟩ := hnear k r₁ a any hk hkr hr₁ he
    obtain ⟨h₂, h₃⟩ := h₂ hxk
    rcases Path.right_end h.path with h₄ | ⟨r₂, h₄, h₅⟩
    · dsimp only at h₄
      omega
    · have hk' : s'.r + 1 = k := by omega
      rw [hk'] at h₄ h₅
      exact ⟨r₂, h₄, h₅⟩
  rcases hw.phase (by dsimp only; omega) hends with h | ⟨m, r₁, hm, hv, hends₁⟩
  · exact .inl (hmissed l r addr any le_rfl hlr le_rfl hends hx h)
  dsimp only at hm hv hends₁
  obtain ⟨h₁, h₂, h₃, htm⟩ := hm.bounds (by omega)
  have hw₁ : Within stabs ⟨m, r₁, m, r₁, addr + 1, true⟩ :=
    ⟨by dsimp only; omega, by dsimp only; omega, rfl⟩
  obtain rfl : m = l := by
    have := (hnear m r₁ _ _ h₁ h₂ h₃ hends₁).1
    omega
  have hlast : addr = 0xffffffff#32 := by
    by_contra hne
    have hlt : addr.toNat < 2 ^ 32 - 1 := by
      have : addr.toNat ≠ 0xffffffff := fun h => hne (BitVec.eq_of_toNat_eq h)
      omega
    have hlt' : value stabs m < addr + 1 := by
      rw [hv, BitVec.lt_def, toNat_add_one hlt]
      omega
    obtain ⟨h₄, h₅⟩ : m ≤ s'.r ∧ m ≤ s'.region_left :=
      hw₁.stays hends₁ (.inr ⟨rfl, htm, hlt'⟩) h₂ le_rfl
    have := (hnear m r₁ _ _ h₁ h₂ h₃ hends₁).2 hx
    omega
  have hzero : addr + 1 = 0 := by rw [hlast]; decide
  rw [hzero] at hends₁ hw₁
  refine .inr ⟨hlast, hv, r₁, ?_⟩
  rcases hw₁.phase (by dsimp only; omega) hends₁ with h | ⟨k, r₂, hk, hvk, hends₂⟩
  · obtain ⟨r₂, h₄, -⟩ := hmissed m r₁ 0 true h₁ h₂ h₃ hends₁ hx h
    exact ⟨r₂, hm, h₄⟩
  · -- address 0 is found behind `m`
    dsimp only at hk hvk hends₂
    obtain ⟨h₄, h₅, h₆, -⟩ := hk.bounds (by omega)
    have hne : k ≠ m := by
      rintro rfl
      rw [hv, hlast] at hvk
      exact absurd hvk (by decide)
    have := (hnear k r₂ _ _ (by omega) h₅ (by omega) hends₂).1
    omega

/-- What a search in the table gives: it is in its region, or drops by one. -/
theorem stab_binsearch_spec (stabs : List Stab) (type : Int) (addr : Word) (hl : 0 ≤ l) (hlr : l ≤ r) (hr : r < stabs.length) :
    ∃ x y, stab_binsearch stabs l r type addr = .ok (x, y) ∧ l - 1 ≤ x ∧ l - 1 ≤ y ∧ y ≤ r ∧
      ((x = l ∧ y = l - 1) ∨ x ≤ y) ∧ (x < l → Drops stabs type addr l r) := by
  obtain ⟨s', hends, hrun⟩ := stab_binsearch_ends type addr hl hr
  have hw : Within stabs ⟨l, r, l, r, addr, false⟩ := ⟨hl, hr, rfl⟩
  obtain ⟨h₁, h₂, h₃⟩ := hw.near (by dsimp only; omega) le_rfl hends
  obtain ⟨x, y, hfin, h₄, h₅, h₆, -⟩ := finish_near type (hw.keeps hends) hl h₃ h₁
    fun h => left_of_no_match hw hends h
  dsimp only at h₂
  refine ⟨x, y, hrun.trans hfin, h₄, h₅, by omega, by omega, fun hx => ?_⟩
  exact drops_of_lt hl hr hlr hends hfin hx

theorem stab_binsearch_drops (hl : 0 ≤ l) (hlr : l ≤ r) (hr : r < stabs.length)
    (h : Drops stabs type addr l r) :
    stab_binsearch stabs l r type addr = .ok (l - 1, l - 1) := by
  rcases h with ⟨r', hc, hgt⟩ | h
  · obtain ⟨s', hends, hrun⟩ := stab_binsearch_ends type addr hl hr
    rw [hrun]
    exact finish_of_comes hl hr hlr hc hgt hends
  · exact stab_binsearch_wraps hl hr hlr h

end Drops

/-! ## Lookups that stay in the table -/

section Lookup

variable {t : Tables} {stabs : List Stab} {addr : Word} {n : Nat}

/-- The file of the lookup is before the first stab, which it takes to be the
start of a region. Or, at the last address, the file is stab 1, the function is
stab 0 and the line is before it. -/
def Leaves (stabs : List Stab) (addr : Word) : Prop :=
  Drops stabs N_SO addr 0 (stabs.length - 1) ∨
  (Wraps stabs N_SO addr 0 (stabs.length - 1) 2 ∧ Typed stabs N_FUN 1 ∧
    value stabs 1 = 0xffffffff#32 ∧ Typed stabs N_SLINE 0 ∧ 0x80000000#32 ≤ value stabs 0)

/-- The lookup reads no stab outside the table, and its strings are in the string
table. -/
def InTables (t : Tables) (result : Except Int (Int × Eipdebuginfo)) : Prop :=
  ∃ r info, result = .ok (r, info) ∧ (∀ off, info.eip_fn_name = some off → off < t.stabstr.length) ∧
    ∀ off, info.eip_file = some off → off < t.stabstr.length

theorem stringAt_lt {stabstr : List (BitVec 8)} {w : Word} {off : Nat}
    (h : stringAt stabstr w = some off) : off < stabstr.length := by
  unfold stringAt at h
  split at h
  · cases h
    assumption
  · cases h

theorem file_of_line_ok (stabs : List Stab) {lfile : Int} (k : Nat) (hl : 0 ≤ lfile) (hk : lfile + k ≤ stabs.length) :
    ∃ i, file_of_line stabs lfile k = .ok i ∧ i < lfile + k := by
  induction k with
  | zero => exact ⟨lfile - 1, rfl, by omega⟩
  | succ k ih =>
    rw [file_of_line, stabAt_of_lt stabs (by omega) (by omega)]
    by_cases h : ((stabOf stabs (lfile + k)).n_type.toNat : Int) ≠ N_SOL ∧
        (((stabOf stabs (lfile + k)).n_type.toNat : Int) ≠ N_SO ∨
          (stabOf stabs (lfile + k)).n_value = 0)
    · obtain ⟨i, hi, hlt⟩ := ih (by omega)
      exact ⟨i, (if_pos h).trans hi, by omega⟩
    · exact ⟨lfile + k, if_neg h, by omega⟩

theorem count_args_ok {i : Int} {k : Nat} (hi : 0 ≤ i) (hk : i + k ≤ stabs.length) :
    ∃ n, count_args stabs k i = .ok n := by
  induction k generalizing i with
  | zero => exact ⟨0, rfl⟩
  | succ k ih =>
    rw [count_args, stabAt_of_lt stabs hi (by omega)]
    by_cases h : ((stabOf stabs i).n_type.toNat : Int) = N_PSYM
    · obtain ⟨n, hn⟩ := ih (i := i + 1) (by omega) (by omega)
      refine ⟨n + 1, (if_pos h).trans ?_⟩
      rw [hn]
      rfl
    · exact ⟨0, if_neg h⟩

theorem fill_file_ok (t : Tables) (info : Eipdebuginfo) {lfile : Int} (file : Int) (hl : 0 ≤ lfile)
    (hlt : file < t.stabs.length) (hnone : info.eip_file = none) :
    ∃ info', fill_file t info lfile file = .ok info' ∧ info'.eip_fn_name = info.eip_fn_name ∧
      ∀ off, info'.eip_file = some off → off < t.stabstr.length := by
  unfold fill_file
  by_cases hle : lfile ≤ file
  · rw [if_pos hle, stabAt_of_lt t.stabs (by omega) hlt]
    exact ⟨_, rfl, rfl, fun off => stringAt_lt⟩
  · rw [if_neg hle]
    refine ⟨info, rfl, rfl, ?_⟩
    rw [hnone]
    rintro off ⟨⟩

theorem fn_narg_ok {lfun rfun : Int} (hl : -1 ≤ lfun) (hr : rfun < stabs.length) :
    ∃ narg, fn_narg stabs lfun rfun = .ok narg := by
  unfold fn_narg
  split
  · exact count_args_ok (by omega) (by omega)
  · exact ⟨0, rfl⟩

/-- A line in the table. -/
theorem finish_line_inTables {info : Eipdebuginfo} {lfile lfun rfun lline rline : Int}
    (hfile : 0 ≤ lfile) (hfile' : lfile ≤ t.stabs.length) (hfun : -1 ≤ lfun)
    (hrfun : rfun < t.stabs.length) (hrline : rline < t.stabs.length)
    (hline : lline ≤ rline → 0 ≤ lline)
    (hname : ∀ off, info.eip_fn_name = some off → off < t.stabstr.length)
    (hnone : info.eip_file = none) :
    InTables t (finish_line t info lfile lfun rfun lline rline) := by
  unfold finish_line
  by_cases hle : rline < lline
  · rw [if_pos hle]
    refine ⟨-1, info, rfl, hname, ?_⟩
    rw [hnone]
    rintro off ⟨⟩
  rw [if_neg hle, stabAt_of_lt t.stabs (hline (by omega)) (by omega)]
  obtain ⟨i, hi, hilt⟩ := file_of_line_ok t.stabs
    (lline + 1 - lfile).toNat hfile (by omega)
  obtain ⟨info', hinfo, hname', hfile⟩ := fill_file_ok t
    { info with eip_line := (stabOf t.stabs lline).n_desc.toNat } i hfile (by omega) hnone
  obtain ⟨narg, hnarg⟩ := fn_narg_ok hfun hrfun
  refine ⟨0, { info' with eip_fn_narg := narg }, ?_, ?_, hfile⟩
  · simp only [bind, Except.bind, hi, hinfo, hnarg, pure, Except.pure]
  · rw [hname']
    exact hname

/-- If stabs 0 and 1 are no files and the search for the file gives stab 1, then
it has wrapped at stab 2. -/
theorem wraps_of_file {y : Int} (hlen : 0 < stabs.length) (h₀ : ¬ Typed stabs N_SO 0)
    (h₁ : ¬ Typed stabs N_SO 1)
    (hrun : stab_binsearch stabs 0 (stabs.length - 1) N_SO addr = .ok (1, y)) :
    Wraps stabs N_SO addr 0 (stabs.length - 1) 2 := by
  obtain ⟨s', hends, hfin⟩ := stab_binsearch_ends N_SO addr le_rfl
    (show (stabs.length : Int) - 1 < stabs.length by omega)
  rw [hrun] at hfin
  have hw : Within stabs ⟨0, stabs.length - 1, 0, stabs.length - 1, addr, false⟩ :=
    ⟨le_rfl, by dsimp only; omega, rfl⟩
  have hw' := hw.keeps hends
  rcases hw.phase (by dsimp only; omega) hends with h | ⟨m, r, hm, hv, hends₁⟩
  · exfalso
    have hleft : s'.region_left = 0 ∨
        (s'.region_left ≤ s'.r ∧ Typed stabs N_SO s'.region_left ∧ 0 ≤ s'.region_left) := by
      rcases h.left with h₂ | ⟨h₂, h₃, h₄, -⟩
      · exact .inl h₂
      · exact .inr ⟨h₃, h₄, h₂⟩
    cases hany : s'.any_matches with
    | false =>
      rw [Search.finish, hany] at hfin
      have := (Prod.mk.inj (Except.ok.inj hfin)).1
      rcases h.any with h₂ | ⟨-, -, h₂, -⟩
      · rw [hany] at h₂
        cases h₂
      · dsimp only at h₂
        omega
    | true =>
      obtain ⟨x, hx, hlow, hscan⟩ := finish_spec N_SO hany (by omega)
        (by rw [hw'.right]; exact hw'.high)
      rw [hx] at hfin
      obtain ⟨rfl, -⟩ := Prod.mk.inj (Except.ok.inj hfin)
      rw [hw'.right] at hlow hscan
      by_cases hle : s'.region_left ≤ s'.r
      · obtain ⟨h₂, -, h₃, -⟩ := hscan hle
        rcases lt_or_eq_of_le h₂ with h₄ | h₄
        · exact h₁ (h₃ h₄)
        · rcases hleft with h₅ | ⟨-, h₅, -⟩
          · omega
          · rw [h₄] at h₅
            exact h₁ h₅
      · have := hlow (by omega)
        omega
  · dsimp only at hm hv hends₁
    obtain ⟨h₂, h₃, h₄, htm⟩ := hm.bounds (by omega)
    have hm2 : 2 ≤ m := by
      have hm0 : m ≠ 0 := fun h => h₀ (h ▸ htm)
      have hm1 : m ≠ 1 := fun h => h₁ (h ▸ htm)
      omega
    have hw₁ : Within stabs ⟨m, r, m, r, addr + 1, true⟩ :=
      ⟨by dsimp only; omega, by dsimp only; omega, rfl⟩
    -- the index that is given is next to `m`
    obtain ⟨h₅, -, h₆⟩ := hw₁.near (by dsimp only; omega) le_rfl hends₁
    obtain ⟨x, y', hfin', h₇, -⟩ := finish_near (l := m) N_SO (hw₁.keeps hends₁)
      (by omega) h₆ h₅ fun h => left_of_no_match hw₁ hends₁ h
    rw [hfin'] at hfin
    obtain ⟨rfl, -⟩ := Prod.mk.inj (Except.ok.inj hfin)
    obtain rfl : m = 2 := by omega
    rcases drops_of_lt (by omega) (by omega) h₃ hends₁ hfin' (by omega) with
      ⟨r', hc, hlt⟩ | ⟨ha, hv', -⟩
    · rw [hv] at hlt
      have hlast : addr = 0xffffffff#32 := by
        by_contra hne
        have hlt' : addr.toNat < 2 ^ 32 - 1 := by
          have : addr.toNat ≠ 0xffffffff := fun h => hne (BitVec.eq_of_toNat_eq h)
          omega
        rw [BitVec.lt_def, toNat_add_one hlt'] at hlt
        omega
      have hzero : addr + 1 = 0 := by rw [hlast]; decide
      rw [hzero] at hc
      exact ⟨hlast, hv, r, r', hm, hc⟩
    · rw [hv] at hv'
      exact absurd hv' (by bv_omega)

/-- A region of one stab, of the type. -/
theorem comes_single {type i : Int} (a : Word) (ht : Typed stabs type i) :
    Comes stabs type a i i i i :=
  ⟨i, le_rfl, .refl, by omega, by omega, ht, fun j _ _ => by omega⟩

theorem Comes.typed {type l r m r' : Int} (h : Comes stabs type addr l r m r') :
    Typed stabs type m := by
  obtain ⟨_, _, _, hm⟩ := h
  exact hm.typed

theorem Drops.typed {type l r : Int} (h : Drops stabs type addr l r) : Typed stabs type l := by
  rcases h with ⟨_, h, -⟩ | ⟨-, -, _, _, h, -⟩
  · exact h.typed
  · exact h.typed

theorem Typed.unique {type type' i : Int} (h : Typed stabs type i) (h' : Typed stabs type' i) :
    type = type' := h.symm.trans h'

theorem search_tables_eq {lfile rfile lfun rfun : Int} (hterm : t.terminated = true)
    (hfile : stab_binsearch t.stabs 0 (t.stabs.length - 1) N_SO addr = .ok (lfile, rfile))
    (hne : lfile ≠ 0) (hfun : stab_binsearch t.stabs lfile rfile N_FUN addr = .ok (lfun, rfun)) :
    search_tables t addr = finish_fun t (.unknown addr) addr lfile rfile lfun rfun := by
  rw [search_tables, if_pos hterm, hfile]
  refine (if_neg hne).trans ?_
  rw [hfun]
  rfl

theorem finish_fun_found (lfile rfile : Int) {lfun rfun lline rline : Int} (hle : lfun ≤ rfun)
    (hl : 0 ≤ lfun) (hr : rfun < t.stabs.length)
    (hline : stab_binsearch t.stabs lfun rfun N_SLINE (addr - value t.stabs lfun) =
      .ok (lline, rline)) (a : Word) :
    ∃ info, finish_fun t (.unknown a) addr lfile rfile lfun rfun =
        finish_line t info lfile lfun rfun lline rline ∧ info.eip_file = none ∧
      ∀ off, info.eip_fn_name = some off → off < t.stabstr.length := by
  have hstab := stabAt_of_lt t.stabs hl (by omega)
  refine ⟨{ (Eipdebuginfo.unknown a) with
    eip_fn_name := stringAt t.stabstr (stabOf t.stabs lfun).n_strx
    eip_fn_addr := value t.stabs lfun
    eip_fn_namelen := namelen t.stabstr (stringAt t.stabstr (stabOf t.stabs lfun).n_strx) },
    ?_, rfl, fun off => stringAt_lt⟩
  rw [value] at hline
  rw [finish_fun, if_pos hle, hstab]
  simp only [bind, Except.bind, hline]
  rfl

/-- A lookup that leaves the table reads the index before it. -/
theorem search_tables_leaves (hterm : t.terminated = true) (hlen : 0 < t.stabs.length)
    (h : Leaves t.stabs addr) : search_tables t addr = .error (-1) := by
  rcases h with h | ⟨hwrap, hfun, hv₁, hline, hv₀⟩
  · rw [search_tables, if_pos hterm, stab_binsearch_drops le_rfl (by omega) (by omega) h]
    rfl
  · have hlen2 : 2 < t.stabs.length := by
      obtain ⟨-, -, r₁, r₂, hc, -⟩ := hwrap
      have := hc.bounds (by omega)
      omega
    obtain rfl : addr = 0xffffffff#32 := hwrap.1
    have hd₁ : Drops t.stabs N_FUN 0xffffffff#32 1 1 :=
      .inr ⟨rfl, hv₁, 1, 1, comes_single _ hfun, comes_single _ hfun⟩
    have hd₀ : Drops t.stabs N_SLINE (0xffffffff#32 - value t.stabs 0) 0 0 := by
      refine .inl ⟨0, comes_single _ hline, ?_⟩
      bv_omega
    have hrun₁ : stab_binsearch t.stabs 0 (t.stabs.length - 1) N_SO 0xffffffff#32 = .ok (1, 1) :=
      stab_binsearch_wraps le_rfl (by omega) (by omega) hwrap
    have hrun₂ : stab_binsearch t.stabs 1 1 N_FUN 0xffffffff#32 = .ok (0, 0) :=
      stab_binsearch_drops (by omega) le_rfl (by omega) hd₁
    have hrun₃ : stab_binsearch t.stabs 0 0 N_SLINE (0xffffffff#32 - value t.stabs 0) =
      .ok (-1, -1) := stab_binsearch_drops le_rfl le_rfl (by omega) hd₀
    obtain ⟨info, hfun', -⟩ :=
      finish_fun_found 1 1 le_rfl le_rfl (by omega) hrun₃ 0xffffffff#32
    rw [search_tables_eq hterm hrun₁ (by decide) hrun₂, hfun', finish_line, if_neg (by decide)]
    rfl

/-- Otherwise it stays in the tables. -/
theorem search_tables_inTables (hlen : 0 < t.stabs.length)
    (h : t.terminated = true → ¬ Leaves t.stabs addr) : InTables t (search_tables t addr) := by
  have hunknown : ∀ off, (Eipdebuginfo.unknown addr).eip_fn_name = some off →
      off < t.stabstr.length := by rintro off ⟨⟩
  by_cases hterm : t.terminated = true
  swap
  · rw [search_tables, if_neg hterm]
    exact ⟨-1, .unknown addr, rfl, hunknown, by rintro off ⟨⟩⟩
  have hn : (0 : Int) ≤ t.stabs.length - 1 := by omega
  obtain ⟨lfile, rfile, hfile, h₁, h₂, h₃, h₄, hdrop⟩ :=
    stab_binsearch_spec t.stabs N_SO addr le_rfl hn (by omega)
  by_cases hzero : lfile = 0
  · rw [search_tables, if_pos hterm, hfile]
    refine ⟨-1, .unknown addr, if_pos hzero, hunknown, by rintro off ⟨⟩⟩
  have hlfile : 0 ≤ lfile := by
    by_contra hneg
    exact h hterm (.inl (hdrop (by omega)))
  have hlr : lfile ≤ rfile := by omega
  have hrfile : rfile < t.stabs.length := by omega
  obtain ⟨lfun, rfun, hfun, h₅, h₆, h₇, h₈, hdrop'⟩ :=
    stab_binsearch_spec t.stabs N_FUN addr hlfile hlr hrfile
  rw [search_tables_eq hterm hfile hzero hfun]
  by_cases hle : lfun ≤ rfun
  · obtain ⟨lline, rline, hline, h₉, h₁₀, h₁₁, h₁₂, hdrop''⟩ :=
      stab_binsearch_spec t.stabs N_SLINE (addr - value t.stabs lfun) (by omega) hle (by omega)
    obtain ⟨info, hrun, hnone, hname⟩ :=
      finish_fun_found lfile rfile hle (by omega) (by omega) hline addr
    rw [hrun]
    refine finish_line_inTables hlfile (by omega) (by omega) (by omega) (by omega) (fun _ => ?_)
      hname hnone
    -- a line before the table: the function is stab 0, and the file stab 1
    by_contra hneg
    have hd₀ := hdrop'' (by omega)
    obtain rfl : lfun = 0 := by omega
    obtain rfl : lfile = 1 := by omega
    have hd₁ := hdrop' (by omega)
    have hN : ∀ {type i}, Typed t.stabs type i → type ≠ N_SO → ¬ Typed t.stabs N_SO i :=
      fun ht hne h => hne (ht.unique h)
    have hwrap := wraps_of_file hlen (hN hd₀.typed (by decide)) (hN hd₁.typed (by decide)) hfile
    obtain rfl : addr = 0xffffffff#32 := hwrap.1
    refine h hterm (.inr ⟨hwrap, hd₁.typed, ?_, hd₀.typed, ?_⟩)
    · rcases hd₁ with ⟨-, -, hlt⟩ | ⟨-, hv, -⟩
      · bv_omega
      · exact hv
    · rcases hd₀ with ⟨-, -, hlt⟩ | ⟨ha, hv, -⟩
      · bv_omega
      · bv_omega
  · obtain ⟨lline, rline, hline, h₉, h₁₀, h₁₁, -⟩ :=
      stab_binsearch_spec t.stabs N_SLINE addr hlfile hlr hrfile
    have hrun : finish_fun t (.unknown addr) addr lfile rfile lfun rfun =
        finish_line t (.unknown addr) lfile lfun rfun lline rline := by
      rw [finish_fun, if_neg hle, hline]
      rfl
    rw [hrun]
    exact finish_line_inTables hlfile (by omega) (by omega) (by omega) (by omega)
      (fun _ => by omega) hunknown rfl

end Lookup

/-- A file with one function and one line. -/
def oneLine : Tables :=
  ⟨[⟨0, 0, 0, 0⟩, ⟨1, 0x64, 0, 0x800020⟩, ⟨3, 0x24, 0, 0x800020⟩, ⟨0, 0x44, 7, 0⟩],
    [0, 97, 0, 102, 58, 0]⟩

/-- A table with a file that starts behind the address. -/
def lateFile : Tables := ⟨[⟨0, 0x64, 0, 0x800020⟩], [0]⟩

end jos.kdebug
