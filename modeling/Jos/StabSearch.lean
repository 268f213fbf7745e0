-- What `stab_binsearch` finds. It looks for the last stab up to an address. When
-- it meets the address itself it goes on with the next one, and takes a stab
-- there for one that it looks for, unless it has left that stab behind before.
import Mathlib
import Jos.Kdebug

namespace jos.kdebug

open loop

variable {stabs : List Stab} {type L R l r r' m k : Int} {addr : Word} {s s' : Search}

/-- The bounds of the last stab of the type in `[L, R]` with at most the address:
its index, and that before the next stab of the type, or else `R`. -/
structure Encloses (stabs : List Stab) (type L R : Int) (addr : Word) (left right : Int) :
    Prop where
  low : L ≤ left
  high : left ≤ R
  typed : Typed stabs type left
  value_le : value stabs left ≤ addr
  last : ∀ i, left < i → i ≤ R → Typed stabs type i → ¬ value stabs i ≤ addr
  next : ((∀ i, left < i → i ≤ R → ¬ Typed stabs type i) ∧ right = R) ∨
    (left < right + 1 ∧ right + 1 ≤ R ∧ Typed stabs type (right + 1) ∧
      ∀ i, left < i → i < right + 1 → ¬ Typed stabs type i)

/-- When the search does not take a stab with the next address for one with the
address: one of the two does not occur, or the first stab with the next address
is looked at before one with the address. At the last address but one it may
also find the next one right behind the address; then it wraps to 0 and comes
back by one stab. -/
def Apart (stabs : List Stab) (type L R : Int) (addr : Word) : Prop :=
  (∀ i, L ≤ i → i ≤ R → Typed stabs type i → value stabs i ≠ addr) ∨
  (∀ i, L ≤ i → i ≤ R → Typed stabs type i → value stabs i ≠ addr + 1) ∨
  (∃ j r, Comes stabs type addr L R j r ∧ value stabs j = addr + 1 ∧
    ∀ i, L ≤ i → i < j → Typed stabs type i → value stabs i ≠ addr + 1) ∨
  (addr = 0xfffffffe#32 ∧ ∃ m r k r', Comes stabs type addr L R m r ∧ value stabs m = addr ∧
    Comes stabs type (addr + 1) m r k r' ∧ value stabs k = addr + 1 ∧
    Typed stabs type (k - 1) ∧ value stabs (k - 1) = addr)

theorem toNat_add_one {w : Word} (h : w.toNat < 2 ^ 32 - 1) : (w + 1).toNat = w.toNat + 1 := by
  bv_omega

theorem Comes.bounds (h : Comes stabs type addr l r m r') (hle : l ≤ r + 1) :
    l ≤ m ∧ m ≤ r' ∧ r' ≤ r ∧ Typed stabs type m := by
  obtain ⟨l', hle', hpath, hm⟩ := h
  have hb := Path.bounds hpath hle
  have hlow := hm.low
  have hmid := hm.mid
  dsimp only at hb
  exact ⟨by omega, by omega, hb.2.1, hm.typed⟩

/-- A last region that is split at the address gives the right bounds. -/
theorem finish_encloses (hL : 0 ≤ L) (hw : Within stabs s') (hany : s'.any_matches = true)
    (hsplit : ∀ i, L ≤ i → i ≤ R → Typed stabs type i → (i ≤ s'.r ↔ value stabs i ≤ addr))
    (hend : s'.r = R ∨ (s'.r + 1 ≤ R ∧ Typed stabs type (s'.r + 1)))
    (hleft : s'.region_left = L ∨
      (L ≤ s'.region_left ∧ s'.region_left ≤ s'.r ∧ Typed stabs type s'.region_left))
    (hex : ∃ i, L ≤ i ∧ i ≤ R ∧ Typed stabs type i ∧ value stabs i ≤ addr) :
    ∃ left right, s'.finish stabs type = .ok (left, right) ∧
      Encloses stabs type L R addr left right := by
  obtain ⟨p, hLp, hpR, htp, hvp⟩ := hex
  have hpr : p ≤ s'.r := (hsplit p hLp hpR htp).mpr hvp
  have hLleft : L ≤ s'.region_left := by omega
  have hrR : s'.r ≤ R := by omega
  obtain ⟨left, hfin, -, hscan⟩ := finish_spec type hany (by omega)
    (by rw [hw.right]; exact hw.high)
  rw [hw.right] at hfin hscan
  obtain ⟨hle, hler, htyped, hnone⟩ := hscan (by omega)
  -- the scan ends at a stab of the type: at its last index the stab `p` is left
  have htl : Typed stabs type left := by
    rcases lt_or_eq_of_le hle with hlt | heq
    · exact htyped hlt
    · rcases hleft with h | ⟨-, -, h⟩
      · have hp : p = left := by
          by_contra hne
          exact hnone p (by omega) hpr htp
        rw [← hp]
        exact htp
      · rw [← heq]
        exact h
  refine ⟨left, s'.r, hfin, by omega, by omega, htl,
    (hsplit left (by omega) (by omega) htl).mp hler, fun i hi hiR hti hv => ?_, ?_⟩
  · exact hnone i hi ((hsplit i (by omega) hiR hti).mpr hv) hti
  · rcases hend with h | ⟨h, ht⟩
    · exact .inl ⟨fun i hi hiR => hnone i hi (by omega), h⟩
    · exact .inr ⟨by omega, h, ht, fun i hi hir => hnone i hi (by omega)⟩

/-- A search that does not find the address ends at it, in a sorted region. -/
theorem Missed.split (h : Missed stabs type s s') (hle : s.l ≤ s.r + 1)
    (hs : Sorted stabs type s.l s.r) {i : Int} (hi : s.l ≤ i) (hi' : i ≤ s.r)
    (ht : Typed stabs type i) :
    (i ≤ s'.r ∧ value stabs i < s.addr) ∨ (s'.r < i ∧ s.addr < value stabs i) := by
  have hb := Path.bounds h.path hle
  have hdone := h.done
  rcases Path.sorted h.path hs hi hi' ht with hin | hlow | hhigh
  · dsimp only at hin
    omega
  · dsimp only at hlow hb
    exact .inl ⟨by omega, hlow.2⟩
  · exact .inr hhigh

/-- A right end is that of the region, or there is a stab behind it. -/
theorem Path.typed_end {p q : Int × Int} (h : Path stabs type addr p q) (hle : p.1 ≤ p.2 + 1) :
    q.2 = p.2 ∨ (q.2 + 1 ≤ p.2 ∧ Typed stabs type (q.2 + 1)) := by
  obtain ⟨l', r'⟩ := q
  rcases Path.right_end h with h | ⟨r₁, hc, -⟩
  · exact .inl h
  · obtain ⟨-, h₁, h₂, h₃⟩ := hc.bounds hle
    exact .inr ⟨by omega, h₃⟩

theorem Missed.any_of_typed (h : Missed stabs type s s') {i : Int} (hi : s.l ≤ i) (hi' : i ≤ s.r)
    (ht : Typed stabs type i) : s'.any_matches = true := by
  rcases h.any with h | ⟨-, -, -, hnone⟩
  · exact h
  · exact absurd ht (hnone i hi hi')

section Search

variable (hL : 0 ≤ L) (hs : Sorted stabs type L R)
  (hex : ∃ i, L ≤ i ∧ i ≤ R ∧ Typed stabs type i ∧ value stabs i ≤ addr)

include hL hs hex

/-- The address does not occur. -/
theorem encloses_of_missed
    (h : Missed stabs type ⟨L, R, L, R, addr, false⟩ s') (hw : Within stabs s') :
    (∃ left right, s'.finish stabs type = .ok (left, right) ∧
      Encloses stabs type L R addr left right) ∧
    ∀ i, L ≤ i → i ≤ R → Typed stabs type i → value stabs i ≠ addr := by
  obtain ⟨p, hLp, hpR, htp, hvp⟩ := hex
  have hle : L ≤ R + 1 := by omega
  have hsplit : ∀ i, L ≤ i → i ≤ R → Typed stabs type i →
      (i ≤ s'.r ∧ value stabs i < addr) ∨ (s'.r < i ∧ addr < value stabs i) :=
    fun i hi hi' ht => h.split hle hs hi hi' ht
  refine ⟨finish_encloses hL hw (h.any_of_typed hLp hpR htp) (fun i hi hi' ht => ?_)
    (Path.typed_end h.path hle) ?_ ⟨p, hLp, hpR, htp, hvp⟩, fun i hi hi' ht hv => ?_⟩
  · simp only [BitVec.le_def]
    rcases hsplit i hi hi' ht with ⟨h₁, h₂⟩ | ⟨h₁, h₂⟩
    · rw [BitVec.lt_def] at h₂
      omega
    · rw [BitVec.lt_def] at h₂
      omega
  · rcases h.left with h₁ | ⟨h₁, h₂, h₃, -⟩
    · exact .inl h₁
    · exact .inr ⟨h₁, h₂, h₃⟩
  · rcases hsplit i hi hi' ht with ⟨-, h₂⟩ | ⟨-, h₂⟩
    · rw [hv] at h₂
      exact BitVec.lt_irrefl _ h₂
    · rw [hv] at h₂
      exact BitVec.lt_irrefl _ h₂

variable (haddr : addr.toNat < 2 ^ 32 - 1) (hm : Comes stabs type addr L R m r)
  (hv : value stabs m = addr)

include haddr hm hv

/-- The address is found, and behind it the next one does not occur. -/
theorem encloses_of_missed_next
    (h : Missed stabs type ⟨m, r, m, r, addr + 1, true⟩ s') (hw : Within stabs s') :
    (∃ left right, s'.finish stabs type = .ok (left, right) ∧
      Encloses stabs type L R addr left right) ∧
    ((∀ i, L ≤ i → i ≤ R → Typed stabs type i → value stabs i ≠ addr + 1) ∨
    ∃ j r, Comes stabs type addr L R j r ∧ value stabs j = addr + 1 ∧
      ∀ i, L ≤ i → i < j → Typed stabs type i → value stabs i ≠ addr + 1) := by
  have hLR : L ≤ R + 1 := by
    obtain ⟨p, hLp, hpR, -⟩ := hex
    omega
  obtain ⟨hLm, hmr, hrR, htm⟩ := hm.bounds hLR
  have hnext := toNat_add_one haddr
  have hb := Path.bounds h.path (by dsimp only; omega)
  dsimp only at hb
  obtain ⟨l', -, hpath, -⟩ := hm
  -- on which side of the last region a stab lies
  have hin : ∀ i, m ≤ i → i ≤ r → Typed stabs type i →
      (i ≤ s'.r ∧ value stabs i ≤ addr) ∨ (s'.r < i ∧ addr + 1 < value stabs i) := by
    intro i hi hi' ht
    rcases h.split (by dsimp only; omega) (hs.mono hLm hrR) hi hi' ht with ⟨h₁, h₂⟩ | h₁
    · refine .inl ⟨h₁, ?_⟩
      rw [BitVec.lt_def, hnext] at h₂
      rw [BitVec.le_def]
      omega
    · exact .inr h₁
  have hbelow : ∀ i, L ≤ i → i < m → Typed stabs type i → value stabs i ≤ addr := by
    intro i hi him ht
    have := hs i m hi him.le (by omega) ht htm
    rwa [hv] at this
  have habove : ∀ i, r < i → i ≤ R → Typed stabs type i → addr < value stabs i := by
    intro i hi hiR ht
    rcases Path.sorted hpath hs (by dsimp only; omega) hiR ht with h₁ | ⟨-, h₁⟩ | ⟨-, h₁⟩
    · dsimp only at h₁
      omega
    · -- such a stab lies behind `m`
      have h₂ := hs m i hLm (by omega) hiR htm ht
      rw [hv] at h₂
      exact absurd h₁ (BitVec.not_lt.mpr h₂)
    · exact h₁
  constructor
  · refine finish_encloses hL hw (h.any_of_typed le_rfl hmr htm) (fun i hi hiR ht => ?_) ?_ ?_ hex
    · by_cases him : i < m
      · exact ⟨fun _ => hbelow i hi him ht, fun _ => by omega⟩
      · by_cases hir : i ≤ r
        · simp only [BitVec.le_def]
          rcases hin i (by omega) hir ht with ⟨h₁, h₂⟩ | ⟨h₁, h₂⟩
          · exact ⟨fun _ => h₂, fun _ => h₁⟩
          · rw [BitVec.lt_def, hnext] at h₂
            omega
        · have h₁ := habove i (by omega) hiR ht
          rw [BitVec.lt_def] at h₁
          simp only [BitVec.le_def]
          omega
    · rcases Path.typed_end h.path (by dsimp only; omega) with h₁ | ⟨h₁, h₂⟩
      · rcases Path.typed_end hpath hLR with h₃ | ⟨h₃, h₄⟩
        · exact .inl (h₁.trans h₃)
        · dsimp only at h₁ h₃ h₄
          rw [← h₁] at h₃ h₄
          exact .inr ⟨h₃, h₄⟩
      · exact .inr ⟨by dsimp only at h₁; omega, h₂⟩
    · refine .inr ?_
      rcases h.left with h₁ | ⟨h₁, h₂, h₃, -⟩
      · rw [h₁]
        refine ⟨hLm, ?_, htm⟩
        rcases hin m le_rfl hmr htm with ⟨h₂, -⟩ | ⟨-, h₂⟩
        · exact h₂
        · rw [hv, BitVec.lt_def, hnext] at h₂
          omega
      · exact ⟨by dsimp only at h₁; omega, h₂, h₃⟩
  · -- the first stab with the next address is that behind the region
    have hfirst : ∀ i, L ≤ i → i ≤ r → Typed stabs type i → value stabs i ≠ addr + 1 := by
      intro i hi hir ht heq
      have hle : ¬ value stabs i ≤ addr := by
        rw [heq, BitVec.le_def, hnext]
        omega
      by_cases him : i < m
      · exact hle (hbelow i hi him ht)
      · rcases hin i (by omega) hir ht with ⟨-, h₂⟩ | ⟨-, h₂⟩
        · exact hle h₂
        · rw [heq] at h₂
          exact BitVec.lt_irrefl _ h₂
    rcases Path.right_end hpath with h₁ | ⟨r₁, hc, hgt⟩
    · exact .inl fun i hi hiR => hfirst i hi (by omega)
    · obtain ⟨-, -, hrR', htr⟩ := hc.bounds hLR
      by_cases heq : value stabs (r + 1) = addr + 1
      · exact .inr ⟨r + 1, r₁, hc, heq, fun i hi hir => hfirst i hi (by omega)⟩
      · refine .inl fun i hi hiR ht hvi => ?_
        by_cases hir : i ≤ r
        · exact hfirst i hi hir ht hvi
        · have h₂ := hs (r + 1) i (by omega) (by omega) hiR htr ht
          rw [hvi, BitVec.le_def, hnext] at h₂
          rw [BitVec.lt_def] at hgt
          exact heq (BitVec.eq_of_toNat_eq (by omega))

omit hL hs in
/-- The next address is found behind the address. -/
theorem not_apart_of_found_next (hk : Comes stabs type (addr + 1) m r k r')
    (hvk : value stabs k = addr + 1) (hap : Apart stabs type L R addr) :
    addr = 0xfffffffe#32 ∧ Typed stabs type (k - 1) ∧ value stabs (k - 1) = addr := by
  have hLR : L ≤ R + 1 := by
    obtain ⟨p, hLp, hpR, -⟩ := hex
    omega
  have hnext := toNat_add_one haddr
  obtain ⟨hLm, hmr, hrR, htm⟩ := hm.bounds hLR
  obtain ⟨hmk, hkr', hrr, htk⟩ := hk.bounds (by omega)
  rcases hap with h | h | ⟨j, r₁, hj, hvj, hfirst⟩ | ⟨ha, m₁, r₁, k₁, r₂, hm₁, hv₁, hk₁, hvk₁, h⟩
  · exact absurd hv (h m hLm (by omega) htm)
  · exact absurd hvk (h k (by omega) (by omega) htk)
  · -- then the search would have left all stabs with the next address behind
    have hlt : addr < value stabs j := by
      rw [hvj, BitVec.lt_def, hnext]
      omega
    have hrj := hm.lt_of_found hLR hv hj hlt
    exact absurd hvk (hfirst k (by omega) (by omega) htk)
  · obtain ⟨rfl, rfl⟩ := hm.unique hv hm₁ hv₁
    obtain ⟨rfl, rfl⟩ := hk.unique hvk hk₁ hvk₁
    exact ⟨ha, h⟩

omit hv in
/-- From the next address the search does not come back to the address, if there
is one after it. -/
theorem not_encloses_of_found_next (hR : R < stabs.length)
    (hk : Comes stabs type (addr + 1) m r k r') (hvk : value stabs k = addr + 1)
    (hne : addr ≠ 0xfffffffe#32)
    (hends : Ends Search.more (Search.turn stabs type) ⟨k, r', k, r', addr + 1 + 1, true⟩ s') :
    ¬ ∃ left right, s'.finish stabs type = .ok (left, right) ∧
      Encloses stabs type L R addr left right := by
  rintro ⟨left, right, hfin, henc⟩
  have hLR : L ≤ R + 1 := by
    obtain ⟨p, hLp, hpR, -⟩ := hex
    omega
  have hnext := toNat_add_one haddr
  have hne' : addr.toNat ≠ 0xfffffffe := fun h => hne (BitVec.eq_of_toNat_eq h)
  have hnext₂ := toNat_add_one (w := addr + 1) (by omega)
  obtain ⟨hLm, hmr, hrR, htm⟩ := hm.bounds hLR
  obtain ⟨hmk, hkr', hrr, htk⟩ := hk.bounds (by omega)
  have hw : Within stabs ⟨k, r', k, r', addr + 1 + 1, true⟩ :=
    ⟨by dsimp only; omega, by dsimp only; omega, rfl⟩
  have hlt : value stabs k < addr + 1 + 1 := by
    rw [hvk, BitVec.lt_def, hnext₂]
    omega
  obtain ⟨hkr, hkl⟩ : k ≤ s'.r ∧ k ≤ s'.region_left :=
    hw.stays hends (.inr ⟨rfl, htk, hlt⟩) hkr' le_rfl
  have hw' := hw.keeps hends
  have hany : s'.any_matches = true := by
    refine hends.keeps (fun s => s.any_matches = true) rfl fun x y hx _ hy => ?_
    exact turn_any hx hy
  obtain ⟨l, hfin', hlow, hscan⟩ := finish_spec type hany (by omega)
    (by rw [hw'.right]; exact hw'.high)
  rw [hfin'] at hfin
  obtain ⟨rfl, rfl⟩ := Prod.mk.inj (Except.ok.inj hfin)
  rw [hw'.right] at hlow hscan
  have hkl' : k ≤ l := by
    by_cases hle : s'.region_left ≤ s'.r
    · have := (hscan hle).1
      omega
    · rw [hlow (by omega)]
      exact hkr
  have h₁ := hs k l (by omega) hkl' henc.high htk henc.typed
  have h₂ := henc.value_le
  rw [hvk, BitVec.le_def, hnext] at h₁
  rw [BitVec.le_def] at h₂
  omega

omit haddr hv in
/-- At the last address but one the search for the one after the next wraps, and
ends one stab before that with the next address. -/
theorem finish_of_wrapped (hR : R < stabs.length) (hk : Comes stabs type (addr + 1) m r k r')
    (hvk : value stabs k = addr + 1) (heq : addr = 0xfffffffe#32)
    (hends : Ends Search.more (Search.turn stabs type) ⟨k, r', k, r', addr + 1 + 1, true⟩ s') :
    s'.finish stabs type = .ok (k - 1, k - 1) := by
  have hLR : L ≤ R + 1 := by
    obtain ⟨p, hLp, hpR, -⟩ := hex
    omega
  obtain ⟨hLm, hmr, hrR, htm⟩ := hm.bounds hLR
  obtain ⟨hmk, hkr', hrr, htk⟩ := hk.bounds (by omega)
  have hzero : addr + 1 + 1 = 0 := by rw [heq]; decide
  have hlast : addr + 1 = 0xffffffff#32 := by rw [heq]; decide
  rw [hzero] at hends
  have hw : Within stabs ⟨k, r', k, r', 0, true⟩ :=
    ⟨by dsimp only; omega, by dsimp only; omega, rfl⟩
  have hw' := hw.keeps hends
  have hnot : ∀ i, ¬ value stabs i < 0#32 := fun i => by
    rw [BitVec.lt_def]
    exact Nat.not_lt_zero _
  rcases hw.phase (by dsimp only; omega) hends with h | ⟨k₁, r₁, hk₁, hv₁, -⟩
  · have hb := Path.bounds h.path (by dsimp only; omega)
    dsimp only at hb
    have hr : s'.r = k - 1 := by
      rcases h.split (by dsimp only; omega) (hs.mono (by dsimp only; omega) (by dsimp only; omega))
        le_rfl hkr' htk with ⟨-, h₁⟩ | ⟨h₁, -⟩
      · exact absurd h₁ (hnot k)
      · dsimp only at h₁
        omega
    have hleft : s'.region_left = k := by
      rcases h.left with h₁ | ⟨-, -, -, h₁⟩
      · exact h₁
      · exact absurd h₁ (hnot _)
    obtain ⟨l, hfin, hl, -⟩ := finish_spec type (h.any_of_typed le_rfl hkr' htk)
      (by omega) (by rw [hw'.right]; exact hw'.high)
    rw [hw'.right, hr] at hfin hl
    rw [hfin, hl (by omega)]
  · -- all stabs from here on have the last address
    obtain ⟨hkk, hkr₁, hr₁, ht₁⟩ := hk₁.bounds (by dsimp only; omega)
    dsimp only at hkk hr₁ hv₁
    have h₁ := hs k k₁ (by omega) hkk (by omega) htk ht₁
    rw [hvk, hv₁, hlast] at h₁
    exact absurd h₁ (by decide)

end Search

/-- `stab_binsearch` finds the enclosing stab, and the one after it, exactly when
it keeps stabs with the address apart from those with the next one. -/
theorem enclosing_stab_is_found (hL : 0 ≤ L) (hR : R < stabs.length)
    (hs : Sorted stabs type L R) (haddr : addr.toNat < 2 ^ 32 - 1)
    (hex : ∃ i, L ≤ i ∧ i ≤ R ∧ Typed stabs type i ∧ value stabs i ≤ addr) :
    (∃ left right, stab_binsearch stabs L R type addr = .ok (left, right) ∧
      Encloses stabs type L R addr left right) ↔ Apart stabs type L R addr := by
  obtain ⟨s', hends, hrun⟩ := stab_binsearch_ends type addr hL hR
  have hLR : L ≤ R + 1 := by
    obtain ⟨p, hLp, hpR, -⟩ := hex
    omega
  have hw : Within stabs ⟨L, R, L, R, addr, false⟩ := ⟨hL, hR, rfl⟩
  have hw' := hw.keeps hends
  rw [hrun]
  rcases hw.phase hLR hends with h | ⟨m, r, hm, hv, hends⟩
  · obtain ⟨henc, hnone⟩ := encloses_of_missed hL hs hex h hw'
    exact ⟨fun _ => .inl hnone, fun _ => henc⟩
  dsimp only at hm hv hends
  obtain ⟨hLm, hmr, hrR, htm⟩ := hm.bounds hLR
  have hw₁ : Within stabs ⟨m, r, m, r, addr + 1, true⟩ :=
    ⟨by dsimp only; omega, by dsimp only; omega, rfl⟩
  rcases hw₁.phase (by dsimp only; omega) hends with h | ⟨k, r', hk, hvk, hends⟩
  · obtain ⟨henc, hap⟩ := encloses_of_missed_next hL hs hex haddr hm hv h hw'
    exact ⟨fun _ => .inr (hap.imp_right .inl), fun _ => henc⟩
  dsimp only at hk hvk hends
  obtain ⟨hmk, hkr', hrr, htk⟩ := hk.bounds (by omega)
  by_cases heq : addr = 0xfffffffe#32
  · rw [finish_of_wrapped hL hs hex hm hR hk hvk heq hends]
    have hlast : addr + 1 = 0xffffffff#32 := by rw [heq]; decide
    constructor
    · rintro ⟨left, right, hfin, henc⟩
      obtain ⟨rfl, rfl⟩ := Prod.mk.inj (Except.ok.inj hfin)
      refine .inr (.inr (.inr ⟨heq, m, r, k, r', hm, hv, hk, hvk, henc.typed, ?_⟩))
      have hmk' : m ≤ k - 1 := by
        have hne : m ≠ k := by
          rintro rfl
          rw [hv] at hvk
          bv_omega
        omega
      have h₁ := hs m (k - 1) hLm hmk' henc.high htm henc.typed
      have h₂ := henc.value_le
      rw [hv, BitVec.le_def] at h₁
      rw [BitVec.le_def] at h₂
      exact BitVec.eq_of_toNat_eq (by omega)
    · intro hap
      obtain ⟨-, ht, hvt⟩ := not_apart_of_found_next hex haddr hm hv hk hvk hap
      have hnot : ∀ i, k ≤ i → i ≤ R → Typed stabs type i → ¬ value stabs i ≤ addr := by
        intro i hi hiR hti hle
        have h₁ := hs k i (by omega) hi hiR htk hti
        rw [hvk, BitVec.le_def, toNat_add_one haddr] at h₁
        rw [BitVec.le_def] at hle
        omega
      have hmk' : m ≠ k := by
        rintro rfl
        rw [hv] at hvk
        bv_omega
      refine ⟨k - 1, k - 1, rfl, by omega, by omega, ht, by rw [hvt]; exact BitVec.le_refl _,
        fun i hi hiR hti => hnot i (by omega) hiR hti, .inr ⟨by omega, by omega, ?_, ?_⟩⟩
      · rw [sub_add_cancel]
        exact htk
      · intro i hi hik
        omega
  · refine ⟨fun h => ?_, fun hap => ?_⟩
    · exact absurd h (not_encloses_of_found_next hL hs hex haddr hm hR hk hvk heq hends)
    · exact absurd (not_apart_of_found_next hex haddr hm hv hk hvk hap).1 heq

/-- Two functions with a line between them. -/
def twoFunctions : List Stab := [⟨1, 0x24, 0, 0x10⟩, ⟨0, 0x44, 7, 0⟩, ⟨5, 0x24, 0, 0x20⟩]

theorem enclosing_stab_is_found_between :
    ∃ left right, stab_binsearch twoFunctions 0 2 N_FUN 0x18 = .ok (left, right) ∧
      Encloses twoFunctions N_FUN 0 2 0x18 left right := by
  have hall : ∀ i : Int, 0 ≤ i → i ≤ 2 → i = 0 ∨ i = 1 ∨ i = 2 := fun i _ _ => by omega
  refine (enclosing_stab_is_found (by decide) (by decide) ?_ (by decide)
    ⟨0, by decide, by decide, by decide, by decide⟩).mpr (.inl ?_)
  · intro i j hi hij hj
    rcases hall i hi (by omega) with rfl | rfl | rfl <;>
      rcases hall j (by omega) hj with rfl | rfl | rfl <;> revert hij <;> decide
  · intro i hi hi'
    rcases hall i hi hi' with rfl | rfl | rfl <;> decide

/-- Two functions of which the first has one byte. -/
def consecutive : List Stab := [⟨1, 0x24, 0, 0x10⟩, ⟨5, 0x24, 0, 0x11⟩]

/-- The second is given for the address of the first. -/
theorem next_stab_is_taken :
    Sorted consecutive N_FUN 0 1 ∧
    (∃ i, 0 ≤ i ∧ i ≤ 1 ∧ Typed consecutive N_FUN i ∧ value consecutive i ≤ 0x10) ∧
    stab_binsearch consecutive 0 1 N_FUN 0x10 = .ok (1, 1) ∧
    ¬ ∃ left right, stab_binsearch consecutive 0 1 N_FUN 0x10 = .ok (left, right) ∧
      Encloses consecutive N_FUN 0 1 0x10 left right := by
  have hrun : stab_binsearch consecutive 0 1 N_FUN 0x10 = .ok (1, 1) := by decide
  refine ⟨?_, ⟨0, by decide, by decide, by decide, by decide⟩, hrun, ?_⟩
  · have hall : ∀ i : Int, 0 ≤ i → i ≤ 1 → i = 0 ∨ i = 1 := fun i _ _ => by omega
    intro i j hi hij hj
    rcases hall i hi (by omega) with rfl | rfl <;>
      rcases hall j (by omega) hj with rfl | rfl <;> revert hij <;> decide
  · rintro ⟨left, right, h, henc⟩
    rw [hrun] at h
    cases h
    exact absurd henc.value_le (by decide)

end jos.kdebug
