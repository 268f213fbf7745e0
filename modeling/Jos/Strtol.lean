-- Numbers as text: what `printnum` of lib/printfmt.c prints, and `strtol` of lib/string.c,
-- which reads it back. The width of `printnum` is an int that goes down with every digit;
-- one near -2^31 wraps around.
import Jos.FormatFlags

namespace jos.format

open loop

/-! ## Reading -/

/-- `*s == ' ' || *s == '\t'` -/
def isSpace (c : Byte) : Bool := c == chr ' ' || c == chr '\t'

/-- The value of a digit or letter. -/
def digitValue (c : Byte) : Option Word :=
  if (chr '0').toNat ≤ c.toNat ∧ c.toNat ≤ (chr '9').toNat then
    some (c.setWidth 32 - put '0')
  else if (chr 'a').toNat ≤ c.toNat ∧ c.toNat ≤ (chr 'z').toNat then
    some (c.setWidth 32 - put 'a' + 10)
  else if (chr 'A').toNat ≤ c.toNat ∧ c.toNat ≤ (chr 'Z').toNat then
    some (c.setWidth 32 - put 'A' + 10)
  else none

/-- The digits: their value on top of `val`, and where they end. -/
def strtol_digits (base : Word) : List Byte → Word → Word × List Byte
  | [], val => (val, [])
  | c :: s, val =>
    (digitValue c).elim (val, c :: s) fun dig =>
      if base.toInt ≤ dig.toInt then (val, c :: s) else strtol_digits base s (val * base + dig)

/-- The base prefix: where the digits begin, and their base. -/
def strtol_head (s : List Byte) (base : Word) : List Byte × Word :=
  if (base = 0 ∨ base = 16) ∧ char_at s 0 = chr '0' ∧ char_at s 1 = chr 'x' then (s.drop 2, 16)
  else if base = 0 ∧ char_at s 0 = chr '0' then (s.drop 1, 8)
  else if base = 0 then (s, 10)
  else (s, base)

/-- `strtol`: the value, and the rest of the string at `*endptr`. -/
def strtol (s : List Byte) (base : Word) : Word × List Byte :=
  let s := s.dropWhile isSpace
  let neg := char_at s 0 = chr '-'
  let s := if char_at s 0 = chr '+' ∨ neg then s.drop 1 else s
  let p := strtol_head s base
  let r := strtol_digits p.2 p.1 0
  (if neg then -r.1 else r.1, r.2)

/-! ## Digits -/

/-- The digits of a number without leading zeros, the highest first. -/
def digitsOf (b n : Nat) : List Nat := if n = 0 then [0] else (Nat.digits b n).reverse

section

variable {b n : Nat}

theorem digitsOf_lt (h : n < b) : digitsOf b n = [n] := by
  by_cases hn : n = 0
  · rw [digitsOf, if_pos hn, hn]
  · rw [digitsOf, if_neg hn, Nat.digits_of_lt b n hn h, List.reverse_singleton]

theorem digitsOf_ge (hb : 2 ≤ b) (h : b ≤ n) : digitsOf b n = digitsOf b (n / b) ++ [n % b] := by
  have hdiv : n / b ≠ 0 := (Nat.div_pos h (by omega)).ne'
  rw [digitsOf, if_neg (by omega), digitsOf, if_neg hdiv, Nat.digits_def' (by omega) (by omega),
    List.reverse_cons]

theorem mem_digitsOf (hb : 2 ≤ b) : ∀ d ∈ digitsOf b n, d < b := by
  intro d hd
  unfold digitsOf at hd
  split at hd
  · rw [List.mem_singleton.mp hd]
    omega
  · exact Nat.digits_lt_base (by omega) (List.mem_reverse.mp hd)

theorem foldl_digitsOf : (digitsOf b n).foldl (fun v d => v * b + d) 0 = n := by
  unfold digitsOf
  split
  · rename_i hn
    rw [hn, List.foldl_cons, List.foldl_nil, Nat.zero_mul]
  · rw [List.foldl_reverse]
    have hfold : (Nat.digits b n).foldr (fun d v => v * b + d) 0 =
        (Nat.digits b n).foldr (fun d v => d + b * v) 0 := by
      congr 1
      funext d v
      rw [Nat.mul_comm, Nat.add_comm]
    rw [hfold]
    exact (Nat.ofDigits_eq_foldr b (Nat.digits b n)).symm.trans (Nat.ofDigits_digits b n)

theorem digitsOf_length_pos : 0 < (digitsOf b n).length := by
  unfold digitsOf
  split
  · exact Nat.one_pos
  · rename_i hn
    rw [List.length_reverse]
    exact List.length_pos_iff.mpr (Nat.digits_ne_nil_iff_ne_zero.mpr hn)

theorem digitsOf_length_le (hb : 2 ≤ b) {k : Nat} (hk : 0 < k) (h : n < 2 ^ k) :
    (digitsOf b n).length ≤ k := by
  unfold digitsOf
  split
  · exact hk
  · rw [List.length_reverse, Nat.digits_length_le_iff (by omega)]
    exact h.trans_le (Nat.pow_le_pow_left hb k)

/-- The first digit is zero for zero only. -/
theorem digitsOf_head (hn : n ≠ 0) : ∃ d ds, digitsOf b n = d :: ds ∧ d ≠ 0 := by
  have hne := Nat.digits_ne_nil_iff_ne_zero (b := b).mpr hn
  have hlast := Nat.getLast_digit_ne_zero b hn
  rw [digitsOf, if_neg hn]
  cases hrev : (Nat.digits b n).reverse with
  | nil => exact absurd (List.reverse_eq_nil_iff.mp hrev) hne
  | cons d ds =>
    refine ⟨d, ds, rfl, ?_⟩
    have hd : (Nat.digits b n).reverse.head? = some d := by rw [hrev]; rfl
    rw [List.head?_reverse, List.getLast?_eq_some_getLast hne] at hd
    rw [← Option.some.inj hd]
    exact hlast

end

/-! ## Printing -/

theorem pad_eq (padc width : Word) : pad padc width = List.replicate width.toInt.toNat padc := by
  induction hn : width.toInt.toNat generalizing width with
  | zero =>
    rw [pad, if_neg (by omega)]
    rfl
  | succ n ih =>
    have hpos : 0 < width.toInt := by omega
    have hsub : (width - 1).toInt = width.toInt - 1 := by
      have := width.toInt_lt
      rw [BitVec.toInt_sub, show (1 : Word).toInt = 1 from rfl]
      exact Int.bmod_eq_of_le (by omega) (by omega)
    rw [pad, if_pos hpos, ih _ (by omega), List.replicate_succ]

/-- All digits are printed, and before them as many characters as the width, less one for
each digit, says. -/
theorem printnum_eq {base padc : Word} (hbase : 2 ≤ base.toNat) {n : Nat} :
    ∀ {num : BitVec 64} {width : Word}, num.toNat < 2 ^ (n + 1) →
      printnum (n + 1) num base width padc =
        some (pad padc (width - BitVec.ofNat 32 (digitsOf base.toNat num.toNat).length) ++
          (digitsOf base.toNat num.toNat).map digit) := by
  have hwide : (base.setWidth 64).toNat = base.toNat := by
    rw [BitVec.toNat_setWidth, Nat.mod_eq_of_lt (base.isLt.trans (by decide))]
  have hmod : ∀ num : BitVec 64, (num % base.setWidth 64).toNat = num.toNat % base.toNat := by
    intro num
    rw [BitVec.toNat_umod, hwide]
  -- a number of one digit
  have hone : ∀ {n : Nat} {num : BitVec 64} {width : Word}, num.toNat < base.toNat →
      printnum (n + 1) num base width padc =
        some (pad padc (width - BitVec.ofNat 32 (digitsOf base.toNat num.toNat).length) ++
          (digitsOf base.toNat num.toNat).map digit) := by
    intro n num width hlt
    have hlast : ¬ base.setWidth 64 ≤ num := by
      rw [BitVec.le_def, hwide]
      omega
    rw [printnum, if_neg hlast, digitsOf_lt hlt, hmod, Nat.mod_eq_of_lt hlt]
    rfl
  induction n with
  | zero =>
    intro num width hnum
    exact hone (by omega)
  | succ n ih =>
    intro num width hnum
    by_cases hlt : num.toNat < base.toNat
    · exact hone hlt
    · have hge : base.setWidth 64 ≤ num := by
        rw [BitVec.le_def, hwide]
        omega
      have hdiv : (num / base.setWidth 64).toNat = num.toNat / base.toNat := by
        rw [BitVec.toNat_udiv, hwide]
      have hsmall : (num / base.setWidth 64).toNat < 2 ^ (n + 1) := by
        rw [hdiv]
        apply Nat.div_lt_of_lt_mul
        calc num.toNat < 2 * 2 ^ (n + 1) := by rw [← pow_succ']; exact hnum
          _ ≤ base.toNat * 2 ^ (n + 1) := Nat.mul_le_mul_right _ hbase
      have hwidth : ∀ k : Nat, width - 1 - BitVec.ofNat 32 k = width - BitVec.ofNat 32 (k + 1) := by
        intro k
        rw [BitVec.sub_sub, BitVec.ofNat_add, BitVec.add_comm]
        rfl
      have hdigits : digitsOf base.toNat num.toNat = _ := digitsOf_ge hbase (by omega)
      rw [printnum, if_pos hge, ih hsmall, hdiv, hmod, hdigits,
        List.length_append, List.length_singleton, List.map_append, ← List.append_assoc, hwidth]
      rfl

/-- What is to be printed. -/
def padded (num : BitVec 64) (base width padc : Word) : List Word :=
  List.replicate (max 0 (width.toInt - (digitsOf base.toNat num.toNat).length)).toNat padc ++
    (digitsOf base.toNat num.toNat).map digit

/-- The width, less one for each digit, is still an int. -/
def Fits (num : BitVec 64) (base width : Word) : Prop :=
  -2 ^ 31 ≤ width.toInt - (digitsOf base.toNat num.toNat).length

theorem printnum_padded_iff {num : BitVec 64} {base width padc : Word} (hbase : 2 ≤ base.toNat) :
    printnum 64 num base width padc = some (padded num base width padc) ↔ Fits num base width := by
  have hlen := digitsOf_length_le hbase (by omega : 0 < 64) num.isLt
  have hlow := width.le_toInt
  have hhigh := width.toInt_lt
  rw [printnum_eq hbase num.isLt, Option.some_inj, padded, List.append_left_inj, pad_eq,
    List.replicate_left_inj, Fits]
  generalize (digitsOf base.toNat num.toNat).length = k at hlen
  have hk : (BitVec.ofNat 32 k).toInt = k := by
    have hnat : (BitVec.ofNat 32 k).toNat = k := by
      rw [BitVec.toNat_ofNat, Nat.mod_eq_of_lt (by omega)]
    rw [BitVec.toInt_eq_toNat_of_lt (by omega), hnat]
  rw [BitVec.toInt_sub, hk]
  constructor
  · intro he
    by_contra hlt
    have hwrap : (width.toInt - k).bmod (2 ^ 32) = width.toInt - k + 2 ^ 32 := by
      rw [← Int.add_bmod_right]
      exact Int.bmod_eq_of_le (by omega) (by omega)
    rw [hwrap] at he
    omega
  · intro hfits
    rw [Int.bmod_eq_of_le (by omega) (by omega)]
    omega

/-! ## Reading back -/

/-- The characters as they stand in memory. -/
def text (out : List Word) : List Byte := out.map (·.setWidth 8)

def digitChar (d : Nat) : Byte := digitChars.getD d 0

theorem digit_facts {d : Nat} (hd : d < 16) : (digit d).setWidth 8 = digitChar d ∧
    digitValue (digitChar d) = some (BitVec.ofNat 32 d) ∧ isSpace (digitChar d) = false ∧
    digitChar d ≠ chr '-' ∧ digitChar d ≠ chr '+' ∧ digitChar d ≠ chr 'x' ∧
    (digitChar d = chr '0' ↔ d = 0) := by
  have hall : ∀ d : Fin 16, (digit d).setWidth 8 = digitChar d ∧
      digitValue (digitChar d) = some (BitVec.ofNat 32 d) ∧ isSpace (digitChar d) = false ∧
      digitChar d ≠ chr '-' ∧ digitChar d ≠ chr '+' ∧ digitChar d ≠ chr 'x' ∧
      (digitChar d = chr '0' ↔ d.val = 0) := by decide
  exact hall ⟨d, hd⟩

theorem text_digits {ds : List Nat} (hds : ∀ d ∈ ds, d < 16) :
    text (ds.map digit) = ds.map digitChar := by
  rw [text, List.map_map]
  exact List.map_congr_left fun d hd => (digit_facts (hds d hd)).1

section

variable {base val : Word} {ds : List Nat}

theorem strtol_digits_eq (hbase : base.toNat ≤ 16) (hds : ∀ d ∈ ds, d < base.toNat) :
    strtol_digits base (ds.map digitChar) val =
      (ds.foldl (fun v d => v * base + BitVec.ofNat 32 d) val, []) := by
  induction ds generalizing val with
  | nil => rfl
  | cons d ds ih =>
    have hd := hds d (.head _)
    obtain ⟨-, hvalue, -⟩ := digit_facts (hd.trans_le hbase)
    have hnat : (BitVec.ofNat 32 d).toNat = d := by
      rw [BitVec.toNat_ofNat, Nat.mod_eq_of_lt (by omega)]
    have hlt : ¬ base.toInt ≤ (BitVec.ofNat 32 d).toInt := by
      rw [BitVec.toInt_eq_toNat_of_lt (by omega), BitVec.toInt_eq_toNat_of_lt (by omega), hnat]
      omega
    rw [List.map_cons, strtol_digits, hvalue, Option.elim_some, if_neg hlt, List.foldl_cons]
    exact ih fun d hd => hds d (.tail _ hd)

theorem foldl_word (n : Nat) : ds.foldl (fun v d => v * base + BitVec.ofNat 32 d) (BitVec.ofNat 32 n) =
    BitVec.ofNat 32 (ds.foldl (fun v d => v * base.toNat + d) n) := by
  induction ds generalizing n with
  | nil => rfl
  | cons d ds ih =>
    rw [List.foldl_cons, List.foldl_cons, ← ih, BitVec.ofNat_add, BitVec.ofNat_mul,
      BitVec.ofNat_toNat, BitVec.setWidth_eq]

theorem foldl_zeros (b k : Nat) : (List.replicate k 0 ++ ds).foldl (fun v d => v * b + d) 0 =
    ds.foldl (fun v d => v * b + d) 0 := by
  induction k with
  | zero => rfl
  | succ k ih => rw [List.replicate_succ, List.cons_append, List.foldl_cons, Nat.zero_mul, ih]

/-- Digits, with zeros in front, read with their own base. -/
theorem strtol_digits_of (hb : 2 ≤ base.toNat) (hb' : base.toNat ≤ 16) (k n : Nat) :
    strtol_digits base ((List.replicate k 0 ++ digitsOf base.toNat n).map digitChar) 0 =
      (BitVec.ofNat 32 n, []) := by
  have hall : ∀ d ∈ List.replicate k 0 ++ digitsOf base.toNat n, d < base.toNat := by
    intro d hd
    rcases List.mem_append.mp hd with hd | hd
    · rw [List.eq_of_mem_replicate hd]
      omega
    · exact mem_digitsOf hb d hd
  rw [strtol_digits_eq hb' hall]
  have hfold : (List.replicate k 0 ++ digitsOf base.toNat n).foldl
      (fun v d => v * base + BitVec.ofNat 32 d) (BitVec.ofNat 32 0) = _ := foldl_word 0
  rw [foldl_zeros, foldl_digitsOf] at hfold
  exact congrArg (·, []) hfold

/-- Text that begins with a digit has no sign. -/
theorem strtol_unsigned {d : Nat} (hd : d < 16) (s : List Byte) :
    strtol (digitChar d :: s) base =
      strtol_digits (strtol_head (digitChar d :: s) base).2
        (strtol_head (digitChar d :: s) base).1 0 := by
  obtain ⟨-, -, hspace, hminus, hplus, -⟩ := digit_facts hd
  have hdrop : (digitChar d :: s).dropWhile isSpace = digitChar d :: s := by
    rw [List.dropWhile_cons, hspace, if_neg Bool.false_ne_true]
  have hchar : char_at (digitChar d :: s) 0 = digitChar d := rfl
  unfold strtol
  dsimp only
  rw [hdrop, hchar]
  simp only [hminus, hplus, or_self, if_false]

/-- A base prefix has an x. -/
theorem strtol_head_eq (hbase : base ≠ 0) {s : List Byte} (hs : char_at s 1 ≠ chr 'x') :
    strtol_head s base = (s, base) := by
  unfold strtol_head
  rw [if_neg (fun h => hs h.2.2), if_neg (fun h => hbase h.1), if_neg hbase]

theorem char_at_digits (hds : ∀ d ∈ ds, d < 16) (i : Nat) : char_at (ds.map digitChar) i ≠ chr 'x' := by
  rw [char_at, List.getD_eq_getElem?_getD, List.getElem?_map]
  rcases hi : ds[i]? with _ | d
  · decide
  · exact (digit_facts (hds d (List.mem_of_getElem? hi))).2.2.2.2.2.1

/-- What a base that is given explicitly makes of digits. -/
theorem strtol_based (hb : 2 ≤ base.toNat) (hb' : base.toNat ≤ 16) (k n : Nat) :
    strtol ((List.replicate k 0 ++ digitsOf base.toNat n).map digitChar) base =
      (BitVec.ofNat 32 n, []) := by
  have hall : ∀ d ∈ List.replicate k 0 ++ digitsOf base.toNat n, d < 16 := by
    intro d hd
    rcases List.mem_append.mp hd with hd | hd
    · rw [List.eq_of_mem_replicate hd]
      omega
    · exact (mem_digitsOf hb d hd).trans_le hb'
  have hbase : base ≠ 0 := by
    rintro rfl
    exact absurd hb (by decide)
  have hread := strtol_digits_of hb hb' k n
  have hne : List.replicate k 0 ++ digitsOf base.toNat n ≠ [] :=
    List.append_ne_nil_of_right_ne_nil _ (List.length_pos_iff.mp digitsOf_length_pos)
  obtain ⟨d, ds, hds⟩ := List.exists_cons_of_ne_nil hne
  rw [hds] at hall hread ⊢
  rw [List.map_cons, strtol_unsigned (hall d (.head _)), ← List.map_cons,
    strtol_head_eq hbase (char_at_digits hall 1)]
  exact hread

theorem strtol_spaces (k : Nat) (s : List Byte) :
    strtol (List.replicate k (chr ' ') ++ s) base = strtol s base := by
  have hskip : (List.replicate k (chr ' ') ++ s).dropWhile isSpace = s.dropWhile isSpace := by
    apply List.dropWhile_append_of_pos
    intro c hc
    rw [List.eq_of_mem_replicate hc]
    decide
  unfold strtol
  rw [hskip]

/-- Padding with spaces or zeros does not change what is read. -/
theorem strtol_padded {padc : Word} (hb : 2 ≤ base.toNat) (hb' : base.toNat ≤ 16)
    (hpadc : padc = put ' ' ∨ padc = put '0') (k n : Nat) :
    strtol (text (List.replicate k padc ++ (digitsOf base.toNat n).map digit)) base =
      (BitVec.ofNat 32 n, []) := by
  have hdigits : text ((digitsOf base.toNat n).map digit) = (digitsOf base.toNat n).map digitChar :=
    text_digits fun d hd => (mem_digitsOf hb d hd).trans_le hb'
  have htext : text (List.replicate k padc ++ (digitsOf base.toNat n).map digit) =
      List.replicate k (padc.setWidth 8) ++ (digitsOf base.toNat n).map digitChar := by
    rw [← hdigits, text, text, List.map_append, List.map_replicate]
  rw [htext]
  rcases hpadc with rfl | rfl
  · have hread := strtol_based hb hb' 0 n
    rw [List.replicate_zero, List.nil_append] at hread
    rw [← hread]
    exact strtol_spaces k _
  · have hread := strtol_based hb hb' k n
    rw [List.map_append, List.map_replicate] at hread
    exact hread

/-- A decimal number, with its base given or found from its first digit. -/
theorem strtol_head_decimal (hbase : base = 10 ∨ base = 0) (n : Nat) :
    strtol_digits (strtol_head ((digitsOf 10 n).map digitChar) base).2
      (strtol_head ((digitsOf 10 n).map digitChar) base).1 0 = (BitVec.ofNat 32 n, []) := by
  have hall : ∀ d ∈ digitsOf 10 n, d < 16 := fun d hd =>
    (mem_digitsOf (by omega) d hd).trans (by omega)
  have hread : strtol_digits 10 ((List.replicate 0 0 ++ digitsOf 10 n).map digitChar) 0 = _ :=
    strtol_digits_of (by decide) (by decide) 0 n
  rw [List.replicate_zero, List.nil_append] at hread
  rcases hbase with rfl | rfl
  · rw [strtol_head_eq (by decide) (char_at_digits hall 1)]
    exact hread
  · by_cases hn : n = 0
    · rw [hn]
      rfl
    · obtain ⟨d, ds, hds, hd⟩ := digitsOf_head hn
      have hzero : char_at ((digitsOf 10 n).map digitChar) 0 ≠ chr '0' := by
        rw [hds] at hall ⊢
        exact fun he => hd ((digit_facts (hall d (.head _))).2.2.2.2.2.2.mp he)
      rw [strtol_head, if_neg (fun h => hzero h.2.1), if_neg (fun h => hzero h.2), if_pos rfl]
      exact hread

theorem strtol_decimal (hbase : base = 10 ∨ base = 0) (n : Nat) :
    strtol ((digitsOf 10 n).map digitChar) base = (BitVec.ofNat 32 n, []) := by
  have hread := strtol_head_decimal hbase n
  obtain ⟨d, ds, hds⟩ := List.exists_cons_of_ne_nil
    (List.length_pos_iff.mp (digitsOf_length_pos (b := 10) (n := n)))
  have hd : d < 16 := by
    have hmem := mem_digitsOf (b := 10) (n := n) (by omega) d (by rw [hds]; exact .head _)
    omega
  rw [hds, List.map_cons] at hread ⊢
  rw [strtol_unsigned hd]
  exact hread

theorem strtol_negative (hbase : base = 10 ∨ base = 0) (n : Nat) :
    strtol (chr '-' :: (digitsOf 10 n).map digitChar) base = (-BitVec.ofNat 32 n, []) := by
  have hread := strtol_head_decimal hbase n
  have hdrop : ∀ s, (chr '-' :: s).dropWhile isSpace = chr '-' :: s := fun _ => rfl
  have hminus : ∀ s, char_at (chr '-' :: s) 0 = chr '-' := fun _ => rfl
  unfold strtol
  dsimp only
  have hsign : chr '-' = chr '+' ∨ chr '-' = chr '-' := .inr rfl
  rw [hdrop, hminus, if_pos hsign, if_pos rfl, List.drop_one, List.tail_cons, hread]

end

/-! ## `%d` -/

/-- What `%d` prints. -/
def decimal (v : Word) : List Word :=
  if v.toInt < 0 then put '-' :: (digitsOf 10 v.toInt.natAbs).map digit
  else (digitsOf 10 v.toInt.natAbs).map digit

theorem number_decimal (num : BitVec 64) (i : Nat) (ap : List Arg) :
    (Esc.start i ap).number num 10 = .ok ((digitsOf 10 num.toNat).map digit) := by
  have hlen := digitsOf_length_le (b := 10) (by omega) (by omega : 0 < 64) num.isLt
  have hfits : Fits num 10 (-1) := by
    show -2 ^ 31 ≤ (-1 : Int) - (digitsOf 10 num.toNat).length
    omega
  have hprint : printnum 64 num 10 (-1) ((chr ' ').signExtend 32) = some _ :=
    (printnum_padded_iff (by decide)).mpr hfits
  have hnone : padded num 10 (-1) ((chr ' ').signExtend 32) = (digitsOf 10 num.toNat).map digit := by
    have hcount : (max 0 (-1 - ((digitsOf 10 num.toNat).length : Int))).toNat = 0 := by omega
    show List.replicate (max 0 (-1 - ((digitsOf 10 num.toNat).length : Int))).toNat _ ++ _ = _
    rw [hcount]
    rfl
  rw [hnone] at hprint
  show (printnum 64 num 10 (-1) ((chr ' ').signExtend 32)).elim _ _ = _
  rw [hprint]
  rfl

theorem vprintfmt_decimal (v : Word) :
    vprintfmt [chr '%', chr 'd'] [.int v] = .ok (decimal v) := by
  have hint : (v.signExtend 64).toInt = v.toInt := BitVec.toInt_signExtend_of_le (by omega)
  have hconv : conversion printfmt (.start 1 [.int v]) (chr 'd') = .ok (decimal v, []) := by
    show (if (v.signExtend 64).toInt < 0 then
        (Esc.number (.start 1 [.int v]) (-(v.signExtend 64)) 10).map fun out => (put '-' :: out, [])
      else (Esc.number (.start 1 [.int v]) (v.signExtend 64) 10).map fun out => (out, [])) = _
    have hlow := v.le_toInt
    have hhigh := v.toInt_lt
    have hbits := (v.signExtend 64).isLt
    have hcond := BitVec.toInt_eq_toNat_cond (v.signExtend 64)
    rw [hint] at hcond
    rw [hint, decimal, number_decimal, number_decimal]
    split
    · have habs : (-(v.signExtend 64)).toNat = v.toInt.natAbs := by
        rw [BitVec.toNat_neg]
        split at hcond <;> omega
      rw [habs]
      rfl
    · have habs : (v.signExtend 64).toNat = v.toInt.natAbs := by
        split at hcond <;> omega
      rw [habs]
      rfl
  have hturn : State.turn printfmt [chr '%', chr 'd'] (.start [.int v]) =
      .ok ⟨2, [], decimal v, false⟩ := by
    show (conversion printfmt (.start 1 [.int v]) (chr 'd')).map _ = _
    rw [hconv]
    rfl
  show (((State.turn printfmt [chr '%', chr 'd'] (.start [.int v])).bind _).map State.out) = _
  rw [hturn]
  rfl

theorem strtol_of_decimal {base : Word} (hbase : base = 10 ∨ base = 0) (v : Word) :
    strtol (text (decimal v)) base = (v, []) := by
  have hall : ∀ d ∈ digitsOf 10 v.toInt.natAbs, d < 16 := fun d hd =>
    (mem_digitsOf (by omega) d hd).trans (by omega)
  have hcond := BitVec.toInt_eq_toNat_cond v
  have hlt := v.isLt
  rw [decimal]
  split
  · have hval : -BitVec.ofNat 32 v.toInt.natAbs = v := by
      apply BitVec.eq_of_toNat_eq
      rw [BitVec.toNat_neg, BitVec.toNat_ofNat]
      split at hcond <;> omega
    have htext : text (put '-' :: (digitsOf 10 v.toInt.natAbs).map digit) =
        chr '-' :: (digitsOf 10 v.toInt.natAbs).map digitChar := by
      rw [← text_digits hall]
      rfl
    rw [htext, strtol_negative hbase, hval]
  · have hval : BitVec.ofNat 32 v.toInt.natAbs = v := by
      apply BitVec.eq_of_toNat_eq
      rw [BitVec.toNat_ofNat]
      split at hcond <;> omega
    rw [text_digits hall, strtol_decimal hbase, hval]

/-! ## Both ways -/

/-- The number is printed with its padding, and reads back. -/
structure Prints (num : BitVec 64) (base width padc : Word) (out : List Word) : Prop where
  printed : printnum 64 num base width padc = some out
  padded : out = padded num base width padc
  reads : num.toNat < 2 ^ 32 → padc = put ' ' ∨ padc = put '0' →
    strtol (text out) base = (BitVec.ofNat 32 num.toNat, [])

theorem prints_iff {num : BitVec 64} {base width padc : Word} (hb : 2 ≤ base.toNat)
    (hb' : base.toNat ≤ 16) : (∃ out, Prints num base width padc out) ↔ Fits num base width := by
  rw [← printnum_padded_iff hb]
  constructor
  · rintro ⟨out, hprinted, rfl, -⟩
    exact hprinted
  · intro hprinted
    exact ⟨_, hprinted, rfl, fun _ hpadc => strtol_padded hb hb' hpadc _ _⟩

/-- A number is printed with its padding and reads back exactly if its width, less one for
each digit, does not wrap. What `%d` prints always reads back. -/
theorem printed_numbers_read_back_iff (num : BitVec 64) (base width padc : Word)
    (hb : 2 ≤ base.toNat) (hb' : base.toNat ≤ 16) :
    ((∃ out, Prints num base width padc out) ↔ Fits num base width) ∧
      ∀ v : Word, ∃ out, vprintfmt [chr '%', chr 'd'] [.int v] = .ok out ∧
        strtol (text out) 10 = (v, []) ∧ strtol (text out) 0 = (v, []) :=
  ⟨prints_iff hb hb', fun v =>
    ⟨decimal v, vprintfmt_decimal v, strtol_of_decimal (.inl rfl) v, strtol_of_decimal (.inr rfl) v⟩⟩

/-- 255 in base 16 with a width of 4. -/
theorem printed_numbers_read_back_hex :
    (∃ out, Prints 255 16 4 (put '0') out) ∧ Fits 255 16 4 := by
  have hfits : Fits 255 16 4 := by
    show -2 ^ 31 ≤ (4 : Int) - (digitsOf 16 255).length
    have hlen := digitsOf_length_le (b := 16) (n := 255) (by omega) (by omega : 0 < 8) (by omega)
    omega
  exact ⟨(printed_numbers_read_back_iff 255 16 4 (put '0') (by decide) (by decide)).1.mpr hfits,
    hfits⟩

/-- With a width of -2^31 the number 7 has 2^31 - 1 characters in front of it. -/
theorem printed_number_is_padded : ¬ ∃ out, Prints 7 10 0x80000000 (put ' ') out := by
  rw [prints_iff (by decide) (by decide)]
  have hlen : (digitsOf 10 7).length = 1 := by rw [digitsOf_lt (by omega)]; rfl
  show ¬ -2 ^ 31 ≤ (-2147483648 : Int) - (digitsOf 10 7).length
  omega

end jos.format
