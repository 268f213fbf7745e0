-- The words of the shell (`user/sh.c`): `gettoken` reads a command in place, one
-- token ahead. A word has no end of its own in the buffer until the scan of the
-- next token overwrites what follows it.
import Mathlib
import Jos.Mmu

namespace jos.sh

abbrev Byte := BitVec 8

/-! ## The scanner -/

/-- `strchr(s, c)` on a string constant: whether it is not null. -/
def strchr (s : List Byte) (c : Byte) : Bool := s.contains c

/-- `" \t\r\n"` -/
def WHITESPACE : List Byte := [32, 9, 13, 10]

/-- `"<|>&;()"` -/
def SYMBOLS : List Byte := [60, 124, 62, 38, 59, 40, 41]

/-- The character `w`, which stands for a word. -/
def word : Byte := 119

/-- The array that holds a command, of `size` bytes, and the static variables of
`gettoken`. A pointer is an offset in the array. -/
structure Lexer where
  size : Nat
  buf : Nat → Byte
  nc : Byte
  np1 : Option Nat
  np2 : Option Nat

/-- `while (strchr(WHITESPACE, *s)) *s++ = 0` -/
def skip_white : Nat → (Nat → Byte) → Nat → (Nat → Byte) × Nat
  | 0, buf, s => (buf, s)
  | left + 1, buf, s =>
    if strchr WHITESPACE (buf s) then skip_white left (Function.update buf s 0) (s + 1)
    else (buf, s)

/-- `while (*s && !strchr(WHITESPACE SYMBOLS, *s)) s++` -/
def word_end (buf : Nat → Byte) : Nat → Nat → Nat
  | 0, s => s
  | left + 1, s =>
    if buf s ≠ 0 ∧ ¬ strchr (WHITESPACE ++ SYMBOLS) (buf s) then word_end buf left (s + 1) else s

/-- What `_gettoken` makes of the first character `c` that is not white. -/
def token (size : Nat) (buf : Nat → Byte) (s : Nat) (c : Byte) : Lexer :=
  if c = 0 then ⟨size, buf, 0, none, none⟩
  else if strchr SYMBOLS c then ⟨size, Function.update buf s 0, c, some s, some (s + 1)⟩
  else ⟨size, buf, word, some s, some (word_end buf (size - s) s)⟩

/-- `nc = _gettoken(s, &np1, &np2)` -/
def Lexer.scan (x : Lexer) : Option Nat → Lexer
  | none => { x with nc := 0 }
  | some s =>
    let w := skip_white (x.size - s) x.buf s
    token x.size w.1 w.2 (w.1 w.2)

/-- `gettoken(s, 0)`, for a string at the start of the array. -/
def Lexer.start (x : Lexer) : Lexer := x.scan (some 0)

/-- `gettoken(0, &t)`: its result and `t`. -/
def Lexer.gettoken (x : Lexer) : (Byte × Option Nat) × Lexer := ((x.nc, x.np1), x.scan x.np2)

/-! ## The tokens of a string -/

def isWhite (c : Byte) : Bool := c ∈ WHITESPACE
def isSymbol (c : Byte) : Bool := c ∈ SYMBOLS

/-- A character of a word. -/
def isWord (c : Byte) : Bool := c ≠ 0 ∧ ¬ isWhite c ∧ ¬ isSymbol c

/-- A token: what `gettoken` returns for it, and from where to where it goes. -/
structure Token where
  kind : Byte
  start : Nat
  stop : Nat
deriving DecidableEq

variable {s : List Byte} {p q i : Nat}

/-- The character at a position, or NUL behind the end. -/
def char (s : List Byte) (i : Nat) : Byte := s.getD i 0

/-- A token starts at a symbol, and at a character of a word that has none before
it. -/
def starts (s : List Byte) (i : Nat) : Bool :=
  isSymbol (char s i) ∨ (isWord (char s i) ∧ (i = 0 ∨ ¬ isWord (char s (i - 1))))

/-- The end of the run of word characters from a position on. -/
def runEnd (s : List Byte) (i : Nat) : Nat := i + ((s.drop i).takeWhile isWord).length

/-- The token that starts at a position. -/
def tokenAt (s : List Byte) (i : Nat) : Token :=
  if isSymbol (char s i) then ⟨char s i, i, i + 1⟩ else ⟨word, i, runEnd s i⟩

/-- The tokens that start at `p` or later. -/
def tokensFrom (s : List Byte) (p : Nat) : List Token :=
  ((List.range' p (s.length - p)).filter (starts s)).map (tokenAt s)

def tokens (s : List Byte) : List Token := tokensFrom s 0

theorem char_of_le (h : s.length ≤ i) : char s i = 0 := List.getD_eq_default _ _ h

theorem char_ne_zero (hs : ∀ c ∈ s, c ≠ 0) (h : i < s.length) : char s i ≠ 0 := by
  rw [char, List.getD_eq_getElem _ _ h]
  exact hs _ (List.getElem_mem h)

theorem lt_of_isWord (h : isWord (char s i) = true) : i < s.length := by
  by_contra hle
  rw [char_of_le (by omega)] at h
  exact absurd h (by decide)

theorem kind_cases (hs : ∀ c ∈ s, c ≠ 0) (h : i < s.length) :
    isWhite (char s i) = true ∨ isSymbol (char s i) = true ∨ isWord (char s i) = true := by
  have := char_ne_zero hs h
  unfold isWord
  by_cases h₁ : isWhite (char s i) = true
  · exact .inl h₁
  · by_cases h₂ : isSymbol (char s i) = true
    · exact .inr (.inl h₂)
    · exact .inr (.inr (decide_eq_true ⟨this, h₁, h₂⟩))

theorem not_isWord_of_isSymbol {c : Byte} (h : isSymbol c = true) : ¬ isWord c = true := by
  simp [isWord, h]

theorem not_isWord_of_isWhite {c : Byte} (h : isWhite c = true) : ¬ isWord c = true := by
  simp [isWord, h]

theorem not_isSymbol_of_isWhite {c : Byte} (h : isWhite c = true) : ¬ isSymbol c = true := by
  unfold isWhite at h
  have : ∀ c ∈ WHITESPACE, ¬ isSymbol c = true := by decide
  exact this c (of_decide_eq_true h)

theorem not_starts_of_isWhite (h : isWhite (char s i) = true) : starts s i = false := by
  simp [starts, not_isWord_of_isWhite h, not_isSymbol_of_isWhite h]

/-- Positions where no token starts may be left out. -/
theorem tokensFrom_skip (hpq : p ≤ q) (hq : q ≤ s.length)
    (h : ∀ i, p ≤ i → i < q → starts s i = false) : tokensFrom s p = tokensFrom s q := by
  have hsplit : List.range' p (s.length - p) =
      List.range' p (q - p) ++ List.range' q (s.length - q) := by
    have := List.range'_append_1 (s := p) (m := q - p) (n := s.length - q)
    rw [show p + (q - p) = q by omega, show q - p + (s.length - q) = s.length - p by omega] at this
    exact this.symm
  have hnone : (List.range' p (q - p)).filter (starts s) = [] := by
    rw [List.filter_eq_nil_iff]
    intro i hi
    rw [List.mem_range'_1] at hi
    rw [h i hi.1 (by omega)]
    exact Bool.false_ne_true
  rw [tokensFrom, hsplit, List.filter_append, hnone]
  rfl

theorem tokensFrom_cons (hp : p < s.length) (h : starts s p = true) :
    tokensFrom s p = tokenAt s p :: tokensFrom s (p + 1) := by
  have hlen : s.length - p = s.length - (p + 1) + 1 := by omega
  rw [tokensFrom, hlen, List.range'_succ, List.filter_cons_of_pos h]
  rfl

theorem tokensFrom_end (h : s.length ≤ p) : tokensFrom s p = [] := by
  rw [tokensFrom, Nat.sub_eq_zero_of_le h]
  rfl

/-! ## Runs of word characters -/

theorem runEnd_le (hi : i ≤ s.length) : runEnd s i ≤ s.length := by
  have h := (List.takeWhile_prefix (p := isWord) (l := s.drop i)).length_le
  rw [List.length_drop] at h
  unfold runEnd
  omega

theorem le_runEnd : i ≤ runEnd s i := Nat.le_add_right ..

theorem runEnd_succ (h : isWord (char s i) = true) : runEnd s i = runEnd s (i + 1) := by
  have hi := lt_of_isWord h
  have hc : char s i = s[i] := List.getD_eq_getElem _ _ hi
  rw [runEnd, runEnd, List.drop_eq_getElem_cons hi, List.takeWhile_cons_of_pos (by rw [← hc]; exact h),
    List.length_cons]
  omega

theorem runEnd_self (h : ¬ isWord (char s i) = true) : runEnd s i = i := by
  unfold runEnd
  by_cases hi : i < s.length
  · have hc : char s i = s[i] := List.getD_eq_getElem _ _ hi
    rw [List.drop_eq_getElem_cons hi, List.takeWhile_cons_of_neg (by rw [← hc]; exact h)]
    rfl
  · rw [List.drop_eq_nil_of_le (by omega)]
    rfl

/-- All characters before the end of the run are of the word. -/
theorem isWord_of_lt_runEnd {j : Nat} (hij : i ≤ j) (hj : j < runEnd s i) :
    isWord (char s j) = true := by
  induction hn : j - i generalizing i with
  | zero =>
    obtain rfl : i = j := by omega
    by_contra h
    rw [runEnd_self h] at hj
    omega
  | succ n ih =>
    have h : isWord (char s i) = true := by
      by_contra h
      rw [runEnd_self h] at hj
      omega
    rw [runEnd_succ h] at hj
    exact ih (by omega) hj (by omega)

/-- The character at the end of the run is not. -/
theorem not_isWord_runEnd : ¬ isWord (char s (runEnd s i)) = true := by
  induction hn : s.length - i generalizing i with
  | zero =>
    rw [runEnd_self, char_of_le (by omega)]
    · decide
    · rw [char_of_le (by omega)]
      decide
  | succ n ih =>
    by_cases h : isWord (char s i) = true
    · rw [runEnd_succ h]
      exact ih (by omega)
    · rw [runEnd_self h]
      exact h

/-! ## The buffer -/

/-- The buffer when the scan has come to position `p`: before it what belongs to no
word is overwritten. -/
def scanned (s : List Byte) (p i : Nat) : Byte :=
  if i < p ∧ ¬ isWord (char s i) then 0 else char s i

theorem scanned_of_le (h : p ≤ i) : scanned s p i = char s i := if_neg fun h' => by omega

theorem scanned_of_isWord (h : isWord (char s i) = true) : scanned s p i = char s i :=
  if_neg fun h' => h'.2 h

theorem scanned_of_lt (h : i < p) (hw : ¬ isWord (char s i) = true) : scanned s p i = 0 :=
  if_pos ⟨h, hw⟩

theorem scanned_zero : scanned s 0 i = char s i := scanned_of_le (Nat.zero_le _)

/-- An array that holds the string as it is when the scan has come to `p`. What
follows the string is of no account. -/
def Agrees (s : List Byte) (p : Nat) (buf : Nat → Byte) : Prop :=
  ∀ i ≤ s.length, buf i = scanned s p i

/-- The scan overwrites a character. -/
theorem Agrees.update {buf : Nat → Byte} (hbuf : Agrees s p buf)
    (h : ¬ isWord (char s p) = true) : Agrees s (p + 1) (Function.update buf p 0) := by
  intro i hle
  by_cases hi : i = p
  · rw [hi, Function.update_self, scanned_of_lt (by omega) h]
  · rw [Function.update_of_ne hi, hbuf i hle, scanned, scanned]
    have : i < p ↔ i < p + 1 := by omega
    simp only [this]

/-- The scan passes a character of a word. -/
theorem scanned_succ (h : isWord (char s p) = true) : scanned s p = scanned s (p + 1) := by
  funext i
  by_cases hi : i = p
  · rw [hi, scanned_of_isWord h, scanned_of_isWord h]
  · rw [scanned, scanned]
    have : i < p ↔ i < p + 1 := by omega
    simp only [this]

theorem scanned_runEnd : scanned s p = scanned s (runEnd s p) := by
  induction hn : s.length - p generalizing p with
  | zero =>
    rw [runEnd_self]
    rw [char_of_le (by omega)]
    decide
  | succ n ih =>
    by_cases h : isWord (char s p) = true
    · rw [runEnd_succ h, scanned_succ h]
      exact ih (by omega)
    · rw [runEnd_self h]

/-- The first position from `p` on that is not white. -/
def skipTo (s : List Byte) (p : Nat) : Nat := p + ((s.drop p).takeWhile isWhite).length

theorem skipTo_succ (h : isWhite (char s p) = true) : skipTo s p = skipTo s (p + 1) := by
  have hp : p < s.length := by
    by_contra hle
    rw [char_of_le (by omega)] at h
    exact absurd h (by decide)
  have hc : char s p = s[p] := List.getD_eq_getElem _ _ hp
  rw [skipTo, skipTo, List.drop_eq_getElem_cons hp,
    List.takeWhile_cons_of_pos (by rw [← hc]; exact h), List.length_cons]
  omega

theorem skipTo_self (h : ¬ isWhite (char s p) = true) : skipTo s p = p := by
  unfold skipTo
  by_cases hp : p < s.length
  · have hc : char s p = s[p] := List.getD_eq_getElem _ _ hp
    rw [List.drop_eq_getElem_cons hp, List.takeWhile_cons_of_neg (by rw [← hc]; exact h)]
    rfl
  · rw [List.drop_eq_nil_of_le (by omega)]
    rfl

/-- The loop over white characters. -/
theorem skip_white_eq {left : Nat} {buf : Nat → Byte} (hbuf : Agrees s p buf)
    (hp : p ≤ s.length) (hleft : s.length < p + left) :
    Agrees s (skipTo s p) (skip_white left buf p).1 ∧
    (skip_white left buf p).2 = skipTo s p ∧ p ≤ skipTo s p ∧ skipTo s p ≤ s.length ∧ ¬ isWhite (char s (skipTo s p)) = true ∧
    ∀ i, p ≤ i → i < skipTo s p → isWhite (char s i) = true := by
  induction left generalizing p buf with
  | zero => omega
  | succ left ih =>
    have hstrchr : strchr WHITESPACE (buf p) = isWhite (char s p) := by
      rw [hbuf p hp, scanned_of_le le_rfl, strchr, isWhite, List.contains_eq_mem]
    rw [skip_white, hstrchr]
    by_cases h : isWhite (char s p) = true
    · have hlt : p < s.length := by
        by_contra hle
        rw [char_of_le (by omega)] at h
        exact absurd h (by decide)
      rw [if_pos h, skipTo_succ h]
      obtain ⟨h₁, h₂, h₃, h₄, h₅, h₆⟩ :=
        ih (hbuf.update (not_isWord_of_isWhite h)) (by omega) (by omega)
      refine ⟨h₁, h₂, by omega, h₄, h₅, fun i hi hi' => ?_⟩
      by_cases hip : i = p
      · rw [hip]
        exact h
      · exact h₆ i (by omega) hi'
    · rw [if_neg h, skipTo_self h]
      exact ⟨hbuf, rfl, le_rfl, hp, h, fun i hi hi' => by omega⟩

/-- The loop over a word. -/
theorem word_end_eq {left : Nat} {buf : Nat → Byte} (hbuf : Agrees s p buf) (hi : i ≤ s.length)
    (hpi : p ≤ i) (hleft : s.length < i + left) : word_end buf left i = runEnd s i := by
  induction left generalizing i with
  | zero => omega
  | succ left ih =>
    have hstrchr : (buf i ≠ 0 ∧ ¬ strchr (WHITESPACE ++ SYMBOLS) (buf i) = true) ↔
        isWord (char s i) = true := by
      rw [hbuf i hi, scanned_of_le hpi]
      simp [strchr, isWord, isWhite, isSymbol]
    rw [word_end, if_congr hstrchr rfl rfl]
    by_cases h : isWord (char s i) = true
    · rw [if_pos h, runEnd_succ h]
      exact ih (lt_of_isWord h) (by omega) (by omega)
    · rw [if_neg h, runEnd_self h]

/-! ## One token ahead -/

/-- A position that is not in the middle of a word. -/
def Boundary (s : List Byte) (p : Nat) : Prop :=
  p = 0 ∨ ¬ isWord (char s (p - 1)) = true ∨ ¬ isWord (char s p) = true

/-- The scanner has come to position `p`, and the tokens that it has not returned
yet are `toks`: the one that it has scanned, and those from `p` on. -/
structure Ahead (s : List Byte) (p : Nat) (toks : List Token) (x : Lexer) : Prop where
  size : s.length < x.size
  le : p ≤ s.length
  boundary : Boundary s p
  buf : Agrees s p x.buf
  cases : (toks = [] ∧ x.nc = 0 ∧ x.np2 = none ∧ p = s.length) ∨
    ∃ tok, toks = tok :: tokensFrom s p ∧ x.nc = tok.kind ∧ x.np1 = some tok.start ∧
      x.np2 = some tok.stop ∧ tok.stop = p ∧ tok = tokenAt s tok.start ∧ starts s tok.start = true

/-- What a scan from a boundary finds. -/
theorem scan_ahead {x : Lexer} (hs : ∀ c ∈ s, c ≠ 0) (hsize : s.length < x.size)
    (hp : p ≤ s.length) (hb : Boundary s p) (hbuf : Agrees s p x.buf) :
    ∃ q, p ≤ q ∧ Ahead s q (tokensFrom s p) (x.scan (some p)) ∧
      (¬ isWord (char s p) = true → p < q ∨ q = s.length) := by
  obtain ⟨hbuf, hskip, hpq, hq, hnot, hwhite⟩ :=
    skip_white_eq hbuf hp (show s.length < p + (x.size - p) by omega)
  obtain ⟨q, hqe⟩ : ∃ q, skipTo s p = q := ⟨_, rfl⟩
  rw [hqe] at hbuf hskip hpq hq hnot hwhite
  have htoks : tokensFrom s p = tokensFrom s q :=
    tokensFrom_skip hpq hq fun i hi hi' => not_starts_of_isWhite (hwhite i hi hi')
  obtain ⟨buf, hbufe⟩ : ∃ buf, (skip_white (x.size - p) x.buf p).1 = buf := ⟨_, rfl⟩
  rw [hbufe] at hbuf
  have hscan : x.scan (some p) = token x.size buf q (char s q) := by
    rw [Lexer.scan, hskip, hbufe, hbuf q hq, scanned_of_le le_rfl]
  rw [htoks, hscan]
  by_cases hend : q = s.length
  · -- nothing is left
    have htoken : token x.size buf q (char s q) = ⟨x.size, buf, 0, none, none⟩ := by
      rw [char_of_le hend.ge]
      rfl
    rw [htoken]
    refine ⟨q, hpq, ⟨hsize, hq, .inr (.inr ?_), hbuf, .inl ⟨tokensFrom_end hend.ge, rfl, rfl, hend⟩⟩,
      fun _ => .inr hend⟩
    rw [char_of_le hend.ge]
    decide
  have hlt : q < s.length := by omega
  have hne : char s q ≠ 0 := char_ne_zero hs hlt
  by_cases hsym : isSymbol (char s q) = true
  · have hstart : starts s q = true := by simp [starts, hsym]
    have htok : tokenAt s q = ⟨char s q, q, q + 1⟩ := if_pos hsym
    have htoken : token x.size buf q (char s q) =
        ⟨x.size, Function.update buf q 0, char s q, some q, some (q + 1)⟩ := by
      rw [token, if_neg hne, if_pos (by rw [strchr, List.contains_eq_mem]; exact hsym)]
    rw [htoken, tokensFrom_cons hlt hstart]
    refine ⟨q + 1, by omega, ⟨hsize, hlt, .inr (.inl (not_isWord_of_isSymbol hsym)),
      hbuf.update (not_isWord_of_isSymbol hsym), .inr ?_⟩, fun _ => .inl (by omega)⟩
    refine ⟨tokenAt s q, rfl, ?_⟩
    rw [htok]
    exact ⟨rfl, rfl, rfl, rfl, htok.symm, hstart⟩
  · have hword : isWord (char s q) = true := by
      rcases kind_cases hs hlt with h | h | h
      · exact absurd h hnot
      · exact absurd h hsym
      · exact h
    -- the word starts here: the boundary is here, or a white character before
    have hstart : starts s q = true := by
      refine decide_eq_true (.inr ⟨hword, ?_⟩)
      rcases Nat.eq_or_lt_of_le hpq with h | h
      · subst h
        rcases hb with hb | hb | hb
        · exact .inl hb
        · exact .inr hb
        · exact absurd hword hb
      · exact .inr (not_isWord_of_isWhite (hwhite (q - 1) (by omega) (by omega)))
    have htok : tokenAt s q = ⟨word, q, runEnd s q⟩ := if_neg hsym
    have htoken : token x.size buf q (char s q) =
        ⟨x.size, buf, word, some q, some (runEnd s q)⟩ := by
      rw [token, if_neg hne, if_neg (by rw [strchr, List.contains_eq_mem]; exact hsym),
        word_end_eq hbuf hq le_rfl (by omega)]
    rw [Agrees, scanned_runEnd, ← Agrees] at hbuf
    have hrun : q < runEnd s q := by
      rw [runEnd_succ hword]
      exact le_runEnd
    rw [htoken, tokensFrom_cons hlt hstart]
    refine ⟨runEnd s q, by omega,
      ⟨hsize, runEnd_le hq, .inr (.inr not_isWord_runEnd), hbuf, .inr ⟨tokenAt s q, ?_, ?_⟩⟩,
      fun _ => .inl (by omega)⟩
    · -- no token starts in the middle of the word
      congr 1
      refine tokensFrom_skip (by omega) (runEnd_le hq) fun i hi hi' => ?_
      have h₁ : isWord (char s i) = true := isWord_of_lt_runEnd (by omega) hi'
      have h₂ : isWord (char s (i - 1)) = true := isWord_of_lt_runEnd (i := q) (by omega) (by omega)
      refine decide_eq_false ?_
      rintro (h | ⟨-, h | h⟩)
      · exact not_isWord_of_isSymbol h h₁
      · omega
      · exact h h₂
    · rw [htok]
      exact ⟨rfl, rfl, rfl, rfl, htok.symm, hstart⟩

theorem tokenAt_of_word {tok : Token} (htok : tok = tokenAt s tok.start)
    (hkind : tok.kind = word) : tok.stop = runEnd s tok.start := by
  by_cases hsym : isSymbol (char s tok.start) = true
  · rw [htok, tokenAt, if_pos hsym] at hkind
    dsimp only at hkind
    rw [hkind] at hsym
    exact absurd hsym (by decide)
  · rw [htok, tokenAt, if_neg hsym]

/-- One call: it returns the next token, and has come past its end. -/
theorem Ahead.gettoken {x : Lexer} {toks : List Token} (hs : ∀ c ∈ s, c ≠ 0)
    (h : Ahead s p toks x) :
    (toks = [] → x.gettoken.1.1 = 0) ∧
    (∀ tok ∈ toks.head?, x.gettoken.1 = (tok.kind, some tok.start) ∧
      tok = tokenAt s tok.start ∧ starts s tok.start = true) ∧
    ∃ q, p ≤ q ∧ Ahead s q toks.tail x.gettoken.2 ∧
      ∀ tok ∈ toks.head?, tok.kind = word → tok.stop < q ∨ tok.stop = s.length := by
  obtain ⟨hsize, hp, hb, hbuf, ⟨rfl, hnc, hnp2, hend⟩ | ⟨tok, rfl, hnc, hnp1, hnp2, hstop, htok, hst⟩⟩ := h
  · refine ⟨fun _ => hnc, by rintro tok ⟨⟩, p, le_rfl, ?_, by rintro tok ⟨⟩⟩
    rw [Lexer.gettoken, hnp2]
    exact ⟨hsize, hp, hb, hbuf, .inl ⟨rfl, rfl, hnp2, hend⟩⟩
  · obtain ⟨q, hpq, hahead, hpast⟩ := scan_ahead hs hsize hp hb hbuf
    refine ⟨by rintro ⟨⟩, ?_, q, hpq, ?_, ?_⟩
    · rintro _ ⟨⟩
      rw [Lexer.gettoken, hnc, hnp1]
      exact ⟨rfl, htok, hst⟩
    · rw [Lexer.gettoken, hnp2, hstop]
      exact hahead
    · rintro _ ⟨⟩ hkind
      -- the end of a word is no character of it
      have hnot : ¬ isWord (char s p) = true := by
        rw [← hstop, tokenAt_of_word htok hkind]
        exact not_isWord_runEnd
      have := hpast hnot
      have := hahead.le
      omega

/-! ## All tokens -/

/-- The state after `gettoken(s, 0)` and `n` calls of `gettoken(0, &t)`. -/
def Lexer.after (x : Lexer) : Nat → Lexer
  | 0 => x.start
  | n + 1 => (x.after n).gettoken.2

/-- A token stands in the buffer, with a NUL at its end. -/
def Stands (s : List Byte) (tok : Token) (buf : Nat → Byte) : Prop :=
  (∀ i, tok.start ≤ i → i < tok.stop → buf i = char s i) ∧ buf tok.stop = 0

/-- A word that the scan has come past. -/
structure Passed (s : List Byte) (p : Nat) (tok : Token) : Prop where
  token : tok = tokenAt s tok.start
  starts : starts s tok.start = true
  past : tok.stop < p ∨ tok.stop = s.length

theorem Passed.mono {tok : Token} (h : Passed s p tok) (hpq : p ≤ q) : Passed s q tok :=
  ⟨h.token, h.starts, h.past.imp_left fun h => by omega⟩

theorem Passed.stands {tok : Token} {buf : Nat → Byte} (h : Passed s p tok)
    (hkind : tok.kind = word) (hbuf : Agrees s p buf) (hp : p ≤ s.length) : Stands s tok buf := by
  have hstop := tokenAt_of_word h.token hkind
  have hle : tok.stop ≤ s.length := by
    have := h.past
    omega
  constructor
  · intro i hi hi'
    rw [hbuf i (by omega)]
    exact scanned_of_isWord (isWord_of_lt_runEnd hi (by rw [← hstop]; exact hi'))
  · rw [hbuf _ hle]
    rcases h.past with hlt | heq
    · rw [scanned_of_lt hlt]
      rw [hstop]
      exact not_isWord_runEnd
    · rw [heq]
      unfold scanned
      rw [char_of_le le_rfl, ite_self]

/-- After any number of calls the rest of the tokens is ahead, and the others are
passed. -/
theorem Lexer.after_ahead {x : Lexer} (hs : ∀ c ∈ s, c ≠ 0) (hsize : s.length < x.size)
    (hbuf : ∀ i ≤ s.length, x.buf i = char s i) (n : Nat) :
    ∃ p, Ahead s p ((tokens s).drop n) (x.after n) ∧
      ∀ k < n, ∀ tok, (tokens s)[k]? = some tok → tok.kind = word → Passed s p tok := by
  induction n with
  | zero =>
    have hbuf₀ : Agrees s 0 x.buf := fun i hi => (hbuf i hi).trans scanned_zero.symm
    obtain ⟨q, -, hahead, -⟩ := scan_ahead hs hsize (Nat.zero_le _) (.inl rfl) hbuf₀
    exact ⟨q, hahead, fun k hk => absurd hk (Nat.not_lt_zero k)⟩
  | succ n ih =>
    obtain ⟨p, hahead, hpassed⟩ := ih
    obtain ⟨-, htok, q, hpq, hahead', hpast⟩ := hahead.gettoken hs
    rw [List.tail_drop] at hahead'
    refine ⟨q, hahead', fun k hk tok hget hkind => ?_⟩
    rcases Nat.lt_succ_iff_lt_or_eq.mp hk with h | rfl
    · exact (hpassed k h tok hget hkind).mono hpq
    · have hmem : tok ∈ ((tokens s).drop k).head? := by
        rw [List.head?_drop]
        exact hget
      obtain ⟨-, h₁, h₂⟩ := htok tok hmem
      exact ⟨h₁, h₂, hpast tok hmem hkind⟩

/-- The calls return the tokens of the string in their order, and 0 from then on.
A word stands in the buffer, with its end, when it is returned and ever after. -/
theorem tokens_are_returned_in_order {x : Lexer} (hs : ∀ c ∈ s, c ≠ 0)
    (hsize : s.length < x.size) (hbuf : ∀ i ≤ s.length, x.buf i = char s i) (n : Nat) :
    (∀ tok, (tokens s)[n]? = some tok →
      (x.after n).gettoken.1 = (tok.kind, some tok.start)) ∧
    ((tokens s).length ≤ n → (x.after n).gettoken.1.1 = 0) ∧
    ∀ k ≤ n, ∀ tok, (tokens s)[k]? = some tok → tok.kind = word →
      Stands s tok (x.after (n + 1)).buf := by
  obtain ⟨p, hahead, -⟩ := Lexer.after_ahead hs hsize hbuf n
  obtain ⟨hend, htok, -⟩ := hahead.gettoken hs
  obtain ⟨q, hahead', hpassed⟩ := Lexer.after_ahead hs hsize hbuf (n + 1)
  refine ⟨fun tok hget => (htok tok ?_).1, fun hle => hend (List.drop_eq_nil_of_le hle),
    fun k hk tok hget hkind => ?_⟩
  · rw [List.head?_drop]
    exact hget
  · exact (hpassed k (by omega) tok hget hkind).stands hkind hahead'.buf hahead'.le

/-- The command `ls|wc`. -/
def lsWc : List Byte := [108, 115, 124, 119, 99]

theorem tokens_are_returned_in_order_lsWc :
    (tokens lsWc = [⟨word, 0, 2⟩, ⟨124, 2, 3⟩, ⟨word, 3, 5⟩]) ∧
    ((Lexer.mk 6 (char lsWc) 0 none none).after 0).gettoken.1 = (word, some 0) ∧
    Stands lsWc ⟨word, 0, 2⟩ ((Lexer.mk 6 (char lsWc) 0 none none).after 3).buf := by
  have htokens : tokens lsWc = [⟨word, 0, 2⟩, ⟨124, 2, 3⟩, ⟨word, 3, 5⟩] := by decide
  have hs : ∀ c ∈ lsWc, c ≠ 0 := by decide
  refine ⟨htokens, ?_, ?_⟩
  · exact (tokens_are_returned_in_order hs (by decide) (fun _ _ => rfl) 0).1 ⟨word, 0, 2⟩
      (by rw [htokens]; rfl)
  · exact (tokens_are_returned_in_order hs (by decide) (fun _ _ => rfl) 2).2.2 0 (by decide)
      ⟨word, 0, 2⟩ (by rw [htokens]; rfl) rfl

end jos.sh
