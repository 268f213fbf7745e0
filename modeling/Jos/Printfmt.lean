-- The formatter of lib/printfmt.c. `vprintfmt` goes over its format in two loops: the
-- text, and after each '%' the flags up to a letter. An escape that it does not know
-- sends it back to the '%', from where the characters are text. The characters that it
-- hands to `putch` are kept as a list; nothing that `putch` does comes back.
import Jos.Mmu
import Jos.Lib.Loop

namespace jos.format

open loop

abbrev Byte := BitVec 8

def chr (c : Char) : Byte := BitVec.ofNat 8 c.toNat

/-- The character as `putch` gets it. -/
def put (c : Char) : Word := (chr c).setWidth 32

/-! ## Numbers -/

/-- `for (; width > 0; width--) putch(padc)` -/
def pad (padc width : Word) : List Word :=
  if 0 < width.toInt then padc :: pad padc (width - 1) else []
termination_by width.toInt.toNat
decreasing_by
  rename_i h
  have hpos := width.toInt_lt
  have hsub : (width - 1).toInt = width.toInt - 1 := by
    rw [BitVec.toInt_sub, show (1 : Word).toInt = 1 from rfl]
    exact Int.bmod_eq_of_le (by omega) (by omega)
  omega

/-- `"0123456789abcdef"` -/
def digitChars : List Byte :=
  [chr '0', chr '1', chr '2', chr '3', chr '4', chr '5', chr '6', chr '7', chr '8', chr '9',
    chr 'a', chr 'b', chr 'c', chr 'd', chr 'e', chr 'f']

def digit (d : Nat) : Word := (digitChars.getD d 0).setWidth 32

/-- `printnum`, to a depth of `depth` calls. A base below 2 has no end. -/
def printnum : Nat → BitVec 64 → Word → Word → Word → Option (List Word)
  | 0, _, _, _, _ => none
  | depth + 1, num, base, width, padc =>
    let before :=
      if base.setWidth 64 ≤ num then
        printnum depth (num / base.setWidth 64) base (width - 1) padc
      else
        -- while (--width > 0)
        some (pad padc (width - 1))
    before.map (· ++ [digit (num % base.setWidth 64).toNat])

/-! ## Arguments -/

/-- An argument. An int, a long and a pointer that is only printed have 32 bits; a string
is what its pointer leads to, up to a NUL, or the null pointer. -/
inductive Arg
  | int (v : Word)
  | longlong (v : BitVec 64)
  | str (s : Option (List Byte))

/-- What may go wrong: an argument is missing or not of the type that is asked for, a
number has no end, the format is read before its beginning, `%e` meets `%e`. -/
inductive Fault
  | args
  | number
  | before
  | nested
  deriving DecidableEq

def va_int : List Arg → Except Fault (Word × List Arg)
  | .int v :: ap => .ok (v, ap)
  | _ => .error .args

def va_longlong : List Arg → Except Fault (BitVec 64 × List Arg)
  | .longlong v :: ap => .ok (v, ap)
  | _ => .error .args

def va_str : List Arg → Except Fault (Option (List Byte) × List Arg)
  | .str s :: ap => .ok (s, ap)
  | _ => .error .args

def getuint (ap : List Arg) (lflag : Word) : Except Fault (BitVec 64 × List Arg) :=
  if 2 ≤ lflag.toInt then va_longlong ap
  else if lflag ≠ 0 then (va_int ap).map fun r => (r.1.setWidth 64, r.2)
  else (va_int ap).map fun r => (r.1.setWidth 64, r.2)

def getint (ap : List Arg) (lflag : Word) : Except Fault (BitVec 64 × List Arg) :=
  if 2 ≤ lflag.toInt then va_longlong ap
  else if lflag ≠ 0 then (va_int ap).map fun r => (r.1.signExtend 64, r.2)
  else (va_int ap).map fun r => (r.1.signExtend 64, r.2)

/-! ## Flags -/

/-- The character of a string at an offset; behind its last one is the NUL. -/
def char_at (fmt : List Byte) (i : Nat) : Byte := fmt.getD i 0

/-- The variables of an escape, with `fmt` as an offset. -/
structure Esc where
  i : Nat
  ap : List Arg
  padc : Byte
  width : Word
  precision : Word
  lflag : Word
  altflag : Bool

def Esc.start (i : Nat) (ap : List Arg) : Esc := ⟨i, ap, chr ' ', -1, -1, 0, false⟩

/-- The characters that go to `reswitch`. -/
def flagChars : List Byte :=
  [chr '-', chr '0', chr '1', chr '2', chr '3', chr '4', chr '5', chr '6', chr '7', chr '8',
    chr '9', chr '*', chr '.', chr '#', chr 'l']

def isFlag (c : Byte) : Bool := flagChars.contains c

def isDigit (c : Byte) : Bool := (chr '0').toNat ≤ c.toNat && c.toNat ≤ (chr '9').toNat

/-- The digits of a width field after its first one, `ch`: the number, and how many more
characters it has. -/
def width_field (precision : Word) (ch : Byte) : List Byte → Word × Nat
  | [] => (precision * 10 + ch.setWidth 32 - put '0', 0)
  | c :: rest =>
    let precision := precision * 10 + ch.setWidth 32 - put '0'
    if isDigit c then
      let r := width_field precision c rest
      (r.1, r.2 + 1)
    else (precision, 0)

/-- `process_precision` -/
def Esc.process_precision (e : Esc) : Esc :=
  if e.width.toInt < 0 then { e with width := e.precision, precision := -1 } else e

/-- The cases of the switch that go to `reswitch`. -/
def flag (fmt : List Byte) (e : Esc) : Except Fault Esc :=
  let ch := char_at fmt e.i
  let e := { e with i := e.i + 1 }
  if ch = chr '-' then .ok { e with padc := chr '-' }
  else if ch = chr '0' then .ok { e with padc := chr '0' }
  else if ch = chr '*' then
    (va_int e.ap).map fun r => { e with precision := r.1, ap := r.2 }.process_precision
  else if ch = chr '.' then .ok { e with width := if e.width.toInt < 0 then 0 else e.width }
  else if ch = chr '#' then .ok { e with altflag := true }
  else if ch = chr 'l' then .ok { e with lflag := e.lflag + 1 }
  else
    -- a digit from 1 on
    let r := width_field 0 ch (fmt.drop e.i)
    .ok { e with i := e.i + r.2, precision := r.1 }.process_precision

def Esc.more (fmt : List Byte) (e : Esc) : Bool := isFlag (char_at fmt e.i)

/-! ## Conversions -/

/-- The characters that are conversions. -/
def convChars : List Byte :=
  [chr 'c', chr 'e', chr 's', chr 'd', chr 'u', chr 'o', chr 'p', chr 'x', chr '%']

def isConv (c : Byte) : Bool := convChars.contains c

def strnlen : List Byte → Word → Word
  | [], _ => 0
  | c :: s, size => if size ≠ 0 ∧ c ≠ 0 then strnlen s (size - 1) + 1 else 0

/-- The characters of `%s`, with the padding behind them. -/
def put_string (altflag : Bool) : List Byte → Word → Word → List Word
  | [], width, _ => pad (put ' ') width
  | c :: p, width, precision =>
    let left := if precision.toInt < 0 then precision else precision - 1
    if c ≠ 0 ∧ (precision.toInt < 0 ∨ 0 ≤ left.toInt) then
      -- a char is signed
      let ch := c.signExtend 32
      (if altflag ∧ (ch.toInt < (put ' ').toInt ∨ (put '~').toInt < ch.toInt) then put '?' else ch) ::
        put_string altflag p (width - 1) left
    else pad (put ' ') width

/-- `%s` -/
def put_padded (e : Esc) (p : List Byte) : List Word :=
  if 0 < e.width.toInt ∧ e.padc ≠ chr '-' then
    let width := e.width - strnlen p e.precision
    pad (e.padc.signExtend 32) width ++
      put_string e.altflag p (if 0 < width.toInt then 0 else width) e.precision
  else put_string e.altflag p e.width e.precision

/-- `"(null)"` -/
def null_string : List Byte := [chr '(', chr 'n', chr 'u', chr 'l', chr 'l', chr ')']

def chars (s : String) : List Byte := s.toList.map chr

def MAXERROR : Nat := 16

/-- `error_string`; the entries that are not set are null. -/
def error_string : List (Option (List Byte)) :=
  [none,
    some (chars "unspecified error"),
    some (chars "bad environment"),
    some (chars "invalid parameter"),
    some (chars "out of memory"),
    some (chars "out of environments"),
    some (chars "segmentation fault"),
    some (chars "env is not recving"),
    some (chars "unexpected end of file"),
    some (chars "no free space on disk"),
    some (chars "too many files are open"),
    some (chars "file or block not found"),
    some (chars "invalid path"),
    some (chars "file already exists"),
    some (chars "file is not a valid executable"),
    some (chars "operation not supported")]

/-- `error_string[err]`. The offset in bytes has 32 bits: -2^31, which has no positive
counterpart, is at the first entry. -/
def error_text (err : Word) : Option (List Byte) :=
  if (MAXERROR : Int) ≤ err.toInt then none else error_string.getD ((err * 4).toNat / 4) none

/-- `"error %d"` -/
def error_format : List Byte :=
  [chr 'e', chr 'r', chr 'r', chr 'o', chr 'r', chr ' ', chr '%', chr 'd']

/-- `"%s"` -/
def string_format : List Byte := [chr '%', chr 's']

/-- Calls of `printfmt`, which gets its arguments as a list. -/
abbrev Printfmt := List Byte → List Arg → Except Fault (List Word)

/-- `%e` -/
def put_error (printfmt : Printfmt) (err : Word) : Except Fault (List Word) :=
  let err := if err.toInt < 0 then -err else err
  (error_text err).elim (printfmt error_format [.int err]) fun p =>
    printfmt string_format [.str (some p)]

/-- `number` -/
def Esc.number (e : Esc) (num : BitVec 64) (base : Word) : Except Fault (List Word) :=
  (printnum 64 num base e.width (e.padc.signExtend 32)).elim (.error .number) .ok

/-- The cases of the switch that print: what they print, and the arguments left. -/
def conversion (printfmt : Printfmt) (e : Esc) (ch : Byte) :
    Except Fault (List Word × List Arg) :=
  if ch = chr 'c' then (va_int e.ap).map fun r => ([r.1], r.2)
  else if ch = chr 'e' then
    (va_int e.ap).bind fun r => (put_error printfmt r.1).map fun out => (out, r.2)
  else if ch = chr 's' then
    (va_str e.ap).map fun r => (put_padded e (r.1.getD null_string), r.2)
  else if ch = chr 'd' then
    (getint e.ap e.lflag).bind fun r =>
      if r.1.toInt < 0 then (e.number (-r.1) 10).map fun out => (put '-' :: out, r.2)
      else (e.number r.1 10).map fun out => (out, r.2)
  else if ch = chr 'u' then
    (getuint e.ap e.lflag).bind fun r => (e.number r.1 10).map fun out => (out, r.2)
  else if ch = chr 'o' then
    (getuint e.ap e.lflag).bind fun r => (e.number r.1 8).map fun out => (out, r.2)
  else if ch = chr 'p' then
    (va_int e.ap).bind fun r =>
      (e.number (r.1.setWidth 64) 16).map fun out => (put '0' :: put 'x' :: out, r.2)
  else if ch = chr 'x' then
    (getuint e.ap e.lflag).bind fun r => (e.number r.1 16).map fun out => (out, r.2)
  else
    -- an escaped '%'
    .ok ([ch.setWidth 32], e.ap)

/-! ## The format -/

/-- `for (; fmt[-1] != '%'; fmt--)` -/
def rewind (fmt : List Byte) : Nat → Except Fault Nat
  | 0 => .error .before
  | i + 1 => if char_at fmt i = chr '%' then .ok (i + 1) else rewind fmt i

structure State where
  i : Nat
  ap : List Arg
  out : List Word
  done : Bool

def State.start (ap : List Arg) : State := ⟨0, ap, [], false⟩

/-- What follows a '%', as far as the switch comes. -/
def State.escape (s : State) (printfmt : Printfmt) (fmt : List Byte) (e : Esc) :
    Except Fault State :=
  let ch := char_at fmt e.i
  if isConv ch then
    (conversion printfmt e ch).map fun r =>
      { s with i := e.i + 1, ap := r.2, out := s.out ++ r.1 }
  else
    (rewind fmt e.i).map fun i => { s with i := i, ap := e.ap, out := s.out ++ [put '%'] }

/-- A character of the text, or an escape. -/
def State.turn (printfmt : Printfmt) (fmt : List Byte) (s : State) : Except Fault State :=
  let ch := char_at fmt s.i
  if ch ≠ chr '%' then
    if ch = 0 then .ok { s with i := s.i + 1, done := true }
    else .ok { s with i := s.i + 1, out := s.out ++ [ch.setWidth 32] }
  else
    (whileUpto (Esc.more fmt) (flag fmt) (fmt.length + 1) (.start (s.i + 1) s.ap)).bind
      (s.escape printfmt fmt)

def State.more (s : State) : Bool := !s.done

/-- The loops of `vprintfmt`, by the number of their turns. -/
def run (printfmt : Printfmt) (fmt : List Byte) (ap : List Arg) : Except Fault (List Word) :=
  (whileUpto State.more (State.turn printfmt fmt) (fmt.length + 2) (.start ap)).map State.out

/-- `printfmt`, as `%e` uses it: the two formats there have no `%e`. -/
def printfmt : Printfmt := run fun _ _ => .error .nested

/-- `vprintfmt`: the characters that `putch` gets. -/
def vprintfmt : List Byte → List Arg → Except Fault (List Word) := run printfmt

end jos.format
