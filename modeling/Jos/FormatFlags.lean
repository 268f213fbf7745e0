-- What the formatter asks of its arguments, and what it does with an escape. With the
-- arguments that the format asks for, the flags of every escape end, every conversion
-- prints, and an escape without a known letter is taken back to its '%'.
import Jos.Printfmt

namespace jos.format

open loop

/-! ## The arguments that a format asks for -/

inductive Kind
  | int
  | longlong
  | str
  | err
  deriving DecidableEq

/-- `%e` takes an int. -/
def Kind.Takes : Kind → Arg → Prop
  | .int, .int _ => True
  | .longlong, .longlong _ => True
  | .str, .str _ => True
  | .err, .int _ => True
  | _, _ => False

/-- The argument of a conversion. -/
def convKinds (lflag : Word) (c : Byte) : List Kind :=
  if c = chr 'c' ∨ c = chr 'p' then [.int]
  else if c = chr 'e' then [.err]
  else if c = chr 's' then [.str]
  else if c = chr 'd' ∨ c = chr 'u' ∨ c = chr 'o' ∨ c = chr 'x' then
    [if 2 ≤ lflag.toInt then .longlong else .int]
  else []

/-- The arguments of a format, in their order: in its text, or after a '%' with the count
of 'l' so far. -/
def kinds : Option Word → List Byte → List Kind
  | _, [] => []
  | none, c :: fmt =>
    if c = 0 then [] else if c = chr '%' then kinds (some 0) fmt else kinds none fmt
  | some lflag, c :: fmt =>
    if c = chr 'l' then kinds (some (lflag + 1)) fmt
    else if c = chr '*' then .int :: kinds (some lflag) fmt
    else if isFlag c then kinds (some lflag) fmt
    else if c = 0 then []
    else convKinds lflag c ++ kinds none fmt

/-- The arguments are there and of the types asked for. There may be more. -/
def Matches : List Kind → List Arg → Prop
  | [], _ => True
  | _ :: _, [] => False
  | k :: ks, a :: ap => k.Takes a ∧ Matches ks ap

/-- `printfmt` can print the two formats of `%e`. -/
def PrintsErrors (printfmt : Printfmt) : Prop :=
  (∀ v, (printfmt error_format [.int v]).isOk = true) ∧
    ∀ p, (printfmt string_format [.str p]).isOk = true

/-- All that the rest of a format asks for is there. -/
structure Ready (printfmt : Printfmt) (ks : List Kind) (ap : List Arg) : Prop where
  args : Matches ks ap
  errors : Kind.err ∈ ks → PrintsErrors printfmt

section

variable {pf : Printfmt} {fmt flags rest : List Byte} {ap : List Arg} {ks : List Kind}
  {lflag : Word} {c : Byte} {e e' : Esc} {s s' : State} {i j : Nat}

theorem Ready.int (h : Ready pf (.int :: ks) ap) :
    ∃ v ap', va_int ap = .ok (v, ap') ∧ Ready pf ks ap' ∧ ap' = ap.drop 1 := by
  obtain ⟨hargs, herr⟩ := h
  cases ap with
  | nil => exact hargs.elim
  | cons a ap =>
    cases a with
    | int v => exact ⟨v, ap, rfl, ⟨hargs.2, fun h => herr (.tail _ h)⟩, rfl⟩
    | longlong v => exact hargs.1.elim
    | str p => exact hargs.1.elim

theorem Ready.longlong (h : Ready pf (.longlong :: ks) ap) :
    ∃ v ap', va_longlong ap = .ok (v, ap') ∧ Ready pf ks ap' := by
  obtain ⟨hargs, herr⟩ := h
  cases ap with
  | nil => exact hargs.elim
  | cons a ap =>
    cases a with
    | int v => exact hargs.1.elim
    | longlong v => exact ⟨v, ap, rfl, hargs.2, fun h => herr (.tail _ h)⟩
    | str p => exact hargs.1.elim

theorem Ready.str (h : Ready pf (.str :: ks) ap) :
    ∃ p ap', va_str ap = .ok (p, ap') ∧ Ready pf ks ap' := by
  obtain ⟨hargs, herr⟩ := h
  cases ap with
  | nil => exact hargs.elim
  | cons a ap =>
    cases a with
    | int v => exact hargs.1.elim
    | longlong v => exact hargs.1.elim
    | str p => exact ⟨p, ap, rfl, hargs.2, fun h => herr (.tail _ h)⟩

theorem Ready.err (h : Ready pf (.err :: ks) ap) :
    PrintsErrors pf ∧ ∃ v ap', va_int ap = .ok (v, ap') ∧ Ready pf ks ap' := by
  obtain ⟨hargs, herr⟩ := h
  refine ⟨herr (.head _), ?_⟩
  cases ap with
  | nil => exact hargs.elim
  | cons a ap =>
    cases a with
    | int v => exact ⟨v, ap, rfl, hargs.2, fun h => herr (.tail _ h)⟩
    | longlong v => exact hargs.1.elim
    | str p => exact hargs.1.elim

/-! ## Numbers end -/

/-- A number that is smaller than a power of two has no more digits than that. -/
theorem printnum_isSome {base padc : Word} (hbase : 2 ≤ base.toNat) {n : Nat} :
    ∀ {num : BitVec 64} {width : Word}, num.toNat < 2 ^ (n + 1) →
      (printnum (n + 1) num base width padc).isSome = true := by
  have hwide : (base.setWidth 64).toNat = base.toNat := by
    rw [BitVec.toNat_setWidth, Nat.mod_eq_of_lt (base.isLt.trans (by decide))]
  induction n with
  | zero =>
    intro num width hnum
    have hlast : ¬ base.setWidth 64 ≤ num := by
      rw [BitVec.le_def, hwide]
      omega
    rw [printnum, if_neg hlast]
    rfl
  | succ n ih =>
    intro num width hnum
    rw [printnum, Option.isSome_map]
    split
    · apply ih
      rw [BitVec.toNat_udiv, hwide]
      apply Nat.div_lt_of_lt_mul
      calc num.toNat < 2 * 2 ^ (n + 1) := by rw [← pow_succ']; exact hnum
        _ ≤ base.toNat * 2 ^ (n + 1) := Nat.mul_le_mul_right _ hbase
    · rfl

theorem Esc.number_ok (num : BitVec 64) (base : Word) (hbase : 2 ≤ base.toNat) :
    ∃ out, e.number num base = .ok out := by
  have hsome : (printnum 64 num base e.width (e.padc.signExtend 32)).isSome = true :=
    printnum_isSome hbase num.isLt
  obtain ⟨out, hout⟩ := Option.isSome_iff_exists.mp hsome
  exact ⟨out, by rw [Esc.number, hout]; rfl⟩

/-! ## A conversion -/

theorem getint_ok (h : Ready pf ((if 2 ≤ lflag.toInt then .longlong else .int) :: ks) ap) :
    ∃ v ap', getint ap lflag = .ok (v, ap') ∧ Ready pf ks ap' := by
  unfold getint
  by_cases hl : 2 ≤ lflag.toInt
  · rw [if_pos hl] at h ⊢
    exact h.longlong
  · rw [if_neg hl] at h ⊢
    obtain ⟨v, ap', hv, h', -⟩ := h.int
    rw [ite_self, hv]
    exact ⟨v.signExtend 64, ap', rfl, h'⟩

theorem getuint_ok (h : Ready pf ((if 2 ≤ lflag.toInt then .longlong else .int) :: ks) ap) :
    ∃ v ap', getuint ap lflag = .ok (v, ap') ∧ Ready pf ks ap' := by
  unfold getuint
  by_cases hl : 2 ≤ lflag.toInt
  · rw [if_pos hl] at h ⊢
    exact h.longlong
  · rw [if_neg hl] at h ⊢
    obtain ⟨v, ap', hv, h', -⟩ := h.int
    rw [ite_self, hv]
    exact ⟨v.setWidth 64, ap', rfl, h'⟩

theorem put_error_ok (h : PrintsErrors pf) (err : Word) : ∃ out, put_error pf err = .ok out := by
  have hok : (put_error pf err).isOk = true := by
    unfold put_error
    dsimp only
    cases error_text (if err.toInt < 0 then -err else err) with
    | none => exact h.1 _
    | some p => exact h.2 _
  cases hput : put_error pf err with
  | error f =>
    rw [hput] at hok
    cases hok
  | ok out => exact ⟨out, rfl⟩

/-- A number of the conversions that ask for an unsigned one. -/
theorem unsigned_ok {base : Word} (hbase : 2 ≤ base.toNat)
    (h : Ready pf ((if 2 ≤ e.lflag.toInt then .longlong else .int) :: ks) e.ap) :
    ∃ r, ((getuint e.ap e.lflag).bind fun r => (e.number r.1 base).map fun out => (out, r.2)) =
      .ok r ∧ Ready pf ks r.2 := by
  obtain ⟨v, ap', hv, h'⟩ := getuint_ok h
  obtain ⟨out, hout⟩ := e.number_ok v base hbase
  refine ⟨(out, ap'), ?_, h'⟩
  rw [hv]
  show (e.number v base).map _ = _
  rw [hout]
  rfl

theorem conversion_ok (hc : isConv c = true) (h : Ready pf (convKinds e.lflag c ++ ks) e.ap) :
    ∃ r, conversion pf e c = .ok r ∧ Ready pf ks r.2 := by
  have hmem : c ∈ convChars := List.contains_iff_mem.mp hc
  simp only [convChars, List.mem_cons, List.not_mem_nil, or_false] at hmem
  rcases hmem with rfl | rfl | rfl | rfl | rfl | rfl | rfl | rfl | rfl
  · obtain ⟨v, ap', hv, h', -⟩ := Ready.int h
    refine ⟨([v], ap'), ?_, h'⟩
    show (va_int e.ap).map _ = _
    rw [hv]
    rfl
  · obtain ⟨herr, v, ap', hv, h'⟩ := Ready.err h
    obtain ⟨out, hout⟩ := put_error_ok herr v
    refine ⟨(out, ap'), ?_, h'⟩
    show (va_int e.ap).bind _ = _
    rw [hv]
    show (put_error pf v).map _ = _
    rw [hout]
    rfl
  · obtain ⟨p, ap', hp, h'⟩ := Ready.str h
    refine ⟨(put_padded e (p.getD null_string), ap'), ?_, h'⟩
    show (va_str e.ap).map _ = _
    rw [hp]
    rfl
  · obtain ⟨v, ap', hv, h'⟩ := getint_ok h
    obtain ⟨out, hout⟩ := e.number_ok v 10 (by decide)
    obtain ⟨out', hout'⟩ := e.number_ok (-v) 10 (by decide)
    show ∃ r, (getint e.ap e.lflag).bind _ = _ ∧ _
    rw [hv]
    show ∃ r, (if v.toInt < 0 then _ else _) = _ ∧ _
    split
    · exact ⟨(put '-' :: out', ap'), by rw [hout']; rfl, h'⟩
    · exact ⟨(out, ap'), by rw [hout]; rfl, h'⟩
  · exact unsigned_ok (by decide) h
  · exact unsigned_ok (by decide) h
  · obtain ⟨v, ap', hv, h', -⟩ := Ready.int h
    obtain ⟨out, hout⟩ := e.number_ok (v.setWidth 64) 16 (by decide)
    refine ⟨(put '0' :: put 'x' :: out, ap'), ?_, h'⟩
    show (va_int e.ap).bind _ = _
    rw [hv]
    show (e.number (v.setWidth 64) 16).map _ = _
    rw [hout]
    rfl
  · exact unsigned_ok (by decide) h
  · exact ⟨_, rfl, h⟩

/-! ## The flags -/

theorem isFlag_facts (hc : isFlag c = true) : c ≠ 0 ∧ c ≠ chr '%' := by
  have hall : ∀ c ∈ flagChars, c ≠ 0 ∧ c ≠ chr '%' := by decide
  exact hall c (List.contains_iff_mem.mp hc)

theorem isDigit_facts (hc : isDigit c = true) : isFlag c = true ∧ c ≠ chr 'l' ∧ c ≠ chr '*' := by
  have hall : ∀ n : Fin 10, isFlag (BitVec.ofNat 8 (48 + n)) = true ∧
      BitVec.ofNat 8 (48 + n) ≠ chr 'l' ∧ BitVec.ofNat 8 (48 + n) ≠ chr '*' := by decide
  rw [isDigit, Bool.and_eq_true, decide_eq_true_eq, decide_eq_true_eq] at hc
  have hlow : 48 ≤ c.toNat := hc.1
  have hhigh : c.toNat ≤ 57 := hc.2
  have hchar : c = BitVec.ofNat 8 (48 + (⟨c.toNat - 48, by omega⟩ : Fin 10)) := by
    apply BitVec.eq_of_toNat_eq
    rw [BitVec.toNat_ofNat]
    show c.toNat = (48 + (c.toNat - 48)) % 2 ^ 8
    omega
  rw [hchar]
  exact hall _

/-- The rest of a format at a character that is not its end. -/
theorem drop_eq (h : char_at fmt i ≠ 0) :
    i < fmt.length ∧ fmt.drop i = char_at fmt i :: fmt.drop (i + 1) := by
  have hlt : i < fmt.length := by
    by_contra hge
    exact h (List.getD_eq_default _ _ (by omega))
  refine ⟨hlt, ?_⟩
  rw [char_at, List.getD_eq_getElem _ _ hlt]
  exact List.drop_eq_getElem_cons hlt

theorem char_at_eq (h : fmt.drop i = c :: rest) : char_at fmt i = c ∧ fmt.drop (i + 1) = rest := by
  constructor
  · rw [char_at, List.getD_eq_getElem?_getD, ← Nat.add_zero i, ← List.getElem?_drop, h]
    rfl
  · rw [← List.drop_drop, h]
    rfl

/-- A width field takes digits only, and asks for nothing. -/
theorem width_field_spec (precision : Word) (c : Byte) (l : List Byte) :
    (∀ d ∈ l.take (width_field precision c l).2, isDigit d = true) ∧
      (width_field precision c l).2 ≤ l.length := by
  induction l generalizing precision c with
  | nil => exact ⟨fun d hd => by simp at hd, le_rfl⟩
  | cons d l ih =>
    rw [width_field]
    split
    · rename_i hd
      obtain ⟨hall, hle⟩ := ih (precision * 10 + c.setWidth 32 - put '0') d
      refine ⟨?_, Nat.succ_le_succ hle⟩
      intro d' hd'
      rcases List.mem_cons.mp hd' with rfl | hd'
      · exact hd
      · exact hall d' hd'
    · exact ⟨fun d' hd' => by simp at hd', Nat.zero_le _⟩

theorem kinds_flag (hc : isFlag c = true) (hl : c ≠ chr 'l') (hstar : c ≠ chr '*') :
    kinds (some lflag) (c :: rest) = kinds (some lflag) rest := by
  rw [kinds, if_neg hl, if_neg hstar, if_pos hc]

theorem kinds_digits (h : ∀ d ∈ flags, isDigit d = true) :
    kinds (some lflag) (flags ++ rest) = kinds (some lflag) rest ∧
      (∀ d ∈ flags, isFlag d = true) ∧ flags.count (chr '*') = 0 := by
  induction flags with
  | nil => exact ⟨rfl, fun d hd => absurd hd List.not_mem_nil, rfl⟩
  | cons d flags ih =>
    obtain ⟨hflag, hl, hstar⟩ := isDigit_facts (h d (.head _))
    obtain ⟨hkinds, hflags, hcount⟩ := ih fun d hd => h d (.tail _ hd)
    refine ⟨(kinds_flag hflag hl hstar).trans hkinds, ?_, ?_⟩
    · intro d' hd'
      rcases List.mem_cons.mp hd' with rfl | hd'
      · exact hflag
      · exact hflags d' hd'
    · rw [List.count_cons_of_ne hstar, hcount]

/-- Flags have been read from one place to the other, with an argument for each '*'. -/
structure Reads (fmt flags : List Byte) (e e' : Esc) : Prop where
  all : ∀ c ∈ flags, isFlag c = true
  here : fmt.drop e.i = flags ++ fmt.drop e'.i
  moved : e'.i = e.i + flags.length
  args : e'.ap = e.ap.drop (flags.count (chr '*'))

theorem Reads.refl : Reads fmt [] e e := ⟨fun _ h => absurd h List.not_mem_nil, rfl, rfl, rfl⟩

theorem Reads.trans {flags' : List Byte} {e'' : Esc} (h : Reads fmt flags e e')
    (h' : Reads fmt flags' e' e'') : Reads fmt (flags ++ flags') e e'' := by
  refine ⟨?_, ?_, ?_, ?_⟩
  · intro c hc
    exact (List.mem_append.mp hc).elim (h.all c) (h'.all c)
  · rw [h.here, h'.here, List.append_assoc]
  · rw [h'.moved, h.moved, List.length_append, Nat.add_assoc]
  · rw [h'.args, h.args, List.drop_drop, List.count_append]

@[simp] theorem Esc.process_precision_i (e : Esc) : e.process_precision.i = e.i := by
  unfold Esc.process_precision
  split <;> rfl

@[simp] theorem Esc.process_precision_ap (e : Esc) : e.process_precision.ap = e.ap := by
  unfold Esc.process_precision
  split <;> rfl

@[simp] theorem Esc.process_precision_lflag (e : Esc) : e.process_precision.lflag = e.lflag := by
  unfold Esc.process_precision
  split <;> rfl

/-- A flag of one character that takes no argument. -/
theorem Reads.one (h : e.more fmt = true) (hstar : char_at fmt e.i ≠ chr '*')
    (hi : e'.i = e.i + 1) (hap : e'.ap = e.ap) : Reads fmt [char_at fmt e.i] e e' := by
  refine ⟨?_, ?_, hi, ?_⟩
  · intro c hc
    rw [List.mem_singleton.mp hc]
    exact h
  · rw [hi]
    exact (drop_eq (isFlag_facts h).1).2
  · rw [List.count_cons_of_ne hstar, List.count_nil, hap]
    rfl

/-- One turn of `reswitch`. -/
theorem flag_ok (hmore : e.more fmt = true)
    (h : Ready pf (kinds (some e.lflag) (fmt.drop e.i)) e.ap) :
    ∃ flags e', flag fmt e = .ok e' ∧ flags ≠ [] ∧ Reads fmt flags e e' ∧
      Ready pf (kinds (some e'.lflag) (fmt.drop e'.i)) e'.ap := by
  obtain ⟨hlt, hdrop⟩ := drop_eq (isFlag_facts hmore).1
  have hflag : isFlag (char_at fmt e.i) = true := hmore
  unfold flag
  dsimp only
  rw [hdrop] at h
  by_cases hstar : char_at fmt e.i = chr '*'
  · rw [hstar] at h ⊢
    rw [if_neg (by decide), if_neg (by decide), if_pos rfl]
    rw [kinds, if_neg (by decide), if_pos rfl] at h
    obtain ⟨v, ap', hv, h', hap⟩ := h.int
    refine ⟨[chr '*'], _, by rw [hv]; rfl, List.cons_ne_nil _ _, ⟨?_, ?_, ?_, ?_⟩, ?_⟩
    · intro c hc
      rw [List.mem_singleton.mp hc]
      decide
    · rw [Esc.process_precision_i, hdrop, hstar]
      rfl
    · rw [Esc.process_precision_i]
      rfl
    · rw [Esc.process_precision_ap]
      exact hap
    · rw [Esc.process_precision_i, Esc.process_precision_ap, Esc.process_precision_lflag]
      exact h'
  by_cases hl : char_at fmt e.i = chr 'l'
  · have hread : ∀ e' : Esc, e'.i = e.i + 1 → e'.ap = e.ap →
        Reads fmt [char_at fmt e.i] e e' := fun _ => Reads.one hmore hstar
    rw [hl] at h hread ⊢
    rw [if_neg (by decide), if_neg (by decide), if_neg (by decide), if_neg (by decide),
      if_neg (by decide), if_pos rfl]
    rw [kinds, if_pos rfl] at h
    exact ⟨_, _, rfl, List.cons_ne_nil _ _, hread _ rfl rfl, h⟩
  rw [kinds_flag hflag hl hstar] at h
  have hone : ∀ e' : Esc, e'.i = e.i + 1 → e'.ap = e.ap → e'.lflag = e.lflag →
      ∃ flags e'', (Except.ok e' : Except Fault Esc) = .ok e'' ∧ flags ≠ [] ∧ Reads fmt flags e e'' ∧
        Ready pf (kinds (some e''.lflag) (fmt.drop e''.i)) e''.ap := by
    intro e' hi hap hlf
    refine ⟨_, e', rfl, List.cons_ne_nil _ _, Reads.one hmore hstar hi hap, ?_⟩
    rw [hi, hap, hlf]
    exact h
  rw [if_neg hstar, if_neg hl]
  split
  · exact hone _ rfl rfl rfl
  split
  · exact hone _ rfl rfl rfl
  split
  · exact hone _ rfl rfl rfl
  split
  · exact hone _ rfl rfl rfl
  -- the digits of a width field
  obtain ⟨hdigits, hlen⟩ := width_field_spec 0 (char_at fmt e.i) (fmt.drop (e.i + 1))
  generalize hr : width_field 0 (char_at fmt e.i) (fmt.drop (e.i + 1)) = r at hdigits hlen ⊢
  have hrest : fmt.drop (e.i + 1) = (fmt.drop (e.i + 1)).take r.2 ++ fmt.drop (e.i + 1 + r.2) := by
    rw [← List.drop_drop (i := r.2), List.take_append_drop]
  have hfield : kinds (some e.lflag) (_ ++ fmt.drop (e.i + 1 + r.2)) = _ ∧ _ := kinds_digits hdigits
  obtain ⟨hkinds, hflags, hcount⟩ := hfield
  rw [← hrest] at hkinds
  refine ⟨char_at fmt e.i :: (fmt.drop (e.i + 1)).take r.2, _, rfl, List.cons_ne_nil _ _,
    ⟨?_, ?_, ?_, ?_⟩, ?_⟩
  · intro c hc
    rcases List.mem_cons.mp hc with rfl | hc
    · exact hflag
    · exact hflags c hc
  · rw [Esc.process_precision_i, hdrop, List.cons_append, ← hrest]
  · rw [Esc.process_precision_i, List.length_cons, List.length_take, Nat.min_eq_left hlen]
    show e.i + 1 + r.2 = e.i + (r.2 + 1)
    omega
  · rw [Esc.process_precision_ap, List.count_cons_of_ne hstar, hcount]
    rfl
  · rw [Esc.process_precision_i, Esc.process_precision_ap, Esc.process_precision_lflag, ← hkinds]
    exact h

/-- The flags of an escape end, where the first character is that is none. -/
theorem flags_end (h : Ready pf (kinds (some e.lflag) (fmt.drop e.i)) e.ap) :
    ∃ flags e', whileUpto (Esc.more fmt) (flag fmt) (fmt.length + 1) e = .ok e' ∧
      loop.Ends (Esc.more fmt) (flag fmt) e e' ∧ Reads fmt flags e e' ∧
      Ready pf (kinds (some e'.lflag) (fmt.drop e'.i)) e'.ap := by
  have hstep : ∀ x, (∃ flags, Reads fmt flags e x) ∧
      Ready pf (kinds (some x.lflag) (fmt.drop x.i)) x.ap → x.more fmt = true →
      (∃ f, flag fmt x = .error f ∧ False) ∨ ∃ y, flag fmt x = .ok y ∧
        ((∃ flags, Reads fmt flags e y) ∧ Ready pf (kinds (some y.lflag) (fmt.drop y.i)) y.ap) ∧
        fmt.length - y.i < fmt.length - x.i := by
    rintro x ⟨⟨flags, hreads⟩, hready⟩ hmore
    obtain ⟨flags', y, hy, hne, hreads', hready'⟩ := flag_ok hmore hready
    have hlt := (drop_eq (isFlag_facts hmore).1).1
    have hlen : 0 < flags'.length := List.length_pos_iff.mpr hne
    have hmoved := hreads'.moved
    exact .inr ⟨y, hy, ⟨⟨_, hreads.trans hreads'⟩, hready'⟩, by omega⟩
  rcases whileUpto_stops (fun x => (∃ flags, Reads fmt flags e x) ∧
      Ready pf (kinds (some x.lflag) (fmt.drop x.i)) x.ap) (fun _ => False) (fun x : Esc => fmt.length - x.i) ⟨⟨[], Reads.refl⟩, h⟩
    (by omega : fmt.length - e.i < fmt.length + 1) hstep with
    ⟨f, -, hf⟩ | ⟨e', hrun, hends, ⟨flags, hreads⟩, hready⟩
  · exact hf.elim
  · exact ⟨flags, e', hrun, hends, hreads, hready⟩

/-! ## The turns of the format -/

theorem rewind_eq (hj : char_at fmt j = chr '%') (hji : j < i)
    (h : ∀ k, j < k → k < i → char_at fmt k ≠ chr '%') : rewind fmt i = .ok (j + 1) := by
  induction i with
  | zero => omega
  | succ i ih =>
    rw [rewind]
    by_cases hij : i = j
    · rw [hij, if_pos hj]
    · rw [if_neg (h i (by omega) (by omega))]
      exact ih (by omega) fun k hk hk' => h k hk (by omega)

theorem Reads.char_ne (h : Reads fmt flags e e') {k : Nat} (hk : e.i ≤ k) (hk' : k < e'.i) :
    char_at fmt k ≠ chr '%' := by
  have hmoved := h.moved
  obtain ⟨n, rfl⟩ := Nat.exists_eq_add_of_le hk
  have hlt : n < flags.length := by omega
  have hchar : char_at fmt (e.i + n) = flags[n] := by
    rw [char_at, List.getD_eq_getElem?_getD, ← List.getElem?_drop, h.here,
      List.getElem?_append_left hlt, List.getElem?_eq_getElem hlt]
    rfl
  rw [hchar]
  exact (isFlag_facts (h.all _ (List.getElem_mem hlt))).2

theorem kinds_text (h : ∀ c ∈ flags, c ≠ 0 ∧ c ≠ chr '%') :
    kinds none (flags ++ rest) = kinds none rest := by
  induction flags with
  | nil => rfl
  | cons c flags ih =>
    obtain ⟨hzero, hpercent⟩ := h c (.head _)
    rw [List.cons_append, kinds, if_neg hzero, if_neg hpercent]
    exact ih fun c hc => h c (.tail _ hc)

theorem isConv_facts (hc : isConv c = true) :
    isFlag c = false ∧ c ≠ 0 ∧ c ≠ chr 'l' ∧ c ≠ chr '*' := by
  have hall : ∀ c ∈ convChars, isFlag c = false ∧ c ≠ 0 ∧ c ≠ chr 'l' ∧ c ≠ chr '*' := by decide
  exact hall c (List.contains_iff_mem.mp hc)

theorem convKinds_unknown (hc : isConv c = false) : convKinds lflag c = [] := by
  have hne : ∀ d ∈ convChars, c ≠ d := by
    rintro d hd rfl
    rw [isConv, List.contains_iff_mem.mpr hd] at hc
    cases hc
  have hc := hne (chr 'c') (by decide)
  have he := hne (chr 'e') (by decide)
  have hs := hne (chr 's') (by decide)
  have hd := hne (chr 'd') (by decide)
  have hu := hne (chr 'u') (by decide)
  have ho := hne (chr 'o') (by decide)
  have hp := hne (chr 'p') (by decide)
  have hx := hne (chr 'x') (by decide)
  simp only [convKinds, hc, he, hs, hd, hu, ho, hp, hx, or_self, if_false]

theorem kinds_letter (hc : isFlag c = false) (hzero : c ≠ 0) :
    kinds (some lflag) (c :: rest) = convKinds lflag c ++ kinds none rest := by
  have hl : c ≠ chr 'l' := by
    rintro rfl
    exact absurd hc (by decide)
  have hstar : c ≠ chr '*' := by
    rintro rfl
    exact absurd hc (by decide)
  rw [kinds, if_neg hl, if_neg hstar, hc, if_neg Bool.false_ne_true, if_neg hzero]

theorem State.turn_end (h : char_at fmt s.i = 0) :
    s.turn pf fmt = .ok { s with i := s.i + 1, done := true } := by
  rw [State.turn, h]
  rfl

theorem State.turn_text (h : char_at fmt s.i ≠ 0) (h' : char_at fmt s.i ≠ chr '%') :
    s.turn pf fmt =
      .ok { s with i := s.i + 1, out := s.out ++ [(char_at fmt s.i).setWidth 32] } := by
  rw [State.turn, if_pos h', if_neg h]

/-- An escape prints what its letter says, or it is taken back to the '%', which is
printed. -/
theorem State.turn_escape (h : char_at fmt s.i = chr '%')
    (hready : Ready pf (kinds none (fmt.drop s.i)) s.ap) :
    ∃ flags e', Reads fmt flags (.start (s.i + 1) s.ap) e' ∧ isFlag (char_at fmt e'.i) = false ∧
      ((isConv (char_at fmt e'.i) = true ∧ ∃ r : List Word × List Arg,
          s.turn pf fmt = .ok { s with i := e'.i + 1, ap := r.2, out := s.out ++ r.1 } ∧
          Ready pf (kinds none (fmt.drop (e'.i + 1))) r.2) ∨
        isConv (char_at fmt e'.i) = false ∧
          s.turn pf fmt = .ok { s with i := s.i + 1, ap := e'.ap, out := s.out ++ [put '%'] } ∧
          Ready pf (kinds none (fmt.drop (s.i + 1))) e'.ap) := by
  have hne : char_at fmt s.i ≠ 0 := by
    rw [h]
    decide
  have hdrop := (drop_eq hne).2
  rw [h] at hdrop
  rw [hdrop, kinds, if_neg (by decide), if_pos rfl] at hready
  have hstart : Ready pf (kinds (some (Esc.start (s.i + 1) s.ap).lflag)
      (fmt.drop (Esc.start (s.i + 1) s.ap).i)) (Esc.start (s.i + 1) s.ap).ap := hready
  obtain ⟨flags, e', hrun, hends, hreads, hready'⟩ := flags_end hstart
  have hturn : s.turn pf fmt = s.escape pf fmt e' := by
    rw [State.turn, h, if_neg (fun hne => hne rfl), hrun]
    rfl
  have hstop : isFlag (char_at fmt e'.i) = false := hends.guard_eq
  refine ⟨flags, e', hreads, hstop, ?_⟩
  rw [hturn, State.escape]
  cases hconv : isConv (char_at fmt e'.i) with
  | true =>
    obtain ⟨-, hzero, -, -⟩ := isConv_facts hconv
    rw [(drop_eq hzero).2, kinds_letter hstop hzero] at hready'
    obtain ⟨r, hr, hready''⟩ := conversion_ok hconv hready'
    refine .inl ⟨rfl, r, ?_, hready''⟩
    rw [if_pos rfl, hr]
    rfl
  | false =>
    have hmoved : e'.i = s.i + 1 + flags.length := hreads.moved
    have hback : rewind fmt e'.i = .ok (s.i + 1) :=
      rewind_eq h (by omega) fun k hk hk' => hreads.char_ne hk hk'
    refine .inr ⟨rfl, ?_, ?_⟩
    · rw [if_neg Bool.false_ne_true, hback]
      rfl
    · have hhere : fmt.drop (s.i + 1) = flags ++ fmt.drop e'.i := hreads.here
      rw [hhere, kinds_text fun c hc => isFlag_facts (hreads.all c hc)]
      by_cases hzero : char_at fmt e'.i = 0
      · have hnone : kinds none (fmt.drop e'.i) = [] := by
          rcases hrest : fmt.drop e'.i with _ | ⟨c, rest⟩
          · rfl
          · rw [(char_at_eq hrest).1] at hzero
            rw [kinds, if_pos hzero]
        rw [hnone]
        exact ⟨trivial, fun he => absurd he List.not_mem_nil⟩
      · have hpercent : char_at fmt e'.i ≠ chr '%' := by
          intro he
          rw [he] at hconv
          exact absurd hconv (by decide)
        rw [(drop_eq hzero).2, kinds_letter hstop hzero, convKinds_unknown hconv] at hready'
        rw [(drop_eq hzero).2, kinds, if_neg hzero, if_neg hpercent]
        exact hready'

/-! ## Whole formats -/

/-- The formatter is at its end, or what the rest of the format asks for is there. -/
def State.Inv (pf : Printfmt) (fmt : List Byte) (s : State) : Prop :=
  s.done = true ∨ (s.i ≤ fmt.length ∧ Ready pf (kinds none (fmt.drop s.i)) s.ap)

/-- How far it is to the end. -/
def State.left (fmt : List Byte) (s : State) : Nat := if s.done then 0 else fmt.length + 1 - s.i

theorem State.Inv.turn (h : s.Inv pf fmt) (hmore : s.more = true) :
    ∃ s', s.turn pf fmt = .ok s' ∧ s'.Inv pf fmt ∧ s'.left fmt < s.left fmt := by
  have hdone : s.done = false := by rwa [State.more, Bool.not_eq_true'] at hmore
  obtain ⟨hle, hready⟩ := h.resolve_left (by rw [hdone]; exact Bool.false_ne_true)
  have hleft : s.left fmt = fmt.length + 1 - s.i := by
    rw [State.left, hdone, if_neg Bool.false_ne_true]
  have hgoes : ∀ s' : State, s'.done = s.done → s.i < s'.i → s'.i ≤ fmt.length →
      Ready pf (kinds none (fmt.drop s'.i)) s'.ap → s'.Inv pf fmt ∧ s'.left fmt < s.left fmt := by
    intro s' hsame hlt hle' hready'
    refine ⟨.inr ⟨hle', hready'⟩, ?_⟩
    rw [hleft, State.left, hsame, hdone, if_neg Bool.false_ne_true]
    omega
  by_cases hzero : char_at fmt s.i = 0
  · refine ⟨_, State.turn_end hzero, .inl rfl, ?_⟩
    rw [hleft, State.left, if_pos rfl]
    omega
  obtain ⟨hlt, hdrop⟩ := drop_eq hzero
  by_cases hpercent : char_at fmt s.i = chr '%'
  · obtain ⟨flags, e', hreads, -, hcases⟩ := State.turn_escape hpercent hready
    have hmoved : e'.i = s.i + 1 + flags.length := hreads.moved
    rcases hcases with ⟨hconv, r, hturn, hready'⟩ | ⟨-, hturn, hready'⟩
    · have hlt' := (drop_eq (isConv_facts hconv).2.1).1
      exact ⟨_, hturn, hgoes _ rfl (by show s.i < e'.i + 1; omega) hlt' hready'⟩
    · exact ⟨_, hturn, hgoes _ rfl (Nat.lt_succ_self _) hlt hready'⟩
  · refine ⟨_, State.turn_text hzero hpercent, hgoes _ rfl (Nat.lt_succ_self _) hlt ?_⟩
    rw [hdrop, kinds, if_neg hzero, if_neg hpercent] at hready
    exact hready

theorem run_ok (h : Ready pf (kinds none fmt) ap) :
    ∃ r, loop.Ends State.more (State.turn pf fmt) (.start ap) r ∧ run pf fmt ap = .ok r.out := by
  have hstart : State.Inv pf fmt (.start ap) := .inr ⟨Nat.zero_le _, h⟩
  obtain ⟨r, hrun, hends⟩ := whileUpto_total (State.Inv pf fmt) (State.left fmt) hstart
    (by show fmt.length + 1 - 0 ≤ fmt.length + 2; omega) fun _ h hmore => h.turn hmore
  refine ⟨r, hends, ?_⟩
  rw [run, hrun]
  rfl

theorem printsErrors : PrintsErrors printfmt := by
  constructor
  · intro v
    have hkinds : kinds none error_format = [.int] := by decide
    have hready : Ready (fun _ _ => .error .nested) (kinds none error_format) [.int v] := by
      rw [hkinds]
      exact ⟨⟨trivial, trivial⟩, fun h => absurd h (by decide)⟩
    obtain ⟨r, -, hrun⟩ := run_ok hready
    rw [printfmt, hrun]
    rfl
  · intro p
    have hkinds : kinds none string_format = [.str] := by decide
    have hready : Ready (fun _ _ => .error .nested) (kinds none string_format) [.str p] := by
      rw [hkinds]
      exact ⟨⟨trivial, trivial⟩, fun h => absurd h (by decide)⟩
    obtain ⟨r, -, hrun⟩ := run_ok hready
    rw [printfmt, hrun]
    rfl

theorem vprintfmt_ok (h : Matches (kinds none fmt) ap) :
    ∃ r, loop.Ends State.more (State.turn printfmt fmt) (.start ap) r ∧ vprintfmt fmt ap = .ok r.out :=
  run_ok ⟨h, fun _ => printsErrors⟩

end

end jos.format
