-- Printing into a buffer: `vsnprintf` of lib/printfmt.c counts the characters that
-- `vprintfmt` emits and keeps those for which there is room. An escape that the
-- formatter does not know comes out as it stands in the format.
import Jos.FormatFlags

namespace jos.format

open loop

/-! ## The buffer -/

abbrev Mem := Word → Byte

/-- `struct sprintbuf`, and the memory that it points into. -/
structure Sprintbuf where
  buf : Word
  ebuf : Word
  cnt : Word
  mem : Mem

def sprintputch (b : Sprintbuf) (ch : Word) : Sprintbuf :=
  let b := { b with cnt := b.cnt + 1 }
  if b.buf < b.ebuf then
    { b with buf := b.buf + 1, mem := Function.update b.mem b.buf (ch.setWidth 8) }
  else b

/-- `vsnprintf`: what it returns, and the memory. -/
def vsnprintf (m : Mem) (buf n : Word) (fmt : List Byte) (ap : List Arg) :
    Except Fault (Word × Mem) :=
  let b : Sprintbuf := ⟨buf, buf + n - 1, 0, m⟩
  if buf = 0 ∨ n.toInt < 1 then .ok (BitVec.ofInt 32 (-E_INVAL), m)
  else
    (vprintfmt fmt ap).map fun out =>
      let b := out.foldl sprintputch b
      (b.cnt, Function.update b.mem b.buf 0)

variable {m : Mem} {buf : Word} {n : Nat} {out : List Word} {ch : Word} {b : Sprintbuf}

/-- The characters so far, with room for `n` of them. -/
structure Holds (m : Mem) (buf : Word) (n : Nat) (out : List Word) (b : Sprintbuf) : Prop where
  count : b.cnt = BitVec.ofNat 32 out.length
  next : b.buf.toNat = buf.toNat + min out.length n
  limit : b.ebuf.toNat = buf.toNat + n
  kept : ∀ a : Word, b.mem a = if buf.toNat ≤ a.toNat ∧ a.toNat < b.buf.toNat then
    (out.getD (a.toNat - buf.toNat) 0).setWidth 8 else m a

theorem Holds.putch (hfit : buf.toNat + n < 2 ^ 32) (h : Holds m buf n out b) :
    Holds m buf n (out ++ [ch]) (sprintputch b ch) := by
  obtain ⟨hcnt, hbuf, hebuf, hkept⟩ := h
  have hcount : b.cnt + 1 = BitVec.ofNat 32 (out ++ [ch]).length := by
    rw [hcnt, List.length_append, List.length_singleton, BitVec.ofNat_add]
    rfl
  have hroom : b.buf < b.ebuf ↔ out.length < n := by
    rw [BitVec.lt_def, hbuf, hebuf]
    omega
  unfold sprintputch
  dsimp only
  by_cases hlt : out.length < n
  · rw [if_pos (hroom.mpr hlt)]
    have hnext : (b.buf + 1).toNat = b.buf.toNat + 1 := by
      rw [BitVec.toNat_add, show (1 : Word).toNat = 1 from rfl]
      exact Nat.mod_eq_of_lt (by omega)
    refine ⟨hcount, ?_, hebuf, ?_⟩
    · show (b.buf + 1).toNat = _
      rw [hnext, hbuf, List.length_append, List.length_singleton]
      omega
    · intro a
      show Function.update b.mem b.buf (ch.setWidth 8) a = if _ ∧ a.toNat < (b.buf + 1).toNat then _
        else _
      rw [hnext]
      by_cases ha : a = b.buf
      · have hlast : a.toNat - buf.toNat = out.length := by
          rw [ha]
          omega
        rw [ha, Function.update_self, if_pos (by omega), ← ha, hlast,
          List.getD_append_right _ _ _ _ le_rfl, Nat.sub_self]
        rfl
      · have hne : a.toNat ≠ b.buf.toNat := fun he => ha (BitVec.eq_of_toNat_eq he)
        rw [Function.update_of_ne ha, hkept a]
        by_cases hin : buf.toNat ≤ a.toNat ∧ a.toNat < b.buf.toNat
        · rw [if_pos hin, if_pos (by omega), List.getD_append _ _ _ _ (by omega)]
        · rw [if_neg hin, if_neg (by omega)]
  · rw [if_neg (fun he => hlt (hroom.mp he))]
    refine ⟨hcount, ?_, hebuf, ?_⟩
    · show b.buf.toNat = _
      rw [hbuf, List.length_append, List.length_singleton]
      omega
    · intro a
      show b.mem a = if _ ∧ a.toNat < b.buf.toNat then _ else _
      rw [hkept a]
      by_cases hin : buf.toNat ≤ a.toNat ∧ a.toNat < b.buf.toNat
      · rw [if_pos hin, if_pos hin, List.getD_append _ _ _ _ (by omega)]
      · rw [if_neg hin, if_neg hin]

/-- All characters, one after the other. -/
theorem Holds.all (hfit : buf.toNat + n < 2 ^ 32) (h : Holds m buf n out b) (more : List Word) :
    Holds m buf n (out ++ more) (more.foldl sprintputch b) := by
  induction more generalizing out b with
  | nil => rwa [List.append_nil]
  | cons ch more ih =>
    have hone : Holds m buf n (out ++ [ch]) (sprintputch b ch) := h.putch hfit
    have hnext := ih hone
    rwa [List.append_assoc] at hnext

/-- The buffer holds the characters for which there is room, and a NUL; nothing else has
changed. -/
structure Printed (m : Mem) (buf n : Word) (out : List Word) (m' : Mem) : Prop where
  chars : ∀ k < min out.length (n.toNat - 1),
    m' (buf + BitVec.ofNat 32 k) = (out.getD k 0).setWidth 8
  nul : m' (buf + BitVec.ofNat 32 (min out.length (n.toNat - 1))) = 0
  others : ∀ a : Word, a.toNat < buf.toNat ∨ buf.toNat + n.toNat ≤ a.toNat → m' a = m a

theorem vsnprintf_eq {n : Word} {fmt : List Byte} {ap : List Arg} (hbuf : buf ≠ 0)
    (hn : 1 ≤ n.toInt) (hfit : buf.toNat + n.toNat ≤ 2 ^ 32) (hout : vprintfmt fmt ap = .ok out) :
    ∃ m', vsnprintf m buf n fmt ap = .ok (BitVec.ofNat 32 out.length, m') ∧
      Printed m buf n out m' := by
  have hpos : 1 ≤ n.toNat := by
    have hne : n.toNat ≠ 0 := by
      intro he
      rw [BitVec.toInt_eq_toNat_cond, he] at hn
      exact absurd hn (by decide)
    omega
  have hlimit : (buf + n - 1).toNat = buf.toNat + (n.toNat - 1) := by
    have := buf.isLt
    rw [BitVec.toNat_sub, BitVec.toNat_add, show (1 : Word).toNat = 1 from rfl]
    omega
  have hstart : Holds m buf (n.toNat - 1) [] ⟨buf, buf + n - 1, 0, m⟩ := by
    refine ⟨rfl, rfl, hlimit, fun a => (if_neg ?_).symm⟩
    rintro ⟨hlow, hhigh⟩
    have hhigh' : a.toNat < buf.toNat := hhigh
    omega
  have hall := hstart.all (by omega) out
  rw [List.nil_append] at hall
  generalize hb : out.foldl sprintputch ⟨buf, buf + n - 1, 0, m⟩ = b at hall
  have hrun : vsnprintf m buf n fmt ap = .ok (b.cnt, Function.update b.mem b.buf 0) := by
    unfold vsnprintf
    dsimp only
    rw [if_neg (by rintro (h | h); exacts [hbuf h, by omega]), hout, ← hb]
    rfl
  have hnext := hall.next
  have hat : ∀ k < n.toNat, (buf + BitVec.ofNat 32 k).toNat = buf.toNat + k := by
    intro k hk
    have := n.isLt
    rw [BitVec.toNat_add, BitVec.toNat_ofNat, Nat.mod_eq_of_lt (by omega : k < 2 ^ 32),
      Nat.mod_eq_of_lt (by omega)]
  have hend : b.buf = buf + BitVec.ofNat 32 (min out.length (n.toNat - 1)) := by
    apply BitVec.eq_of_toNat_eq
    rw [hnext, hat _ (by omega)]
  refine ⟨_, by rw [hrun, hall.count], ⟨?_, ?_, ?_⟩⟩
  · intro k hk
    have hk' := hat k (by omega)
    have hne : buf + BitVec.ofNat 32 k ≠ b.buf := by
      intro he
      rw [he, hnext] at hk'
      omega
    rw [Function.update_of_ne hne, hall.kept, if_pos (by omega), hk', Nat.add_sub_cancel_left]
  · rw [← hend, Function.update_self]
  · intro a ha
    have hne : a ≠ b.buf := by
      rintro rfl
      omega
    rw [Function.update_of_ne hne, hall.kept, if_neg (by omega)]

/-! ## Escapes that are not known -/

/-- The formatter comes to this state. -/
def Reached (fmt : List Byte) (ap : List Arg) : State → Prop :=
  Relation.ReflTransGen (fun s s' => s.more = true ∧ s.turn printfmt fmt = .ok s') (.start ap)

/-- The characters of a format as they are printed. -/
def literally (cs : List Byte) : List Word := cs.map (·.setWidth 32)

variable {fmt flags rest cs : List Byte} {ap : List Arg} {c : Byte} {s : State}

theorem Reached.inv (hargs : Matches (kinds none fmt) ap) (h : Reached fmt ap s) :
    s.Inv printfmt fmt := by
  induction h with
  | refl => exact .inr ⟨Nat.zero_le _, hargs, fun _ => printsErrors⟩
  | tail _ hturn ih =>
    obtain ⟨s', hs', hinv, -⟩ := ih.turn hturn.1
    rw [hturn.2] at hs'
    cases hs'
    exact hinv

/-- Text is printed as it stands. -/
theorem Reached.text (h : Reached fmt ap s) (hdone : s.done = false)
    (hhere : fmt.drop s.i = cs ++ rest) (hcs : ∀ c ∈ cs, c ≠ 0 ∧ c ≠ chr '%') :
    Reached fmt ap { s with i := s.i + cs.length, out := s.out ++ literally cs } := by
  induction cs generalizing s with
  | nil =>
    rw [literally, List.map_nil, List.append_nil]
    exact h
  | cons c cs ih =>
    obtain ⟨hc, hrest⟩ := char_at_eq hhere
    obtain ⟨hzero, hpercent⟩ := hcs c (.head _)
    have hturn : s.turn printfmt fmt =
        .ok { s with i := s.i + 1, out := s.out ++ [c.setWidth 32] } := by
      rw [State.turn_text (by rwa [hc]) (by rwa [hc]), hc]
    have hnext : Reached fmt ap { s with i := s.i + 1, out := s.out ++ [c.setWidth 32] } :=
      .tail h ⟨by rw [State.more, hdone]; rfl, hturn⟩
    have hall := ih hnext hdone hrest fun c hc => hcs c (.tail _ hc)
    rw [List.length_cons, Nat.add_comm cs.length, ← Nat.add_assoc]
    rw [List.append_assoc] at hall
    exact hall

/-- A string splits into flags and a rest that does not begin with one in one way. -/
theorem flags_unique {flags' rest' : List Byte} (h : flags ++ rest = flags' ++ rest')
    (hall : ∀ c ∈ flags, isFlag c = true) (hall' : ∀ c ∈ flags', isFlag c = true)
    (hend : isFlag (char_at rest 0) = false) (hend' : isFlag (char_at rest' 0) = false) :
    flags = flags' ∧ rest = rest' := by
  have hflags : ∀ {flags rest : List Byte}, (∀ c ∈ flags, isFlag c = true) →
      isFlag (char_at rest 0) = false → (flags ++ rest).takeWhile isFlag = flags := by
    intro flags rest hall hend
    rw [List.takeWhile_append_of_pos hall]
    cases rest with
    | nil => rw [List.takeWhile_nil, List.append_nil]
    | cons c rest =>
      have hc : isFlag c = false := hend
      rw [List.takeWhile_cons, hc, if_neg Bool.false_ne_true, List.append_nil]
  have hsame : flags = flags' := by rw [← hflags hall hend, h, hflags hall' hend']
  subst hsame
  exact ⟨rfl, List.append_cancel_left h⟩

/-- After an escape without a known letter the formatter stands behind its '%', which is
printed. The arguments of its '*' are gone. -/
theorem Reached.percent (hargs : Matches (kinds none fmt) ap) (h : Reached fmt ap s)
    (hdone : s.done = false) (hhere : fmt.drop s.i = chr '%' :: (flags ++ rest))
    (hflags : ∀ c ∈ flags, isFlag c = true) (hend : isFlag (char_at rest 0) = false)
    (hconv : isConv (char_at rest 0) = false) :
    Reached fmt ap { s with
      i := s.i + 1, ap := s.ap.drop (flags.count (chr '*')), out := s.out ++ [put '%'] } := by
  obtain ⟨hpercent, hafter⟩ := char_at_eq hhere
  have hready := ((h.inv hargs).resolve_left (by rw [hdone]; exact Bool.false_ne_true)).2
  obtain ⟨flags', e', hreads, hstop, hcases⟩ := State.turn_escape hpercent hready
  have hhead : char_at fmt e'.i = char_at (fmt.drop e'.i) 0 := by
    rw [char_at, char_at, List.getD_eq_getElem?_getD, List.getD_eq_getElem?_getD, List.getElem?_drop,
      Nat.add_zero]
  have hsplit : flags ++ rest = flags' ++ fmt.drop e'.i := hafter.symm.trans hreads.here
  obtain ⟨rfl, hrest⟩ := flags_unique hsplit hflags hreads.all hend (by rw [← hhead]; exact hstop)
  rw [hhead, ← hrest, hconv] at hcases
  rcases hcases with ⟨hf, -⟩ | ⟨-, hturn, -⟩
  · exact absurd hf Bool.false_ne_true
  · have hap : e'.ap = s.ap.drop (flags.count (chr '*')) := hreads.args
    rw [hap] at hturn
    exact .tail h ⟨by rw [State.more, hdone]; rfl, hturn⟩

/-- An escape with a letter that is not known is printed as it stands. -/
theorem Reached.unknown (hargs : Matches (kinds none fmt) ap) (h : Reached fmt ap s)
    (hdone : s.done = false) (hhere : fmt.drop s.i = chr '%' :: (flags ++ c :: rest))
    (hflags : ∀ c ∈ flags, isFlag c = true) (hend : isFlag c = false) (hconv : isConv c = false)
    (hzero : c ≠ 0) :
    Reached fmt ap { s with
      i := s.i + flags.length + 2, ap := s.ap.drop (flags.count (chr '*')),
      out := s.out ++ literally (chr '%' :: (flags ++ [c])) } := by
  have hback := h.percent hargs hdone hhere hflags hend hconv
  have hrest : fmt.drop (s.i + 1) = (flags ++ [c]) ++ rest := by
    rw [(char_at_eq hhere).2, List.append_assoc]
    rfl
  have hpercent : c ≠ chr '%' := by
    rintro rfl
    exact absurd hconv (by decide)
  have htext := Reached.text hback hdone hrest fun d hd => by
    rcases List.mem_append.mp hd with hd | hd
    · exact isFlag_facts (hflags d hd)
    · rw [List.mem_singleton.mp hd]
      exact ⟨hzero, hpercent⟩
  dsimp only at htext
  rw [List.append_assoc, List.length_append, List.length_singleton] at htext
  rw [show s.i + flags.length + 2 = s.i + 1 + (flags.length + 1) by omega]
  exact htext

/-- So is one that the end of the format cuts off. -/
theorem Reached.cut (hargs : Matches (kinds none fmt) ap) (h : Reached fmt ap s)
    (hdone : s.done = false) (hhere : fmt.drop s.i = chr '%' :: flags)
    (hflags : ∀ c ∈ flags, isFlag c = true) :
    Reached fmt ap { s with
      i := s.i + flags.length + 2, ap := s.ap.drop (flags.count (chr '*')),
      out := s.out ++ literally (chr '%' :: flags), done := true } := by
  have hhere' : fmt.drop s.i = chr '%' :: (flags ++ []) := by rw [List.append_nil, hhere]
  have hback := h.percent hargs hdone hhere' hflags (by decide) (by decide)
  have hrest : fmt.drop (s.i + 1) = flags ++ [] := (char_at_eq hhere').2
  have htext := Reached.text hback hdone hrest fun d hd => isFlag_facts (hflags d hd)
  dsimp only at htext
  have hlast : char_at fmt (s.i + 1 + flags.length) = 0 := by
    rw [char_at, List.getD_eq_getElem?_getD, ← List.getElem?_drop, hrest, List.append_nil,
      List.getElem?_eq_none le_rfl]
    rfl
  have hturn : State.turn printfmt fmt { s with
      i := s.i + 1 + flags.length, ap := s.ap.drop (flags.count (chr '*')),
      out := s.out ++ [put '%'] ++ literally flags } = .ok _ := State.turn_end hlast
  have hend := Relation.ReflTransGen.tail htext ⟨by rw [State.more]; exact hdone ▸ rfl, hturn⟩
  rw [show s.i + flags.length + 2 = s.i + 1 + flags.length + 1 by omega]
  rw [List.append_assoc] at hend
  exact hend

/-- The formatter ends on every format, with arguments that match it. `vsnprintf` keeps
what there is room for, with a NUL, and returns the number of all characters. An escape
with an unknown letter, or with none, is printed as it stands. -/
theorem vsnprintf_is_bounded_and_faithful (fmt : List Byte) (ap : List Arg)
    (hargs : Matches (kinds none fmt) ap) :
    ∃ r, loop.Ends State.more (State.turn printfmt fmt) (.start ap) r ∧
      vprintfmt fmt ap = .ok r.out ∧
      (∀ (m : Mem) (buf n : Word), buf ≠ 0 → 1 ≤ n.toInt → buf.toNat + n.toNat ≤ 2 ^ 32 →
        r.out.length < 2 ^ 31 →
        ∃ ret m', vsnprintf m buf n fmt ap = .ok (ret, m') ∧ ret.toInt = r.out.length ∧
          Printed m buf n r.out m') ∧
      (∀ s flags c rest, Reached fmt ap s → s.done = false →
        fmt.drop s.i = chr '%' :: (flags ++ c :: rest) → (∀ f ∈ flags, isFlag f = true) →
        isFlag c = false → isConv c = false → c ≠ 0 →
        Reached fmt ap { s with
          i := s.i + flags.length + 2, ap := s.ap.drop (flags.count (chr '*')),
          out := s.out ++ literally (chr '%' :: (flags ++ [c])) }) ∧
      ∀ s flags, Reached fmt ap s → s.done = false → fmt.drop s.i = chr '%' :: flags →
        (∀ f ∈ flags, isFlag f = true) →
        Reached fmt ap { s with
          i := s.i + flags.length + 2, ap := s.ap.drop (flags.count (chr '*')),
          out := s.out ++ literally (chr '%' :: flags), done := true } := by
  obtain ⟨r, hends, hrun⟩ := vprintfmt_ok hargs
  refine ⟨r, hends, hrun, ?_, ?_, ?_⟩
  · intro m buf n hbuf hn hfit hlen
    obtain ⟨m', hvs, hprinted⟩ := vsnprintf_eq (m := m) hbuf hn hfit hrun
    refine ⟨_, m', hvs, ?_, hprinted⟩
    have hcount : (BitVec.ofNat 32 r.out.length).toNat = r.out.length := by
      rw [BitVec.toNat_ofNat, Nat.mod_eq_of_lt (by omega)]
    rw [BitVec.toInt_eq_toNat_of_lt (by omega), hcount]
  · intro s flags c rest h hdone hhere hflags hend hconv hzero
    exact h.unknown hargs hdone hhere hflags hend hconv hzero
  · intro s flags h hdone hhere hflags
    exact h.cut hargs hdone hhere hflags

/-- `"a%5z"` in a buffer of three bytes: four characters are counted and two kept. -/
theorem vsnprintf_is_bounded_and_faithful_short :
    ∃ ret m', vsnprintf (fun _ => 0xFF) 0x1000 3 [chr 'a', chr '%', chr '5', chr 'z'] [] =
      .ok (ret, m') ∧ ret.toInt = 4 ∧
      Printed (fun _ => 0xFF) 0x1000 3 (literally [chr 'a', chr '%', chr '5', chr 'z']) m' := by
  obtain ⟨r, -, hrun, hbuf, -⟩ :=
    vsnprintf_is_bounded_and_faithful [chr 'a', chr '%', chr '5', chr 'z'] [] trivial
  have hout : vprintfmt [chr 'a', chr '%', chr '5', chr 'z'] [] =
      .ok (literally [chr 'a', chr '%', chr '5', chr 'z']) := rfl
  rw [hout] at hrun
  have hr : literally [chr 'a', chr '%', chr '5', chr 'z'] = r.out := Except.ok.inj hrun
  rw [← hr] at hbuf
  exact hbuf (fun _ => 0xFF) 0x1000 3 (by decide) (by decide) (by decide) (by decide)

end jos.format
