-- Pipes are first in, first out. The reader moves `p_rpos` only after it has
-- copied its byte, and a writer moves `p_wpos` only after it has stored its
-- own. So a cell of the ring is not stored to before it has been read, and is
-- not read before it has been stored to, whichever side is taken next.
import Jos.Pipe

namespace jos.pipe

variable {ρ ι : Type}

/-! ## Cells -/

theorem cell_of_small {pos : Word} (h : pos.toNat ≤ 2 ^ 31) :
    cell pos = some (Fin.ofNat PIPEBUFSIZ pos.toNat) := by
  by_cases hlast : pos = 0x80000000#32
  · rw [hlast]
    decide
  have hne : pos.toNat ≠ 2 ^ 31 := fun heq => hlast (BitVec.eq_of_toNat_eq heq)
  have hint : pos.toInt = (pos.toNat : Int) := BitVec.toInt_eq_toNat_of_lt (by omega)
  have hmod : pos.toInt.tmod PIPEBUFSIZ = ((pos.toNat % PIPEBUFSIZ : Nat) : Int) := by
    rw [hint]
    exact Int.ofNat_tmod ..
  rw [cell, hmod, if_neg (by omega), Int.toNat_natCast]
  congr 1
  exact Fin.ext (Nat.mod_mod ..)

/-- The first position with no cell. -/
theorem cell_first_none : cell 0x80000001#32 = none := by decide

theorem toNat_le_of_cell {pos : Word} {x : Fin PIPEBUFSIZ} (hcell : cell pos = some x)
    (h : pos.toNat ≤ 2 ^ 31 + 1) : pos.toNat ≤ 2 ^ 31 := by
  by_contra hlt
  have hpos : pos = 0x80000001#32 := by
    apply BitVec.eq_of_toNat_eq
    show pos.toNat = 2 ^ 31 + 1
    omega
  rw [hpos, cell_first_none] at hcell
  cases hcell

theorem full_iff {p : Pipe} (h : p.p_rpos.toNat ≤ 2 ^ 31 + 1) :
    p.full = true ↔ p.p_rpos.toNat + PIPEBUFSIZ ≤ p.p_wpos.toNat := by
  have hsum : (p.p_rpos + BitVec.ofNat 32 PIPEBUFSIZ).toNat = p.p_rpos.toNat + PIPEBUFSIZ := by
    rw [BitVec.toNat_add, BitVec.toNat_ofNat, PIPEBUFSIZ]
    omega
  rw [Pipe.full, decide_eq_true_iff, BitVec.le_def, hsum]

theorem next_toNat {pos : Word} (h : pos.toNat ≤ 2 ^ 31 + 1) :
    (pos + 1).toNat = pos.toNat + 1 := by
  rw [BitVec.toNat_add, show (1 : Word).toNat = 1 from rfl]
  omega

theorem End.unmap_ne_opened {e e' : End} (h : e.unmap = some e') : e' ≠ .opened := by
  cases e <;> cases h <;> exact End.noConfusion

/-! ## The invariant -/

/-- The bytes that the reader has copied and not yet passed. -/
def ReadAt.ahead : ReadAt → Nat
  | .advance _ _ => 1
  | _ => 0

/-- The reader has seen a byte that it has not passed yet. -/
def ReadAt.seen : ReadAt → Bool
  | .copy _ _ => true
  | .advance _ _ => true
  | _ => false

/-- The writer has seen room that it has not used up yet. -/
def WriteAt.room : WriteAt → Bool
  | .store _ _ => true
  | .advance _ _ => true
  | _ => false

/-- The next step of the writer is its test for room. -/
def WriteAt.testing : WriteAt → Bool
  | .test _ _ => true
  | _ => false

/-- The ring holds the bytes that were written and not read, in their order. -/
structure Fifo (s : State ρ ι) : Prop where
  written : s.p.p_wpos.toNat = s.sent.length
  read : s.rend = .opened → s.p.p_rpos.toNat + s.rat.ahead = s.got.length
  order : s.p.p_rpos.toNat ≤ s.p.p_wpos.toNat
  fits : s.p.p_wpos.toNat ≤ s.p.p_rpos.toNat + PIPEBUFSIZ
  seen : s.rat.seen = true → s.p.p_rpos.toNat < s.p.p_wpos.toNat
  room : ∀ w, (s.wat w).room = true → s.p.p_wpos.toNat < s.p.p_rpos.toNat + PIPEBUFSIZ
  stored : ∀ w buf i, s.wat w = .advance buf i →
    s.p.p_buf (Fin.ofNat PIPEBUFSIZ s.p.p_wpos.toNat) = buf.getD i 0
  alone : ∀ w w', (s.wat w).room = true → (s.wat w').room = true → w = w'
  got : s.got <+: s.sent
  ring : ring.Holds s.p.p_buf s.sent s.p.p_rpos.toNat
  reading : s.rat ≠ .outside → s.rend = .opened
  writing : ∀ w, (s.wat w).idle = false → s.wend w = .opened

theorem New.fifo {s : State ρ ι} (h : New s) : Fifo s where
  written := by rw [h.wpos, h.sent]; rfl
  read _ := by rw [h.rpos, h.rat, h.got]; rfl
  order := by rw [h.rpos, h.wpos]
  fits := by rw [h.rpos, h.wpos]; omega
  seen hs := by rw [h.rat] at hs; cases hs
  room w hw := by rw [h.wat] at hw; cases hw
  stored w buf i hw := by rw [h.wat] at hw; cases hw
  alone w _ hw := by rw [h.wat] at hw; cases hw
  got := by rw [h.got]; exact List.nil_prefix
  ring j _ hj := by rw [h.sent] at hj; exact absurd hj (Nat.not_lt_zero j)
  reading hr := absurd h.rat hr
  writing w hw := by rw [h.wat] at hw; cases hw

/-! ## Steps that move no byte -/

section

variable {s : State ρ ι}

theorem readLoop_ahead (n i : Nat) : (readLoop n i).ahead = 0 := by
  unfold readLoop
  split <;> rfl

theorem readLoop_seen (n i : Nat) : (readLoop n i).seen = false := by
  unfold readLoop
  split <;> rfl

theorem writeLoop_room (buf : List (BitVec 8)) (i : Nat) : (writeLoop buf i).room = false := by
  unfold writeLoop
  split <;> rfl

/-- The reader goes to a place where it has seen no byte. -/
theorem Fifo.setRat (h : Fifo s) {a : ReadAt} (hend : s.rend = .opened)
    (hahead : s.rat.ahead = 0) (ha : a.ahead = 0) (hseen : a.seen = false) :
    Fifo { s with rat := a } where
  written := h.written
  read _ := by rw [ha, ← hahead]; exact h.read hend
  order := h.order
  fits := h.fits
  seen hs := by rw [hseen] at hs; cases hs
  room := h.room
  stored := h.stored
  alone := h.alone
  got := h.got
  ring := h.ring
  reading _ := hend
  writing := h.writing

/-- The same for a reader that is in a call. -/
theorem Fifo.readerTo (h : Fifo s) {a b : ReadAt} (hat : s.rat = b) (hb : b ≠ .outside)
    (hahead : b.ahead = 0) (ha : a.ahead = 0) (hseen : a.seen = false) :
    Fifo { s with rat := a } :=
  h.setRat (h.reading (hat ▸ hb)) (hat ▸ hahead) ha hseen

variable [DecidableEq ι]

theorem setWat_self (w : ι) (a : WriteAt) : (s.setWat w a).wat w = a := Function.update_self ..

theorem setWat_ne {w w' : ι} (hne : w' ≠ w) (a : WriteAt) : (s.setWat w a).wat w' = s.wat w' :=
  Function.update_of_ne hne ..

/-- A writer goes to a place where it has seen no room. -/
theorem Fifo.setWat (h : Fifo s) {w : ι} {a : WriteAt} (hroom : a.room = false)
    (hend : a.idle = false → s.wend w = .opened) : Fifo (s.setWat w a) := by
  have hat : ∀ w', ((s.setWat w a).wat w').room = true → (s.setWat w a).wat w' = s.wat w' := by
    intro w' hw'
    by_cases hne : w' = w
    · rw [hne, setWat_self, hroom] at hw'
      cases hw'
    · exact setWat_ne hne a
  exact {
    written := h.written
    read := h.read
    order := h.order
    fits := h.fits
    seen := h.seen
    room := fun w' hw' => h.room w' (hat w' hw' ▸ hw')
    stored := fun w' buf i hw' =>
      h.stored w' buf i ((hat w' (by rw [hw']; rfl)).symm.trans hw')
    alone := fun w₁ w₂ h₁ h₂ => h.alone w₁ w₂ (hat w₁ h₁ ▸ h₁) (hat w₂ h₂ ▸ h₂)
    got := h.got
    ring := h.ring
    reading := h.reading
    writing := by
      intro w' hw'
      by_cases hne : w' = w
      · rw [hne] at hw' ⊢
        exact hend (by rwa [setWat_self] at hw')
      · exact h.writing w' (by rwa [setWat_ne hne] at hw') }

/-! ## Steps that move a byte -/

omit [DecidableEq ι] in
theorem Fifo.see (h : Fifo s) {n i : Nat} (hat : s.rat = .test n i)
    (hbyte : s.p.p_rpos ≠ s.p.p_wpos) : Fifo { s with rat := .copy n i } where
  written := h.written
  read hend := by
    have hread := h.read hend
    rwa [hat] at hread
  order := h.order
  fits := h.fits
  seen _ := lt_of_le_of_ne h.order fun heq => hbyte (BitVec.eq_of_toNat_eq heq)
  room := h.room
  stored := h.stored
  alone := h.alone
  got := h.got
  ring := h.ring
  reading _ := h.reading (by rw [hat]; exact ReadAt.noConfusion)
  writing := h.writing

omit [DecidableEq ι] in
theorem Fifo.copy (h : Fifo s) (hsmall : s.sent.length ≤ 2 ^ 31 + 1) {n i : Nat}
    {x : Fin PIPEBUFSIZ} (hat : s.rat = .copy n i) (hcell : cell s.p.p_rpos = some x) :
    Fifo { s with got := s.got ++ [s.p.p_buf x], rat := .advance n i } := by
  have hend : s.rend = .opened := h.reading (by rw [hat]; exact ReadAt.noConfusion)
  have hseen := h.seen (by rw [hat]; rfl)
  have hread : s.p.p_rpos.toNat = s.got.length := by
    have hread := h.read hend
    rwa [hat] at hread
  have hw := h.written
  obtain rfl : Fin.ofNat PIPEBUFSIZ s.p.p_rpos.toNat = x :=
    Option.some.inj ((cell_of_small (by omega)).symm.trans hcell)
  exact { h with
    read := fun _ => by
      rw [List.length_append, ← hread]
      rfl
    seen := fun _ => hseen
    got := ring.take_front h.ring h.got hread.symm (by omega)
    reading := fun _ => hend }

omit [DecidableEq ι] in
theorem Fifo.advance (h : Fifo s) (hsmall : s.sent.length ≤ 2 ^ 31 + 1) {n i : Nat}
    (hat : s.rat = .advance n i) :
    Fifo { s with p := { s.p with p_rpos := s.p.p_rpos + 1 }, rat := readLoop n (i + 1) } := by
  have hend : s.rend = .opened := h.reading (by rw [hat]; exact ReadAt.noConfusion)
  have hseen := h.seen (by rw [hat]; rfl)
  have hw := h.written
  have hnext : (s.p.p_rpos + 1).toNat = s.p.p_rpos.toNat + 1 := next_toNat (by omega)
  have hfits := h.fits
  exact {
    written := h.written
    read := fun _ => by
      have hread := h.read hend
      rw [hat] at hread
      rw [readLoop_ahead, hnext]
      exact hread
    order := by rw [hnext]; exact hseen
    fits := by simp only [hnext]; omega
    seen := fun hs => by rw [readLoop_seen] at hs; cases hs
    room := fun w hw => by
      have hroom := h.room w hw
      simp only [hnext]
      omega
    stored := h.stored
    alone := h.alone
    got := h.got
    ring := h.ring.mono (by simp only [hnext]; omega)
    reading := fun _ => hend
    writing := h.writing }

/-- A writer sees room. No other may have seen it. -/
theorem Fifo.seeRoom (h : Fifo s) (hsmall : s.sent.length ≤ 2 ^ 31 + 1) {w : ι}
    {buf : List (BitVec 8)} {i : Nat} (hat : s.wat w = .test buf i) (hroom : s.p.full = false)
    (halone : ∀ w' ≠ w, (s.wat w').room = false) : Fifo (s.setWat w (.store buf i)) := by
  have hw := h.written
  have horder := h.order
  have hfree : s.p.p_wpos.toNat < s.p.p_rpos.toNat + PIPEBUFSIZ := by
    rw [Bool.eq_false_iff, ne_eq, full_iff (by omega)] at hroom
    omega
  have hself : ∀ w', ((s.setWat w (.store buf i)).wat w').room = true → w' = w := by
    intro w' hw'
    by_contra hne
    rw [setWat_ne hne, halone w' hne] at hw'
    cases hw'
  exact { h with
    room := fun _ _ => hfree
    stored := fun w' buf' i' hw' => by
      rw [hself w' (by rw [hw']; rfl), setWat_self] at hw'
      cases hw'
    alone := fun w₁ w₂ h₁ h₂ => (hself w₁ h₁).trans (hself w₂ h₂).symm
    writing := fun w' hw' => by
      by_cases hne : w' = w
      · exact hne ▸ h.writing w (by rw [hat]; rfl)
      · exact h.writing w' (by rwa [setWat_ne hne] at hw') }

theorem Fifo.store (h : Fifo s) (hsmall : s.sent.length ≤ 2 ^ 31 + 1) {w : ι}
    {buf : List (BitVec 8)} {i : Nat} {x : Fin PIPEBUFSIZ} (hat : s.wat w = .store buf i)
    (hcell : cell s.p.p_wpos = some x) :
    Fifo { s.setWat w (.advance buf i) with
      p := { s.p with p_buf := Function.update s.p.p_buf x (buf.getD i 0) } } := by
  have hw := h.written
  have hroom : (s.wat w).room = true := by rw [hat]; rfl
  obtain rfl : Fin.ofNat PIPEBUFSIZ s.p.p_wpos.toNat = x :=
    Option.some.inj ((cell_of_small (toNat_le_of_cell hcell (by omega))).symm.trans hcell)
  have hself : ∀ w', ((s.setWat w (.advance buf i)).wat w').room = true → w' = w := by
    intro w' hw'
    by_contra hne
    rw [setWat_ne hne] at hw'
    exact hne (h.alone w' w hw' hroom)
  exact { h with
    room := fun _ _ => h.room w hroom
    stored := fun w' buf' i' hw' => by
      rw [hself w' (by rw [hw']; rfl), setWat_self] at hw'
      cases hw'
      exact Function.update_self ..
    alone := fun w₁ w₂ h₁ h₂ => (hself w₁ h₁).trans (hself w₂ h₂).symm
    ring := by
      have hfree := h.room w hroom
      simp only [hw] at hfree ⊢
      exact h.ring.store hfree
    writing := fun w' hw' => by
      by_cases hne : w' = w
      · exact hne ▸ h.writing w (by rw [hat]; rfl)
      · exact h.writing w' (by rwa [setWat_ne hne] at hw') }

theorem Fifo.advanceWrite (h : Fifo s) (hsmall : s.sent.length ≤ 2 ^ 31 + 1) {w : ι}
    {buf : List (BitVec 8)} {i : Nat} (hat : s.wat w = .advance buf i) :
    Fifo { s.setWat w (writeLoop buf (i + 1)) with
      p := { s.p with p_wpos := s.p.p_wpos + 1 }
      sent := s.sent ++ [buf.getD i 0] } := by
  have hw := h.written
  have hroom : (s.wat w).room = true := by rw [hat]; rfl
  have hfree := h.room w hroom
  have hnext : (s.p.p_wpos + 1).toNat = s.p.p_wpos.toNat + 1 := next_toNat (by omega)
  have horder := h.order
  -- no other writer is between its test and its increment
  have hnone : ∀ w', ((s.setWat w (writeLoop buf (i + 1))).wat w').room = true → False := by
    intro w' hw'
    by_cases hne : w' = w
    · rw [hne, setWat_self, writeLoop_room] at hw'
      cases hw'
    · rw [setWat_ne hne] at hw'
      exact hne (h.alone w' w hw' hroom)
  exact {
    written := by rw [hnext, hw, List.length_append]; rfl
    read := h.read
    order := by simp only [hnext]; omega
    fits := by simp only [hnext]; omega
    seen := fun hs => by
      have hseen := h.seen hs
      simp only [hnext]
      omega
    room := fun w' hw' => (hnone w' hw').elim
    stored := fun w' buf' i' hw' => (hnone w' (by rw [hw']; rfl)).elim
    alone := fun w₁ w₂ h₁ => (hnone w₁ h₁).elim
    got := h.got.trans (List.prefix_append ..)
    ring := by
      have hstored := h.stored w buf i hat
      rw [hw] at hstored
      exact h.ring.send hstored
    reading := h.reading
    writing := fun w' hw' => by
      by_cases hne : w' = w
      · exact hne ▸ h.writing w (by rw [hat]; rfl)
      · exact h.writing w' (by rwa [setWat_ne hne] at hw') }

/-! ## Every step -/

/-- Two writers do not both see the same room. -/
def Apart (s : State ρ ι) : Event ρ ι → Prop
  | .writer w => (s.wat w).testing = true → ∀ w' ≠ w, (s.wat w').room = false
  | _ => True

variable [Fintype ρ] [Fintype ι] [DecidableEq ρ] {s' : State ρ ι} {ev : Event ρ ι}

/-- The bytes that were written are never taken back. -/
theorem sent_grows (h : step s ev = some s') : s.sent <+: s'.sent := by
  cases step_cases h <;> first | exact List.prefix_rfl | exact List.prefix_append ..

theorem Fifo.step (h : Fifo s) (hev : Apart s ev) (hs : step s ev = some s')
    (hsmall : s'.sent.length ≤ 2 ^ 31 + 1) : Fifo s' := by
  have hsmall₀ : s.sent.length ≤ 2 ^ 31 + 1 := (sent_grows hs).length_le.trans hsmall
  cases step_cases hs with
  | read hend hidle =>
    refine h.setRat hend ?_ (readLoop_ahead ..) (readLoop_seen ..)
    revert hidle
    cases s.rat <;> first | exact fun _ => rfl | exact fun hidle => nomatch hidle
  | testReturn hat _ _ => exact h.readerTo hat ReadAt.noConfusion rfl rfl rfl
  | testClosed hat _ => exact h.readerTo hat ReadAt.noConfusion rfl rfl rfl
  | testByte hat hbyte => exact h.see hat hbyte
  | refs hat => exact h.readerTo hat ReadAt.noConfusion rfl rfl rfl
  | eof hat _ => exact h.readerTo hat ReadAt.noConfusion rfl rfl rfl
  | again hat => exact h.readerTo hat ReadAt.noConfusion rfl rfl rfl
  | copy hat hcell => exact h.copy hsmall₀ hat hcell
  | advance hat => exact h.advance hsmall₀ hat
  | interruptReader hat => exact h.readerTo hat ReadAt.noConfusion rfl rfl rfl
  | @write w buf hend _ =>
    have hset := h.setWat (writeLoop_room buf 0) fun _ => hend
    exact { hset with }
  | testFull hat _ => exact h.setWat rfl fun _ => h.writing _ (by rw [hat]; rfl)
  | testRoom hat hroom => exact h.seeRoom hsmall₀ hat hroom (hev (by rw [hat]; rfl))
  | refsWrite hat => exact h.setWat rfl fun _ => h.writing _ (by rw [hat]; rfl)
  | giveUp hat _ => exact h.setWat rfl fun hidle => nomatch hidle
  | againWrite hat => exact h.setWat rfl fun _ => h.writing _ (by rw [hat]; rfl)
  | store hat hcell => exact h.store hsmall₀ hat hcell
  | advanceWrite hat => exact h.advanceWrite hsmall₀ hat
  | interruptWriter hat => exact h.setWat rfl fun _ => h.writing _ (by rw [hat]; rfl)
  | @unmap e hend =>
    exact { h with
      read := fun hopen => absurd hopen (End.unmap_ne_opened hend)
      seen := fun hs => nomatch hs
      reading := fun hne => absurd rfl hne }
  | unmapSpare _ => exact { h with }
  | @unmapWrite w e hend =>
    have hset := h.setWat (w := w) (a := .outside) rfl fun hidle => nomatch hidle
    exact { hset with
      writing := fun w' hw' => by
        have hne : w' ≠ w := fun heq => by
          rw [heq, setWat_self] at hw'
          cases hw'
        exact (Function.update_of_ne hne ..).trans (hset.writing w' hw') }

end

/-! ## One writer -/

/-- The bytes of a call that are not written yet. -/
def WriteAt.rest : WriteAt → List (BitVec 8)
  | .outside => []
  | .test buf i => buf.drop i
  | .closed buf i => buf.drop i
  | .refs buf i _ => buf.drop i
  | .store buf i => buf.drop i
  | .advance buf i => buf.drop i
  | .returned _ _ => []

theorem WriteAt.rest_idle {a : WriteAt} (h : a.idle = true) : a.rest = [] := by
  cases a <;> first | rfl | exact nomatch h

theorem writeLoop_rest (buf : List (BitVec 8)) (i : Nat) : (writeLoop buf i).rest = buf.drop i := by
  unfold writeLoop
  split
  · rfl
  · exact (List.drop_eq_nil_of_le (not_lt.mp ‹_›)).symm

/-- `i` is in range in the loop of `devpipe_write`. -/
def WriteAt.inRange : WriteAt → Prop
  | .test buf i => i < buf.length
  | .closed buf i => i < buf.length
  | .refs buf i _ => i < buf.length
  | .store buf i => i < buf.length
  | .advance buf i => i < buf.length
  | _ => True

theorem writeLoop_inRange (buf : List (BitVec 8)) (i : Nat) : (writeLoop buf i).inRange := by
  unfold writeLoop
  split
  · assumption
  · trivial

/-- As long as somebody may read, what was written is what the writer was given,
up to the bytes of the call that it is in. A call gives up early only when the
reader is gone. -/
structure Kept (s : State ρ Unit) : Prop where
  live : s.rend ≠ .closed → s.wend () = .opened → s.sent ++ (s.wat ()).rest = s.given ()
  sent : s.rend ≠ .closed → s.sent <+: s.given ()
  got : s.got <+: s.given ()
  refs : ∀ buf i fd, s.wat () = .refs buf i fd → fd = 1
  range : (s.wat ()).inRange

theorem New.kept {s : State ρ Unit} (h : New s) : Kept s where
  live _ _ := by rw [h.sent, h.wat, h.given]; rfl
  sent _ := by rw [h.sent]; exact List.nil_prefix
  got := by rw [h.got]; exact List.nil_prefix
  refs _ _ _ hw := by rw [h.wat] at hw; cases hw
  range := by rw [h.wat]; trivial

section

variable {s : State ρ Unit}

/-- A step of the reader, where what it has read is still a part of what was written. -/
theorem Kept.setRead (h : Kept s) {p : Pipe} {a : ReadAt} {got : List (BitVec 8)}
    (hend : s.rend = .opened) (hgot : got <+: s.sent) :
    Kept { s with p := p, rat := a, got := got } :=
  { h with got := hgot.trans (h.sent (by rw [hend]; exact End.noConfusion)) }

/-- A step of the writer that writes nothing. -/
theorem Kept.setWat (h : Kept s) {a : WriteAt} (hrest : a.rest = (s.wat ()).rest)
    (hrange : a.inRange) (hrefs : ∀ buf i fd, a = .refs buf i fd → fd = 1) :
    Kept (s.setWat () a) where
  live hr hw := by
    rw [setWat_self, hrest]
    exact h.live hr hw
  sent := h.sent
  got := h.got
  refs := by
    rw [setWat_self]
    exact hrefs
  range := by
    rw [setWat_self]
    exact hrange

theorem Kept.write (h : Kept s) {buf : List (BitVec 8)} (hend : s.wend () = .opened)
    (hidle : (s.wat ()).idle = true) :
    Kept { s.setWat () (writeLoop buf 0) with
      given := Function.update s.given () (s.given () ++ buf) } := by
  have hself : Function.update s.given () (s.given () ++ buf) () = s.given () ++ buf :=
    Function.update_self ..
  have hsent : s.rend ≠ .closed → s.sent = s.given () := fun hr => by
    rw [← h.live hr hend, WriteAt.rest_idle hidle, List.append_nil]
  refine ⟨fun hr _ => ?_, fun hr => ?_, ?_, fun b i fd hw => ?_, ?_⟩
  · simp only [hself]
    rw [setWat_self, writeLoop_rest, List.drop_zero, ← hsent hr]
    rfl
  · simp only [hself]
    exact (h.sent hr).trans (List.prefix_append ..)
  · simp only [hself]
    exact h.got.trans (List.prefix_append ..)
  · rw [setWat_self] at hw
    unfold writeLoop at hw
    split at hw <;> cases hw
  · rw [setWat_self]
    exact writeLoop_inRange buf 0

theorem Kept.advanceWrite (h : Kept s) {buf : List (BitVec 8)} {i : Nat}
    (hat : s.wat () = .advance buf i) (hend : s.wend () = .opened) :
    Kept { s.setWat () (writeLoop buf (i + 1)) with
      p := { s.p with p_wpos := s.p.p_wpos + 1 }
      sent := s.sent ++ [buf.getD i 0] } := by
  have hi : i < buf.length := by
    have hrange := h.range
    rwa [hat] at hrange
  have hgiven : s.rend ≠ .closed → s.sent ++ [buf.getD i 0] ++ buf.drop (i + 1) = s.given () := by
    intro hr
    have hlive := h.live hr hend
    rw [hat] at hlive
    rw [← hlive, List.append_assoc, List.getD_eq_getElem _ _ hi, List.singleton_append]
    exact congrArg _ (List.drop_eq_getElem_cons hi).symm
  refine ⟨fun hr _ => ?_, fun hr => ⟨_, hgiven hr⟩, h.got, fun b j fd hw => ?_, ?_⟩
  · rw [setWat_self, writeLoop_rest]
    exact hgiven hr
  · rw [setWat_self] at hw
    unfold writeLoop at hw
    split at hw <;> cases hw
  · rw [setWat_self]
    exact writeLoop_inRange buf (i + 1)

theorem apart_unit (s : State ρ Unit) (ev : Event ρ Unit) : Apart s ev := by
  cases ev <;> first | trivial | exact fun _ w' hne => absurd rfl hne

variable [Fintype ρ]

/-- With one writer, the test for a closed pipe answers that the reader is gone. -/
theorem rend_closed (hend : s.wend () = .opened) (hone : 1 = s.pagerefData) :
    s.rend = .closed := by
  have hwrite : ∑ w, (s.wend w).data = 1 := by
    rw [Fintype.sum_unique]
    exact congrArg End.data hend
  have hzero : s.rend.data = 0 := by
    rw [State.pagerefData, hwrite] at hone
    omega
  revert hzero
  cases s.rend <;> first | exact fun _ => rfl | exact fun h => nomatch h

variable [DecidableEq ρ] {s' : State ρ Unit} {ev : Event ρ Unit}

theorem Kept.step (h : Kept s) (hf : Fifo s) (hf' : Fifo s') (hs : step s ev = some s') :
    Kept s' := by
  cases step_cases hs with
  | read hend _ => exact h.setRead hend hf.got
  | testReturn | testClosed | testByte | refs | eof | again | interruptReader => exact { h with }
  | copy hat _ => exact h.setRead (hf.reading (by rw [hat]; exact ReadAt.noConfusion)) hf'.got
  | advance hat => exact h.setRead (hf.reading (by rw [hat]; exact ReadAt.noConfusion)) hf'.got
  | write hend hidle => exact h.write hend hidle
  | testFull hat _ | testRoom hat _ | interruptWriter hat | againWrite hat =>
    refine h.setWat (by rw [hat]; rfl) ?_ (fun _ _ _ hw => by cases hw)
    have hrange := h.range
    rwa [hat] at hrange
  | @refsWrite w buf i hat =>
    refine h.setWat (by rw [hat]; rfl) ?_ fun _ _ fd hw => ?_
    · have hrange := h.range
      rwa [hat] at hrange
    · cases hw
      rw [State.pagerefWrite, Fintype.sum_unique]
      exact congrArg End.fd (hf.writing () (by rw [hat]; rfl))
  | @giveUp w buf i fd hat hclosed =>
    have hgone : s.rend = .closed := by
      refine rend_closed (hf.writing () (by rw [hat]; rfl)) ?_
      rw [← hclosed, h.refs buf i fd hat]
    refine ⟨fun hr => absurd hgone hr, h.sent, h.got, fun b j fd' hw => ?_, ?_⟩
    · rw [setWat_self] at hw
      cases hw
    · rw [setWat_self]
      trivial
  | @store w buf i x hat _ =>
    have hset : Kept (s.setWat () (.advance buf i)) := by
      refine h.setWat (by rw [hat]; rfl) ?_ (fun _ _ _ hw => by cases hw)
      have hrange := h.range
      rwa [hat] at hrange
    exact { hset with }
  | advanceWrite hat => exact h.advanceWrite hat (hf.writing () (by rw [hat]; rfl))
  | @unmap e hend =>
    have hopen : e ≠ .closed → s.rend ≠ .closed := fun _ heq => by
      rw [heq] at hend
      cases hend
    exact { h with
      live := fun hr => h.live (hopen hr)
      sent := fun hr => h.sent (hopen hr) }
  | unmapSpare _ => exact { h with }
  | @unmapWrite w e hend =>
    refine ⟨fun _ hw => ?_, h.sent, h.got, fun b j fd hw => ?_, ?_⟩
    · have he : Function.update s.wend w e w = e := Function.update_self ..
      exact absurd (he.symm.trans hw) (End.unmap_ne_opened hend)
    · rw [setWat_self] at hw
      cases hw
    · rw [setWat_self]
      trivial

theorem kept_run {s₀ : State ρ Unit} (hnew : New s₀) {evs : List (Event ρ Unit)}
    (hr : runs.runFrom pipe.step s₀ evs = some s) (hsmall : s.sent.length < 2 ^ 31) :
    Fifo s ∧ Kept s := by
  have hall : runs.Along pipe.step Apart s₀ evs := .of_forall apart_unit
  refine runs.runFrom_keeps (I := fun t : State ρ Unit => t.sent.length < 2 ^ 31 → Fifo t ∧ Kept t)
    (fun t ev t' ht hev hs hlt => ?_) (fun _ => ⟨hnew.fifo, hnew.kept⟩) hr hall hsmall
  obtain ⟨hf, hk⟩ := ht (lt_of_le_of_lt (sent_grows hs).length_le hlt)
  have hf' := hf.step hev hs (by omega)
  exact ⟨hf', hk.step hf hf' hs⟩

/-- One environment reads and one writes. However their steps follow each other,
at most `PIPEBUFSIZ` bytes are on their way, they lie in the ring unharmed, and
what the reader has stored is the start of what the writer was given. -/
theorem pipes_are_fifo {s₀ : State ρ Unit} (hnew : New s₀) {evs : List (Event ρ Unit)}
    (hr : runs.runFrom pipe.step s₀ evs = some s) (hsmall : s.sent.length < 2 ^ 31) :
    0 ≤ s.p.p_wpos.toInt - s.p.p_rpos.toInt ∧
    s.p.p_wpos.toInt - s.p.p_rpos.toInt ≤ PIPEBUFSIZ ∧
    s.got <+: s.given () ∧
    ring.Holds s.p.p_buf s.sent s.p.p_rpos.toNat ∧ s.p.p_wpos.toNat = s.sent.length ∧
    (s.rend = .opened →
      s.p.p_rpos.toNat + s.rat.ahead = s.got.length ∧ s.got <+: s.sent ∧
      s.sent <+: s.given ()) := by
  obtain ⟨hf, hk⟩ := kept_run hnew hr hsmall
  have hw := hf.written
  have horder := hf.order
  have hfits := hf.fits
  have hwint : s.p.p_wpos.toInt = (s.p.p_wpos.toNat : Int) :=
    BitVec.toInt_eq_toNat_of_lt (by omega)
  have hrint : s.p.p_rpos.toInt = (s.p.p_rpos.toNat : Int) :=
    BitVec.toInt_eq_toNat_of_lt (by omega)
  refine ⟨by omega, by omega, hk.got, hf.ring, hw, fun hend => ⟨hf.read hend, hf.got, hk.sent ?_⟩⟩
  rw [hend]
  exact End.noConfusion

end

/-- A new pipe, of which everybody has their end. -/
def newPipe (ρ ι : Type) : State ρ ι where
  p := ⟨0, 0, fun _ => 0⟩
  rat := .outside
  rend := .opened
  spare _ := .opened
  wat _ := .outside
  wend _ := .opened
  got := []
  given _ := []
  sent := []

theorem newPipe_new (ρ ι : Type) : New (newPipe ρ ι) :=
  ⟨rfl, rfl, rfl, fun _ => rfl, rfl, fun _ => rfl, rfl⟩

/-- Two bytes are written, and the reader takes the first in between. -/
def passTwo : List (Event Empty Unit) :=
  [.write () [7, 8], .read 2, .writer (), .writer (), .writer (), .reader, .writer (), .reader,
    .writer (), .reader]

theorem pipes_are_fifo_two :
    ∃ s, runs.runFrom step (newPipe Empty Unit) passTwo = some s ∧ s.got = [7] ∧
      s.got <+: s.given () := by
  have hrun : (runs.runFrom step (newPipe Empty Unit) passTwo).map
      (fun s => (s.got, s.sent.length)) = some ([7], 1) := by decide +kernel
  obtain ⟨s, hs, hfacts⟩ := Option.map_eq_some_iff.mp hrun
  obtain ⟨hgot, hlen⟩ := Prod.mk.inj hfacts
  exact ⟨s, hs, hgot, (pipes_are_fifo (newPipe_new ..) hs (by omega)).2.2.1⟩

end jos.pipe
