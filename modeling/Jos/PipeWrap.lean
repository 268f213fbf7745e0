-- The indices of a pipe. Positions are signed and only ever grow, and the
-- remainder of a negative position is negative. So the buffer can be used until
-- the write position has passed 2^31, and no longer.
import Jos.PipeFifo

namespace jos.pipe

variable {ρ ι : Type}

/-! ## Indices -/

/-- `pos % PIPEBUFSIZ` is an index of `p_buf`. -/
def Indexed (pos : Word) : Prop :=
  0 ≤ pos.toInt.tmod PIPEBUFSIZ ∧ pos.toInt.tmod PIPEBUFSIZ < PIPEBUFSIZ

theorem indexed_iff {pos : Word} : Indexed pos ↔ ∃ x, cell pos = some x := by
  have hlt : pos.toInt.tmod PIPEBUFSIZ < PIPEBUFSIZ := Int.tmod_lt_of_pos _ (by decide)
  rw [Indexed, cell]
  split
  · rename_i hneg
    refine ⟨fun h => absurd h.1 (not_le.mpr hneg), ?_⟩
    rintro ⟨_, ⟨⟩⟩
  · rename_i hpos
    exact ⟨fun _ => ⟨_, rfl⟩, fun _ => ⟨not_lt.mp hpos, hlt⟩⟩

/-- The indices that the next steps use are in the buffer. -/
structure InRange (s : State ρ ι) : Prop where
  read : ∀ n i, s.rat = .copy n i → Indexed s.p.p_rpos
  write : ∀ w buf i, s.wat w = .store buf i → Indexed s.p.p_wpos

/-! ## How far a run can go -/

/-- A byte at position 2^31 has been stored, at most, and none behind it. -/
structure Bounded (s : State ρ ι) : Prop where
  sent : s.sent.length ≤ 2 ^ 31 + 1
  stored : ∀ w buf i, s.wat w = .advance buf i → s.sent.length ≤ 2 ^ 31

theorem New.bounded {s : State ρ ι} (h : New s) : Bounded s where
  sent := by rw [h.sent]; exact Nat.zero_le _
  stored w buf i hw := by rw [h.wat] at hw; cases hw

section

variable [DecidableEq ι] {s s' : State ρ ι}

/-- A writer goes to a place where it has not stored its byte. -/
theorem Bounded.setWat (h : Bounded s) {w : ι} {a : WriteAt} (ha : ∀ buf i, a ≠ .advance buf i) :
    Bounded (s.setWat w a) := by
  refine ⟨h.sent, fun w' buf i hw' => ?_⟩
  by_cases hne : w' = w
  · rw [hne, setWat_self] at hw'
    exact absurd hw' (ha buf i)
  · rw [setWat_ne hne] at hw'
    exact h.stored w' buf i hw'

theorem writeLoop_ne_advance {buf : List (BitVec 8)} {n : Nat} (buf' : List (BitVec 8)) (i : Nat) :
    writeLoop buf n ≠ .advance buf' i := by
  unfold writeLoop
  split <;> exact WriteAt.noConfusion

theorem Bounded.advanceWrite (h : Bounded s) (hf : Fifo s) {w : ι} {buf : List (BitVec 8)} {i : Nat}
    (hat : s.wat w = .advance buf i) :
    Bounded { s.setWat w (writeLoop buf (i + 1)) with
      p := { s.p with p_wpos := s.p.p_wpos + 1 }
      sent := s.sent ++ [buf.getD i 0] } := by
  have hroom : (s.wat w).room = true := by rw [hat]; rfl
  refine ⟨?_, fun w' buf' i' hw' => ?_⟩
  · have hstored := h.stored w buf i hat
    rw [List.length_append, List.length_singleton]
    omega
  · by_cases hne : w' = w
    · have hself := hw'
      rw [hne] at hself
      exact absurd ((setWat_self w _).symm.trans hself) (writeLoop_ne_advance buf' i')
    · have hother : s.wat w' = .advance buf' i' := (setWat_ne hne _).symm.trans hw'
      exact absurd (hf.alone w' w (by rw [hother]; rfl) hroom) hne

variable [Fintype ρ] [Fintype ι] [DecidableEq ρ] {ev : Event ρ ι}

theorem Bounded.step (h : Bounded s) (hf : Fifo s) (hs : step s ev = some s') : Bounded s' := by
  cases step_cases hs with
  | read | testReturn | testClosed | testByte | refs | eof | again | copy | advance
  | interruptReader | unmap | unmapSpare => exact ⟨h.sent, h.stored⟩
  | @write w buf =>
    have hset : Bounded (s.setWat w (writeLoop buf 0)) := h.setWat writeLoop_ne_advance
    exact ⟨hset.sent, hset.stored⟩
  | testFull | testRoom | refsWrite | giveUp | againWrite | interruptWriter =>
    exact h.setWat fun _ _ => WriteAt.noConfusion
  | store hat hcell =>
    have hwritten := hf.written
    have hsent := h.sent
    have hle := toNat_le_of_cell hcell (by omega)
    exact ⟨h.sent, fun _ _ _ _ => by dsimp only [State.setWat]; omega⟩
  | advanceWrite hat => exact h.advanceWrite hf hat
  | @unmapWrite w =>
    have hset : Bounded (s.setWat w .outside) := h.setWat fun _ _ => WriteAt.noConfusion
    exact ⟨hset.sent, hset.stored⟩

theorem bounded_run {s₀ : State ρ ι} (hnew : New s₀) {evs : List (Event ρ ι)}
    (hr : runs.runFrom pipe.step s₀ evs = some s) (hall : runs.Along pipe.step Apart s₀ evs) :
    Fifo s ∧ Bounded s := by
  refine runs.runFrom_keeps (I := fun t : State ρ ι => Fifo t ∧ Bounded t)
    (fun t ev t' ht hev hs => ?_) ⟨hnew.fifo, hnew.bounded⟩ hr hall
  have hb := ht.2.step ht.1 hs
  exact ⟨ht.1.step hev hs hb.sent, hb⟩

/-- In every run in which the writers do not see the same room: the indices are in
the buffer as long as no more than 2^31 bytes were written, and the next byte
after those is stored outside of it. The test for a full pipe is right. -/
theorem pipe_indices_stay_in_range {s₀ : State ρ ι} (hnew : New s₀) {evs : List (Event ρ ι)}
    (hr : runs.runFrom pipe.step s₀ evs = some s) (hall : runs.Along pipe.step Apart s₀ evs) :
    (InRange s ↔ s.sent.length ≤ 2 ^ 31 ∨ ∀ w buf i, s.wat w ≠ .store buf i) ∧
    ∃ passed, s.p.p_rpos = BitVec.ofNat 32 passed ∧
      (s.rend = .opened → passed + s.rat.ahead = s.got.length) ∧ passed ≤ s.sent.length ∧
      (s.p.full = true ↔ s.sent.length = passed + PIPEBUFSIZ) := by
  obtain ⟨hf, hb⟩ := bounded_run hnew hr hall
  have hwritten := hf.written
  have hsent := hb.sent
  have horder := hf.order
  have hfits := hf.fits
  refine ⟨⟨fun h => ?_, fun h => ⟨fun n i hat => ?_, fun w buf i hat => ?_⟩⟩, s.p.p_rpos.toNat, ?_,
    hf.read, by omega, ?_⟩
  · by_contra hno
    push Not at hno
    obtain ⟨hlt, w, buf, i, hat⟩ := hno
    obtain ⟨x, hcell⟩ := indexed_iff.mp (h.write w buf i hat)
    have hle := toNat_le_of_cell hcell (by omega)
    omega
  · have hseen := hf.seen (by rw [hat]; rfl)
    exact indexed_iff.mpr ⟨_, cell_of_small (by omega)⟩
  · rcases h with h | h
    · exact indexed_iff.mpr ⟨_, cell_of_small (by omega)⟩
    · exact absurd hat (h w buf i)
  · rw [BitVec.ofNat_toNat, BitVec.setWidth_eq]
  · rw [full_iff (by omega)]
    omega

end

theorem pipe_indices_stay_in_range_two :
    ∃ s, runs.runFrom step (newPipe Empty Unit) passTwo = some s ∧ InRange s := by
  have hrun : (runs.runFrom step (newPipe Empty Unit) passTwo).map
      (fun s => s.sent.length) = some 1 := by decide +kernel
  obtain ⟨s, hs, hlen⟩ := Option.map_eq_some_iff.mp hrun
  exact ⟨s, hs, (pipe_indices_stay_in_range (newPipe_new ..) hs (.of_forall apart_unit)).1.mpr
    (.inl (by omega))⟩

/-! ## A run that leaves the buffer -/

/-- `n` bytes went through the pipe and nobody is in a call. -/
structure Passed (n : Nat) (s : State Empty Unit) : Prop where
  rpos : s.p.p_rpos.toNat = n
  wpos : s.p.p_wpos.toNat = n
  rat : s.rat.idle = true
  wat : (s.wat ()).idle = true
  rend : s.rend = .opened
  wend : s.wend () = .opened

section

variable {n : Nat} {s : State Empty Unit} (h : Passed n s)

/-- The writer of the pipe comes to store a byte. -/
def begun (s : State Empty Unit) : State Empty Unit :=
  { s.setWat () (.store [0] 0) with given := Function.update s.given () (s.given () ++ [0]) }

include h

theorem Passed.begin (hn : n ≤ 2 ^ 31 + 1) :
    runs.runFrom step s [.write () [0], .writer ()] = some (begun s) := by
  have hroom : s.p.full = false := by
    rw [Bool.eq_false_iff, ne_eq, full_iff (by rw [h.rpos]; exact hn), h.rpos, h.wpos, PIPEBUFSIZ]
    omega
  have hcall : step s (.write () [0]) = some { s.setWat () (.test [0] 0) with
      given := Function.update s.given () (s.given () ++ [0]) } := if_pos ⟨h.wend, h.wat⟩
  rw [runs.runFrom, hcall, Option.bind_some, runs.runFrom, step, writer]
  simp only [State.setWat, Function.update_self, hroom, Function.update_idem, begun]
  rfl

/-- It stores the byte and advances. -/
def written (s : State Empty Unit) (x : Fin PIPEBUFSIZ) : State Empty Unit :=
  { s.setWat () (.returned 1 1) with
    p := ⟨s.p.p_rpos, s.p.p_wpos + 1, Function.update s.p.p_buf x 0⟩
    given := Function.update s.given () (s.given () ++ [0])
    sent := s.sent ++ [0] }

omit h in
theorem begun_written {x : Fin PIPEBUFSIZ} (hcell : cell s.p.p_wpos = some x) :
    runs.runFrom step (begun s) [.writer (), .writer ()] = some (written s x) := by
  simp only [runs.runFrom, step, writer, begun, State.setWat, Function.update_self, hcell,
    Option.map_some, Option.bind_some, Function.update_idem]
  rfl

theorem Passed.next (hn : n ≤ 2 ^ 31) :
    ∃ evs s', runs.runFrom step s evs = some s' ∧ Passed (n + 1) s' := by
  have hcell : cell s.p.p_wpos = some (Fin.ofNat PIPEBUFSIZ n) := by
    rw [cell_of_small (by rw [h.wpos]; exact hn), h.wpos]
  have hcell' : cell s.p.p_rpos = some (Fin.ofNat PIPEBUFSIZ n) := by
    rw [cell_of_small (by rw [h.rpos]; exact hn), h.rpos]
  have hr : (s.p.p_rpos + 1).toNat = n + 1 := by rw [next_toNat (by rw [h.rpos]; omega), h.rpos]
  have hw : (s.p.p_wpos + 1).toNat = n + 1 := by rw [next_toNat (by rw [h.wpos]; omega), h.wpos]
  have hbyte : s.p.p_rpos ≠ s.p.p_wpos + 1 := by
    intro heq
    have hne := congrArg BitVec.toNat heq
    rw [h.rpos, hw] at hne
    omega
  refine ⟨[.write () [0], .writer ()] ++ ([.writer (), .writer ()] ++
    [.read 1, .reader, .reader, .reader]), ?_⟩
  rw [runs.runFrom_append, h.begin (by omega), Option.bind_some, runs.runFrom_append,
    begun_written hcell, Option.bind_some]
  have hcall : step (written s (Fin.ofNat PIPEBUFSIZ n)) (.read 1) =
      some { written s (Fin.ofNat PIPEBUFSIZ n) with rat := .test 1 0 } := if_pos ⟨h.rend, h.rat⟩
  rw [runs.runFrom, hcall, Option.bind_some]
  simp only [runs.runFrom, step, reader, written, hbyte, if_false, hcell', Option.map_some,
    Option.bind_some]
  refine ⟨_, rfl, ?_⟩
  exact ⟨hr, hw, rfl, by rw [setWat_self]; rfl, h.rend, h.wend⟩

end

/-- Any number of bytes go through the pipe, up to 2^31 + 1. -/
theorem passes (n : Nat) (hn : n ≤ 2 ^ 31 + 1) :
    ∃ evs s, runs.runFrom step (newPipe Empty Unit) evs = some s ∧ Passed n s := by
  induction n with
  | zero => exact ⟨[], _, rfl, rfl, rfl, rfl, rfl, rfl, rfl⟩
  | succ n ih =>
    obtain ⟨evs, s, hr, hs⟩ := ih (by omega)
    obtain ⟨evs', s', hr', hs'⟩ := hs.next (by omega)
    refine ⟨evs ++ evs', s', ?_, hs'⟩
    rw [runs.runFrom_append, hr, Option.bind_some, hr']

/-- After 2^31 + 1 bytes, the next one is to be stored in front of the buffer. -/
theorem pipe_index_is_negative :
    ∃ evs s, runs.runFrom step (newPipe Empty Unit) evs = some s ∧ s.wat () = .store [0] 0 ∧
      s.p.p_wpos.toInt.tmod PIPEBUFSIZ = -31 ∧ ¬ InRange s := by
  obtain ⟨evs, s, hr, hs⟩ := passes (2 ^ 31 + 1) le_rfl
  have hpos : s.p.p_wpos = 0x80000001#32 := BitVec.eq_of_toNat_eq hs.wpos
  have hindex : (begun s).p.p_wpos.toInt.tmod PIPEBUFSIZ = -31 := by
    rw [show (begun s).p = s.p from rfl, hpos]
    decide
  have hat : (begun s).wat () = .store [0] 0 := setWat_self (s := s) () _
  refine ⟨evs ++ [.write () [0], .writer ()], begun s, ?_, hat, hindex, fun hin => ?_⟩
  · rw [runs.runFrom_append, hr, Option.bind_some, hs.begin le_rfl]
  · have hneg := (hin.write () [0] 0 hat).1
    rw [hindex] at hneg
    exact absurd hneg (by decide)

end jos.pipe
