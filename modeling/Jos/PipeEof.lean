-- The end of the file on a pipe. `devpipe_read` finds the pipe empty, and then
-- asks whether the writers are gone. A byte that is written between the two
-- tests is lost if its writer is gone by the second.
import Jos.PipeFifo

namespace jos.pipe

variable {ρ ι : Type}

/-! ## The condition -/

/-- The reader has found the pipe empty and has not yet asked who is left. -/
def ReadAt.asking : ReadAt → Bool
  | .closed _ => true
  | .refs _ _ => true
  | _ => false

/-- The reader has read the references of its Fd page and not yet those of the data. -/
def ReadAt.counting : ReadAt → Bool
  | .refs _ _ => true
  | _ => false

/-- While the reader is between its tests, the last write end does not go as long
as the pipe holds a byte, and no other reader closes its end between the two
reference counts. -/
def Unhurried (s : State ρ ι) : Event ρ ι → Prop
  | .unmapWrite w => s.rat.asking = true → (∀ w' ≠ w, s.wend w' = .closed) →
      s.wend w = .closing → s.p.p_rpos = s.p.p_wpos
  | .unmapSpare r => s.rat.counting = true → s.spare r ≠ .opened
  | _ => True

instance [Fintype ι] [DecidableEq ι] (s : State ρ ι) : ∀ ev, Decidable (Apart s ev)
  | .writer w => inferInstanceAs (Decidable ((s.wat w).testing = true → ∀ w' ≠ w, _))
  | .read _ => .isTrue trivial
  | .reader => .isTrue trivial
  | .interruptReader => .isTrue trivial
  | .write _ _ => .isTrue trivial
  | .interruptWriter _ => .isTrue trivial
  | .unmap => .isTrue trivial
  | .unmapSpare _ => .isTrue trivial
  | .unmapWrite _ => .isTrue trivial

instance [Fintype ι] [DecidableEq ι] (s : State ρ ι) : ∀ ev, Decidable (Unhurried s ev)
  | .unmapWrite w => inferInstanceAs (Decidable (s.rat.asking = true →
      (∀ w' ≠ w, s.wend w' = .closed) → s.wend w = .closing → s.p.p_rpos = s.p.p_wpos))
  | .unmapSpare r => inferInstanceAs (Decidable (s.rat.counting = true → s.spare r ≠ .opened))
  | .read _ => .isTrue trivial
  | .reader => .isTrue trivial
  | .interruptReader => .isTrue trivial
  | .write _ _ => .isTrue trivial
  | .writer _ => .isTrue trivial
  | .interruptWriter _ => .isTrue trivial
  | .unmap => .isTrue trivial

/-! ## The invariant -/

/-- Nobody has a write end. -/
def Gone (s : State ρ ι) : Prop := ∀ w, s.wend w = .closed

/-- While the reader asks who is left, the pipe is empty or someone is left, and
the count that it has read is still right. When it has answered with the end of
the file, the pipe is empty and nobody is left. -/
structure Asked [Fintype ρ] [Fintype ι] (s : State ρ ι) : Prop where
  asking : s.rat.asking = true → Gone s → s.p.p_rpos = s.p.p_wpos
  counted : ∀ n fd, s.rat = .refs n fd → fd = s.pagerefRead
  ended : ∀ n, s.rat = .returned n 0 → 0 < n → Gone s ∧ s.p.p_rpos = s.p.p_wpos

section

variable [Fintype ρ] [Fintype ι] {s s' : State ρ ι}

theorem New.asked (h : New s) : Asked s where
  asking ha := by rw [h.rat] at ha; cases ha
  counted _ _ hr := by rw [h.rat] at hr; cases hr
  ended _ hr := by rw [h.rat] at hr; cases hr

theorem End.fd_le_data (e : End) : e.fd ≤ e.data := by cases e <;> decide

theorem End.closed_of_data {e : End} (h : e.data = 0) : e = .closed := by
  cases e <;> first | rfl | exact nomatch h

/-- The counts of the read end and of the data are equal only if nobody can write. -/
theorem gone_of_counts (h : s.pagerefRead = s.pagerefData) : Gone s := by
  have hspare : ∑ r, (s.spare r).fd ≤ ∑ r, (s.spare r).data :=
    Finset.sum_le_sum fun r _ => End.fd_le_data _
  have hrend := End.fd_le_data s.rend
  have hzero : ∑ w, (s.wend w).data = 0 := by
    unfold State.pagerefRead State.pagerefData at h
    omega
  intro w
  exact End.closed_of_data ((Finset.sum_eq_zero_iff.mp hzero) w (Finset.mem_univ w))

/-- The reader goes to a place where it asks nothing. -/
theorem Asked.leave {p : Pipe} {got : List (BitVec 8)} {a : ReadAt}
    (hasking : a.asking = false) (hended : ∀ n, a = .returned n 0 → n = 0) :
    Asked { s with p := p, got := got, rat := a } where
  asking ha := by rw [hasking] at ha; cases ha
  counted n fd hr := by
    subst hr
    cases hasking
  ended n hr hn := absurd (hended n hr) (by omega)

theorem Asked.ask {n : Nat} (h : Gone s → s.p.p_rpos = s.p.p_wpos) :
    Asked { s with rat := .closed n } where
  asking _ := h
  counted _ _ hr := nomatch hr
  ended _ hr := nomatch hr

theorem Asked.count {n : Nat} (h : Gone s → s.p.p_rpos = s.p.p_wpos) :
    Asked { s with rat := .refs n s.pagerefRead } where
  asking _ := h
  counted _ _ hr := by
    cases hr
    rfl
  ended _ hr := nomatch hr

theorem Asked.answer {n r : Nat} (hgone : Gone s) (hempty : s.p.p_rpos = s.p.p_wpos) :
    Asked { s with rat := .returned n r } where
  asking ha := nomatch ha
  counted _ _ hr := nomatch hr
  ended _ _ _ := ⟨hgone, hempty⟩

theorem readLoop_ended {n i m : Nat} (h : readLoop n i = .returned m 0) : i = 0 ∧ m = 0 := by
  unfold readLoop at h
  split at h
  · cases h
  · cases h
    exact ⟨rfl, by omega⟩

theorem readLoop_asking (n i : Nat) : (readLoop n i).asking = false := by
  unfold readLoop
  split <;> rfl

theorem Asked.unmapSpare [DecidableEq ρ] (h : Asked s) {r : ρ} {e : End}
    (hend : (s.spare r).unmap = some e) (hcalm : Unhurried s (.unmapSpare r)) :
    Asked { s with spare := Function.update s.spare r e } where
  asking := h.asking
  counted n fd hr := by
    have hcount : fd = s.pagerefRead := h.counted n fd hr
    have hnot : s.spare r ≠ .opened := hcalm (by rw [show s.rat = .refs n fd from hr]; rfl)
    -- an end that has no Fd page any more does not count
    have hfd : ∀ r', (Function.update s.spare r e r').fd = (s.spare r').fd := by
      intro r'
      by_cases hne : r' = r
      · rw [hne, Function.update_self]
        revert hend hnot
        cases s.spare r <;> intro hend hnot <;> first | exact absurd rfl hnot | cases hend
        rfl
      · rw [Function.update_of_ne hne]
    rw [hcount, State.pagerefRead, State.pagerefRead]
    exact congrArg _ (Finset.sum_congr rfl fun r' _ => (hfd r').symm)
  ended := h.ended

variable [DecidableEq ι]

/-- A writer that has an end takes a step. -/
theorem Asked.writer (h : Asked s) {p : Pipe} {w : ι} {a : WriteAt} {sent : List (BitVec 8)}
    {given : ι → List (BitVec 8)} (hend : s.wend w = .opened) :
    Asked { s.setWat w a with p := p, sent := sent, given := given } := by
  have hnot : ¬ Gone s := fun hg => absurd (hend.symm.trans (hg w)) End.noConfusion
  exact {
    asking := fun _ hg => absurd hg hnot
    counted := h.counted
    ended := fun n hr hn => absurd (h.ended n hr hn).1 hnot }

theorem Asked.unmapWrite (h : Asked s) {w : ι} {e : End} (hend : (s.wend w).unmap = some e)
    (hcalm : Unhurried s (.unmapWrite w)) :
    Asked { s.setWat w .outside with wend := Function.update s.wend w e } where
  asking ha hg := by
    have hothers : ∀ w' ≠ w, s.wend w' = .closed := fun w' hne =>
      (Function.update_of_ne hne e s.wend).symm.trans (hg w')
    obtain rfl : e = .closed := (Function.update_self w e s.wend).symm.trans (hg w)
    have hclosing : s.wend w = .closing := by
      revert hend
      cases s.wend w <;> first | exact fun _ => rfl | exact fun h => nomatch h
    exact hcalm ha hothers hclosing
  counted := h.counted
  ended n hr hn := by
    rw [(h.ended n hr hn).1 w] at hend
    cases hend

variable [DecidableEq ρ] {ev : Event ρ ι}

theorem Asked.step (h : Asked s) (hf : Fifo s) (hcalm : Unhurried s ev)
    (hs : step s ev = some s') : Asked s' := by
  cases step_cases hs with
  | read _ _ => exact .leave (readLoop_asking ..) fun n hr => (readLoop_ended hr).2
  | testReturn _ _ hi =>
    refine .leave rfl fun n hr => ?_
    cases hr
    exact absurd hi (Nat.lt_irrefl 0)
  | testClosed _ hempty => exact .ask fun _ => hempty
  | testByte => exact .leave rfl fun n hr => nomatch hr
  | refs hat => exact .count fun hg => h.asking (by rw [hat]; rfl) hg
  | @eof n fd hat hclosed =>
    have hgone : Gone s := gone_of_counts ((h.counted n fd hat).symm.trans hclosed)
    exact .answer hgone (h.asking (by rw [hat]; rfl) hgone)
  | again => exact .leave rfl fun n hr => nomatch hr
  | copy => exact .leave rfl fun n hr => nomatch hr
  | advance => exact .leave (readLoop_asking ..) fun n hr => (readLoop_ended hr).2
  | interruptReader hat => exact .ask fun hg => h.asking (by rw [hat]; rfl) hg
  | write hend _ => exact h.writer hend
  | testFull hat _ => exact h.writer (hf.writing _ (by rw [hat]; rfl))
  | testRoom hat _ => exact h.writer (hf.writing _ (by rw [hat]; rfl))
  | refsWrite hat => exact h.writer (hf.writing _ (by rw [hat]; rfl))
  | giveUp hat _ => exact h.writer (hf.writing _ (by rw [hat]; rfl))
  | againWrite hat => exact h.writer (hf.writing _ (by rw [hat]; rfl))
  | interruptWriter hat => exact h.writer (hf.writing _ (by rw [hat]; rfl))
  | store hat _ => exact h.writer (hf.writing _ (by rw [hat]; rfl))
  | advanceWrite hat => exact h.writer (hf.writing _ (by rw [hat]; rfl))
  | unmap _ => exact .leave (s := { s with rend := _ }) rfl fun n hr => nomatch hr
  | unmapSpare hend => exact h.unmapSpare hend hcalm
  | unmapWrite hend => exact h.unmapWrite hend hcalm

theorem asked_run {s₀ : State ρ ι} (hnew : New s₀) {evs : List (Event ρ ι)}
    (hr : runs.runFrom pipe.step s₀ evs = some s)
    (hall : runs.Along pipe.step (fun t ev => Apart t ev ∧ Unhurried t ev) s₀ evs)
    (hsmall : s.sent.length < 2 ^ 31) : Fifo s ∧ Asked s := by
  refine runs.runFrom_keeps (I := fun t : State ρ ι => t.sent.length < 2 ^ 31 → Fifo t ∧ Asked t)
    (fun t ev t' ht hev hs hlt => ?_) (fun _ => ⟨hnew.fifo, hnew.asked⟩) hr hall hsmall
  obtain ⟨hf, ha⟩ := ht (lt_of_le_of_lt (sent_grows hs).length_le hlt)
  exact ⟨hf.step hev.1 hs (by omega), ha.step hf hev.2 hs⟩

/-- When a read of at least one byte returns 0, all that was written has been read,
the pipe is empty and nobody can write: in every run in which the writers do not
see the same room, the last one does not leave a byte behind while the reader is
between its tests, and no reader closes its end between the two counts. -/
theorem end_of_file_loses_nothing {s₀ : State ρ ι} (hnew : New s₀) {evs : List (Event ρ ι)}
    (hr : runs.runFrom pipe.step s₀ evs = some s)
    (hall : runs.Along pipe.step (fun t ev => Apart t ev ∧ Unhurried t ev) s₀ evs)
    (hsmall : s.sent.length < 2 ^ 31) {n : Nat} (hzero : s.rat = .returned n 0) (hn : 0 < n) :
    s.got = s.sent ∧ s.p.p_rpos = s.p.p_wpos ∧ ∀ w, s.wend w = .closed := by
  obtain ⟨hf, ha⟩ := asked_run hnew hr hall hsmall
  obtain ⟨hgone, hempty⟩ := ha.ended n hzero hn
  have hend : s.rend = .opened := hf.reading (by rw [hzero]; exact ReadAt.noConfusion)
  have hread : s.p.p_rpos.toNat = s.got.length := by
    have hread := hf.read hend
    rwa [hzero] at hread
  refine ⟨hf.got.eq_of_length ?_, hempty, hgone⟩
  rw [← hread, hempty, hf.written]

end

/-! ## Runs -/

/-- A byte is written and read, the writer closes its end, and the reader asks for more. -/
def passOne : List (Event Empty Unit) :=
  [.write () [7], .writer (), .writer (), .writer (), .unmapWrite (), .unmapWrite (),
    .read 1, .reader, .reader, .reader, .read 1, .reader, .reader, .reader]

theorem end_of_file_loses_nothing_once :
    ∃ s, runs.runFrom step (newPipe Empty Unit) passOne = some s ∧ s.rat = .returned 1 0 ∧
      s.got = [7] ∧ s.got = s.sent := by
  have hrun : (runs.runFrom step (newPipe Empty Unit) passOne).map
      (fun s => (s.rat, s.got, s.sent.length)) = some (.returned 1 0, [7], 1) := by decide +kernel
  have hall : runs.Along step (fun (t : State Empty Unit) ev => Apart t ev ∧ Unhurried t ev)
      (newPipe Empty Unit) passOne := by decide +kernel
  obtain ⟨s, hs, hfacts⟩ := Option.map_eq_some_iff.mp hrun
  simp only [Prod.mk.injEq] at hfacts
  obtain ⟨hrat, hgot, hlen⟩ := hfacts
  exact ⟨s, hs, hrat, hgot,
    (end_of_file_loses_nothing (newPipe_new ..) hs hall (by omega) hrat (by omega)).1⟩

/-- The reader finds the pipe empty. Then a byte is written and the writer closes its
end, and the reader gets the end of the file in place of the byte. -/
def loseOne : List (Event Empty Unit) :=
  [.read 1, .reader, .write () [7], .writer (), .writer (), .writer (), .unmapWrite (),
    .unmapWrite (), .reader, .reader]

/-- Two writers see the same room and store to the same cell. -/
def storeTwice : List (Event Empty Bool) :=
  [.write false [7], .write true [8], .writer false, .writer true, .writer false, .writer true,
    .writer false, .writer true, .unmapWrite false, .unmapWrite false, .unmapWrite true,
    .unmapWrite true, .read 2, .reader, .reader, .reader, .reader, .reader, .reader,
    .read 1, .reader, .reader, .reader]

/-- Another reader closes its end on another CPU, between the two counts. -/
def closeBetween : List (Event Unit Unit) :=
  [.read 1, .reader, .reader, .unmapSpare (), .unmapSpare (), .reader]

/-- A read returns 0 with a byte in the pipe, with a byte lost that was stored to a
cell in use, and with the write end open. -/
theorem end_of_file_loses_a_byte :
    (∃ s, runs.runFrom step (newPipe Empty Unit) loseOne = some s ∧ s.rat = .returned 1 0 ∧
      s.got = [] ∧ s.sent = [7] ∧ s.p.p_rpos ≠ s.p.p_wpos) ∧
    (∃ s, runs.runFrom step (newPipe Empty Bool) storeTwice = some s ∧ s.rat = .returned 1 0 ∧
      s.got = [8, 0] ∧ s.sent = [7, 8]) ∧
    ∃ s, runs.runFrom step (newPipe Unit Unit) closeBetween = some s ∧ s.rat = .returned 1 0 ∧
      s.wend () = .opened := by
  have h₁ : (runs.runFrom step (newPipe Empty Unit) loseOne).map
      (fun s => (s.rat, s.got, s.sent, decide (s.p.p_rpos = s.p.p_wpos))) =
      some (.returned 1 0, [], [7], false) := by decide +kernel
  have h₂ : (runs.runFrom step (newPipe Empty Bool) storeTwice).map
      (fun s => (s.rat, s.got, s.sent)) = some (.returned 1 0, [8, 0], [7, 8]) := by
    decide +kernel
  have h₃ : (runs.runFrom step (newPipe Unit Unit) closeBetween).map
      (fun s => (s.rat, s.wend ())) = some (.returned 1 0, .opened) := by decide +kernel
  obtain ⟨s₁, hs₁, hf₁⟩ := Option.map_eq_some_iff.mp h₁
  obtain ⟨s₂, hs₂, hf₂⟩ := Option.map_eq_some_iff.mp h₂
  obtain ⟨s₃, hs₃, hf₃⟩ := Option.map_eq_some_iff.mp h₃
  simp only [Prod.mk.injEq, decide_eq_false_iff_not] at hf₁ hf₂ hf₃
  exact ⟨⟨s₁, hs₁, hf₁⟩, ⟨s₂, hs₂, hf₂⟩, s₃, hs₃, hf₃⟩

end jos.pipe
