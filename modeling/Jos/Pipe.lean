-- A pipe (`lib/pipe.c`): a ring of 32 bytes in a page that a reader and its
-- writers share. Nothing locks it. The steps of `devpipe_read`,
-- `devpipe_write` and `devpipe_close` are taken one at a time, in any order.
import Jos.Mmu
import Jos.Lib.Runs
import Jos.Lib.Ring

namespace jos.pipe

def PIPEBUFSIZ : Nat := 32

instance : NeZero PIPEBUFSIZ := ⟨by decide⟩

structure Pipe where
  p_rpos : Word
  p_wpos : Word
  p_buf : Fin PIPEBUFSIZ → BitVec 8

/-- The index `pos % PIPEBUFSIZ`. Positions are signed, and a negative remainder
is outside the buffer. -/
def cell (pos : Word) : Option (Fin PIPEBUFSIZ) :=
  if pos.toInt.tmod PIPEBUFSIZ < 0 then none
  else some (Fin.ofNat PIPEBUFSIZ (pos.toInt.tmod PIPEBUFSIZ).toNat)

/-- `p_wpos >= p_rpos + sizeof(p_buf)`. The size is unsigned, so the comparison
is unsigned too. -/
def Pipe.full (p : Pipe) : Bool := p.p_rpos + BitVec.ofNat 32 PIPEBUFSIZ ≤ p.p_wpos

/-! ## The ends -/

/-- What an environment has mapped of its end: the Fd page and the data page, or
the data page only, as between the two calls of `devpipe_close`, or none. -/
inductive End
  | opened
  | closing
  | closed
deriving DecidableEq

/-- How often the Fd page is mapped. -/
def End.fd : End → Nat
  | .opened => 1
  | .closing => 0
  | .closed => 0

/-- How often the data page is mapped. -/
def End.data : End → Nat
  | .opened => 1
  | .closing => 1
  | .closed => 0

/-- The next call of `devpipe_close`. -/
def End.unmap : End → Option End
  | .opened => some .closing
  | .closing => some .closed
  | .closed => none

/-! ## The calls -/

/-- Where the reader is in `devpipe_read`, with `n` and `i`. In `_pipeisclosed`
it has read no reference count yet, or that of its Fd page. -/
inductive ReadAt
  | outside
  | test (n i : Nat)
  | closed (n : Nat)
  | refs (n fd : Nat)
  | copy (n i : Nat)
  | advance (n i : Nat)
  | returned (n r : Nat)
deriving DecidableEq

/-- Where a writer is in `devpipe_write`, with its bytes and `i`. -/
inductive WriteAt
  | outside
  | test (buf : List (BitVec 8)) (i : Nat)
  | closed (buf : List (BitVec 8)) (i : Nat)
  | refs (buf : List (BitVec 8)) (i fd : Nat)
  | store (buf : List (BitVec 8)) (i : Nat)
  | advance (buf : List (BitVec 8)) (i : Nat)
  | returned (n r : Nat)
deriving DecidableEq

/-- The head of the `for` loop of `devpipe_read`. -/
def readLoop (n i : Nat) : ReadAt := if i < n then .test n i else .returned n i

/-- The head of the `for` loop of `devpipe_write`. -/
def writeLoop (buf : List (BitVec 8)) (i : Nat) : WriteAt :=
  if i < buf.length then .test buf i else .returned buf.length i

/-- No call is under way. -/
def ReadAt.idle : ReadAt → Bool
  | .outside => true
  | .returned _ _ => true
  | _ => false

def WriteAt.idle : WriteAt → Bool
  | .outside => true
  | .returned _ _ => true
  | _ => false

/-! ## The pipe and those who have it -/

/-- One environment reads and those in `ι` may write. Those in `ρ` have the read
end mapped too, and do not read. The last three fields are not in memory: the
bytes that the reader has stored, those that each writer was given, and those
that were written, in the order in which `p_wpos` passed them. -/
structure State (ρ ι : Type) where
  p : Pipe
  rat : ReadAt
  rend : End
  spare : ρ → End
  wat : ι → WriteAt
  wend : ι → End
  got : List (BitVec 8)
  given : ι → List (BitVec 8)
  sent : List (BitVec 8)

variable {ρ ι : Type}

/-- A new pipe. -/
structure New (s : State ρ ι) : Prop where
  rpos : s.p.p_rpos = 0
  wpos : s.p.p_wpos = 0
  rat : s.rat = .outside
  wat : ∀ w, s.wat w = .outside
  got : s.got = []
  given : ∀ w, s.given w = []
  sent : s.sent = []

/-- A call, the next step of a call, or the next unmapping of an end. An
environment that is interrupted between the two reference counts reads both
again, and one that exits in a call unmaps its end too. -/
inductive Event (ρ ι : Type)
  | read (n : Nat)
  | reader
  | interruptReader
  | write (w : ι) (buf : List (BitVec 8))
  | writer (w : ι)
  | interruptWriter (w : ι)
  | unmap
  | unmapSpare (r : ρ)
  | unmapWrite (w : ι)

section counts

variable [Fintype ρ] [Fintype ι]

def State.pagerefRead (s : State ρ ι) : Nat := s.rend.fd + ∑ r, (s.spare r).fd

def State.pagerefWrite (s : State ρ ι) : Nat := ∑ w, (s.wend w).fd

def State.pagerefData (s : State ρ ι) : Nat :=
  s.rend.data + ∑ r, (s.spare r).data + ∑ w, (s.wend w).data

/-- The next step of `devpipe_read`. -/
def reader (s : State ρ ι) : Option (State ρ ι) :=
  match s.rat with
  | .test n i =>
    if s.p.p_rpos = s.p.p_wpos then
      some { s with rat := if 0 < i then .returned n i else .closed n }
    else some { s with rat := .copy n i }
  | .closed n => some { s with rat := .refs n s.pagerefRead }
  | .refs n fd =>
    -- a pipe that is not closed is tested again, after `sys_yield`
    some { s with rat := if fd = s.pagerefData then .returned n 0 else .test n 0 }
  | .copy n i =>
    (cell s.p.p_rpos).map fun x => { s with got := s.got ++ [s.p.p_buf x], rat := .advance n i }
  | .advance n i =>
    some { s with p := { s.p with p_rpos := s.p.p_rpos + 1 }, rat := readLoop n (i + 1) }
  | _ => none

/-- The reader is scheduled anew in `_pipeisclosed`. -/
def interruptReader (s : State ρ ι) : Option (State ρ ι) :=
  match s.rat with
  | .refs n _ => some { s with rat := .closed n }
  | _ => none

variable [DecidableEq ι]

def State.setWat (s : State ρ ι) (w : ι) (a : WriteAt) : State ρ ι :=
  { s with wat := Function.update s.wat w a }

/-- The next step of `devpipe_write`. -/
def writer (s : State ρ ι) (w : ι) : Option (State ρ ι) :=
  match s.wat w with
  | .test buf i => some (s.setWat w (if s.p.full then .closed buf i else .store buf i))
  | .closed buf i => some (s.setWat w (.refs buf i s.pagerefWrite))
  | .refs buf i fd =>
    some (s.setWat w (if fd = s.pagerefData then .returned buf.length 0 else .test buf i))
  | .store buf i =>
    (cell s.p.p_wpos).map fun x =>
      { s.setWat w (.advance buf i) with
        p := { s.p with p_buf := Function.update s.p.p_buf x (buf.getD i 0) } }
  | .advance buf i =>
    some { s.setWat w (writeLoop buf (i + 1)) with
      p := { s.p with p_wpos := s.p.p_wpos + 1 }
      sent := s.sent ++ [buf.getD i 0] }
  | _ => none

def interruptWriter (s : State ρ ι) (w : ι) : Option (State ρ ι) :=
  match s.wat w with
  | .refs buf i _ => some (s.setWat w (.closed buf i))
  | _ => none

variable [DecidableEq ρ]

def step (s : State ρ ι) : Event ρ ι → Option (State ρ ι)
  | .read n =>
    if s.rend = .opened ∧ s.rat.idle then some { s with rat := readLoop n 0 } else none
  | .reader => reader s
  | .interruptReader => interruptReader s
  | .write w buf =>
    if s.wend w = .opened ∧ (s.wat w).idle then
      some { s.setWat w (writeLoop buf 0) with
        given := Function.update s.given w (s.given w ++ buf) }
    else none
  | .writer w => writer s w
  | .interruptWriter w => interruptWriter s w
  | .unmap => s.rend.unmap.map fun e => { s with rend := e, rat := .outside }
  | .unmapSpare r =>
    (s.spare r).unmap.map fun e => { s with spare := Function.update s.spare r e }
  | .unmapWrite w =>
    (s.wend w).unmap.map fun e =>
      { s.setWat w .outside with wend := Function.update s.wend w e }

/-! ## What a step can do -/

/-- All that the steps do, one case for each way through the code. -/
inductive StepCases (s : State ρ ι) : Event ρ ι → State ρ ι → Prop
  | read {n : Nat} (hend : s.rend = .opened) (hidle : s.rat.idle = true) :
      StepCases s (.read n) { s with rat := readLoop n 0 }
  | testReturn {n i : Nat} (hat : s.rat = .test n i) (hempty : s.p.p_rpos = s.p.p_wpos)
      (hi : 0 < i) : StepCases s .reader { s with rat := .returned n i }
  | testClosed {n : Nat} (hat : s.rat = .test n 0) (hempty : s.p.p_rpos = s.p.p_wpos) :
      StepCases s .reader { s with rat := .closed n }
  | testByte {n i : Nat} (hat : s.rat = .test n i) (hbyte : s.p.p_rpos ≠ s.p.p_wpos) :
      StepCases s .reader { s with rat := .copy n i }
  | refs {n : Nat} (hat : s.rat = .closed n) :
      StepCases s .reader { s with rat := .refs n s.pagerefRead }
  | eof {n fd : Nat} (hat : s.rat = .refs n fd) (hclosed : fd = s.pagerefData) :
      StepCases s .reader { s with rat := .returned n 0 }
  | again {n fd : Nat} (hat : s.rat = .refs n fd) :
      StepCases s .reader { s with rat := .test n 0 }
  | copy {n i : Nat} {x : Fin PIPEBUFSIZ} (hat : s.rat = .copy n i)
      (hcell : cell s.p.p_rpos = some x) :
      StepCases s .reader { s with got := s.got ++ [s.p.p_buf x], rat := .advance n i }
  | advance {n i : Nat} (hat : s.rat = .advance n i) :
      StepCases s .reader
        { s with p := { s.p with p_rpos := s.p.p_rpos + 1 }, rat := readLoop n (i + 1) }
  | interruptReader {n fd : Nat} (hat : s.rat = .refs n fd) :
      StepCases s .interruptReader { s with rat := .closed n }
  | write {w : ι} {buf : List (BitVec 8)} (hend : s.wend w = .opened)
      (hidle : (s.wat w).idle = true) :
      StepCases s (.write w buf) { s.setWat w (writeLoop buf 0) with
        given := Function.update s.given w (s.given w ++ buf) }
  | testFull {w : ι} {buf : List (BitVec 8)} {i : Nat} (hat : s.wat w = .test buf i)
      (hfull : s.p.full = true) : StepCases s (.writer w) (s.setWat w (.closed buf i))
  | testRoom {w : ι} {buf : List (BitVec 8)} {i : Nat} (hat : s.wat w = .test buf i)
      (hroom : s.p.full = false) : StepCases s (.writer w) (s.setWat w (.store buf i))
  | refsWrite {w : ι} {buf : List (BitVec 8)} {i : Nat} (hat : s.wat w = .closed buf i) :
      StepCases s (.writer w) (s.setWat w (.refs buf i s.pagerefWrite))
  | giveUp {w : ι} {buf : List (BitVec 8)} {i fd : Nat} (hat : s.wat w = .refs buf i fd)
      (hclosed : fd = s.pagerefData) :
      StepCases s (.writer w) (s.setWat w (.returned buf.length 0))
  | againWrite {w : ι} {buf : List (BitVec 8)} {i fd : Nat} (hat : s.wat w = .refs buf i fd) :
      StepCases s (.writer w) (s.setWat w (.test buf i))
  | store {w : ι} {buf : List (BitVec 8)} {i : Nat} {x : Fin PIPEBUFSIZ}
      (hat : s.wat w = .store buf i) (hcell : cell s.p.p_wpos = some x) :
      StepCases s (.writer w) { s.setWat w (.advance buf i) with
        p := { s.p with p_buf := Function.update s.p.p_buf x (buf.getD i 0) } }
  | advanceWrite {w : ι} {buf : List (BitVec 8)} {i : Nat} (hat : s.wat w = .advance buf i) :
      StepCases s (.writer w) { s.setWat w (writeLoop buf (i + 1)) with
        p := { s.p with p_wpos := s.p.p_wpos + 1 }
        sent := s.sent ++ [buf.getD i 0] }
  | interruptWriter {w : ι} {buf : List (BitVec 8)} {i fd : Nat}
      (hat : s.wat w = .refs buf i fd) :
      StepCases s (.interruptWriter w) (s.setWat w (.closed buf i))
  | unmap {e : End} (hend : s.rend.unmap = some e) :
      StepCases s .unmap { s with rend := e, rat := .outside }
  | unmapSpare {r : ρ} {e : End} (hend : (s.spare r).unmap = some e) :
      StepCases s (.unmapSpare r) { s with spare := Function.update s.spare r e }
  | unmapWrite {w : ι} {e : End} (hend : (s.wend w).unmap = some e) :
      StepCases s (.unmapWrite w) { s.setWat w .outside with wend := Function.update s.wend w e }

variable {s s' : State ρ ι}

theorem reader_cases (h : reader s = some s') : StepCases s .reader s' := by
  unfold reader at h
  split at h
  · rename_i n i hat
    split at h
    · rename_i hempty
      rcases i with _ | i
      · cases h
        exact .testClosed hat hempty
      · cases h
        exact .testReturn hat hempty (Nat.succ_pos i)
    · cases h
      exact .testByte hat ‹_›
  · cases h
    exact .refs ‹_›
  · cases h
    split
    · exact .eof ‹_› ‹_›
    · exact .again ‹_›
  · obtain ⟨x, hcell, rfl⟩ := Option.map_eq_some_iff.mp h
    exact .copy ‹_› hcell
  · cases h
    exact .advance ‹_›
  · cases h

theorem writer_cases {w : ι} (h : writer s w = some s') : StepCases s (.writer w) s' := by
  unfold writer at h
  split at h
  · rename_i buf i hat
    cases h
    split
    · exact .testFull hat ‹_›
    · exact .testRoom hat (Bool.eq_false_iff.mpr ‹_›)
  · cases h
    exact .refsWrite ‹_›
  · cases h
    split
    · exact .giveUp ‹_› ‹_›
    · exact .againWrite ‹_›
  · obtain ⟨x, hcell, rfl⟩ := Option.map_eq_some_iff.mp h
    exact .store ‹_› hcell
  · cases h
    exact .advanceWrite ‹_›
  · cases h

theorem step_cases {ev : Event ρ ι} (h : step s ev = some s') : StepCases s ev s' := by
  cases ev with
  | read n =>
    simp only [step] at h
    split at h
    · cases h
      exact .read (And.left ‹_›) (And.right ‹_›)
    · cases h
  | reader => exact reader_cases h
  | interruptReader =>
    simp only [step, interruptReader] at h
    split at h
    · cases h
      exact .interruptReader ‹_›
    · cases h
  | write w buf =>
    simp only [step] at h
    split at h
    · cases h
      exact .write (And.left ‹_›) (And.right ‹_›)
    · cases h
  | writer w => exact writer_cases h
  | interruptWriter w =>
    simp only [step, interruptWriter] at h
    split at h
    · cases h
      exact .interruptWriter ‹_›
    · cases h
  | unmap =>
    obtain ⟨e, hend, rfl⟩ := Option.map_eq_some_iff.mp h
    exact .unmap hend
  | unmapSpare r =>
    obtain ⟨e, hend, rfl⟩ := Option.map_eq_some_iff.mp h
    exact .unmapSpare hend
  | unmapWrite w =>
    obtain ⟨e, hend, rfl⟩ := Option.map_eq_some_iff.mp h
    exact .unmapWrite hend

end counts

end jos.pipe
