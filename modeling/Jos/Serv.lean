-- The file server (fs/serv.c): the table of open files and the handlers of
-- the requests. The clients share the Fd page of a file that they have open,
-- so they can change it, and they decide how often it is mapped.
import Mathlib
import Jos.Fs

namespace jos.fs

open blockstore ia32
open blockstore.Prog (loadByte loadBytes loadWord storeBytes storeWord)

def MAXOPEN : Nat := 1024
def MAXPATHLEN : Nat := 1024
def O_ACCMODE : Word := 0x0003#32
def O_CREAT : Word := 0x0100#32
def O_TRUNC : Word := 0x0200#32
def O_EXCL : Word := 0x0400#32
def E_MAX_OPEN : Int := 10

def FSREQ_OPEN : Word := 1#32
def FSREQ_SET_SIZE : Word := 2#32
def FSREQ_READ : Word := 3#32
def FSREQ_WRITE : Word := 4#32
def FSREQ_STAT : Word := 5#32
def FSREQ_FLUSH : Word := 6#32
def FSREQ_SYNC : Word := 8#32

/-! ## Open files -/

/-- `struct OpenFile`. The Fd page of slot `i` is at `FILEVA + i * PGSIZE`. -/
structure OpenFile where
  o_fileid : Word
  o_file : Nat
  o_mode : Word

/-- `struct Fd`. -/
structure Fd where
  fd_dev_id : Word
  fd_offset : Word
  fd_omode : Word
  id : Word

def Fd.zero : Fd := ⟨0, 0, 0, 0⟩

/-- The state of the server beside the disk map. `mapped i`: there is a page
at `opentab[i].o_fd`; `clients i`: how often clients map that page. -/
structure Server where
  opentab : Nat → OpenFile
  fd : Nat → Fd
  mapped : Nat → Bool
  clients : Nat → Nat

def serve_init : Server where
  opentab := fun i => ⟨BitVec.ofNat 32 i, 0, if i = 0 then 1 else 0⟩
  fd := fun _ => .zero
  mapped := fun _ => false
  clients := fun _ => 0

/-- `pageref(opentab[i].o_fd)`: the 16 bits of `pp_ref`. -/
def Server.pageref (s : Server) (i : Nat) : Nat :=
  if s.mapped i then (1 + s.clients i) % 2 ^ 16 else 0

/-- `sys_page_alloc` at the Fd page: a page that no client maps. -/
def Server.newPage (s : Server) (i : Nat) : Server :=
  { s with
    mapped := Function.update s.mapped i true
    clients := Function.update s.clients i 0 }

/-- `case 1` of `openfile_alloc`. -/
def Server.reuse (s : Server) (i : Nat) : Server :=
  { s with
    opentab := Function.update s.opentab i
      { s.opentab i with o_fileid := (s.opentab i).o_fileid + 1024#32 }
    fd := Function.update s.fd i .zero }

/-- The loop of `openfile_alloc`; `room` says whether `sys_page_alloc` gets a
page. If not the call returns a positive number, and its stub panics. -/
def openfile_alloc_from (s : Server) (room : Bool) : Nat → Nat → Io (Except Int Nat × Server)
  | 0, _ => pure (.error (-E_MAX_OPEN), s)
  | left + 1, i =>
    if s.pageref i = 0 then
      if room then pure (.ok i, (s.newPage i).reuse i) else .panic .positiveResult
    else if s.pageref i = 1 then pure (.ok i, s.reuse i)
    else openfile_alloc_from s room left (i + 1)

def openfile_alloc (s : Server) (room : Bool) : Io (Except Int Nat × Server) :=
  openfile_alloc_from s room MAXOPEN 0

def openfile_lookup (s : Server) (fileid : Word) : Except Int Nat :=
  let o := fileid.toNat % MAXOPEN
  if s.pageref o ≤ 1 ∨ (s.opentab o).o_fileid ≠ fileid then .error (-E_INVAL) else .ok o

/-! ## Requests -/

/-- The page of a request, at `fsreq`. -/
structure Page where
  bytes : Mem
  writable : Bool

/-- A store into the page. The page is not in the disk map, so a fault on it
ends the server. -/
def Page.write (p : Page) (a : Nat) (bs : List Byte) : Io Page :=
  if bs = [] ∨ p.writable then pure { p with bytes := p.bytes.store a bs } else .panic .pageFault

/-- What a handler returns: its result, the Fd page to be sent, the state and
the page of the request. -/
structure Reply where
  r : Int
  pg : Option Nat
  s : Server
  page : Page

def req_fileid (p : Page) : Word := p.bytes.word 0

/-- What follows `try_open:` and the creation of a file in `serve_open`. -/
def reopen (path : List Byte) (omode : Word) (f : Nat) : Io (Except Int Nat) := do
  if omode &&& O_TRUNC ≠ 0 then
    let r ← file_set_size f 0
    if r < 0 then pure (.error r) else file_open path
  else file_open path

def try_open (path : List Byte) (omode : Word) : Io (Except Int Nat) := do
  let f ← file_open path
  match f with
  | .error r => pure (.error r)
  | .ok f => reopen path omode f

def open_file (path : List Byte) (omode : Word) : Io (Except Int Nat) := do
  if omode &&& O_CREAT ≠ 0 then
    let f ← file_create path
    match f with
    | .error r =>
      if omode &&& O_EXCL = 0 ∧ r = -E_FILE_EXISTS then try_open path omode else pure (.error r)
    | .ok f => reopen path omode f
  else try_open path omode

/-- The end of `serve_open`: the file pointer is saved and the Fd filled out. -/
def Server.opened (s : Server) (o f : Nat) (omode : Word) : Server :=
  { s with
    opentab := Function.update s.opentab o { s.opentab o with o_file := f, o_mode := omode }
    fd := Function.update s.fd o
      { s.fd o with
        id := (s.opentab o).o_fileid
        fd_omode := omode &&& O_ACCMODE
        fd_dev_id := 102#32 } }

/-- The path of an open request, as a string of at most `MAXPATHLEN - 1` bytes. -/
def req_path (p : Page) : List Byte := (p.bytes.load 0 (MAXPATHLEN - 1)).takeWhile (· ≠ 0)

def req_omode (p : Page) : Word := p.bytes.word MAXPATHLEN

def serve_open (s : Server) (room : Bool) (p : Page) : Io Reply := do
  let a ← openfile_alloc s room
  match a.1 with
  | .error r => pure ⟨r, none, a.2, p⟩
  | .ok o =>
    -- the id is returned as an int
    let fileid := (a.2.opentab o).o_fileid.toInt
    if fileid < 0 then pure ⟨fileid, none, a.2, p⟩
    else
      let f ← open_file (req_path p) (req_omode p)
      match f with
      | .error r => pure ⟨r, none, a.2, p⟩
      | .ok f => pure ⟨0, some o, a.2.opened o f (req_omode p), p⟩

def serve_set_size (s : Server) (p : Page) : Io Reply :=
  match openfile_lookup s (req_fileid p) with
  | .error r => pure ⟨r, none, s, p⟩
  | .ok o => do
    let r ← file_set_size (s.opentab o).o_file (p.bytes.word 4)
    pure ⟨r, none, s, p⟩

/-- `o->o_fd->fd_offset += r`. -/
def Server.advance (s : Server) (o : Nat) (r : Int) : Server :=
  { s with
    fd := Function.update s.fd o
      { s.fd o with fd_offset := (s.fd o).fd_offset + BitVec.ofInt 32 r } }

/-- `MIN(req->req_n, PGSIZE)`, for reads and for writes. -/
def req_n (p : Page) : Word :=
  let n := p.bytes.word 4
  if n < 4096#32 then n else 4096#32

def serve_read (s : Server) (p : Page) : Io Reply :=
  match openfile_lookup s (req_fileid p) with
  | .error r => pure ⟨r, none, s, p⟩
  | .ok o => do
    let r ← file_read (s.opentab o).o_file (req_n p) (s.fd o).fd_offset
    let p ← p.write 0 r.2
    if r.1 < 0 then pure ⟨r.1, none, s, p⟩ else pure ⟨r.1, none, s.advance o r.1, p⟩

/-- The file size that `serve_write` sets before the call of `file_write`. -/
def grow_to (f : Nat) (newsize : Word) : Io Unit := do
  let size ← loadWord (f_size f)
  if size.toInt < newsize.toInt then storeWord (f_size f) newsize else pure ()

/-- The first `n` bytes at `req->req_buf`. There are 4088 in the page; the
page is just below `DISKMAP`, so the next ones are those of block 0. -/
def req_buf (p : Page) (n : Nat) : Io (List Byte) :=
  if n ≤ 4088 then pure (p.bytes.load 8 n)
  else do
    let past ← loadBytes 0 (n - 4088)
    pure (p.bytes.load 8 4088 ++ past)

def serve_write (s : Server) (p : Page) : Io Reply :=
  match openfile_lookup s (req_fileid p) with
  | .error r => pure ⟨r, none, s, p⟩
  | .ok o => do
    let f := (s.opentab o).o_file
    let offset := (s.fd o).fd_offset
    grow_to f (offset + req_n p)
    let buf ← req_buf p (req_n p).toNat
    let r ← file_write f buf (req_n p) offset
    if 0 < r then pure ⟨r, none, s.advance o r, p⟩ else pure ⟨r, none, s, p⟩

/-- The bytes that `strcpy` copies from `a`, of which the page has room for
`left`. -/
def loadString : Nat → Nat → Io (List Byte)
  | 0, _ => pure []
  | left + 1, a => do
    let c ← loadByte a
    if c = 0 then pure [c]
    else
      let cs ← loadString left (a + 1)
      pure (c :: cs)

def serve_stat (s : Server) (p : Page) : Io Reply :=
  match openfile_lookup s (req_fileid p) with
  | .error r => pure ⟨r, none, s, p⟩
  | .ok o => do
    let f := (s.opentab o).o_file
    let name ← loadString 4096 f
    let p ← p.write 0 name
    let size ← loadWord (f_size f)
    let p ← p.write 128 (bytes size)
    let ty ← loadWord (f_type f)
    let p ← p.write 132 (bytes (if ty = FTYPE_DIR then 1 else 0))
    pure ⟨0, none, s, p⟩

def serve_flush (s : Server) (p : Page) : Io Reply :=
  match openfile_lookup s (req_fileid p) with
  | .error r => pure ⟨r, none, s, p⟩
  | .ok o => do
    file_flush (s.opentab o).o_file
    pure ⟨0, none, s, p⟩

def serve_sync (s : Server) (p : Page) : Io Reply := do
  fs_sync
  pure ⟨0, none, s, p⟩

/-- The call of the handler in `serve`. There is none for `FSREQ_REMOVE`. -/
def handle (s : Server) (room : Bool) (req : Word) (p : Page) : Io Reply :=
  if req = FSREQ_OPEN then serve_open s room p
  else if req = FSREQ_SET_SIZE then serve_set_size s p
  else if req = FSREQ_READ then serve_read s p
  else if req = FSREQ_WRITE then serve_write s p
  else if req = FSREQ_STAT then serve_stat s p
  else if req = FSREQ_FLUSH then serve_flush s p
  else if req = FSREQ_SYNC then serve_sync s p
  else pure ⟨-E_INVAL, none, s, p⟩

/-! ## What clients do -/

/-- What happens to the server and to the Fd pages: a request, with what the
kernel gives to it, and what clients do with an Fd page that they map. -/
inductive ServEvent
  /-- `takes`: the client takes the page that is sent with the reply. -/
  | request (room takes : Bool) (req : Word) (p : Page)
  | setFd (o : Nat) (fd : Fd)
  | share (o : Nat)
  | drop (o : Nat)

/-- A client that takes the page of the reply has it mapped. -/
def Reply.taken (r : Reply) (takes : Bool) : Server :=
  match r.pg with
  | some o =>
    if takes then { r.s with clients := Function.update r.s.clients o (r.s.clients o + 1) } else r.s
  | none => r.s

/-- What a client does. It does so only with a page that it maps. -/
def Server.client (s : Server) : ServEvent → Option Server
  | .setFd o fd =>
    if 0 < s.clients o then some { s with fd := Function.update s.fd o fd } else none
  | .share o =>
    if 0 < s.clients o then
      some { s with clients := Function.update s.clients o (s.clients o + 1) }
    else none
  | .drop o =>
    if 0 < s.clients o then
      some { s with clients := Function.update s.clients o (s.clients o - 1) }
    else none
  | .request .. => none

/-- One event, with the blocks as plain memory; no state if the server stops. -/
def servStep (st : Server × Mem) : ServEvent → Option (Server × Mem)
  | .request room takes req p =>
    match (handle st.1 room req p).flat st.2 with
    | .ok r => some (r.1.taken takes, r.2)
    | .error _ => none
  | ev => (st.1.client ev).map fun s => (s, st.2)

variable {s s' : Server} {m m' : Mem} {p : Page}

theorem servStep_request {room takes : Bool} {req : Word} {st : Server × Mem}
    (h : servStep (s, m) (.request room takes req p) = some st) :
    ∃ r m', (handle s room req p).flat m = .ok (r, m') ∧ st = (r.taken takes, m') := by
  simp only [servStep] at h
  split at h
  · rename_i r hr
    cases h
    exact ⟨r.1, r.2, hr, rfl⟩
  · cases h

theorem servStep_client {ev : ServEvent} {st : Server × Mem} (h : servStep (s, m) ev = some st)
    (hev : ∀ room takes req p, ev ≠ .request room takes req p) :
    ∃ s', s.client ev = some s' ∧ st = (s', m) := by
  cases ev with
  | request room takes req p => exact absurd rfl (hev room takes req p)
  | setFd o fd =>
    obtain ⟨s', hs', rfl⟩ := Option.map_eq_some_iff.mp h
    exact ⟨s', hs', rfl⟩
  | share o =>
    obtain ⟨s', hs', rfl⟩ := Option.map_eq_some_iff.mp h
    exact ⟨s', hs', rfl⟩
  | drop o =>
    obtain ⟨s', hs', rfl⟩ := Option.map_eq_some_iff.mp h
    exact ⟨s', hs', rfl⟩

end jos.fs
