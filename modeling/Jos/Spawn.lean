-- `spawn` (`lib/spawn.c`): a program file is opened, a child is made, its stack
-- page is filled with the arguments, and the segments of the file are read into
-- pages for it, one at a time at `UTEMP`. What the kernel and the file server
-- answer to each call is a parameter.
import Jos.Answers
import Jos.Descriptors
import Jos.Serv
import Jos.Lib.Stateful

namespace jos.program

open blockstore (Mem)
open descriptor (MAXFD)

abbrev Byte := BitVec 8

/-- A string, without its NUL. -/
abbrev Str := List Byte

def UTEMP : Word := PTSIZE
def PTE_SHARE : Word := 0x400
def E_NOT_EXEC : Int := 14
def ELF_MAGIC : Word := 0x464C457F
def ELF_PROG_LOAD : Word := 1
def ELF_PROG_FLAG_WRITE : Word := 2

/-! ## The caller and its child -/

/-- Why a call does not return. -/
inductive Fault
  | panic (msg : String)
  /-- `init_stack` stores outside of the page at `UTEMP`. -/
  | stray
  /-- A program header is read where nothing is mapped. -/
  | unmapped
  /-- The loop of `map_segment` has been through the whole address space. -/
  | endless

structure Mapping where
  va : Word
  perm : Word
  page : Mem

/-- The environment that is made, with the pages mapped so far, the last one first. -/
structure Child where
  pages : List Mapping
  tf_eip : Word
  tf_esp : Word
  runnable : Bool

/-- The steps of `spawn` at which it can fail. -/
inductive Point
  | opening
  | header
  | exofork
  | stack
  /-- A `sys_page_alloc` of `map_segment`. -/
  | alloc
  /-- A `seek` or `readn` of `map_segment`. -/
  | file
deriving DecidableEq

/-- The open descriptors of the caller with their `fd_offset`, its page at `UTEMP`,
and the child. The last three fields are not in memory: the number of calls so
far, where in `elf_buf` program headers were looked for, and the step that failed. -/
structure State where
  fds : Fin MAXFD → Option Word
  utemp : Option Mem
  child : Option Child
  calls : Nat
  heads : List Word
  failed : Option Point

abbrev M := EStateM Fault State

/-- What the file server answers to reads of the program file. -/
structure File where
  read : Word → Nat → Except Int (List Byte)
  length_le : ∀ off n bs, read off n = .ok bs → bs.length ≤ n
  neg : ∀ off n r, read off n = .error r → r < 0

/-- The answer to each call: 0, or an error, which the code may have forgotten to
negate. -/
structure World where
  answers : Nat → Int
  file : File

/-- What `spawn` finds in the memory of its caller: where its buffer lies, what is
mapped around it, and the pages with `PTE_SHARE`. -/
structure Caller where
  elf_buf : Word
  mem : Word → Option Byte
  shared : List Mapping

/-! ## Calls -/

section

variable (w : World)

def answer : M Int := fun s => .ok (w.answers s.calls) { s with calls := s.calls + 1 }

/-- What the stub of a call makes of an answer. -/
def checked (num : Nat) (ret : Int) : M Int :=
  match lib_syscall num true ret with
  | .error msg => throw (.panic msg)
  | .ok r => pure r

def fail (p : Point) (r : Int) : M Int := do
  modify fun s => { s with failed := some p }
  pure r

def add_page (p : Mapping) : M Unit :=
  modify fun s => { s with child := s.child.map fun c => { c with pages := p :: c.pages } }

/-- `sys_page_alloc(0, UTEMP, PTE_P|PTE_U|PTE_W)` -/
def sys_page_alloc_temp : M Int := do
  let ret ← answer w
  let r ← checked 4 ret
  if r < 0 then pure r
  else do
    modify fun s => { s with utemp := some fun _ => 0 }
    pure 0

/-- `sys_page_alloc(child, va, perm)` -/
def sys_page_alloc (va perm : Word) : M Int := do
  let ret ← answer w
  let r ← checked 4 (if UTOP ≤ va then E_INVAL else ret)
  if r < 0 then pure r
  else do
    add_page ⟨va, perm, fun _ => 0⟩
    pure 0

/-- The kernel maps the page that it has found at `UTEMP`. -/
def map_page (va perm : Word) (ret : Int) : Option Mem → M Int
  | none => pure (-E_INVAL)
  | some page =>
    if UTOP ≤ va then pure (-E_INVAL)
    else if ret < 0 then pure ret
    else do
      add_page ⟨va, perm, page⟩
      pure 0

/-- `sys_page_map(0, UTEMP, child, va, perm)`, which has no answers above 0. -/
def sys_page_map (va perm : Word) : M Int := do
  let ret ← answer w
  let s ← get
  map_page va perm ret s.utemp

/-- `sys_page_unmap(0, UTEMP)` -/
def sys_page_unmap : M Int := do
  modify fun s => { s with utemp := none }
  pure 0

/-- An answer from 0 on is the id of the child. -/
def sys_exofork : M Int := do
  let ret ← answer w
  if ret < 0 then pure ret
  else do
    modify fun s => { s with child := some ⟨[], 0, 0, false⟩ }
    pure ret

def sys_env_destroy : M Unit := modify fun s => { s with child := none }

/-- `open(prog, O_RDONLY)` -/
def open_file (prog : Str) : M (Except Int (Fin MAXFD)) :=
  if fs.MAXPATHLEN ≤ prog.length then pure (.error (-fs.E_BAD_PATH))
  else do
    let s ← get
    -- `fd_alloc`
    match (List.finRange MAXFD).find? fun i => (s.fds i).isNone with
    | none => pure (.error (-fs.E_MAX_OPEN))
    | some fd => do
      let ret ← answer w
      if ret < 0 then pure (.error ret)
      else do
        modify fun s => { s with fds := Function.update s.fds fd (some 0) }
        pure (.ok fd)

def seek (fd : Fin MAXFD) (offset : Word) : M Int := do
  let s ← get
  match s.fds fd with
  | none => pure (-E_INVAL)
  | some _ => do
    modify fun s => { s with fds := Function.update s.fds fd (some offset) }
    pure 0

def read (fd : Fin MAXFD) (n : Nat) : M (Except Int (List Byte)) := do
  let s ← get
  match s.fds fd with
  | none => pure (.error (-E_INVAL))
  | some offset => do
    let ret ← answer w
    if ret < 0 then pure (.error ret)
    else match w.file.read offset n with
      | .error r => pure (.error r)
      | .ok bs => do
        modify fun s =>
          { s with fds := Function.update s.fds fd (some (offset + BitVec.ofNat 32 bs.length)) }
        pure (.ok bs)

/-- The bytes of a `readn` of at most `n`, or the error of one of its reads. A read
that is not at the end of the file gives at least one byte, so `n` reads are enough. -/
def readn (fd : Fin MAXFD) : Nat → Nat → M (Except Int (List Byte))
  | 0, _ => pure (.ok [])
  | k + 1, n =>
    if n = 0 then pure (.ok [])
    else do
      match ← read w fd n with
      | .error r => pure (.error r)
      | .ok bs =>
        if bs = [] then pure (.ok [])
        else do
          match ← readn fd k (n - bs.length) with
          | .error r => pure (.error r)
          | .ok rest => pure (.ok (bs ++ rest))

/-- `readn(fd, UTEMP, n)` -/
def readn_temp (fd : Fin MAXFD) (n : Nat) : M Int := do
  match ← readn w fd n n with
  | .error r => pure r
  | .ok bs => do
    modify fun s => { s with utemp := s.utemp.map fun page => page.store 0 bs }
    pure bs.length

/-- `close(fd)`. The Fd page is unmapped whatever the file server answers. -/
def close (fd : Fin MAXFD) : M Int := do
  let s ← get
  match s.fds fd with
  | none => pure (-E_INVAL)
  | some _ => do
    let ret ← answer w
    modify fun s => { s with fds := Function.update s.fds fd none }
    pure ret

/-! ## The stack -/

/-- The number of bytes for the strings, with their NULs. -/
def string_size (argv : List Str) : Word :=
  argv.foldl (fun n arg => n + BitVec.ofNat 32 (arg.length + 1)) 0

def UTEMP2USTACK (addr : Word) : Word := addr + (USTACKTOP - 0x1000) - UTEMP

/-- A store through an address of the page at `UTEMP`. -/
def poke (page : Mem) (va : Word) (bs : List Byte) : Except Fault Mem :=
  if UTEMP.toNat ≤ va.toNat ∧ va.toNat + bs.length ≤ UTEMP.toNat + PGSIZE then
    .ok (page.store (va.toNat - UTEMP.toNat) bs)
  else .error .stray

/-- The loop over the arguments from number `i` on. -/
def store_args (argv_store : Word) :
    List Str → Nat → Word → Mem → Except Fault (Word × Mem)
  | [], _, string_store, page => .ok (string_store, page)
  | arg :: rest, i, string_store, page => do
    let page ← poke page (argv_store + 4 * BitVec.ofNat 32 i)
      (ia32.bytes (UTEMP2USTACK string_store))
    let page ← poke page string_store (arg ++ [0])
    store_args argv_store rest (i + 1) (string_store + BitVec.ofNat 32 (arg.length + 1)) page

/-- `assert(string_store == (char*)UTEMP + PGSIZE)` -/
def assert_end (string_store : Word) : Except Fault Unit :=
  if string_store = UTEMP + 0x1000 then .ok ()
  else .error (.panic "assertion failed: string_store == (char*)UTEMP + PGSIZE")

/-- What `init_stack` stores in the new page. -/
def fill_stack (argv : List Str) (string_store argv_store : Word) (page : Mem) :
    Except Fault Mem := do
  let argc := BitVec.ofNat 32 argv.length
  let (string_store, page) ← store_args argv_store argv 0 string_store page
  let page ← poke page (argv_store + 4 * argc) (ia32.bytes 0)
  assert_end string_store
  let page ← poke page (argv_store - 4) (ia32.bytes (UTEMP2USTACK argv_store))
  poke page (argv_store - 8) (ia32.bytes argc)

/-- The stores go to the page that is mapped at `UTEMP`. -/
def fill_temp (argv : List Str) (string_store argv_store : Word) : M Unit := do
  let s ← get
  match s.utemp with
  | none => throw .stray
  | some page =>
    match fill_stack argv string_store argv_store page with
    | .error e => throw e
    | .ok page => set { s with utemp := some page }

def STACKPERM : Word := PTE_P ||| PTE_U ||| PTE_W

/-- Where the strings are placed. -/
def string_store (argv : List Str) : Word := UTEMP + 0x1000 - string_size argv

/-- Where the pointers to them are placed. -/
def argv_store (argv : List Str) : Word :=
  (string_store argv - string_store argv % 4) - 4 * BitVec.ofNat 32 (argv.length + 1)

/-- The second half of `init_stack`, with a page at `UTEMP`. Unmapping it does not fail, so
the error path does the same as the other one. -/
def map_stack (argv : List Str) : M (Int × Word) := do
  fill_temp argv (string_store argv) (argv_store argv)
  let r ← sys_page_map w (USTACKTOP - 0x1000) STACKPERM
  let _ ← sys_page_unmap
  pure (r, UTEMP2USTACK (argv_store argv - 8))

/-- The result, and `*init_esp`. -/
def init_stack (argv : List Str) : M (Int × Word) :=
  if argv_store argv - 8 < UTEMP then pure (-E_NO_MEM, 0)
  else do
    let r ← sys_page_alloc_temp w
    if r < 0 then pure (r, 0) else map_stack w argv

/-! ## Segments -/

section

variable (fd : Fin MAXFD) (va memsz filesz fileoffset perm : Word)

/-- The loop over the pages of a segment. -/
def map_pages : Nat → Word → M Int
  | 0, _ => throw .endless
  | n + 1, i =>
    if memsz ≤ i then pure 0
    else if filesz ≤ i then do
      let r ← sys_page_alloc w (va + i) perm
      if r < 0 then fail .alloc r else map_pages n (i + 0x1000)
    else do
      let r ← sys_page_alloc_temp w
      if r < 0 then fail .alloc r
      else do
        let r ← seek fd (fileoffset + i)
        if r < 0 then fail .file r
        else do
          let r ← readn_temp w fd (min PGSIZE (filesz - i).toNat)
          if r < 0 then fail .file r
          else do
            let r ← sys_page_map w (va + i) perm
            if r < 0 then throw (.panic "spawn: sys_page_map data")
            else do
              let _ ← sys_page_unmap
              map_pages n (i + 0x1000)

/-- The part of the first page before the segment is taken from the file too. -/
def map_segment : M Int :=
  let i := va % 0x1000
  map_pages w fd (va - i) (memsz + i) (filesz + i) (fileoffset - i) perm (2 ^ 20 + 1) 0

end

/-! ## Headers -/

/-- A byte at an offset from `elf_buf`, which holds `head`. -/
def Caller.byte (c : Caller) (head : List Byte) (off : Word) : Option Byte :=
  if off.toNat < 512 then head[off.toNat]? else c.mem (c.elf_buf + off)

def Caller.word (c : Caller) (head : List Byte) (off : Word) : Option Word :=
  (c.byte head off).bind fun b₀ => (c.byte head (off + 1)).bind fun b₁ =>
    (c.byte head (off + 2)).bind fun b₂ => (c.byte head (off + 3)).map fun b₃ =>
      ia32.join b₀ b₁ b₂ b₃

/-- The fields of `struct Proghdr` that are used. -/
structure Proghdr where
  p_type : Word
  p_offset : Word
  p_va : Word
  p_filesz : Word
  p_memsz : Word
  p_flags : Word

def Caller.proghdr (c : Caller) (head : List Byte) (ph p_type : Word) : Option Proghdr :=
  (c.word head (ph + 4)).bind fun p_offset => (c.word head (ph + 8)).bind fun p_va =>
    (c.word head (ph + 16)).bind fun p_filesz => (c.word head (ph + 20)).bind fun p_memsz =>
      (c.word head (ph + 24)).map fun p_flags =>
        ⟨p_type, p_offset, p_va, p_filesz, p_memsz, p_flags⟩

def Proghdr.perm (p : Proghdr) : Word :=
  if p.p_flags &&& ELF_PROG_FLAG_WRITE ≠ 0 then PTE_P ||| PTE_U ||| PTE_W else PTE_P ||| PTE_U

def load_segment (fd : Fin MAXFD) (p : Proghdr) : M Int :=
  map_segment w fd p.p_va p.p_memsz p.p_filesz p.p_offset p.perm

/-- The loop over the program headers, from the one at `ph` on. -/
def load_segments (c : Caller) (fd : Fin MAXFD) (head : List Byte) : Nat → Word → M Int
  | 0, _ => pure 0
  | n + 1, ph => do
    modify fun s => { s with heads := s.heads ++ [ph] }
    match c.word head ph with
    | none => throw .unmapped
    | some p_type =>
      if p_type ≠ ELF_PROG_LOAD then load_segments c fd head n (ph + 32)
      else match c.proghdr head ph p_type with
        | none => throw .unmapped
        | some p => do
          let r ← load_segment w fd p
          if r < 0 then pure r else load_segments c fd head n (ph + 32)

/-- The call for a page that the caller shares. It may fail, and nobody looks. -/
def copy_shared_pages : List Mapping → M Unit
  | [] => pure ()
  | p :: rest => do
    let ret ← answer w
    if ret < 0 then copy_shared_pages rest
    else do
      add_page { p with perm := PTE_SHARE ||| PTE_U ||| PTE_W ||| PTE_P }
      copy_shared_pages rest

/-- A call on the child that must not fail. -/
def must (num : Nat) (msg : String) (f : Child → Child) : M Unit := do
  let ret ← answer w
  let r ← checked num ret
  if r < 0 then throw (.panic msg)
  else modify fun s => { s with child := s.child.map f }

/-! ## The call -/

def e_magic (head : List Byte) : Word := Mem.word (fun i => head.getD i 0) 0

def e_entry (head : List Byte) : Word := Mem.word (fun i => head.getD i 0) 24

def e_phoff (head : List Byte) : Word := Mem.word (fun i => head.getD i 0) 28

def e_phnum (head : List Byte) : Nat := (head.getD 44 0).toNat + 256 * (head.getD 45 0).toNat

/-- `spawn` behind the loop over the headers, where all segments are loaded. -/
def start_child (c : Caller) (fd : Fin MAXFD) (child : Int) (eip esp : Word) : M Int := do
  let _ ← close w fd
  copy_shared_pages w c.shared
  must w 9 "sys_env_set_trapframe" fun c => { c with tf_eip := eip, tf_esp := esp }
  must w 8 "sys_env_set_status" fun c => { c with runnable := true }
  pure child

/-- `spawn` behind the check of the header. -/
def spawn_child (c : Caller) (argv : List Str) (fd : Fin MAXFD) (head : List Byte) : M Int := do
  let child ← sys_exofork w
  if child < 0 then fail .exofork child
  else do
    let (r, esp) ← init_stack w argv
    if r < 0 then fail .stack r
    else do
      let r ← load_segments w c fd head (e_phnum head) (e_phoff head)
      if r < 0 then do
        sys_env_destroy
        let _ ← close w fd
        pure r
      else start_child w c fd child (e_entry head) esp

/-- The header that `readn` has read, if it is one. -/
def headerOf : Except Int (List Byte) → Option (List Byte)
  | .error _ => none
  | .ok head => if head.length ≠ 512 ∨ e_magic head ≠ ELF_MAGIC then none else some head

def spawn (c : Caller) (prog : Str) (argv : List Str) : M Int := do
  match ← open_file w prog with
  | .error r => fail .opening r
  | .ok fd => do
    match headerOf (← readn w fd 512 512) with
    | none => do
      let _ ← close w fd
      fail .header (-E_NOT_EXEC)
    | some head => spawn_child w c argv fd head

end

end jos.program
