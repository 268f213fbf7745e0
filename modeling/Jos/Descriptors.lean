-- The pages of file descriptors (`lib/fd.c`, `pipe` of `lib/pipe.c`, `fork` of
-- `lib/fork.c`, `copy_shared_pages` of `lib/spawn.c`, `exit` of `lib/exit.c`).
-- A descriptor has a page for its `struct Fd` and one for its data. Each call
-- maps and unmaps them one system call at a time, and the system calls of
-- different environments are taken in any order. All these pages have
-- `PTE_SHARE`, so `fork` and `spawn` map them into the child as they are.
import Jos.Lib.Runs

namespace jos.descriptor

def MAXFD : Nat := 32

instance : NeZero MAXFD := ⟨by decide⟩

abbrev Num := Fin MAXFD

/-- An address of the descriptor area. -/
inductive Addr
  | fd (i : Num)
  | data (i : Num)
deriving DecidableEq

/-- The descriptor area, from `FDTABLE` on. `FILEDATA` comes behind the last Fd page. -/
def area : List Addr := (List.finRange MAXFD).map .fd ++ (List.finRange MAXFD).map .data

/-! ## What a call has left to do -/

/-- The steps of the calls of environments `ε`. -/
inductive Op (ε : Type)
  /-- The call `sys_page_unmap(0, a)`. -/
  | unmap (a : Addr)
  /-- The call `sys_page_alloc(0, a, …)`. -/
  | alloc (a : Addr)
  /-- The call `sys_page_map(0, a, 0, b, …)`, and the unmappings when it fails. `dup` makes
  the call for the data only if there is a page at `a`. -/
  | map (must : Bool) (a b : Addr) (undo : List Addr)
  /-- The call `sys_page_map(0, a, child, a, …)`, if there is a page at `a`. `fork` panics when
  it fails, and `copy_shared_pages` goes on. -/
  | share (child : ε) (a : Addr) (panics : Bool)
  /-- In `pipe`, the two descriptors are filled in. -/
  | made (i j : Num)
  /-- The call `sys_env_set_status(child, ENV_RUNNABLE)`. -/
  | start (child : ε)
  /-- The call `sys_env_destroy(0)`. -/
  | destroy
  /-- The end of `env_free`. -/
  | free
deriving DecidableEq

inductive Status (ε : Type)
  | free
  | child (parent : ε)
  | live
  | dying
deriving DecidableEq

/-- The pages of a pipe that `pipe` has made: its two Fd pages and the data page. -/
structure PipePages where
  read : Nat
  write : Nat
  data : Nat
deriving DecidableEq

/-- Pages are numbered in the order in which they are allocated, from `next` on. A
page that is freed and allocated again gets a new number. -/
structure State (ε : Type) where
  maps : ε → Addr → Option Nat
  status : ε → Status ε
  todo : ε → List (Op ε)
  next : Nat
  pipes : List PipePages

section

variable {ε : Type}

/-! ## The calls -/

def fd_alloc (m : Addr → Option Nat) : Option Num :=
  (List.finRange MAXFD).find? fun i => m (.fd i) = none

def pipe (m : Addr → Option Nat) : List (Op ε) :=
  match fd_alloc m with
  | none => []
  | some i =>
    match fd_alloc (Function.update m (.fd i) (some 0)) with
    | none => [.alloc (.fd i), .unmap (.fd i)]
    | some j => [.alloc (.fd i), .alloc (.fd j), .alloc (.data i),
        .map true (.data i) (.data j) [.data i, .fd j, .fd i], .made i j]

/-- The page has a `struct Fd` with the device number of a pipe. -/
def isPipe (ps : List PipePages) (n : Nat) : Bool := ps.any fun p => p.read = n || p.write = n

/-- The function of the device comes first. That of a pipe is `devpipe_close`. -/
def close (ps : List PipePages) (m : Addr → Option Nat) (i : Num) : List (Op ε) :=
  match m (.fd i) with
  | none => []
  | some n =>
    (if isPipe ps n then [.unmap (.fd i), .unmap (.data i)] else []) ++ [.unmap (.fd i)]

def dup (ps : List PipePages) (m : Addr → Option Nat) (old new : Num) : List (Op ε) :=
  match m (.fd old) with
  | none => []
  | some _ => close ps m new ++
      [.map false (.data old) (.data new) [.fd new, .data new],
        .map true (.fd old) (.fd new) [.fd new, .data new]]

/-- The loop of `fork`, which calls `duppage`, or that of `copy_shared_pages`. -/
def shareAll (child : ε) (panics : Bool) : List (Op ε) :=
  (area.map fun a => .share child a panics) ++ [.start child]

def exit (ps : List PipePages) (m : Addr → Option Nat) : List (Op ε) :=
  (List.finRange MAXFD).flatMap (close ps m) ++ [.destroy]

/-- The pages go in the order of their addresses. -/
def env_free : List (Op ε) := area.map .unmap ++ [.free]

/-! ## Steps -/

/-- A call, the next step of a call (`room` says whether the kernel finds the memory
that it needs), or the end of an environment from outside. -/
inductive Event (ε : Type)
  | pipe (e : ε)
  | close (e : ε) (i : Num)
  | dup (e : ε) (old new : Num)
  | fork (e child : ε)
  | spawn (e child : ε)
  | exit (e : ε)
  | next (e : ε) (room : Bool)
  | kill (e : ε)

variable [DecidableEq ε]

def State.setTodo (s : State ε) (e : ε) (ops : List (Op ε)) : State ε :=
  { s with todo := Function.update s.todo e ops }

def State.setPage (s : State ε) (e : ε) (a : Addr) (o : Option Nat) : State ε :=
  { s with maps := Function.update s.maps e (Function.update (s.maps e) a o) }

def State.setStatus (s : State ε) (e : ε) (st : Status ε) : State ε :=
  { s with status := Function.update s.status e st }

/-- After `sys_exofork` comes the loop over the pages. The child has none yet. -/
def startChild (s : State ε) (e child : ε) (panics : Bool) : State ε :=
  { (s.setStatus child (.child e)).setTodo e (shareAll child panics) with
    maps := Function.update s.maps child fun _ => none }

/-- One step of environment `e`. A panic of a program ends in the kernel's monitor. -/
def exec (s : State ε) (e : ε) (room : Bool) : Op ε → List (Op ε) → Option (State ε)
  | .unmap a, rest => some ((s.setPage e a none).setTodo e rest)
  | .alloc a, rest =>
    -- without memory the call returns a positive number, and its stub panics
    if room then some { (s.setPage e a (some s.next)).setTodo e rest with next := s.next + 1 }
    else none
  | .map must a b undo, rest =>
    match s.maps e a with
    | none => some (s.setTodo e (if must then undo.map .unmap else rest))
    | some n =>
      if room then some ((s.setPage e b (some n)).setTodo e rest)
      else some (s.setTodo e (undo.map .unmap))
  | .share child a panics, rest =>
    match s.maps e a with
    | none => some (s.setTodo e rest)
    | some n =>
      if room ∧ s.status child = .child e then some ((s.setPage child a (some n)).setTodo e rest)
      else if panics then none
      else some (s.setTodo e rest)
  | .made i j, rest =>
    match s.maps e (.fd i), s.maps e (.fd j), s.maps e (.data i) with
    | some r, some w, some d => some { s.setTodo e rest with pipes := ⟨r, w, d⟩ :: s.pipes }
    | _, _, _ => none
  | .start child, rest =>
    if s.status child = .child e then some ((s.setStatus child .live).setTodo e rest) else none
  | .destroy, _ => some ((s.setStatus e .dying).setTodo e env_free)
  | .free, rest => some ((s.setStatus e .free).setTodo e rest)

/-- Environment `e` runs and is in no call. -/
def State.ready (s : State ε) (e : ε) : Prop := s.status e = .live ∧ s.todo e = []

instance (s : State ε) (e : ε) : Decidable (s.ready e) :=
  inferInstanceAs (Decidable (s.status e = .live ∧ s.todo e = []))

def step (s : State ε) : Event ε → Option (State ε)
  | .pipe e => if s.ready e then some (s.setTodo e (pipe (s.maps e))) else none
  | .close e i => if s.ready e then some (s.setTodo e (close s.pipes (s.maps e) i)) else none
  | .dup e old new =>
    if s.ready e then some (s.setTodo e (dup s.pipes (s.maps e) old new)) else none
  | .fork e child =>
    if s.ready e ∧ s.status child = .free then some (startChild s e child true) else none
  | .spawn e child =>
    if s.ready e ∧ s.status child = .free then some (startChild s e child false) else none
  | .exit e => if s.ready e then some (s.setTodo e (exit s.pipes (s.maps e))) else none
  | .next e room =>
    match s.todo e with
    | [] => none
    | op :: rest => exec s e room op rest
  | .kill e =>
    if s.status e = .free ∨ s.status e = .dying then none
    else some ((s.setStatus e .dying).setTodo e env_free)

/-! ## Reference counts -/

variable [Fintype ε]

/-- How often a page is mapped. -/
def State.pageref (s : State ε) (n : Nat) : Nat :=
  ∑ e, ∑ i, ((if s.maps e (.fd i) = some n then 1 else 0) +
    if s.maps e (.data i) = some n then 1 else 0)

end

end jos.descriptor
