-- Page faults of a user (`page_fault_handler` of `kern/trap.c`, as the user
-- sees it, and `_pgfault_upcall` of `lib/pfentry.S`), nested to any depth. The
-- instructions of the upcall run one at a time, and may fault themselves.
-- Handlers and the rest of the program are arbitrary code.
import Jos.Traps
import Jos.Lib.Ia32

namespace jos.upcall

open ia32 (Cpu Instr Reg Space State indexAt offset)

/-! ## The code -/

/-- `_pgfault_upcall`, with the address of the variable `_pgfault_handler`. -/
def pgfault_upcall (_pgfault_handler : Word) : List Instr :=
  [ .pushl .esp,
    .load (.abs _pgfault_handler) .eax,
    .call .eax,
    .addl 4 .esp,
    .load (.at 40 .esp) .eax,
    .movl .esp .ebx,
    .load (.at 48 .esp) .esp,
    .pushl .eax,
    .store .esp (.at 48 .ebx),
    .movl .ebx .esp,
    .addl 8 .esp,
    .popal,
    .addl 4 .esp,
    .popfl,
    .popl .esp,
    .ret ]

/-- The lowest address of the exception stack. -/
def UXSTACKBASE : Word := UXSTACKTOP - 0x1000

/-- The registers of a user in a trap frame. The other fields are those of
`rest`. -/
def trapframe (cpu : Cpu) (rest : Trapframe) : Trapframe :=
  { rest with
    tf_regs := {
      reg_edi := cpu.gpr .edi
      reg_esi := cpu.gpr .esi
      reg_ebp := cpu.gpr .ebp
      reg_oesp := rest.tf_regs.reg_oesp
      reg_ebx := cpu.gpr .ebx
      reg_edx := cpu.gpr .edx
      reg_ecx := cpu.gpr .ecx
      reg_eax := cpu.gpr .eax }
    tf_eip := cpu.eip
    tf_eflags := cpu.eflags
    tf_esp := cpu.gpr .esp }

/-- What a page fault does to the user, where there is room for the frame. -/
def deliver (env_pgfault_upcall : Word) (s : State) (rest : Trapframe) (fault_va : Word) :
    Option State :=
  let tf := trapframe s.toCpu rest
  (s.mem.storeBytes (usertf tf) (utrapframe tf fault_va)).map fun mem =>
    { s.set .esp (usertf tf) with eip := env_pgfault_upcall, mem := mem }

/-! ## The machine -/

/-- A page fault whose upcall has not returned: the registers at the fault, and
the address of the frame. -/
structure Level where
  trap : Cpu
  frame : Word

/-- The user, and the faults whose upcalls have not returned, the last one
first. -/
structure Machine where
  user : State
  live : List Level

/-- What happens next: an instruction of the upcall, a page fault, or other
code that runs for a while, up to the state `user`. -/
inductive Event
  | exec
  | fault (rest : Trapframe) (fault_va : Word)
  | other (user : State)

/-- The faults that are live after an instruction of the upcall. -/
def remaining : Instr → List Level → List Level
  | .ret, live => live.tail
  | _, live => live

theorem remaining_of_ne {i : Instr} (h : i ≠ .ret) (live : List Level) :
    remaining i live = live := by
  cases i <;> first | rfl | exact absurd rfl h

section Machine

-- the addresses of `_pgfault_upcall` and of `_pgfault_handler`
variable (base handler : Word)

/-- The instruction of the upcall at `eip`, by its number. -/
def index (eip : Word) : Option Nat := indexAt (pgfault_upcall handler) base eip

/-- The instruction of the upcall that comes next. -/
def current (s : State) : Option Instr :=
  (index base handler s.eip).bind fun n => (pgfault_upcall handler)[n]?

/-- One step. An instruction of the upcall faults where it has no result. Any
other code may fault at any time. -/
def step (m : Machine) : Event → Option Machine
  | .exec =>
    (current base handler m.user).bind fun i => (m.user.exec i).map fun s =>
      { user := s, live := remaining i m.live }
  | .fault rest fault_va =>
    if ((current base handler m.user).bind m.user.exec).isNone then
      (deliver base m.user rest fault_va).map fun s =>
        { user := s, live := ⟨m.user.toCpu, usertf (trapframe m.user.toCpu rest)⟩ :: m.live }
    else none
  | .other s => if (index base handler m.user.eip).isNone then some { m with user := s } else none

/-! ## The conditions -/

/-- The page of the exception stack is at no other address. -/
def Private (m : Space) : Prop :=
  ∀ a b, UXSTACKBASE ≤ a → a < UXSTACKTOP → m.cell a ≠ none → m.cell b = m.cell a → b = a

/-- Nothing can be written in the page below the exception stack. -/
def Guarded (m : Space) : Prop :=
  ∀ a, USTACKTOP ≤ a → a < UXSTACKBASE → m.writable a = false

/-- What can be read and written at the addresses of `P` is the same. -/
def Kept (P : Word → Prop) (m m' : Space) : Prop :=
  ∀ a, P a → m'.load a = m.load a ∧ m'.writable a = m.writable a

/-- The exception stack from `lo` up. -/
def From (lo a : Word) : Prop := lo ≤ a ∧ a < UXSTACKTOP

/-- The steps that the upcall is made for. A handler stays on the exception
stack, below its frame, leaves that frame and what is above it as it is, and
returns to the upcall with the stack that it was called with. Outside of
handlers `esp` is at most `USTACKTOP`. The word below the `esp` of the fault can
be written when the upcall is about to. -/
def Clean (m : Machine) : Event → Prop
  | .exec =>
    (index base handler m.user.eip = some 2 → index base handler (m.user.gpr .eax) = none)
  | .fault _ _ =>
    (index base handler m.user.eip = some 7 →
      ∀ i < 4, m.user.mem.writable (m.user.gpr .esp - 4 + BitVec.ofNat 32 i) = true) ∧
    match m.live with
    | [] => m.user.gpr .esp ≤ USTACKTOP
    | level :: _ => index base handler m.user.eip = none →
      UXSTACKBASE ≤ m.user.gpr .esp ∧ m.user.gpr .esp ≤ level.frame
  | .other s =>
    Private s.mem ∧ Guarded s.mem ∧
    match m.live with
    | [] => index base handler s.eip = none
    | level :: _ => Kept (From level.frame) m.user.mem s.mem ∧
      (index base handler s.eip = none ∨
        index base handler s.eip = some 3 ∧ s.gpr .esp = level.frame - 4)

end Machine

end jos.upcall
