-- Traps (`kern/trap.c`), the start of the machine (`kern/init.c` and
-- `env_create` of `kern/env.c`), and the machine as a whole: CPUs that run
-- user code, halt, and enter the kernel one at a time.
import Jos.Syscall
import Jos.Lib.Runs

namespace jos

open loop (forUpto)

/-! ## Trap numbers -/

def T_BRKPT : Word := 3
def T_PGFLT : Word := 14
def T_SYSCALL : Word := 48
def IRQ_TIMER : Word := 32
def IRQ_KBD : Word := 33
def IRQ_SERIAL : Word := 36
def IRQ_SPURIOUS : Word := 39

/-! ## Page faults -/

/-- The frame on the exception stack, as bytes. -/
def utrapframe (tf : Trapframe) (fault_va : Word) : List Byte :=
  let r := tf.tf_regs
  [fault_va, tf.tf_err, r.reg_edi, r.reg_esi, r.reg_ebp, r.reg_oesp, r.reg_ebx, r.reg_edx,
    r.reg_ecx, r.reg_eax, tf.tf_eip, tf.tf_eflags, tf.tf_esp].flatMap fun w =>
      [byteOf w 0, byteOf w 1, byteOf w 2, byteOf w 3]

def page_fault_handler (k : Kernel) (c : Nat) (tf : Trapframe) (fault_va : Word) : Res Unit :=
  if tf.tf_cs &&& 0x11 = 0 then .panic (.kernel_fault fault_va)
  else
    match k.curenv c with
    | none => .panic .null
    | some cur =>
      let k' := k.print (text "[" ++ hex8 (k.envs cur).env_id ++ text "] user fault va " ++
        hex8 fault_va ++ text " ip " ++ hex8 tf.tf_eip ++ text "\n")
      (if (k.envs cur).env_pgfault_upcall = 0 then env_destroy k' c cur else .ret () k).bind
        fun _ k =>
          let usertf : Word :=
            if tf.tf_esp < UXSTACKTOP ∧ tf.tf_esp ≥ UXSTACKTOP - 0x1000 then tf.tf_esp - 4 - 52
            else UXSTACKTOP - 52
          (user_mem_assert k c cur usertf 52 (PTE_U ||| PTE_P ||| PTE_W)).bind fun _ k =>
            match k.pm.storeBytes (k.cpus c).cr3 usertf (utrapframe tf fault_va) with
            | .error va => .panic (.kernel_fault va)
            | .ok pm =>
              let k := (k.withPm pm).setEnv cur fun env =>
                { env with env_tf :=
                  { env.env_tf with tf_esp := usertf, tf_eip := env.env_pgfault_upcall } }
              (env_run k c cur).noreturn

/-! ## Dispatch -/

def setEax (k : Kernel) (e : EnvIx) (r : Int) : Kernel :=
  k.setEnv e fun env =>
    { env with env_tf :=
      { env.env_tf with tf_regs := { env.env_tf.tf_regs with reg_eax := BitVec.ofInt 32 r } } }

def trap_dispatch (k : Kernel) (c : Nat) (tf : Trapframe) (cr2 : Word) : Res Unit :=
  if tf.tf_trapno = IRQ_SPURIOUS then .ret () k
  else if tf.tf_trapno = T_BRKPT then
    -- no command of the monitor ends it
    .stuck
  else if tf.tf_trapno = T_PGFLT then page_fault_handler k c tf cr2
  else if tf.tf_trapno = T_SYSCALL then
    match k.curenv c with
    | none => .panic .null
    | some cur =>
      let r := tf.tf_regs
      (syscall k c cur r.reg_eax r.reg_edx r.reg_ecx r.reg_ebx r.reg_edi r.reg_esi).bind
        fun ret k => .ret () (setEax k cur ret)
  else if tf.tf_trapno = IRQ_TIMER then (sched_yield k c).noreturn
  else if tf.tf_trapno = IRQ_KBD ∨ tf.tf_trapno = IRQ_SERIAL then .ret () k
  else if tf.tf_cs = GD_KT then .panic .unhandled_trap
  else
    match k.curenv c with
    | none => .panic .null
    | some cur => env_destroy k c cur

/-- The end of `trap`, when no other environment has been scheduled. -/
def trap_return (k : Kernel) (c : Nat) : Res Empty :=
  match k.curenv c with
  | some cur => if k.status cur = .ENV_RUNNING then env_run k c cur else sched_yield k c
  | none => sched_yield k c

/-- The part of `trap` for a trap from user mode, before the dispatch. -/
def trap_enter (k : Kernel) (c : Nat) (tf : Trapframe) : Res Unit :=
  match lock_kernel k c with
  | .error p => .panic p
  | .ok k =>
    match k.curenv c with
    | none => .panic .assert_curenv
    | some cur =>
      if k.status cur = .ENV_DYING then
        match env_free k c cur with
        | .error p => .panic p
        | .ok k => (sched_yield (k.setCurenv c none) c).noreturn
      else .ret () (k.setEnv cur fun env => { env with env_tf := tf })

def trap (k : Kernel) (c : Nat) (tf : Trapframe) (cr2 : Word) : Res Empty :=
  let halted := (k.cpus c).cpu_status = .CPU_HALTED
  let k := k.setCpu c fun cpu => { cpu with cpu_status := .CPU_STARTED }
  match if halted then lock_kernel k c else .ok k with
  | .error p => .panic p
  | .ok k =>
    (if tf.tf_cs &&& 3 = 3 then trap_enter k c tf else .ret () k).bind fun _ k =>
      (trap_dispatch k c tf cr2).bind fun _ k => trap_return k c

/-! ## The first environments -/

/-- The pages of `region_alloc`, from `vaBegin` on. -/
def region_alloc_pages (pgdir : Nat) (vaEnd : Word) : Nat → Word → Phys → Except Panic Phys
  | 0, _, s => .ok s
  | n + 1, vaBegin, s =>
    if vaBegin < vaEnd then
      match page_alloc s 0 with
      | .error p => .error p
      | .ok (none, _) => .error .region_alloc
      | .ok (some p, s) =>
        match page_insert s pgdir p vaBegin (PTE_W ||| PTE_U) with
        | .error p => .error p
        | .ok (r, s) =>
          if r ≠ 0 then .error .region_alloc
          else region_alloc_pages pgdir vaEnd n (vaBegin + 0x1000) s
    else .ok s

def region_alloc (s : Phys) (pgdir : Nat) (va len : Word) : Except Panic Phys :=
  region_alloc_pages pgdir (ROUNDUP (va + len) 0x1000) (2 ^ 20) (ROUNDDOWN va 0x1000) s

/-- The segments that a program file asks for, each as an address and a
size, and its entry point. The bytes of the file are left out. The files
are linked into the kernel, and all of them lie below `UTOP`. -/
structure Program where
  segments : List (Word × Word)
  e_entry : Word
  below : ∀ seg ∈ segments, seg.1.toNat + seg.2.toNat ≤ UTOP.toNat

/-- The memory that `load_icode` gives to a program: its segments, and a page
for the stack. -/
def load_icode (s : Phys) (pgdir : Nat) (prog : Program) : Except Panic Phys :=
  (prog.segments ++ [(USTACKTOP - 0x1000, 0x1000)]).foldlM
    (fun (s : Phys) (seg : Word × Word) => region_alloc s pgdir seg.1 seg.2) s

def env_create (k : Kernel) (prog : Program) (type : EnvType) : Except Panic Kernel :=
  match env_alloc k 0 with
  | .error p => .error p
  | .ok (.error r, _) => .error (.env_create r)
  | .ok (.ok e, k) =>
    match (k.envs e).env_pgdir with
    | none => .error .null
    | some pgdir =>
      match load_icode k.pm pgdir prog with
      | .error p => .error p
      | .ok pm =>
        .ok ((k.withPm pm).setEnv e fun env =>
          { env with
            env_type := type
            env_tf := { env.env_tf with
              tf_eip := prog.e_entry
              tf_eflags :=
                if type = .ENV_TYPE_FS then env.env_tf.tf_eflags ||| FL_IOPL_3
                else env.env_tf.tf_eflags } })

/-! ## The machine -/

/-- What happens next: the boot CPU makes an environment or leaves
`i386_init`, another CPU enters `mp_main`, a CPU traps in user mode or is
interrupted in `hlt`, or user code touches memory. -/
inductive Event
  | create (prog : Program) (type : EnvType)
  | boot
  | start (c : Nat)
  | trap (c : Nat) (tf : Trapframe) (cr2 : Word)
  | interrupt (c : Nat) (tf : Trapframe)
  | store (c : Nat) (va : Word) (b : Byte)
  | touch (c : Nat) (va : Word) (dirty : Bool)

/-- The state in which the CPU is out of the kernel again. -/
def out : Res Empty → Option Kernel
  | .left k => some k
  | _ => none

/-- The interrupts that reach a halted CPU. -/
def deviceInterrupt (trapno : Word) : Bool :=
  trapno == IRQ_TIMER || trapno == IRQ_KBD || trapno == IRQ_SERIAL || trapno == IRQ_SPURIOUS

/-- The MMU sets the accessed bit of an entry, and the dirty bit for a store. -/
def touchEntry (s : Phys) (d : Nat) (va : Word) (dirty : Bool) : Phys :=
  match pageOf (s.mem d (PDX va)) with
  | none => s
  | some t =>
    let w := s.mem t (PTX va)
    if present w then s.write t (PTX va) (w ||| if dirty then PTE_A ||| PTE_D else PTE_A) else s

/-- The kernel entered by CPU `c`: how it ends. It waits while another CPU is
in the kernel, so nothing is said then. -/
def enter (k : Kernel) : Event → Option (Res Empty)
  | .boot =>
    if (k.cpus 0).mode = .off ∧ k.kernel_lock = some 0 then some (sched_yield k 0) else none
  | .start c =>
    if c < k.ncpu ∧ (k.cpus c).mode = .off ∧ k.kernel_lock = none then
      match lock_kernel (k.setCpu c fun cpu => { cpu with cpu_status := .CPU_STARTED }) c with
      | .error p => some (.panic p)
      | .ok k => some (sched_yield k c)
    else none
  | .trap c tf cr2 =>
    if (k.cpus c).mode = .user ∧ k.kernel_lock = none ∧ tf.loadable then some (trap k c tf cr2)
    else none
  | .interrupt c tf =>
    if (k.cpus c).mode = .halted ∧ k.kernel_lock = none ∧ tf.tf_cs = GD_KT ∧
        deviceInterrupt tf.tf_trapno then some (trap k c tf 0)
    else none
  | _ => none

/-- One step of the machine. There is none where the event cannot happen,
and none from an entry to the kernel that panics or never ends. -/
def step (k : Kernel) : Event → Option Kernel
  | .create prog type =>
    if (k.cpus 0).mode = .off ∧ k.kernel_lock = some 0 then
      match env_create k prog type with
      | .ok k => some k
      | .error _ => none
    else none
  | .store c va b =>
    if (k.cpus c).mode = .user ∧ va < UTOP then
      (k.pm.store (k.cpus c).cr3 va (PTE_U ||| PTE_W) b).map k.withPm
    else none
  | .touch c va dirty =>
    if (k.cpus c).mode = .user ∧ va < UTOP then
      some (k.withPm (touchEntry k.pm (k.cpus c).cr3 va dirty))
    else none
  | ev => (enter k ev).bind out

/-- The state that the events of a run lead to. -/
abbrev runFrom : Kernel → List Event → Option Kernel := runs.runFrom step

end jos
