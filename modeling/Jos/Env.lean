-- Environments, CPUs and the state of the kernel (`inc/env.h`, `inc/trap.h`,
-- `kern/cpu.h`), with the functions of `kern/env.c` that make and free an
-- environment. The kernel's own variables are fields of `Kernel`, and
-- physical memory is its field `pm`.
import Jos.Pmap
import Jos.Lib.Loop

namespace jos

open loop (forUpto)

/-! ## The data -/

def NENV : Nat := 1024

instance : NeZero NENV := ⟨by decide⟩

/-- `struct Env *`: an index in `envs`. -/
abbrev EnvIx := Fin NENV

inductive EnvStatus
  | ENV_FREE
  | ENV_DYING
  | ENV_RUNNABLE
  | ENV_RUNNING
  | ENV_NOT_RUNNABLE
deriving DecidableEq

inductive EnvType
  | ENV_TYPE_USER
  | ENV_TYPE_FS
deriving DecidableEq

/-- The registers that `pusha` saves. -/
structure PushRegs where
  reg_edi : Word
  reg_esi : Word
  reg_ebp : Word
  reg_oesp : Word
  reg_ebx : Word
  reg_edx : Word
  reg_ecx : Word
  reg_eax : Word
deriving DecidableEq

/-- `struct Trapframe`, without its padding. -/
structure Trapframe where
  tf_regs : PushRegs
  tf_es : BitVec 16
  tf_ds : BitVec 16
  tf_trapno : Word
  tf_err : Word
  tf_eip : Word
  tf_cs : BitVec 16
  tf_eflags : Word
  tf_esp : Word
  tf_ss : BitVec 16
deriving DecidableEq

structure Env where
  env_tf : Trapframe
  env_link : Option EnvIx
  env_id : Word
  env_parent_id : Word
  env_type : EnvType
  env_status : EnvStatus
  env_runs : Word
  env_cpunum : Nat
  env_pgdir : Option Nat
  env_pgfault_upcall : Word
  env_ipc_recving : Bool
  env_ipc_dstva : Word
  env_ipc_value : Word
  env_ipc_from : Word
  env_ipc_perm : Word
deriving DecidableEq

inductive CpuStatus
  | CPU_UNUSED
  | CPU_STARTED
  | CPU_HALTED
deriving DecidableEq

/-- Where a CPU is between two entries to the kernel: not started, in user
mode, or in the `hlt` of `sched_halt`. -/
inductive Mode
  | off
  | user
  | halted
deriving DecidableEq

/-- `struct CpuInfo`, with the page directory in `cr3` and the mode. -/
structure CpuInfo where
  cpu_status : CpuStatus
  cpu_env : Option EnvIx
  cr3 : Nat
  mode : Mode
deriving DecidableEq

/-- The state of the kernel. -/
structure Kernel where
  pm : Phys
  kern_pgdir : Nat
  envs : EnvIx → Env
  env_free_list : Option EnvIx
  ncpu : Nat
  cpus : Nat → CpuInfo
  /-- the CPU that holds the big kernel lock -/
  kernel_lock : Option Nat
  user_mem_check_addr : Word
  /-- what the console has printed, oldest first -/
  console : List (BitVec 8)
  /-- the characters typed and not yet read -/
  cons_input : List (BitVec 8)

namespace Kernel

variable (k : Kernel)

def withPm (pm : Phys) : Kernel := { k with pm := pm }

def setEnv (e : EnvIx) (f : Env → Env) : Kernel :=
  { k with envs := Function.update k.envs e (f (k.envs e)) }

def setCpu (c : Nat) (f : CpuInfo → CpuInfo) : Kernel :=
  { k with cpus := Function.update k.cpus c (f (k.cpus c)) }

def setStatus (e : EnvIx) (st : EnvStatus) : Kernel :=
  k.setEnv e fun env => { env with env_status := st }

/-- `curenv` on CPU `c`, and a store to it. -/
def curenv (c : Nat) : Option EnvIx := (k.cpus c).cpu_env

def setCurenv (c : Nat) (e : Option EnvIx) : Kernel :=
  k.setCpu c fun cpu => { cpu with cpu_env := e }

/-- `lcr3` on CPU `c`. -/
def lcr3 (c d : Nat) : Kernel := k.setCpu c fun cpu => { cpu with cr3 := d }

def status (e : EnvIx) : EnvStatus := (k.envs e).env_status

/-- The page directories of the environments. -/
def dir (e : EnvIx) : Option Nat := (k.envs e).env_pgdir

/-- The links of the free list. -/
def link (e : EnvIx) : Option EnvIx := (k.envs e).env_link

end Kernel

/-! ## Environment ids -/

def ENVX (envid : Word) : EnvIx := ⟨(envid &&& 0x3FF).toNat, by
  have h := and_low envid 10 (by omega)
  exact Nat.lt_of_le_of_lt (Nat.le_of_eq h) (Nat.mod_lt _ (by decide))⟩

/-- The environment of an id, for the environment `curenv`. -/
def envid2env (k : Kernel) (curenv : EnvIx) (envid : Word) (checkperm : Bool) :
    Except Int EnvIx :=
  if envid = 0 then .ok curenv
  else
    let e := ENVX envid
    if (k.envs e).env_status = .ENV_FREE ∨ (k.envs e).env_id ≠ envid then .error (-E_BAD_ENV)
    else if checkperm ∧ e ≠ curenv ∧ (k.envs e).env_parent_id ≠ (k.envs curenv).env_id then
      .error (-E_BAD_ENV)
    else .ok e

/-- The id that a slot with the id `env_id` gets next. -/
def nextId (env_id : Word) (e : EnvIx) : Word :=
  let generation := (env_id + 0x1000) &&& ~~~0x3FF
  let generation := if generation.toInt ≤ 0 then 0x1000 else generation
  generation ||| BitVec.ofNat 32 e

/-! ## The free list -/

/-- `&envs[i]` -/
def envAt (i : Nat) : EnvIx := Fin.ofNat NENV i

/-- One turn of the loop of `env_init`. -/
def env_init_slot (i : Nat) (k : Kernel) : Kernel :=
  let k := k.setEnv (envAt i) fun env => { env with env_id := 0, env_link := none }
  match k.env_free_list with
  | none => { k with env_free_list := some (envAt i) }
  | some _ => k.setEnv (envAt (i - 1)) fun env => { env with env_link := some (envAt i) }

/-- The first `n` turns. -/
def env_init_slots : Nat → Kernel → Kernel
  | 0, k => k
  | n + 1, k => env_init_slot n (env_init_slots n k)

def env_init (k : Kernel) : Kernel := env_init_slots NENV k

/-! ## Making an environment -/

def GD_KT : BitVec 16 := 0x08
def GD_UT : BitVec 16 := 0x18
def GD_UD : BitVec 16 := 0x20

def FL_IF : Word := 0x200
def FL_IOPL_MASK : Word := 0x3000
def FL_IOPL_3 : Word := 0x3000
def FL_VM : Word := 0x20000

/-- A page directory with the kernel's entries, and itself at `UVPT`. -/
def env_setup_vm (s : Phys) (kern_pgdir : Nat) : Except Panic (Option Nat × Phys) :=
  match page_alloc s ALLOC_ZERO with
  | .error p => .error p
  | .ok (none, s) => .ok (none, s)
  | .ok (some p, s) =>
    let s := s.setRef p ((s.pages p).pp_ref + 1)
    match page2kva s p with
    | .error p => .error p
    | .ok pgdir =>
      let s := { s with mem := Function.update s.mem pgdir fun i =>
        if i < NPTENTRIES then s.mem kern_pgdir i else s.mem pgdir i }
      .ok (some pgdir, s.write pgdir (PDX UVPT) (page2pa pgdir ||| PTE_P ||| PTE_U))

def PushRegs.zero : PushRegs := ⟨0, 0, 0, 0, 0, 0, 0, 0⟩

/-- The registers of a new environment. -/
def initialTf : Trapframe where
  tf_regs := .zero
  tf_es := GD_UD ||| 3
  tf_ds := GD_UD ||| 3
  tf_trapno := 0
  tf_err := 0
  tf_eip := 0
  tf_cs := GD_UT ||| 3
  tf_eflags := FL_IF
  tf_esp := USTACKTOP
  tf_ss := GD_UD ||| 3

/-- The slot of a new environment. The fields that `env_alloc` does not set
keep what the last environment of the slot left there. -/
def freshEnv (old : Env) (e : EnvIx) (parent_id : Word) (pgdir : Nat) : Env :=
  { old with
    env_pgdir := some pgdir
    env_id := nextId old.env_id e
    env_parent_id := parent_id
    env_type := .ENV_TYPE_USER
    env_status := .ENV_RUNNABLE
    env_runs := 0
    env_tf := initialTf
    env_pgfault_upcall := 0
    env_ipc_recving := false }

def env_alloc (k : Kernel) (parent_id : Word) : Except Panic (Except Int EnvIx × Kernel) :=
  match k.env_free_list with
  | none => .ok (.error (-E_NO_FREE_ENV), k)
  | some e =>
    match env_setup_vm k.pm k.kern_pgdir with
    | .error p => .error p
    | .ok (none, pm) => .ok (.error (-E_NO_MEM), k.withPm pm)
    | .ok (some pgdir, pm) =>
      .ok (.ok e, { (k.withPm pm).setEnv e (freshEnv · e parent_id pgdir) with
        env_free_list := (k.envs e).env_link })

/-! ## Freeing an environment -/

/-- The entries of page table `pt`, at place `pdeno` of its directory. -/
def env_free_ptes (pgdir pdeno pt : Nat) (s : Phys) : Except Panic Phys :=
  forUpto (fun pteno s =>
    if present (s.mem pt pteno) then page_remove s pgdir (PGADDR pdeno pteno 0) else .ok s)
    NPTENTRIES s

/-- One turn of the outer loop: a page table, with all its pages. -/
def env_free_pde (pgdir pdeno : Nat) (s : Phys) : Except Panic Phys :=
  let pde := s.mem pgdir pdeno
  if !present pde then .ok s
  else do
    let pa := PTE_ADDR pde
    let pt ← KADDR s pa
    let s ← env_free_ptes pgdir pdeno pt s
    let s := s.write pgdir pdeno 0
    let pp ← pa2page s pa
    page_decref s pp

/-- All that `env_free` does to the pages. -/
def env_free_pages (s : Phys) (pgdir : Nat) : Except Panic Phys := do
  let s ← forUpto (env_free_pde pgdir) (PDX UTOP) s
  let pp ← pa2page s (page2pa pgdir)
  page_decref s pp

/-- The slot of a freed environment. -/
def freedEnv (old : Env) (link : Option EnvIx) : Env :=
  { old with env_pgdir := none, env_status := .ENV_FREE, env_link := link }

def env_free (k : Kernel) (c : Nat) (e : EnvIx) : Except Panic Kernel :=
  let k := if k.curenv c = some e then k.lcr3 c k.kern_pgdir else k
  match (k.envs e).env_pgdir with
  | none => .error .null
  | some pgdir =>
    match env_free_pages k.pm pgdir with
    | .error p => .error p
    | .ok pm =>
      .ok { (k.withPm pm).setEnv e (freedEnv · k.env_free_list) with env_free_list := some e }

/-! ## A machine to start from -/

/-- Memory with `n` pages: page 1 is an empty `kern_pgdir`, and all pages from
page 2 on are free, in order. -/
def bootPhys (n : Nat) (hn : n ≤ 0x10000) : Phys where
  npages := n
  npages_le := hn
  pages := fun p => if p < 2 then ⟨none, 1⟩ else ⟨if p + 1 < n then some (p + 1) else none, 0⟩
  page_free_list := if 2 < n then some 2 else none
  mem := fun _ _ => 0

/-- A slot of `envs` as `mem_init` leaves it. -/
def zeroEnv : Env where
  env_tf := ⟨.zero, 0, 0, 0, 0, 0, 0, 0, 0, 0⟩
  env_link := none
  env_id := 0
  env_parent_id := 0
  env_type := .ENV_TYPE_USER
  env_status := .ENV_FREE
  env_runs := 0
  env_cpunum := 0
  env_pgdir := none
  env_pgfault_upcall := 0
  env_ipc_recving := false
  env_ipc_dstva := 0
  env_ipc_value := 0
  env_ipc_from := 0
  env_ipc_perm := 0

theorem pages_64 : 64 ≤ 0x10000 := by decide

/-- The kernel before `env_init`, with the boot CPU in the kernel. -/
def zeroKernel (n : Nat) (hn : n ≤ 0x10000) (ncpu : Nat) : Kernel where
  pm := bootPhys n hn
  kern_pgdir := 1
  envs := fun _ => zeroEnv
  env_free_list := none
  ncpu := ncpu
  cpus := fun _ => ⟨.CPU_UNUSED, none, 1, .off⟩
  kernel_lock := some 0
  user_mem_check_addr := 0
  console := []
  cons_input := []

/-! ## The fields after a store -/

namespace Kernel

variable (k : Kernel) (e : EnvIx) (f : Env → Env) (c d : Nat) (g : CpuInfo → CpuInfo) (pm : Phys)
  (st : EnvStatus) (o : Option EnvIx)

@[simp] theorem withPm_pm : (k.withPm pm).pm = pm := rfl
@[simp] theorem withPm_envs : (k.withPm pm).envs = k.envs := rfl
@[simp] theorem withPm_cpus : (k.withPm pm).cpus = k.cpus := rfl
@[simp] theorem withPm_lock : (k.withPm pm).kernel_lock = k.kernel_lock := rfl
@[simp] theorem withPm_kern_pgdir : (k.withPm pm).kern_pgdir = k.kern_pgdir := rfl
@[simp] theorem withPm_self : k.withPm k.pm = k := rfl

@[simp] theorem setEnv_pm : (k.setEnv e f).pm = k.pm := rfl
@[simp] theorem setEnv_envs :
    (k.setEnv e f).envs = Function.update k.envs e (f (k.envs e)) := rfl
@[simp] theorem setEnv_cpus : (k.setEnv e f).cpus = k.cpus := rfl
@[simp] theorem setEnv_free : (k.setEnv e f).env_free_list = k.env_free_list := rfl
@[simp] theorem setEnv_lock : (k.setEnv e f).kernel_lock = k.kernel_lock := rfl
@[simp] theorem setEnv_kern_pgdir : (k.setEnv e f).kern_pgdir = k.kern_pgdir := rfl

@[simp] theorem setCpu_pm : (k.setCpu c g).pm = k.pm := rfl
@[simp] theorem setCpu_envs : (k.setCpu c g).envs = k.envs := rfl
@[simp] theorem setCpu_cpus :
    (k.setCpu c g).cpus = Function.update k.cpus c (g (k.cpus c)) := rfl
@[simp] theorem setCpu_free : (k.setCpu c g).env_free_list = k.env_free_list := rfl
@[simp] theorem setCpu_lock : (k.setCpu c g).kernel_lock = k.kernel_lock := rfl
@[simp] theorem setCpu_kern_pgdir : (k.setCpu c g).kern_pgdir = k.kern_pgdir := rfl

theorem setEnv_status : (k.setEnv e f).status =
    Function.update k.status e (f (k.envs e)).env_status := by
  funext x; by_cases h : x = e <;> simp [status, setEnv, h]

theorem setEnv_link : (k.setEnv e f).link = Function.update k.link e (f (k.envs e)).env_link := by
  funext x; by_cases h : x = e <;> simp [link, setEnv, h]

theorem setEnv_dir : (k.setEnv e f).dir = Function.update k.dir e (f (k.envs e)).env_pgdir := by
  funext x; by_cases h : x = e <;> simp [dir, setEnv, h]

variable {k e f}

/-- A store that leaves a field of the slot alone. -/
theorem setEnv_status_same (h : (f (k.envs e)).env_status = (k.envs e).env_status) :
    (k.setEnv e f).status = k.status := by
  rw [setEnv_status, h]; exact Function.update_eq_self ..

theorem setEnv_link_same (h : (f (k.envs e)).env_link = (k.envs e).env_link) :
    (k.setEnv e f).link = k.link := by
  rw [setEnv_link, h]; exact Function.update_eq_self ..

theorem setEnv_dir_same (h : (f (k.envs e)).env_pgdir = (k.envs e).env_pgdir) :
    (k.setEnv e f).dir = k.dir := by
  rw [setEnv_dir, h]; exact Function.update_eq_self ..

end Kernel

end jos
