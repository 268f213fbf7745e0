-- Who runs: the big kernel lock (`kern/spinlock.c`), `env_run` and
-- `env_destroy` of `kern/env.c`, and the scheduler (`kern/sched.c`). These
-- functions are called with the lock held, and most of them do not return:
-- they leave the kernel.
import Jos.Env
import Jos.Lib.Outcome

namespace jos

open outcome (Outcome)

/-- How a function of the kernel ends: it returns, it leaves the kernel, it
never ends (the monitor), or it panics. -/
abbrev Res (α : Type) := Outcome Kernel Panic α

/-! ## The lock -/

/-- A CPU that finds the lock with another CPU waits, so this is called
when the lock is free, or held by the CPU itself. -/
def lock_kernel (k : Kernel) (c : Nat) : Except Panic Kernel :=
  if k.kernel_lock = some c then .error .spin_lock else .ok { k with kernel_lock := some c }

def unlock_kernel (k : Kernel) (c : Nat) : Except Panic Kernel :=
  if k.kernel_lock ≠ some c then .error .spin_unlock else .ok { k with kernel_lock := none }

/-! ## Leaving the kernel -/

/-- A selector that `popl %ds` and `popl %es` load: a null one, or one of the
user's segments. -/
def dataSelector (sel : BitVec 16) : Bool :=
  let seg := sel &&& ~~~3
  seg == 0 || seg == GD_UT || seg == GD_UD

/-- The frames with which `env_pop_tf` reaches user mode. A frame with the
`VM` flag goes to virtual 8086 mode, and is not followed there. -/
def Trapframe.loadable (tf : Trapframe) : Bool :=
  tf.tf_cs == GD_UT ||| 3 && tf.tf_ss == GD_UD ||| 3 && dataSelector tf.tf_ds &&
    dataSelector tf.tf_es && tf.tf_eflags &&& FL_VM == 0

def env_pop_tf (k : Kernel) (c : Nat) (e : EnvIx) : Res Empty :=
  let k := k.setEnv e fun env => { env with env_cpunum := c }
  if (k.envs e).env_tf.loadable then .left (k.setCpu c fun cpu => { cpu with mode := .user })
  else .panic .iret

def env_run (k : Kernel) (c : Nat) (e : EnvIx) : Res Empty :=
  -- the environment that ran here before, where there is one
  let k : Kernel :=
    match k.curenv c with
    | none => k.setCurenv c (some e)
    | some cur =>
      if (k.envs cur).env_status = .ENV_RUNNING then k.setStatus cur .ENV_RUNNABLE else k
  let k := k.setCurenv c (some e)
  let k := k.setStatus e .ENV_RUNNING
  let k := k.setEnv e fun env => { env with env_runs := env.env_runs + 1 }
  match (k.envs e).env_pgdir with
  | none => .panic .paddr
  | some pgdir =>
    match unlock_kernel (k.lcr3 c pgdir) c with
    | .error p => .panic p
    | .ok k => env_pop_tf k c e

/-- Whether `sched_halt` waits for the environment. -/
def EnvStatus.awaited : EnvStatus → Bool
  | .ENV_RUNNABLE => true
  | .ENV_RUNNING => true
  | .ENV_DYING => true
  | _ => false

def sched_halt (k : Kernel) (c : Nat) : Res Empty :=
  if (List.finRange NENV).all fun i => !(k.status i).awaited then
    -- `No runnable environments in the system!`, and the monitor for ever
    .stuck
  else
    let k := k.setCurenv c none
    let k := k.lcr3 c k.kern_pgdir
    let k := k.setCpu c fun cpu => { cpu with cpu_status := .CPU_HALTED }
    match unlock_kernel k c with
    | .error p => .panic p
    | .ok k => .left (k.setCpu c fun cpu => { cpu with mode := .halted })

/-- The search for an `ENV_RUNNABLE` environment, from `envVal` on, in `n` turns. -/
def nextRunnable (k : Kernel) : Nat → EnvIx → EnvIx
  | 0, envVal => envVal
  | n + 1, envVal =>
    if k.status envVal = .ENV_RUNNABLE then envVal else nextRunnable k n (envVal + 1)

def sched_yield (k : Kernel) (c : Nat) : Res Empty :=
  let start : EnvIx :=
    match k.curenv c with
    | some cur => cur + 1
    | none => 0
  let envVal := nextRunnable k NENV start
  if k.status envVal = .ENV_RUNNABLE then env_run k c envVal
  else
    match k.curenv c with
    | some cur => if k.status cur = .ENV_RUNNING then env_run k c cur else sched_halt k c
    | none => sched_halt k c

def env_destroy (k : Kernel) (c : Nat) (e : EnvIx) : Res Unit :=
  if k.status e = .ENV_RUNNING ∧ k.curenv c ≠ some e then .ret () (k.setStatus e .ENV_DYING)
  else
    match env_free k c e with
    | .error p => .panic p
    | .ok k =>
      if k.curenv c = some e then (sched_yield (k.setCurenv c none) c).noreturn else .ret () k

end jos
