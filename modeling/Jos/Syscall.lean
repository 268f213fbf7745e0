-- The system calls (`kern/syscall.c`). Each call is made by the environment
-- `cur` on CPU `c`. A result is an `int`, and the errors that the code
-- returns without a minus sign are positive here too.
import Jos.UserMem

namespace jos

/-! ## The calls without pages -/

def sys_cputs (k : Kernel) (c : Nat) (cur : EnvIx) (s len : Word) : Res Unit :=
  (user_mem_assert k c cur s len (PTE_P ||| PTE_U)).bind fun _ k =>
    match (cprintf_s (k.pm.load (k.cpus c).cr3) s len).2 with
    | .done out => .ret () (k.print out)
    | .fault va => .panic (.kernel_fault va)
    | .endless => .stuck

def sys_cgetc (k : Kernel) : Res Int :=
  match k.cons_input with
  | [] => .ret 0 k
  | ch :: rest => .ret ch.toNat { k with cons_input := rest }

def sys_getenvid (k : Kernel) (cur : EnvIx) : Res Int := .ret (k.envs cur).env_id.toInt k

def sys_env_destroy (k : Kernel) (c : Nat) (cur : EnvIx) (envid : Word) : Res Int :=
  match envid2env k cur envid true with
  | .error r => .ret r k
  | .ok e => (env_destroy k c e).bind fun _ k => .ret 0 k

def sys_yield (k : Kernel) (c : Nat) : Res Int := (sched_yield k c).noreturn

def sys_exofork (k : Kernel) (cur : EnvIx) : Res Int :=
  match env_alloc k (k.envs cur).env_id with
  | .error p => .panic p
  | .ok (.error r, k) => .ret r k
  | .ok (.ok child, k) =>
    let tf := (k.envs cur).env_tf
    let k := k.setEnv child fun env =>
      { env with
        env_status := .ENV_NOT_RUNNABLE
        env_tf := { tf with tf_regs := { tf.tf_regs with reg_eax := 0 } } }
    .ret (k.envs child).env_id.toInt k

/-- The status that an `int` stands for, where it is one that
`sys_env_set_status` takes. -/
def settable (status : Word) : Option EnvStatus :=
  if status = 2 then some .ENV_RUNNABLE else if status = 4 then some .ENV_NOT_RUNNABLE else none

def sys_env_set_status (k : Kernel) (cur : EnvIx) (envid status : Word) : Res Int :=
  match envid2env k cur envid true with
  | .error r => .ret r k
  | .ok e =>
    match settable status with
    | some st => .ret 0 (k.setStatus e st)
    | none => .ret E_INVAL k

/-- The frame that `sys_env_set_trapframe` makes of the user's. -/
def userTf (tf : Trapframe) : Trapframe :=
  { tf with
    tf_ds := tf.tf_ds ||| 3
    tf_es := tf.tf_es ||| 3
    tf_ss := tf.tf_ss ||| 3
    tf_cs := tf.tf_cs ||| 3
    tf_eflags := (tf.tf_eflags ||| FL_IF) &&& ~~~FL_IOPL_MASK }

def sys_env_set_trapframe (k : Kernel) (c : Nat) (cur : EnvIx) (envid tf : Word) : Res Int :=
  match envid2env k cur envid true with
  | .error r => .panic (.set_trapframe r)
  | .ok e =>
    -- the pointer is not checked
    match loadTrapframe (k.pm.load (k.cpus c).cr3) tf with
    | .error va => .panic (.kernel_fault va)
    | .ok frame => .ret 0 (k.setEnv e fun env => { env with env_tf := userTf frame })

def sys_env_set_pgfault_upcall (k : Kernel) (cur : EnvIx) (envid func : Word) : Res Int :=
  match envid2env k cur envid true with
  | .error r => .ret r k
  | .ok e => .ret 0 (k.setEnv e fun env => { env with env_pgfault_upcall := func })

/-! ## The calls on pages -/

/-- The test of `perm` that three calls make: `!(perm & PTE_U) && !(perm &
PTE_P) && !(perm & ~PTE_SYSCALL)`. -/
def badPerm (perm : Word) : Bool :=
  perm &&& PTE_U == 0 && perm &&& PTE_P == 0 && perm &&& ~~~PTE_SYSCALL == 0

def unaligned (va : Word) : Bool := va % 0x1000 != 0

/-- `page_insert` in the directory of environment `e`, with what follows it. -/
def insertIn {α : Type} (k : Kernel) (e : EnvIx) (pp : Nat) (va perm : Word)
    (f : Int → Kernel → Res α) : Res α :=
  match (k.envs e).env_pgdir with
  | none => .panic .null
  | some pgdir =>
    match page_insert k.pm pgdir pp va perm with
    | .error p => .panic p
    | .ok (r, pm) => f r (k.withPm pm)

def sys_page_alloc (k : Kernel) (cur : EnvIx) (envid va perm : Word) : Res Int :=
  if va ≥ UTOP ∨ unaligned va then .ret E_INVAL k
  else if badPerm perm then .ret E_INVAL k
  else
    match page_alloc k.pm ALLOC_ZERO with
    | .error p => .panic p
    | .ok (none, pm) => .ret E_NO_MEM (k.withPm pm)
    | .ok (some newpage, pm) =>
      let k := k.withPm pm
      match envid2env k cur envid true with
      | .error code => .ret code k
      | .ok en =>
        insertIn k en newpage va perm fun code k =>
          if code < 0 then
            match page_free k.pm newpage with
            | .error p => .panic p
            | .ok pm => .ret code (k.withPm pm)
          else .ret 0 k

def sys_page_map (k : Kernel) (cur : EnvIx) (srcenvid srcva dstenvid dstva perm : Word) :
    Res Int :=
  match envid2env k cur srcenvid true with
  | .error r => .ret r k
  | .ok src_env =>
    match envid2env k cur dstenvid true with
    | .error r => .ret r k
    | .ok dst_env =>
      if srcva ≥ UTOP ∨ dstva ≥ UTOP then .ret (-E_INVAL) k
      else if unaligned srcva ∨ unaligned dstva then .ret (-E_INVAL) k
      else
        match (k.envs src_env).env_pgdir with
        | none => .panic .null
        | some pgdir =>
          match page_lookup k.pm pgdir srcva with
          | .error p => .panic p
          | .ok none => .ret (-E_INVAL) k
          | .ok (some (srcPage, pte_src)) =>
            if badPerm perm then .ret (-E_INVAL) k
            else if k.pm.mem pte_src.page pte_src.idx &&& PTE_W = 0 ∧ perm &&& PTE_W ≠ 0 then
              .ret (-E_INVAL) k
            else
              insertIn k dst_env srcPage dstva perm fun r k => if r < 0 then .ret r k else .ret 0 k

def sys_page_unmap (k : Kernel) (cur : EnvIx) (envid va : Word) : Res Int :=
  match envid2env k cur envid true with
  | .error r => .ret r k
  | .ok en =>
    if va ≥ UTOP ∨ unaligned va then .ret (-E_INVAL) k
    else
      match (k.envs en).env_pgdir with
      | none => .panic .null
      | some pgdir =>
        match page_remove k.pm pgdir va with
        | .error p => .panic p
        | .ok pm => .ret 0 (k.withPm pm)

/-! ## Messages -/

/-- The message arrives. -/
def deliver (k : Kernel) (cur target : EnvIx) (value perm : Word) : Kernel :=
  let sender := (k.envs cur).env_id
  k.setEnv target fun env =>
    { env with
      env_ipc_perm := perm
      env_ipc_recving := false
      env_ipc_from := sender
      env_tf := { env.env_tf with tf_regs := { env.env_tf.tf_regs with reg_eax := 0 } }
      env_ipc_value := value
      env_status := .ENV_RUNNABLE }

def sys_ipc_try_send (k : Kernel) (cur : EnvIx) (envid value srcva perm : Word) : Res Int :=
  match envid2env k cur envid false with
  | .error _ => .ret (-E_BAD_ENV) k
  | .ok target =>
    if !(k.envs target).env_ipc_recving then .ret (-E_IPC_NOT_RECV) k
    else if srcva < UTOP ∧ (k.envs target).env_ipc_dstva < UTOP then
      if unaligned srcva then .ret (-E_INVAL) k
      else if badPerm perm then .ret (-E_INVAL) k
      else
        match (k.envs cur).env_pgdir with
        | none => .panic .null
        | some pgdir =>
          match page_lookup k.pm pgdir srcva with
          | .error p => .panic p
          | .ok none => .ret (-E_INVAL) k
          | .ok (some (srcpage, pte)) =>
            if perm &&& PTE_W ≠ 0 ∧ k.pm.mem pte.page pte.idx &&& PTE_W = 0 then .ret (-E_INVAL) k
            else if (k.envs target).env_ipc_dstva ≠ 0 then
              insertIn k target srcpage (k.envs target).env_ipc_dstva perm fun r k =>
                if r < 0 then .ret (-E_NO_MEM) k else .ret 0 (deliver k cur target value perm)
            else .ret 0 (deliver k cur target value perm)
    else .ret 0 (deliver k cur target value 0)

def sys_ipc_recv (k : Kernel) (c : Nat) (cur : EnvIx) (dstva : Word) : Res Int :=
  if dstva < UTOP ∧ unaligned dstva then .ret (-E_INVAL) k
  else
    let k := if dstva < UTOP then k.setEnv cur fun env => { env with env_ipc_dstva := dstva } else k
    let k := k.setEnv cur fun env =>
      { env with env_ipc_recving := true, env_status := .ENV_NOT_RUNNABLE }
    (sched_yield k c).noreturn

/-! ## The dispatcher -/

def SYS_cputs : Word := 0
def SYS_cgetc : Word := 1
def SYS_getenvid : Word := 2
def SYS_env_destroy : Word := 3
def SYS_page_alloc : Word := 4
def SYS_page_map : Word := 5
def SYS_page_unmap : Word := 6
def SYS_exofork : Word := 7
def SYS_env_set_status : Word := 8
def SYS_env_set_trapframe : Word := 9
def SYS_env_set_pgfault_upcall : Word := 10
def SYS_yield : Word := 11
def SYS_ipc_try_send : Word := 12
def SYS_ipc_recv : Word := 13

def syscall (k : Kernel) (c : Nat) (cur : EnvIx) (syscallno a1 a2 a3 a4 a5 : Word) : Res Int :=
  if syscallno = SYS_cputs then (sys_cputs k c cur a1 a2).bind fun _ k => .ret 0 k
  else if syscallno = SYS_cgetc then sys_cgetc k
  else if syscallno = SYS_getenvid then sys_getenvid k cur
  else if syscallno = SYS_env_destroy then sys_env_destroy k c cur a1
  else if syscallno = SYS_yield then sys_yield k c
  else if syscallno = SYS_exofork then sys_exofork k cur
  else if syscallno = SYS_env_set_status then sys_env_set_status k cur a1 a2
  else if syscallno = SYS_page_alloc then sys_page_alloc k cur a1 a2 a3
  else if syscallno = SYS_page_map then sys_page_map k cur a1 a2 a3 a4 a5
  else if syscallno = SYS_page_unmap then sys_page_unmap k cur a1 a2
  else if syscallno = SYS_env_set_pgfault_upcall then sys_env_set_pgfault_upcall k cur a1 a2
  else if syscallno = SYS_ipc_try_send then sys_ipc_try_send k cur a1 a2 a3 a4
  else if syscallno = SYS_ipc_recv then sys_ipc_recv k c cur a1
  else if syscallno = SYS_env_set_trapframe then sys_env_set_trapframe k c cur a1 a2
  else .panic (.syscall syscallno)

end jos
