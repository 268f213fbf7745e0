-- What the system calls do, said once: how a CPU leaves the kernel, and
-- what each call has done when it returns or leaves. Every result about
-- whole runs is read off these cases.
import Jos.Syscall
import Jos.EnvIds

namespace jos

open outcome (Outcome)

/-! ## Leaving the kernel -/

namespace Kernel

/-- The environment that was on CPU `c` goes back among the runnable ones. -/
def demote (k : Kernel) (c : Nat) : Kernel :=
  match k.curenv c with
  | none => k
  | some cur => if k.status cur = .ENV_RUNNING then k.setStatus cur .ENV_RUNNABLE else k

/-- CPU `c` in user mode, with environment `e`. -/
def switch (k : Kernel) (c : Nat) (e : EnvIx) (pgdir : Nat) : Kernel :=
  { ((k.demote c).setEnv e fun env =>
      { env with
        env_status := .ENV_RUNNING
        env_runs := env.env_runs + 1
        env_cpunum := c }).setCpu c fun cpu =>
      { cpu with cpu_env := some e, cr3 := pgdir, mode := .user } with
    kernel_lock := none }

/-- CPU `c` in `hlt`. -/
def halt (k : Kernel) (c : Nat) : Kernel :=
  { k.setCpu c fun cpu =>
      { cpu with
        cpu_env := none
        cr3 := k.kern_pgdir
        cpu_status := .CPU_HALTED
        mode := .halted } with
    kernel_lock := none }

variable (k : Kernel) (c : Nat) (e : EnvIx) (pgdir : Nat)

@[simp] theorem demote_pm : (k.demote c).pm = k.pm := by
  unfold demote; split
  · rfl
  · split <;> rfl

@[simp] theorem demote_cpus : (k.demote c).cpus = k.cpus := by
  unfold demote; split
  · rfl
  · split <;> rfl

@[simp] theorem demote_free : (k.demote c).env_free_list = k.env_free_list := by
  unfold demote; split
  · rfl
  · split <;> rfl

@[simp] theorem demote_lock : (k.demote c).kernel_lock = k.kernel_lock := by
  unfold demote; split
  · rfl
  · split <;> rfl

@[simp] theorem demote_kern_pgdir : (k.demote c).kern_pgdir = k.kern_pgdir := by
  unfold demote; split
  · rfl
  · split <;> rfl

theorem demote_status (x : EnvIx) : (k.demote c).status x =
    if k.curenv c = some x ∧ k.status x = .ENV_RUNNING then .ENV_RUNNABLE else k.status x := by
  unfold demote
  rcases hc : k.curenv c with _ | cur
  · simp
  · by_cases hx : x = cur
    · subst hx
      by_cases hr : k.status x = .ENV_RUNNING
      · simp [hr, setStatus, setEnv_status]
      · simp [hr]
    · have : ¬ (some cur = some x ∧ k.status x = .ENV_RUNNING) := by
        rintro ⟨h, -⟩; exact hx (Option.some.inj h).symm
      rw [if_neg this]
      simp only
      split
      · simp [setStatus, setEnv_status, hx]
      · rfl

/-- Only the status of a slot may be other than it was. -/
theorem demote_env (x : EnvIx) :
    (k.demote c).envs x = { k.envs x with env_status := (k.demote c).status x } := by
  unfold demote
  rcases k.curenv c with _ | cur
  · rfl
  · simp only
    split
    · by_cases hx : x = cur <;> simp [setStatus, status, hx]
    · rfl

@[simp] theorem demote_link : (k.demote c).link = k.link := by
  funext x; simp only [link, demote_env]

@[simp] theorem demote_dir : (k.demote c).dir = k.dir := by
  funext x; simp only [dir, demote_env]

@[simp] theorem switch_pm : (k.switch c e pgdir).pm = k.pm := by simp [switch]
@[simp] theorem switch_free : (k.switch c e pgdir).env_free_list = k.env_free_list := by
  simp [switch]
@[simp] theorem switch_kern_pgdir : (k.switch c e pgdir).kern_pgdir = k.kern_pgdir := by
  simp [switch]

@[simp] theorem switch_cpus : (k.switch c e pgdir).cpus = Function.update k.cpus c
    { k.cpus c with cpu_env := some e, cr3 := pgdir, mode := .user } := by
  simp [switch]

theorem switch_envs : (k.switch c e pgdir).envs = Function.update (k.demote c).envs e
    { (k.demote c).envs e with
      env_status := .ENV_RUNNING
      env_runs := ((k.demote c).envs e).env_runs + 1
      env_cpunum := c } := rfl

theorem switch_status : (k.switch c e pgdir).status =
    Function.update (k.demote c).status e .ENV_RUNNING := by
  funext x; by_cases h : x = e <;> simp [status, switch_envs, h]

@[simp] theorem switch_link : (k.switch c e pgdir).link = k.link := by
  rw [← demote_link k c]
  funext x; by_cases h : x = e <;> simp [link, switch_envs, h]

@[simp] theorem switch_dir : (k.switch c e pgdir).dir = k.dir := by
  rw [← demote_dir k c]
  funext x; by_cases h : x = e <;> simp [dir, switch_envs, h]

end Kernel

/-- The ways out of the kernel for CPU `c`: to an environment that is runnable
or was running there, or to `hlt` when there is none. -/
inductive Leaves (k : Kernel) (c : Nat) : Kernel → Prop
  | run {e : EnvIx} {pgdir : Nat} (hlock : k.kernel_lock = some c) (hdir : k.dir e = some pgdir)
      (hready : k.status e = .ENV_RUNNABLE ∨ (k.curenv c = some e ∧ k.status e = .ENV_RUNNING))
      (hload : (k.envs e).env_tf.loadable = true) : Leaves k c (k.switch c e pgdir)
  | halt (hlock : k.kernel_lock = some c)
      (hidle : ∀ cur, k.curenv c = some cur → k.status cur ≠ .ENV_RUNNING) :
      Leaves k c (k.halt c)

/-- The first store of `env_run`. -/
def Kernel.displace (k : Kernel) (c : Nat) (e : EnvIx) : Kernel :=
  match k.curenv c with
  | none => k.setCurenv c (some e)
  | some cur => if (k.envs cur).env_status = .ENV_RUNNING then k.setStatus cur .ENV_RUNNABLE else k

/-- The rest of `env_run`, from the second store to `curenv` on. -/
def env_run_rest (k : Kernel) (c : Nat) (e : EnvIx) : Res Empty :=
  let k := (k.setStatus e .ENV_RUNNING).setEnv e fun env => { env with env_runs := env.env_runs + 1 }
  match (k.envs e).env_pgdir with
  | none => .panic .paddr
  | some pgdir =>
    match unlock_kernel (k.lcr3 c pgdir) c with
    | .error p => .panic p
    | .ok k => env_pop_tf k c e

/-- `env_run` as one step. It stores to `curenv` twice where there was none. -/
theorem env_run_eq (k : Kernel) (c : Nat) (e : EnvIx) : env_run k c e =
    match k.dir e with
    | none => .panic .paddr
    | some pgdir =>
      if k.kernel_lock ≠ some c then .panic .spin_unlock
      else if (k.envs e).env_tf.loadable then .left (k.switch c e pgdir) else .panic .iret := by
  have hcur : (k.displace c e).setCurenv c (some e) = (k.demote c).setCurenv c (some e) := by
    unfold Kernel.demote Kernel.displace
    rcases k.curenv c with _ | cur
    · simp [Kernel.setCurenv, Kernel.setCpu]
    · rfl
  have htf : ((k.demote c).envs e).env_tf = (k.envs e).env_tf := by rw [Kernel.demote_env]
  have hdir : ((k.demote c).envs e).env_pgdir = k.dir e := by rw [Kernel.demote_env]; rfl
  have hlock : (k.demote c).kernel_lock = k.kernel_lock := Kernel.demote_lock ..
  change env_run_rest ((k.displace c e).setCurenv c (some e)) c e = _
  rw [hcur]
  simp only [env_run_rest, Kernel.setStatus, Kernel.setCurenv, Kernel.setEnv_envs,
    Kernel.setCpu_envs, Function.update_self, hdir]
  rcases k.dir e with _ | pgdir
  · rfl
  · simp only [unlock_kernel, Kernel.lcr3, Kernel.setCpu_lock, Kernel.setEnv_lock, hlock]
    by_cases hl : k.kernel_lock = some c
    · simp only [hl, ne_eq, not_true_eq_false, if_false, env_pop_tf]
      simp [Kernel.setEnv, Kernel.setCpu, htf, Kernel.switch]
    · simp [hl]

theorem env_run_leaves {k k' : Kernel} {c : Nat} {e : EnvIx} (h : env_run k c e = .left k')
    (hready : k.status e = .ENV_RUNNABLE ∨ (k.curenv c = some e ∧ k.status e = .ENV_RUNNING)) :
    Leaves k c k' := by
  rw [env_run_eq] at h
  split at h
  · cases h
  · rename_i pgdir hdir
    split at h
    · cases h
    · rename_i hlock
      split at h
      · cases h
        exact .run (not_not.mp hlock) hdir hready ‹_›
      · cases h

theorem sched_halt_eq (k : Kernel) (c : Nat) : sched_halt k c =
    if (List.finRange NENV).all fun i => !(k.status i).awaited then .stuck
    else if k.kernel_lock ≠ some c then .panic .spin_unlock else .left (k.halt c) := by
  unfold sched_halt unlock_kernel
  split
  · rfl
  · by_cases hl : k.kernel_lock = some c
    · simp [hl, Kernel.setCurenv, Kernel.lcr3, Kernel.setCpu, Kernel.halt]
    · simp [hl, Kernel.setCurenv, Kernel.lcr3]

theorem sched_halt_leaves {k k' : Kernel} {c : Nat} (h : sched_halt k c = .left k')
    (hidle : ∀ cur, k.curenv c = some cur → k.status cur ≠ .ENV_RUNNING) : Leaves k c k' := by
  rw [sched_halt_eq] at h
  split at h
  · cases h
  · split at h
    · cases h
    · rename_i hlock
      cases h
      exact .halt (not_not.mp hlock) hidle

theorem sched_yield_leaves {k k' : Kernel} {c : Nat} (h : sched_yield k c = .left k') :
    Leaves k c k' := by
  rcases hc : k.curenv c with _ | cur
  · simp only [sched_yield, hc] at h
    split at h
    · exact env_run_leaves h (Or.inl ‹_›)
    · exact sched_halt_leaves h (by simp [hc])
  · simp only [sched_yield, hc] at h
    split at h
    · exact env_run_leaves h (Or.inl ‹_›)
    · split at h
      · exact env_run_leaves h (Or.inr ⟨hc, ‹_›⟩)
      · rename_i hr
        exact sched_halt_leaves h (by simpa [hc] using hr)

/-! ## Destroying an environment -/

/-- The state after CPU `c` has freed environment `e`, which was running there. -/
def Kernel.vacate (k : Kernel) (c : Nat) (e : EnvIx) (pm : Phys) : Kernel :=
  (k.release c e pm).setCurenv c none

/-- `pm` is memory after the pages of environment `e` have been freed. -/
def FreesPages (k : Kernel) (e : EnvIx) (pm : Phys) : Prop :=
  ∃ pgdir, k.dir e = some pgdir ∧ env_free_pages k.pm pgdir = .ok pm

/-- `env_destroy` marks an environment that runs on another CPU, and frees any
other. One that runs on this CPU is freed for good. -/
theorem env_destroy_holds (k : Kernel) (c : Nat) (e : EnvIx) :
    (env_destroy k c e).Holds
      (fun _ k' => k.curenv c ≠ some e ∧
        ((k.status e = .ENV_RUNNING ∧ k' = k.setStatus e .ENV_DYING) ∨
          (k.status e ≠ .ENV_RUNNING ∧ ∃ pm, FreesPages k e pm ∧ k' = k.release c e pm)))
      (fun k' => k.curenv c = some e ∧ ∃ pm, FreesPages k e pm ∧ Leaves (k.vacate c e pm) c k')
      (fun _ => True) := by
  unfold env_destroy
  split
  · rename_i h
    exact ⟨h.2, Or.inl ⟨h.1, rfl⟩⟩
  · rename_i hnot
    rcases hf : env_free k c e with p | k₁
    · trivial
    · obtain ⟨pgdir, pm, hdir, hpages, rfl⟩ := env_free_cases hf
      have hfrees : FreesPages k e pm := ⟨pgdir, hdir, hpages⟩
      simp only [Kernel.release_curenv]
      split
      · rename_i hc
        exact Outcome.holds_noreturn_of_left fun k' hy => ⟨hc, pm, hfrees, sched_yield_leaves hy⟩
      · rename_i hc
        exact ⟨hc, Or.inr ⟨fun hr => hnot ⟨hr, hc⟩, pm, hfrees, rfl⟩⟩

/-! ## The calls -/

/-- A system call with its arguments. -/
inductive Call
  | cputs (s len : Word)
  | cgetc
  | getenvid
  | env_destroy (envid : Word)
  | page_alloc (envid va perm : Word)
  | page_map (srcenvid srcva dstenvid dstva perm : Word)
  | page_unmap (envid va : Word)
  | exofork
  | env_set_status (envid status : Word)
  | env_set_trapframe (envid tf : Word)
  | env_set_pgfault_upcall (envid func : Word)
  | yield
  | ipc_try_send (envid value srcva perm : Word)
  | ipc_recv (dstva : Word)
  | unknown (syscallno : Word)
deriving DecidableEq

namespace Call

/-- The call that the registers ask for. -/
def of (syscallno a1 a2 a3 a4 a5 : Word) : Call :=
  if syscallno = SYS_cputs then cputs a1 a2
  else if syscallno = SYS_cgetc then cgetc
  else if syscallno = SYS_getenvid then getenvid
  else if syscallno = SYS_env_destroy then env_destroy a1
  else if syscallno = SYS_yield then yield
  else if syscallno = SYS_exofork then exofork
  else if syscallno = SYS_env_set_status then env_set_status a1 a2
  else if syscallno = SYS_page_alloc then page_alloc a1 a2 a3
  else if syscallno = SYS_page_map then page_map a1 a2 a3 a4 a5
  else if syscallno = SYS_page_unmap then page_unmap a1 a2
  else if syscallno = SYS_env_set_pgfault_upcall then env_set_pgfault_upcall a1 a2
  else if syscallno = SYS_ipc_try_send then ipc_try_send a1 a2 a3 a4
  else if syscallno = SYS_ipc_recv then ipc_recv a1
  else if syscallno = SYS_env_set_trapframe then env_set_trapframe a1 a2
  else unknown syscallno

/-- The function behind a call. -/
def run (k : Kernel) (c : Nat) (cur : EnvIx) : Call → Res Int
  | cputs s len => (sys_cputs k c cur s len).bind fun _ k => .ret 0 k
  | cgetc => sys_cgetc k
  | getenvid => sys_getenvid k cur
  | env_destroy envid => sys_env_destroy k c cur envid
  | page_alloc envid va perm => sys_page_alloc k cur envid va perm
  | page_map srcenvid srcva dstenvid dstva perm =>
    sys_page_map k cur srcenvid srcva dstenvid dstva perm
  | page_unmap envid va => sys_page_unmap k cur envid va
  | exofork => sys_exofork k cur
  | env_set_status envid status => sys_env_set_status k cur envid status
  | env_set_trapframe envid tf => sys_env_set_trapframe k c cur envid tf
  | env_set_pgfault_upcall envid func => sys_env_set_pgfault_upcall k cur envid func
  | yield => sys_yield k c
  | ipc_try_send envid value srcva perm => sys_ipc_try_send k cur envid value srcva perm
  | ipc_recv dstva => sys_ipc_recv k c cur dstva
  | unknown syscallno => .panic (.syscall syscallno)

end Call

/-- The dispatcher runs the call that the registers ask for. -/
theorem syscall_eq (k : Kernel) (c : Nat) (cur : EnvIx) (syscallno a1 a2 a3 a4 a5 : Word) :
    syscall k c cur syscallno a1 a2 a3 a4 a5 =
      (Call.of syscallno a1 a2 a3 a4 a5).run k c cur := by
  simp only [syscall, Call.of, apply_ite (Call.run k c cur)]
  rfl

/-! ## What a call has done -/

/-- Only the console, and what the last check of a user's range has noted,
may differ. -/
def Quiet (k k' : Kernel) : Prop :=
  ∃ addr out inp, k' = { k with user_mem_check_addr := addr, console := out, cons_input := inp }

theorem Quiet.refl (k : Kernel) : Quiet k k := ⟨_, _, _, rfl⟩

theorem Quiet.trans {k k₁ k₂ : Kernel} (h : Quiet k k₁) (h' : Quiet k₁ k₂) : Quiet k k₂ := by
  obtain ⟨_, _, _, rfl⟩ := h
  obtain ⟨addr, out, inp, rfl⟩ := h'
  exact ⟨addr, out, inp, rfl⟩

/-- `page_alloc` has given page `p`, and `page_insert` has been asked to put it
at `va` of environment `e`. -/
structure Fresh (k : Kernel) (e : EnvIx) (va perm : Word) (p : Nat) (r : Int) (pm : Phys) :
    Prop where
  va_lt : va < UTOP
  perm_ok : badPerm perm = false
  insert : ∃ pm₀ d, page_alloc k.pm ALLOC_ZERO = .ok (some p, pm₀) ∧ k.dir e = some d ∧
    page_insert pm₀ d p va perm = .ok (r, pm)

/-- Page `p` has been found at `srcva` of environment `src`, writable there if
`perm` asks for it, and `page_insert` has been asked to put it at `dstva`
of environment `dst`. -/
structure Grant (k : Kernel) (src dst : EnvIx) (srcva dstva perm : Word) (p : Nat) (r : Int)
    (pm : Phys) : Prop where
  srcva_lt : srcva < UTOP
  dstva_lt : dstva < UTOP
  perm_ok : badPerm perm = false
  source : ∃ d pte, k.dir src = some d ∧ page_lookup k.pm d srcva = .ok (some (p, pte)) ∧
    (perm &&& PTE_W ≠ 0 → k.pm.mem pte.page pte.idx &&& PTE_W ≠ 0)
  insert : ∃ d, k.dir dst = some d ∧ page_insert k.pm d p dstva perm = .ok (r, pm)

namespace Kernel

/-- The state after `sys_exofork` has made `child`. -/
def fork (k : Kernel) (cur child : EnvIx) (pgdir : Nat) (pm : Phys) : Kernel :=
  let k := k.enlist child (k.envs cur).env_id pgdir pm
  let tf := (k.envs cur).env_tf
  k.setEnv child fun env =>
    { env with
      env_status := .ENV_NOT_RUNNABLE
      env_tf := { tf with tf_regs := { tf.tf_regs with reg_eax := 0 } } }

/-- The state in which `sys_ipc_recv` gives up the CPU. -/
def receive (k : Kernel) (cur : EnvIx) (dstva : Word) : Kernel :=
  k.setEnv cur fun env =>
    { env with
      env_ipc_dstva := if dstva < UTOP then dstva else env.env_ipc_dstva
      env_ipc_recving := true
      env_status := .ENV_NOT_RUNNABLE }

variable (k : Kernel) (cur child : EnvIx) (pgdir : Nat) (pm : Phys)

theorem fork_status : (k.fork cur child pgdir pm).status =
    Function.update k.status child .ENV_NOT_RUNNABLE := by
  rw [fork, setEnv_status, enlist_status, Function.update_idem]

theorem fork_link : (k.fork cur child pgdir pm).link = k.link := by
  rw [fork, setEnv_link_same rfl, enlist_link]

theorem fork_dir : (k.fork cur child pgdir pm).dir =
    Function.update k.dir child (some pgdir) := by
  rw [fork, setEnv_dir_same rfl, enlist_dir]

end Kernel

theorem deliver_dir (k : Kernel) (cur target : EnvIx) (value perm : Word) :
    (deliver k cur target value perm).dir = k.dir := by
  unfold deliver
  exact Kernel.setEnv_dir_same rfl

/-- The call is one of those that change page tables. -/
def Call.onPages : Call → Bool
  | .page_alloc .. | .page_map .. | .page_unmap .. | .ipc_try_send .. => true
  | _ => false

/-- What a send to `target` that succeeds has done. -/
inductive Sent (k : Kernel) (cur target : EnvIx) (value srcva perm : Word) : Kernel → Prop
  /-- the sender has no page, or the receiver no place for it -/
  | plain (hno : ¬ (srcva < UTOP ∧ (k.envs target).env_ipc_dstva < UTOP)) :
      Sent k cur target value srcva perm (deliver k cur target value 0)
  /-- the address 0 of the receiver is taken for no address -/
  | nowhere (hsrc : srcva < UTOP) (hperm : badPerm perm = false)
      (hdst : (k.envs target).env_ipc_dstva = 0) :
      Sent k cur target value srcva perm (deliver k cur target value perm)
  | page {p : Nat} {pm : Phys}
      (hg : Grant k cur target srcva (k.envs target).env_ipc_dstva perm p 0 pm)
      (hdst : (k.envs target).env_ipc_dstva ≠ 0) :
      Sent k cur target value srcva perm (deliver (k.withPm pm) cur target value perm)

/-- Whatever was sent, the message is in the slot of the target. -/
theorem Sent.envs {k k' : Kernel} {cur target : EnvIx} {value srcva perm : Word}
    (h : Sent k cur target value srcva perm k') :
    ∃ perm', k'.envs = Function.update k.envs target { k.envs target with
        env_ipc_perm := perm'
        env_ipc_recving := false
        env_ipc_from := (k.envs cur).env_id
        env_tf := { (k.envs target).env_tf with
          tf_regs := { (k.envs target).env_tf.tf_regs with reg_eax := 0 } }
        env_ipc_value := value
        env_status := .ENV_RUNNABLE } := by
  cases h with
  | plain | nowhere | page => exact ⟨_, rfl⟩

theorem Sent.cpus {k k' : Kernel} {cur target : EnvIx} {value srcva perm : Word}
    (h : Sent k cur target value srcva perm k') : k'.cpus = k.cpus := by
  cases h with
  | plain | nowhere | page => rfl

/-- What a call by `cur` on CPU `c` has done when it returns a value. -/
inductive Effect (k : Kernel) (c : Nat) (cur : EnvIx) : Call → Int → Kernel → Prop
  | quiet {call : Call} {r : Int} {k' : Kernel} (hcall : call.onPages = false)
      (hq : Quiet k k') : Effect k c cur call r k'
  | refused {call : Call} {r : Int} (hr : r ≠ 0) : Effect k c cur call r k
  | dying {envid : Word} {e : EnvIx} (he : envid2env k cur envid true = .ok e)
      (hother : k.curenv c ≠ some e) (hrun : k.status e = .ENV_RUNNING) :
      Effect k c cur (.env_destroy envid) 0 (k.setStatus e .ENV_DYING)
  | freed {envid : Word} {e : EnvIx} {pm : Phys} (he : envid2env k cur envid true = .ok e)
      (hother : k.curenv c ≠ some e) (hrun : k.status e ≠ .ENV_RUNNING)
      (hpages : FreesPages k e pm) : Effect k c cur (.env_destroy envid) 0 (k.release c e pm)
  | fork {child : EnvIx} {pgdir : Nat} {pm : Phys} {r : Int} (hfree : k.env_free_list = some child)
      (hvm : env_setup_vm k.pm k.kern_pgdir = .ok (some pgdir, pm)) :
      Effect k c cur .exofork r (k.fork cur child pgdir pm)
  | status {envid status : Word} {e : EnvIx} {st : EnvStatus}
      (he : envid2env k cur envid true = .ok e) (hst : settable status = some st) :
      Effect k c cur (.env_set_status envid status) 0 (k.setStatus e st)
  | trapframe {envid tf : Word} {e : EnvIx} {frame : Trapframe}
      (he : envid2env k cur envid true = .ok e)
      (hload : loadTrapframe (k.pm.load (k.cpus c).cr3) tf = .ok frame) :
      Effect k c cur (.env_set_trapframe envid tf) 0
        (k.setEnv e fun env => { env with env_tf := userTf frame })
  | upcall {envid func : Word} {e : EnvIx} (he : envid2env k cur envid true = .ok e) :
      Effect k c cur (.env_set_pgfault_upcall envid func) 0
        (k.setEnv e fun env => { env with env_pgfault_upcall := func })
  /-- the page has been taken, and the environment is refused -/
  | lost {envid va perm : Word} {p : Nat} {pm : Phys} {r : Int}
      (halloc : page_alloc k.pm ALLOC_ZERO = .ok (some p, pm))
      (he : envid2env k cur envid true = .error r) :
      Effect k c cur (.page_alloc envid va perm) r (k.withPm pm)
  | alloc {envid va perm : Word} {e : EnvIx} {p : Nat} {r : Int} {pm : Phys}
      (he : envid2env k cur envid true = .ok e) (hf : Fresh k e va perm p r pm) (hr : ¬ r < 0) :
      Effect k c cur (.page_alloc envid va perm) 0 (k.withPm pm)
  /-- there is no page for a page table, and the page goes back -/
  | unalloc {envid va perm : Word} {e : EnvIx} {p : Nat} {r : Int} {pm pm' : Phys}
      (he : envid2env k cur envid true = .ok e) (hf : Fresh k e va perm p r pm) (hr : r < 0)
      (hfree : page_free pm p = .ok pm') :
      Effect k c cur (.page_alloc envid va perm) r (k.withPm pm')
  | map {srcenvid srcva dstenvid dstva perm : Word} {src dst : EnvIx} {p : Nat} {r : Int}
      {pm : Phys} (hsrc : envid2env k cur srcenvid true = .ok src)
      (hdst : envid2env k cur dstenvid true = .ok dst)
      (hg : Grant k src dst srcva dstva perm p r pm) (hr : ¬ r < 0) :
      Effect k c cur (.page_map srcenvid srcva dstenvid dstva perm) 0 (k.withPm pm)
  /-- there is no page for a page table -/
  | nomap {srcenvid srcva dstenvid dstva perm : Word} {src dst : EnvIx} {p : Nat} {r : Int}
      {pm : Phys} (hsrc : envid2env k cur srcenvid true = .ok src)
      (hdst : envid2env k cur dstenvid true = .ok dst)
      (hg : Grant k src dst srcva dstva perm p r pm) (hr : r < 0) :
      Effect k c cur (.page_map srcenvid srcva dstenvid dstva perm) r (k.withPm pm)
  | unmap {envid va : Word} {e : EnvIx} {d : Nat} {pm : Phys}
      (he : envid2env k cur envid true = .ok e) (hva : va < UTOP) (hdir : k.dir e = some d)
      (hrem : page_remove k.pm d va = .ok pm) :
      Effect k c cur (.page_unmap envid va) 0 (k.withPm pm)
  /-- a message without a page -/
  | send {envid value srcva perm perm' : Word} {target : EnvIx}
      (he : envid2env k cur envid false = .ok target)
      (hrecv : (k.envs target).env_ipc_recving = true)
      (hno : ¬ (srcva < UTOP ∧ (k.envs target).env_ipc_dstva < UTOP ∧
        (k.envs target).env_ipc_dstva ≠ 0)) :
      Effect k c cur (.ipc_try_send envid value srcva perm) 0 (deliver k cur target value perm')
  | unsend {envid value srcva perm : Word} {target : EnvIx} {p : Nat} {r : Int} {pm : Phys}
      (he : envid2env k cur envid false = .ok target)
      (hg : Grant k cur target srcva (k.envs target).env_ipc_dstva perm p r pm) (hr : r < 0) :
      Effect k c cur (.ipc_try_send envid value srcva perm) (-E_NO_MEM) (k.withPm pm)
  | sendPage {envid value srcva perm : Word} {target : EnvIx} {p : Nat} {r : Int} {pm : Phys}
      (he : envid2env k cur envid false = .ok target)
      (hrecv : (k.envs target).env_ipc_recving = true)
      (hdst : (k.envs target).env_ipc_dstva ≠ 0)
      (hg : Grant k cur target srcva (k.envs target).env_ipc_dstva perm p r pm) (hr : ¬ r < 0) :
      Effect k c cur (.ipc_try_send envid value srcva perm) 0
        (deliver (k.withPm pm) cur target value perm)

/-- What a call has done when it gives up the CPU. -/
inductive Exit (k : Kernel) (c : Nat) (cur : EnvIx) : Call → Kernel → Prop
  | yield : Exit k c cur .yield k
  | receive {dstva : Word} : Exit k c cur (.ipc_recv dstva) (k.receive cur dstva)
  | destroyed {call : Call} {k₁ : Kernel} {pm : Phys} (hq : Quiet k k₁)
      (hpages : FreesPages k₁ cur pm) : Exit k c cur call (k₁.vacate c cur pm)

/-! ## Each call has one of these effects -/

section calls

variable (k : Kernel) (c : Nat) (cur : EnvIx)

/-- How the call `call` may end. -/
abbrev Ends (call : Call) (r : Res Int) : Prop :=
  r.Holds (fun r k' => Effect k c cur call r k')
    (fun k' => ∃ k₁, Exit k c cur call k₁ ∧ Leaves k₁ c k') fun _ => True

variable {k c cur}

theorem user_mem_check_quiet {e : EnvIx} {va len perm : Word} {r : Int} {k' : Kernel}
    (h : user_mem_check k e va len perm = .ok (r, k')) : Quiet k k' := by
  unfold user_mem_check at h
  split at h
  · cases h
  · split at h <;> cases h
    · exact Quiet.refl k
    · exact ⟨_, _, _, rfl⟩

/-- A check that fails destroys the caller. -/
theorem user_mem_assert_holds (hcur : k.curenv c = some cur) (va len perm : Word) :
    (user_mem_assert k c cur va len perm).Holds (fun _ k' => Quiet k k')
      (fun k' => ∃ k₁ pm, Quiet k k₁ ∧ FreesPages k₁ cur pm ∧ Leaves (k₁.vacate c cur pm) c k')
      fun _ => True := by
  unfold user_mem_assert
  split
  · trivial
  · rename_i r k₁ hcheck
    have hq := user_mem_check_quiet hcheck
    split
    · obtain ⟨addr, out, inp, rfl⟩ := hq
      refine (env_destroy_holds _ c cur).mono (fun _ k' h => ?_) (fun k' h => ?_) fun _ _ => trivial
      · exact absurd hcur h.1
      · obtain ⟨-, pm, hpages, hleave⟩ := h
        exact ⟨_, pm, ⟨_, _, _, rfl⟩, hpages, hleave⟩
    · exact hq

theorem sys_cputs_ends (hcur : k.curenv c = some cur) (s len : Word) :
    Ends k c cur (.cputs s len) ((sys_cputs k c cur s len).bind fun _ k => .ret 0 k) := by
  refine Outcome.Holds.bind (P := fun _ k' => Quiet k k') ?_ fun _ k' hq => .quiet rfl hq
  refine Outcome.Holds.bind (P := fun _ k' => Quiet k k') ?_ fun _ k₁ hq => ?_
  · refine (user_mem_assert_holds hcur s len _).mono (fun _ _ h => h) (fun k' h => ?_) fun _ h => h
    obtain ⟨k₁, pm, hq, hpages, hleave⟩ := h
    exact ⟨_, .destroyed hq hpages, hleave⟩
  · split
    · exact hq.trans ⟨_, _, _, rfl⟩
    · trivial
    · trivial

theorem sys_cgetc_ends : Ends k c cur .cgetc (sys_cgetc k) := by
  unfold sys_cgetc
  split
  · exact .quiet rfl (Quiet.refl k)
  · exact .quiet rfl ⟨_, _, _, rfl⟩

theorem sys_env_destroy_ends (hcur : k.curenv c = some cur) (envid : Word) :
    Ends k c cur (.env_destroy envid) (sys_env_destroy k c cur envid) := by
  unfold sys_env_destroy
  split
  · exact .quiet rfl (Quiet.refl k)
  · rename_i e he
    refine Outcome.Holds.bind (P := fun _ k' => Effect k c cur (.env_destroy envid) 0 k') ?_
      fun _ k' h => h
    refine (env_destroy_holds k c e).mono (fun _ k' h => ?_) (fun k' h => ?_) fun _ h => h
    · obtain ⟨hother, ⟨hrun, rfl⟩ | ⟨hrun, pm, hpages, rfl⟩⟩ := h
      · exact .dying he hother hrun
      · exact .freed he hother hrun hpages
    · obtain ⟨hc, pm, hpages, hleave⟩ := h
      obtain rfl := Option.some.inj (hcur.symm.trans hc)
      exact ⟨_, .destroyed (Quiet.refl k) hpages, hleave⟩

theorem sys_yield_ends : Ends k c cur .yield (sys_yield k c) :=
  Outcome.holds_noreturn_of_left fun _ h => ⟨k, .yield, sched_yield_leaves h⟩

theorem sys_exofork_ends : Ends k c cur .exofork (sys_exofork k cur) := by
  unfold sys_exofork
  split
  · trivial
  · rename_i halloc
    rcases env_alloc_cases halloc with ⟨code, -, -, rfl⟩ | ⟨e, pgdir, pm, he, -⟩
    · exact .quiet rfl (Quiet.refl _)
    · cases he
  · rename_i halloc
    rcases env_alloc_cases halloc with ⟨code, he, -⟩ | ⟨e, pgdir, pm, he, hfree, hvm, rfl⟩
    · cases he
    · cases he
      exact .fork hfree hvm

theorem sys_env_set_status_ends (envid status : Word) :
    Ends k c cur (.env_set_status envid status) (sys_env_set_status k cur envid status) := by
  unfold sys_env_set_status
  split
  · exact .quiet rfl (Quiet.refl k)
  · rename_i e he
    split
    · exact .status he ‹_›
    · exact .quiet rfl (Quiet.refl k)

theorem sys_env_set_trapframe_ends (envid tf : Word) :
    Ends k c cur (.env_set_trapframe envid tf) (sys_env_set_trapframe k c cur envid tf) := by
  unfold sys_env_set_trapframe
  split
  · trivial
  · split
    · trivial
    · exact .trapframe ‹_› ‹_›

theorem sys_env_set_pgfault_upcall_ends (envid func : Word) :
    Ends k c cur (.env_set_pgfault_upcall envid func)
      (sys_env_set_pgfault_upcall k cur envid func) := by
  unfold sys_env_set_pgfault_upcall
  split
  · exact .quiet rfl (Quiet.refl k)
  · exact .upcall ‹_›

theorem envid2env_error {envid : Word} {checkperm : Bool} {r : Int}
    (h : envid2env k cur envid checkperm = .error r) : r ≠ 0 := by
  unfold envid2env at h
  split at h
  · cases h
  · dsimp only at h
    split at h
    · cases h; decide
    · split at h
      · cases h; decide
      · cases h

theorem insertIn_holds {e : EnvIx} {p : Nat} {va perm : Word} {f : Int → Kernel → Res Int}
    {P : Int → Kernel → Prop} {Q : Kernel → Prop}
    (h : ∀ d r pm, k.dir e = some d → page_insert k.pm d p va perm = .ok (r, pm) →
      (f r (k.withPm pm)).Holds P Q fun _ => True) :
    (insertIn k e p va perm f).Holds P Q fun _ => True := by
  unfold insertIn
  split
  · trivial
  · rename_i d hdir
    split
    · trivial
    · exact h d _ _ hdir ‹_›

theorem sys_page_alloc_ends (envid va perm : Word) :
    Ends k c cur (.page_alloc envid va perm) (sys_page_alloc k cur envid va perm) := by
  unfold sys_page_alloc
  split
  · exact .refused (by decide)
  · rename_i hva
    split
    · exact .refused (by decide)
    · rename_i hperm
      split
      · trivial
      · rename_i halloc
        obtain rfl := page_alloc_eq_none halloc
        exact .refused (by decide)
      · rename_i p pm₀ halloc
        dsimp only
        split
        · exact .lost halloc ‹_›
        · rename_i e he
          refine insertIn_holds fun d r pm hdir hins => ?_
          have hf : Fresh k e va perm p r pm :=
            ⟨by simpa using (not_or.mp hva).1, by simpa using hperm, pm₀, d, halloc, hdir, hins⟩
          split
          · split
            · trivial
            · exact .unalloc he hf ‹_› ‹_›
          · exact .alloc he hf ‹_›

theorem sys_page_map_ends (srcenvid srcva dstenvid dstva perm : Word) :
    Ends k c cur (.page_map srcenvid srcva dstenvid dstva perm)
      (sys_page_map k cur srcenvid srcva dstenvid dstva perm) := by
  unfold sys_page_map
  split
  · exact .refused (envid2env_error ‹_›)
  · rename_i src hsrc
    split
    · exact .refused (envid2env_error ‹_›)
    · rename_i dst hdst
      split
      · exact .refused (by decide)
      · rename_i hva
        split
        · exact .refused (by decide)
        · split
          · trivial
          · rename_i ds hds
            split
            · trivial
            · exact .refused (by decide)
            · rename_i p pte hlook
              split
              · exact .refused (by decide)
              · rename_i hperm
                split
                · exact .refused (by decide)
                · rename_i hw
                  refine insertIn_holds fun d r pm hdir hins => ?_
                  have hg : Grant k src dst srcva dstva perm p r pm := by
                    refine ⟨by simpa using (not_or.mp hva).1, by simpa using (not_or.mp hva).2,
                      by simpa using hperm, ⟨ds, pte, hds, hlook, fun hpw h0 => hw ⟨h0, hpw⟩⟩,
                      d, hdir, hins⟩
                  split
                  · exact .nomap hsrc hdst hg ‹_›
                  · exact .map hsrc hdst hg ‹_›

theorem sys_page_unmap_ends (envid va : Word) :
    Ends k c cur (.page_unmap envid va) (sys_page_unmap k cur envid va) := by
  unfold sys_page_unmap
  split
  · exact .refused (envid2env_error ‹_›)
  · split
    · exact .refused (by decide)
    · rename_i hva
      split
      · trivial
      · split
        · trivial
        · exact .unmap ‹_› (by simpa using (not_or.mp hva).1) ‹_› ‹_›

/-- `page_insert` finds no page for a page table and changes nothing, or
answers 0. -/
theorem page_insert_answers {s s' : Phys} {d p : Nat} {va perm : Word} {r : Int}
    (h : page_insert s d p va perm = .ok (r, s')) : (r = -E_NO_MEM ∧ s' = s) ∨ r = 0 := by
  unfold page_insert at h
  obtain ⟨⟨pte, s₁⟩, hwalk, h⟩ := loop.bind_eq_ok.mp h
  rcases pte with _ | pte
  · cases h
    refine Or.inl ⟨rfl, ?_⟩
    unfold pgdir_walk at hwalk
    dsimp only at hwalk
    split at hwalk
    · obtain ⟨t, -, hwalk⟩ := loop.bind_eq_ok.mp hwalk
      cases hwalk
    · obtain ⟨⟨page, s₂⟩, halloc, hwalk⟩ := loop.bind_eq_ok.mp hwalk
      rcases page with _ | page
      · cases hwalk
        unfold page_alloc at halloc
        split at halloc
        · cases halloc; rfl
        · obtain ⟨s₃, -, halloc⟩ := loop.bind_eq_ok.mp halloc
          cases halloc
      · obtain ⟨t, -, hwalk⟩ := loop.bind_eq_ok.mp hwalk
        cases hwalk
  · right
    dsimp only at h
    split at h
    · split at h
      · cases h; rfl
      · obtain ⟨s₂, -, h⟩ := loop.bind_eq_ok.mp h
        cases h; rfl
    · cases h; rfl

/-- A send that fails has done nothing, and one that succeeds has found the
target receiving. -/
theorem sys_ipc_try_send_holds (envid value srcva perm : Word) :
    (sys_ipc_try_send k cur envid value srcva perm).Holds
      (fun r k' => (r < 0 ∧ k' = k) ∨ (r = 0 ∧ ∃ target, envid2env k cur envid false = .ok target ∧
        (k.envs target).env_ipc_recving = true ∧ Sent k cur target value srcva perm k'))
      (fun _ => False) fun _ => True := by
  have hneg : ∀ {e : Int}, e < 0 → (e < 0 ∧ k = k) ∨ (e = 0 ∧ ∃ target,
      envid2env k cur envid false = .ok target ∧ (k.envs target).env_ipc_recving = true ∧
      Sent k cur target value srcva perm k) := fun he => Or.inl ⟨he, rfl⟩
  unfold sys_ipc_try_send
  split
  · exact hneg (by decide)
  · rename_i target he
    split
    · exact hneg (by decide)
    · rename_i hrecv
      have hrecv : (k.envs target).env_ipc_recving = true := by simpa using hrecv
      split
      · rename_i hva
        split
        · exact hneg (by decide)
        · split
          · exact hneg (by decide)
          · rename_i hperm
            have hperm : badPerm perm = false := by simpa using hperm
            split
            · trivial
            · rename_i ds hds
              split
              · trivial
              · exact hneg (by decide)
              · rename_i p pte hlook
                split
                · exact hneg (by decide)
                · rename_i hw
                  split
                  · rename_i hdst
                    refine insertIn_holds fun d r pm hdir hins => ?_
                    rcases page_insert_answers hins with ⟨rfl, rfl⟩ | rfl
                    · exact Or.inl ⟨by decide, Kernel.withPm_self k⟩
                    · exact Or.inr ⟨rfl, target, he, hrecv, .page ⟨hva.1, hva.2, hperm,
                        ⟨ds, pte, hds, hlook, fun hpw h0 => hw ⟨hpw, h0⟩⟩, d, hdir, hins⟩ hdst⟩
                  · rename_i hdst
                    exact Or.inr ⟨rfl, target, he, hrecv, .nowhere hva.1 hperm (not_not.mp hdst)⟩
      · rename_i hva
        exact Or.inr ⟨rfl, target, he, hrecv, .plain hva⟩

theorem sys_ipc_try_send_ends (envid value srcva perm : Word) :
    Ends k c cur (.ipc_try_send envid value srcva perm)
      (sys_ipc_try_send k cur envid value srcva perm) := by
  refine (sys_ipc_try_send_holds envid value srcva perm).mono (fun r k' h => ?_)
    (fun _ h => h.elim) fun _ _ => trivial
  rcases h with ⟨hr, rfl⟩ | ⟨rfl, target, he, hrecv, hsent⟩
  · exact .refused (by omega)
  · cases hsent with
    | plain hno => exact .send he hrecv fun h => hno ⟨h.1, h.2.1⟩
    | nowhere _ _ hdst => exact .send he hrecv fun h => h.2.2 hdst
    | page hg hdst => exact .sendPage he hrecv hdst hg (by decide)

/-- A receiver with a bad address is told so, and any other gives up the CPU. -/
theorem sys_ipc_recv_eq (dstva : Word) : sys_ipc_recv k c cur dstva =
    if dstva < UTOP ∧ unaligned dstva then .ret (-E_INVAL) k
    else (sched_yield (k.receive cur dstva) c).noreturn := by
  have hstate : k.receive cur dstva =
      (if dstva < UTOP then k.setEnv cur fun env => { env with env_ipc_dstva := dstva }
        else k).setEnv cur fun env =>
          { env with env_ipc_recving := true, env_status := .ENV_NOT_RUNNABLE } := by
    unfold Kernel.receive
    split <;> simp [Kernel.setEnv]
  rw [hstate]
  rfl

theorem sys_ipc_recv_ends (dstva : Word) :
    Ends k c cur (.ipc_recv dstva) (sys_ipc_recv k c cur dstva) := by
  rw [sys_ipc_recv_eq]
  split
  · exact .quiet rfl (Quiet.refl k)
  · exact Outcome.holds_noreturn_of_left fun k' h => ⟨_, .receive, sched_yield_leaves h⟩

/-- Every call by the environment on CPU `c` has one of the effects, or gives
up the CPU, or stops the kernel. -/
theorem call_ends (hcur : k.curenv c = some cur) (call : Call) :
    Ends k c cur call (call.run k c cur) := by
  cases call with
  | cputs s len => exact sys_cputs_ends hcur s len
  | cgetc => exact sys_cgetc_ends
  | getenvid => exact .quiet rfl (Quiet.refl k)
  | env_destroy envid => exact sys_env_destroy_ends hcur envid
  | page_alloc envid va perm => exact sys_page_alloc_ends envid va perm
  | page_map srcenvid srcva dstenvid dstva perm =>
    exact sys_page_map_ends srcenvid srcva dstenvid dstva perm
  | page_unmap envid va => exact sys_page_unmap_ends envid va
  | exofork => exact sys_exofork_ends
  | env_set_status envid status => exact sys_env_set_status_ends envid status
  | env_set_trapframe envid tf => exact sys_env_set_trapframe_ends envid tf
  | env_set_pgfault_upcall envid func => exact sys_env_set_pgfault_upcall_ends envid func
  | yield => exact sys_yield_ends
  | ipc_try_send envid value srcva perm => exact sys_ipc_try_send_ends envid value srcva perm
  | ipc_recv dstva => exact sys_ipc_recv_ends dstva
  | unknown syscallno => trivial

end calls

end jos
