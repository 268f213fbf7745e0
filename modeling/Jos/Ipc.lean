-- Messages between environments. `sys_ipc_recv` gives up the CPU until a
-- `sys_ipc_try_send` to the environment succeeds. Each environment has a log
-- beside the state, of its calls to the first, of the sends that have
-- succeeded, and of when it has gone on.
import Jos.Slots

namespace jos

open outcome (Outcome)

/-! ## The logs -/

/-- What happens to an environment that receives. -/
inductive Mail
  | receive
  | send (sender value : Word)
  | resume
deriving DecidableEq

/-- The kernel, with the log of each environment, the newest entry first. -/
structure Posted where
  k : Kernel
  log : EnvIx → List Mail

/-- The system call of an event, with what it answers: nothing if it has given up
the CPU. -/
def answerOf (k : Kernel) : Event → Option (EnvIx × Call × Option Int)
  | .trap c tf cr2 => (callOf k (.trap c tf cr2)).map fun (cur, call) =>
    (cur, call,
      match call.run (k.saved c cur tf) c cur with
      | .ret r _ => some r
      | _ => none)
  | _ => none

/-- A call that waits, or a send that succeeds, is noted in the log of the
environment that receives. -/
def noted (k : Kernel) (ev : Event) (x : EnvIx) (log : List Mail) : List Mail :=
  match answerOf k ev with
  | some (cur, .ipc_recv _, none) => if x = cur then .receive :: log else log
  | some (cur, .ipc_try_send envid value _ _, some r) =>
    if r = 0 ∧ (envid2env k cur envid false).toOption = some x then
      .send (k.envs cur).env_id value :: log
    else log
  | _ => log

/-- An environment that has been sent something goes on. -/
def resumed : List Mail → List Mail
  | .send sender value :: log => .resume :: .send sender value :: log
  | log => log

/-- The log of `x` after a step to `k'`. A new environment starts a new one. -/
def Posted.logAfter (t : Posted) (k' : Kernel) (ev : Event) (x : EnvIx) : List Mail :=
  let log := noted t.k ev x (if t.k.status x = .ENV_FREE then [] else t.log x)
  if k'.curenv ev.cpu = some x then resumed log else log

def Posted.step (t : Posted) (ev : Event) : Option Posted :=
  (jos.step t.k ev).map fun k' => ⟨k', t.logAfter k' ev⟩

/-! ## What the logs say -/

/-- Each receive is followed by one send, and that by going on. -/
def complete : List Mail → Bool
  | [] => true
  | .resume :: .send _ _ :: .receive :: log => complete log
  | _ => false

/-- The same, but for the last round, which may not have ended. -/
def rounds : List Mail → Bool
  | .receive :: log | .send _ _ :: .receive :: log => complete log
  | log => complete log

/-- The environment is in `sys_ipc_recv`, or has not gone on from there yet. -/
def blocked : List Mail → Bool
  | .receive :: _ | .send _ _ :: _ => true
  | _ => false

/-- What the last entry of the log says of the slot. -/
def Mailed (env : Env) : List Mail → Prop
  | .receive :: _ => env.env_ipc_recving = true ∧ env.env_status = .ENV_NOT_RUNNABLE
  | .send sender value :: _ =>
    (env.env_ipc_recving = false ∧ env.env_ipc_from = sender ∧ env.env_ipc_value = value) ∧
      env.env_status = .ENV_RUNNABLE ∧ env.env_tf.tf_regs.reg_eax = 0
  | .resume :: .send sender value :: _ =>
    env.env_ipc_recving = false ∧ env.env_ipc_from = sender ∧ env.env_ipc_value = value
  | _ => env.env_ipc_recving = false

/-- The slots are as the logs say. -/
structure Mailboxes (t : Posted) : Prop where
  outside : Outside t.k ∧ FreeListed t.k
  ordered : ∀ x, t.k.status x ≠ .ENV_FREE → rounds (t.log x) = true
  mailed : ∀ x, t.k.status x ≠ .ENV_FREE → Mailed (t.k.envs x) (t.log x)

/-- The environment whose slot a call other than these two changes. -/
def Call.target (k : Kernel) (cur : EnvIx) : Call → Option EnvIx
  | .env_destroy envid | .env_set_status envid _ | .env_set_trapframe envid _
  | .env_set_pgfault_upcall envid _ => (envid2env k cur envid true).toOption
  | _ => none

/-- No other call touches a blocked receiver. -/
def untouched (t : Posted) (ev : Event) : Bool :=
  match callOf t.k ev with
  | some (cur, call) => (call.target t.k cur).all fun x => !blocked (t.log x)
  | none => true

/-- No other call changes the status of an environment that is on another CPU. -/
def apart (t : Posted) (ev : Event) : Bool :=
  match callOf t.k ev with
  | some (_, .ipc_try_send ..) | none => true
  | some (cur, call) => !meddles t.k cur call

/-! ## The ways out -/

section leaves

variable {k k' : Kernel} {c : Nat} {x cur : EnvIx}

/-- Leaving the kernel, a CPU changes at most the status of a slot and who has
run it. -/
theorem leaves_env (h : Leaves k c k') (x : EnvIx) :
    (∃ runs cpunum, k'.envs x = { k.envs x with
      env_status := k'.status x
      env_runs := runs
      env_cpunum := cpunum }) ∧
    ((k'.curenv c = some x ∧ k'.status x = .ENV_RUNNING ∧
        (k.status x = .ENV_RUNNABLE ∨ k.status x = .ENV_RUNNING)) ∨
      (k'.curenv c ≠ some x ∧ (k'.status x = k.status x ∨
        (k.curenv c = some x ∧ k.status x = .ENV_RUNNING ∧ k'.status x = .ENV_RUNNABLE)))) := by
  cases h with
  | @run e pgdir hlock hdir hready hload =>
    have henv := Kernel.demote_env k c x
    have hst := Kernel.demote_status k c x
    by_cases hx : x = e
    · subst hx
      refine ⟨⟨(k.envs x).env_runs + 1, c, ?_⟩,
        Or.inl ⟨by simp [Kernel.curenv], ?_, hready.imp id fun h => h.2⟩⟩
      · rw [Kernel.switch_status, Kernel.switch_envs, Function.update_self, Function.update_self,
          henv]
      · rw [Kernel.switch_status, Function.update_self]
    · have hsame : (k.switch c e pgdir).envs x = (k.demote c).envs x := by
        rw [Kernel.switch_envs, Function.update_of_ne hx]
      have hsame' : (k.switch c e pgdir).status x = (k.demote c).status x :=
        congrArg Env.env_status hsame
      refine ⟨⟨(k.envs x).env_runs, (k.envs x).env_cpunum, by rw [hsame, hsame', henv]⟩,
        Or.inr ⟨?_, ?_⟩⟩
      · simpa [Kernel.curenv] using Ne.symm hx
      · rw [hsame', hst]
        split
        · rename_i hrun
          exact Or.inr ⟨hrun.1, hrun.2, rfl⟩
        · exact Or.inl rfl
  | halt hlock hidle =>
    exact ⟨⟨(k.envs x).env_runs, (k.envs x).env_cpunum, rfl⟩,
      Or.inr ⟨by simp [Kernel.halt, Kernel.curenv], Or.inl rfl⟩⟩

/-- The environment goes on where it was. -/
theorem trap_return_running (hcur : k.curenv c = some cur) (hrun : k.status cur = .ENV_RUNNING)
    (h : trap_return k c = .left k') : ∃ pgdir, k' = k.switch c cur pgdir := by
  simp only [trap_return, hcur, hrun, if_true, env_run_eq] at h
  split at h
  · cases h
  · split at h
    · cases h
    · split at h
      · cases h
        exact ⟨_, rfl⟩
      · cases h

/-- A trap of a CPU that had halted would take the lock twice. -/
theorem trap_awake {tf : Trapframe} {cr2 : Word} (hcs : tf.tf_cs &&& 3 = 3)
    (h : trap k c tf cr2 = .left k') : (k.cpus c).cpu_status ≠ .CPU_HALTED := by
  intro hhalt
  simp only [trap, hhalt, if_true, hcs] at h
  split at h
  · cases h
  · rename_i k₁ hlock
    obtain ⟨-, rfl⟩ := lock_kernel_eq hlock
    simp [trap_enter, lock_kernel] at h

/-- A step that makes a call: the call, and the end of `trap`. -/
theorem step_call {tf : Trapframe} {cr2 : Word} {call : Call} (h : Outside k)
    (hs : jos.step k (.trap c tf cr2) = some k')
    (hcall : callOf k (.trap c tf cr2) = some (cur, call)) :
    (k.curenv c = some cur ∧ k.status cur = .ENV_RUNNING) ∧
    ((call.run (k.saved c cur tf) c cur).bind fun ret k => trap_return (setEax k cur ret) c) =
      .left k' := by
  have hcur : k.curenv c = some cur := callOf_curenv hcall
  obtain ⟨hmode, hlock, hload, htrap⟩ : (k.cpus c).mode = .user ∧ k.kernel_lock = none ∧
      tf.loadable = true ∧ trap k c tf cr2 = .left k' := by
    cases step_cases hs with
    | trap hmode hlock hload htrap => exact ⟨hmode, hlock, hload, htrap⟩
  obtain ⟨hno, hlive, rfl⟩ : tf.tf_trapno = T_SYSCALL ∧ k.status cur ≠ .ENV_DYING ∧
      tf.call = call := by
    simp only [callOf, hcur] at hcall
    split at hcall
    · rename_i hc
      cases hcall
      exact ⟨hc.1, hc.2, rfl⟩
    · cases hcall
  have hrun : k.status cur = .ENV_RUNNING := by
    obtain ⟨e, he, hbusy⟩ := h.user c hmode
    cases hcur.symm.trans he
    cases hs : k.status cur <;> simp_all [EnvStatus.busy]
  have hcs := loadable_user hload
  exact ⟨⟨hcur, hrun⟩, (trap_syscall (trap_awake hcs htrap) hlock hcur hrun hcs hno).symm.trans htrap⟩

theorem callOf_answerOf {ev : Event} {call : Call} {r : Option Int}
    (h : answerOf k ev = some (cur, call, r)) : callOf k ev = some (cur, call) := by
  cases ev with
  | trap c tf cr2 =>
    obtain ⟨⟨cur', call'⟩, hcall, heq⟩ := Option.map_eq_some_iff.mp h
    cases heq
    exact hcall
  | _ => cases h

theorem answerOf_eq {tf : Trapframe} {cr2 : Word} {call : Call}
    (hcall : callOf k (.trap c tf cr2) = some (cur, call)) :
    answerOf k (.trap c tf cr2) = some (cur, call,
      match call.run (k.saved c cur tf) c cur with
      | .ret r _ => some r
      | _ => none) := by
  simp only [answerOf, hcall, Option.map_some]

/-- The call is one of the two that pass messages. -/
def Call.isIpc : Call → Bool
  | .ipc_recv _ | .ipc_try_send .. => true
  | _ => false

/-- The steps of the machine, as far as messages go. -/
inductive IpcStep (k : Kernel) : Event → Kernel → Prop
  /-- there is no message -/
  | other {ev : Event} {k' : Kernel}
      (hno : ∀ cur call, callOf k ev = some (cur, call) → call.isIpc = false)
      (hs : StepCases k ev k') : IpcStep k ev k'
  /-- the call fails and does nothing -/
  | refused {c : Nat} {tf : Trapframe} {cr2 : Word} {cur : EnvIx} {call : Call} {r : Int}
      {k' : Kernel} (hcall : callOf k (.trap c tf cr2) = some (cur, call))
      (hret : call.run (k.saved c cur tf) c cur = .ret r (k.saved c cur tf)) (hr : r < 0)
      (hleave : Leaves (setEax (k.saved c cur tf) cur r) c k') :
      IpcStep k (.trap c tf cr2) k'
  | receive {c : Nat} {tf : Trapframe} {cr2 dstva : Word} {cur : EnvIx} {k' : Kernel}
      (hcall : callOf k (.trap c tf cr2) = some (cur, .ipc_recv dstva))
      (hleft : (Call.ipc_recv dstva).run (k.saved c cur tf) c cur = .left k')
      (hrun : k.status cur = .ENV_RUNNING)
      (hleave : Leaves ((k.saved c cur tf).receive cur dstva) c k') :
      IpcStep k (.trap c tf cr2) k'
  /-- the message is in the slot of the target, and the sender goes on -/
  | send {c : Nat} {tf : Trapframe} {cr2 envid value srcva perm : Word} {cur target : EnvIx}
      {k₁ k' : Kernel}
      (hcall : callOf k (.trap c tf cr2) = some (cur, .ipc_try_send envid value srcva perm))
      (hret : (Call.ipc_try_send envid value srcva perm).run (k.saved c cur tf) c cur = .ret 0 k₁)
      (he : envid2env k cur envid false = .ok target)
      (hrecv : (k.envs target).env_ipc_recving = true)
      (hsent : Sent (k.saved c cur tf) cur target value srcva perm k₁)
      (hleave : Leaves (setEax k₁ cur 0) c k')
      (hon : target ≠ cur → k'.curenv c = some cur) : IpcStep k (.trap c tf cr2) k'

theorem ipc_step {ev : Event} (h : Outside k) (hs : jos.step k ev = some k') :
    IpcStep k ev k' := by
  by_cases hno : ∀ cur call, callOf k ev = some (cur, call) → call.isIpc = false
  · exact .other hno (step_cases hs)
  · push Not at hno
    obtain ⟨cur, call, hcall, hipc⟩ := hno
    cases ev with
    | trap c tf cr2 =>
      obtain ⟨⟨hcur, hrun⟩, hbind⟩ := step_call h hs hcall
      cases call with
      | ipc_recv dstva =>
        have hrecv : (Call.ipc_recv dstva).run (k.saved c cur tf) c cur = _ :=
          sys_ipc_recv_eq dstva
        split at hrecv
        · rw [hrecv] at hbind
          exact .refused hcall hrecv (by decide) (trap_return_leaves hbind)
        · rw [hrecv, Outcome.noreturn_bind] at hbind
          rw [hbind] at hrecv
          exact .receive hcall hrecv hrun (sched_yield_leaves hbind)
      | ipc_try_send envid value srcva perm =>
        have hholds : ((Call.ipc_try_send envid value srcva perm).run (k.saved c cur tf) c
          cur).Holds _ _ _ := sys_ipc_try_send_holds envid value srcva perm
        rcases hret : (Call.ipc_try_send envid value srcva perm).run (k.saved c cur tf) c cur
          with ⟨r, k₁⟩ | k₁ | _ | _
        · rw [hret] at hbind hholds
          rcases hholds with ⟨hr, rfl⟩ | ⟨rfl, target, he, hrecv, hsent⟩
          · exact .refused hcall hret hr (trap_return_leaves hbind)
          · rw [envid2env_saved] at he
            have hrecv : (k.envs target).env_ipc_recving = true := by
              by_cases hx : target = cur
              · simpa [hx] using hrecv
              · simpa [hx] using hrecv
            refine .send hcall hret he hrecv hsent (trap_return_leaves hbind) fun hne => ?_
            obtain ⟨perm', henvs⟩ := hsent.envs
            have hcur₁ : (setEax k₁ cur 0).curenv c = some cur := by
              show (k₁.cpus c).cpu_env = some cur
              rw [hsent.cpus]
              exact (congrFun (Kernel.saved_curenv k c cur tf) c).trans hcur
            have hrun₁ : (setEax k₁ cur 0).status cur = .ENV_RUNNING := by
              have hst : ((setEax k₁ cur 0).envs cur).env_status = (k.envs cur).env_status := by
                simp [setEax, henvs, Ne.symm hne]
              exact hst.trans hrun
            obtain ⟨pgdir, rfl⟩ := trap_return_running hcur₁ hrun₁ hbind
            rw [switch_curenv, Function.update_self]
        · rw [hret] at hholds
          exact hholds.elim
        · rw [hret] at hbind; cases hbind
        · rw [hret] at hbind; cases hbind
      | _ => exact absurd rfl hipc
    | _ => cases hcall

end leaves

/-! ## The slots and the logs -/

section mail

variable {env env' : Env} {log : List Mail}

theorem complete_of_idle (h : rounds log = true) (hb : blocked log = false) :
    complete log = true := by
  match log, hb with
  | [], _ => rfl
  | .resume :: _, _ => exact h

theorem rounds_resumed (h : rounds log = true) : rounds (resumed log) = true := by
  match log with
  | [] | .receive :: _ | .resume :: _ => exact h
  | .send s v :: .receive :: l => exact h
  | [.send s v] | .send s v :: .send _ _ :: _ | .send s v :: .resume :: _ => cases h

/-- Who is not blocked has the fields of the last message. -/
theorem Mailed.idle (h : Mailed env log) (hb : blocked log = false)
    (hrecv : env'.env_ipc_recving = env.env_ipc_recving)
    (hfrom : env'.env_ipc_from = env.env_ipc_from)
    (hvalue : env'.env_ipc_value = env.env_ipc_value) : Mailed env' log := by
  match log, hb with
  | [], _ | [.resume], _ | .resume :: .receive :: _, _ | .resume :: .resume :: _, _ =>
    exact hrecv.trans h
  | .resume :: .send s v :: l, _ =>
    exact ⟨hrecv.trans h.1, hfrom.trans h.2.1, hvalue.trans h.2.2⟩

/-- Whoever is receiving is in `sys_ipc_recv`. -/
theorem Mailed.recving (h : Mailed env log) (hr : env.env_ipc_recving = true) :
    env.env_status = .ENV_NOT_RUNNABLE ∧ ∃ l, log = .receive :: l := by
  match log with
  | .receive :: l => exact ⟨h.2, l, rfl⟩
  | .send _ _ :: _ => exact absurd (h.1.1.symm.trans hr) (by decide)
  | .resume :: .send _ _ :: _ => exact absurd (h.1.symm.trans hr) (by decide)
  | [] | [.resume] | .resume :: .receive :: _ | .resume :: .resume :: _ =>
    exact absurd (h.symm.trans hr) (by decide)

/-- Whoever is blocked is on no CPU. -/
theorem Mailed.parked (h : Mailed env log) (hb : blocked log = true) :
    env.env_status = .ENV_NOT_RUNNABLE ∨ env.env_status = .ENV_RUNNABLE := by
  match log with
  | .receive :: _ => exact Or.inl h.2
  | .send _ _ :: _ => exact Or.inr h.2.1
  | [] | .resume :: _ => cases hb

theorem Mailed.not_busy (h : Mailed env log) (hbusy : env.env_status.busy = true) :
    blocked log = false := by
  by_contra hb
  rcases h.parked (by simpa using hb) with hs | hs <;> rw [hs] at hbusy <;> cases hbusy

/-- The environment may be run, which it is if it can be. -/
theorem Mailed.pass {on : Prop} [Decidable on] (h : Mailed env log)
    (hsame : env'.env_ipc_recving = env.env_ipc_recving ∧ env'.env_ipc_from = env.env_ipc_from ∧
      env'.env_ipc_value = env.env_ipc_value)
    (hwait : blocked log = true → env'.env_tf.tf_regs.reg_eax = env.env_tf.tf_regs.reg_eax ∧
      if on then env.env_status ≠ .ENV_NOT_RUNNABLE else env'.env_status = env.env_status) :
    Mailed env' (if on then resumed log else log) := by
  obtain ⟨hrecv, hfrom, hvalue⟩ := hsame
  by_cases hb : blocked log = true
  · obtain ⟨heax, hon⟩ := hwait hb
    match log with
    | .receive :: l =>
      split at hon
      · exact absurd h.2 hon
      · rw [if_neg ‹_›]
        exact ⟨hrecv.trans h.1, hon.trans h.2⟩
    | .send s v :: l =>
      have hgot : env'.env_ipc_recving = false ∧ env'.env_ipc_from = s ∧ env'.env_ipc_value = v :=
        ⟨hrecv.trans h.1.1, hfrom.trans h.1.2.1, hvalue.trans h.1.2.2⟩
      split at hon
      · rw [if_pos ‹_›]
        exact hgot
      · rw [if_neg ‹_›]
        exact ⟨hgot, hon.trans h.2.1, heax.trans h.2.2⟩
    | [] | .resume :: _ => cases hb
  · have hb : blocked log = false := by simpa using hb
    have hlog : (if on then resumed log else log) = log := by
      match log, hb with
      | [], _ | .resume :: _, _ => exact ite_self _
    rw [hlog]
    exact h.idle hb hrecv hfrom hvalue

theorem Mailed.leave {k k' : Kernel} {c : Nat} {x : EnvIx} (h : Mailed (k.envs x) log)
    (hleave : Leaves k c k') :
    Mailed (k'.envs x) (if k'.curenv c = some x then resumed log else log) := by
  obtain ⟨⟨runs, cpunum, henv⟩, hst⟩ := leaves_env hleave x
  refine h.pass ?_ fun hb => ?_
  · rw [henv]
    exact ⟨rfl, rfl, rfl⟩
  · refine ⟨by rw [henv], ?_⟩
    rcases hst with ⟨hon, -, hready⟩ | ⟨hoff, hsame | ⟨-, hrun, -⟩⟩
    · rw [if_pos hon]
      have hst : k.status x = (k.envs x).env_status := rfl
      rcases hready with hr | hr <;> rw [← hst, hr] <;> decide
    · rw [if_neg hoff]
      exact hsame
    · have hst : (k.envs x).env_status = .ENV_RUNNING := hrun
      rcases h.parked hb with hs | hs <;> rw [hst] at hs <;> cases hs

end mail

/-! ## Steps -/

/-- The step to `k'` has left slot `x` as its log says. If it goes on from
`sys_ipc_recv` in this step, the call returns 0. -/
structure Delivered (t : Posted) (k' : Kernel) (ev : Event) (x : EnvIx) : Prop where
  ordered : rounds (t.logAfter k' ev x) = true
  mailed : Mailed (k'.envs x) (t.logAfter k' ev x)
  answer : ∀ sender value log, t.k.status x ≠ .ENV_FREE → t.log x = .send sender value :: log →
    (k'.envs x).env_tf.tf_regs.reg_eax = 0

section steps

variable {t : Posted} {k' : Kernel} {ev : Event} {c : Nat} {cur x : EnvIx} {tf : Trapframe}
  {cr2 : Word}

theorem Mailboxes.careful (h : Mailboxes t) (ha : apart t ev = true) : Careful t.k ev := by
  unfold Careful
  unfold apart at ha
  rcases hcall : callOf t.k ev with _ | ⟨cur, call⟩
  · trivial
  · rw [hcall] at ha
    cases call with
    | ipc_try_send envid value srcva perm =>
      dsimp only [meddles]
      rcases he : envid2env t.k cur envid false with _ | e
      · rfl
      · -- whoever receives is on no CPU
        by_contra hm
        simp only [Bool.not_eq_false, Bool.and_eq_true] at hm
        obtain ⟨⟨hne, hbusy⟩, hrecv⟩ := hm
        have hlive : t.k.status e ≠ .ENV_FREE := by
          intro hf
          rw [hf] at hbusy
          cases hbusy
        have hst : t.k.status e = .ENV_NOT_RUNNABLE := ((h.mailed e hlive).recving hrecv).1
        rw [hst] at hbusy
        cases hbusy
    | _ => simpa using ha

theorem noted_other (hno : ∀ cur call, callOf t.k ev = some (cur, call) → call.isIpc = false)
    (log : List Mail) : noted t.k ev x log = log := by
  unfold noted
  split
  · rename_i hans
    cases hno _ _ (callOf_answerOf hans)
  · rename_i hans
    cases hno _ _ (callOf_answerOf hans)
  · rfl

theorem Outside.busy_of_curenv {k : Kernel} (h : Outside k) (hcur : k.curenv c = some x) :
    (k.status x).busy = true := by
  have hmode : k.mode c = .user := by
    by_contra hm
    rw [h.other _ hm] at hcur
    cases hcur
  obtain ⟨e, he, hb⟩ := h.user _ hmode
  cases hcur.symm.trans he
  exact hb

theorem untouched_target {call : Call} (hu : untouched t ev = true)
    (hcall : callOf t.k ev = some (cur, call)) (hx : call.target t.k cur = some x) :
    blocked (t.log x) = false := by
  simpa [untouched, hcall, hx] using hu

/-- What a step without a message makes of a slot that was in use. -/
theorem Mailboxes.changes (h : Mailboxes t) (hu : untouched t ev = true)
    (hno : ∀ cur call, callOf t.k ev = some (cur, call) → call.isIpc = false)
    (hlive : t.k.status x ≠ .ENV_FREE) {env : Env}
    (hch : Changes t.k k' ev x (t.k.envs x) env) :
    (env.env_ipc_recving = (t.k.envs x).env_ipc_recving ∧
      env.env_ipc_from = (t.k.envs x).env_ipc_from ∧
      env.env_ipc_value = (t.k.envs x).env_ipc_value) ∧
    (blocked (t.log x) = true →
      env.env_tf.tf_regs.reg_eax = (t.k.envs x).env_tf.tf_regs.reg_eax ∧
      (env.env_status = t.k.status x ∨
        (k'.curenv ev.cpu = some x ∧ t.k.status x ≠ .ENV_NOT_RUNNABLE))) := by
  have hm := h.mailed x hlive
  have hcur : t.k.curenv ev.cpu = some x → blocked (t.log x) = false :=
    fun hc => hm.not_busy (h.outside.1.busy_of_curenv hc)
  -- whoever is blocked is neither on the CPU nor the target of a call
  have hvoid : ∀ {P : Prop}, blocked (t.log x) = false → blocked (t.log x) = true → P :=
    fun hf ht => absurd (hf.symm.trans ht) (by decide)
  induction hch with
  | refl => exact ⟨⟨rfl, rfl, rfl⟩, fun _ => ⟨rfl, Or.inl rfl⟩⟩
  | tail _ hch ih =>
    obtain ⟨hsame, hwait⟩ := ih
    cases hch with
    | create hev hfree => exact absurd hfree hlive
    | fork hcall htrap hfree => exact absurd hfree hlive
    | save htrap | upcall htrap | destroyed htrap | demote htrap =>
      exact ⟨hsame, hvoid (hcur (trapOf_curenv htrap))⟩
    | eax r hcall => exact ⟨hsame, hvoid (hcur (callOf_curenv hcall))⟩
    | receive hcall | deliver hcall => cases hno _ _ hcall
    | dying hcall he | freed hcall he | status hcall he | func hcall he | trapframe hcall he =>
      refine ⟨hsame, hvoid (untouched_target hu hcall ?_)⟩
      simp only [Call.target, he]
      rfl
    | run hon hmode hready =>
      refine ⟨hsame, fun hb => ⟨(hwait hb).1, Or.inr ⟨hon, ?_⟩⟩⟩
      rcases (hwait hb).2 with hs | hs
      · rw [← hs]
        rcases hready with hr | hr <;> rw [hr] <;> decide
      · exact hs.2

theorem changes_new {k : Kernel} (h : Outside k)
    (hno : ∀ cur call, callOf k ev = some (cur, call) → call.isIpc = false)
    (hfree : k.status x = .ENV_FREE) {env : Env} (hch : Changes k k' ev x (k.envs x) env)
    (hlive : env.env_status ≠ .ENV_FREE) : env.env_ipc_recving = false := by
  induction hch with
  | refl => exact absurd hfree hlive
  | tail _ hch ih =>
    cases hch with
    | create | fork => rfl
    | run hon hmode hready =>
      refine ih ?_
      rcases hready with hr | hr <;> rw [hr] <;> decide
    | save htrap | upcall htrap | destroyed htrap | demote htrap =>
      exact absurd hfree (h.live (trapOf_curenv htrap))
    | eax r hcall | receive hcall => exact absurd hfree (h.live (callOf_curenv hcall))
    | dying hcall he | freed hcall he | status hcall he | func hcall he | trapframe hcall he =>
      exact absurd hfree (h.found hcall he)
    | deliver hcall => cases hno _ _ hcall

/-- A step without a message. -/
theorem Mailboxes.other (h : Mailboxes t) (hu : untouched t ev = true)
    (hno : ∀ cur call, callOf t.k ev = some (cur, call) → call.isIpc = false)
    (hs : StepCases t.k ev k') (hout : Outside k') (hlive : k'.status x ≠ .ENV_FREE) :
    Delivered t k' ev x := by
  have hch := step_changes h.outside hs x
  have hlog : t.logAfter k' ev x = if k'.curenv ev.cpu = some x then
      resumed (if t.k.status x = .ENV_FREE then [] else t.log x)
      else if t.k.status x = .ENV_FREE then [] else t.log x := by
    unfold Posted.logAfter
    rw [noted_other hno]
  by_cases hfree : t.k.status x = .ENV_FREE
  · have hnil : t.logAfter k' ev x = [] := by
      rw [hlog, if_pos hfree]
      exact ite_self _
    have hrecv : Mailed (k'.envs x) [] := changes_new h.outside.1 hno hfree hch hlive
    refine ⟨by rw [hnil]; rfl, by rw [hnil]; exact hrecv, fun _ _ _ hl => absurd hfree hl⟩
  · rw [if_neg hfree] at hlog
    obtain ⟨hsame, hwait⟩ := h.changes hu hno hfree hch
    have hr := h.ordered x hfree
    have hm := h.mailed x hfree
    refine ⟨?_, ?_, fun s v l _ hl => ?_⟩
    · rw [hlog]
      split
      · exact rounds_resumed hr
      · exact hr
    · rw [hlog]
      refine hm.pass hsame fun hb => ⟨(hwait hb).1, ?_⟩
      split
      · rename_i hon
        rcases (hwait hb).2 with hs | hs
        · intro hn
          have hst : k'.status x = .ENV_NOT_RUNNABLE := hs.trans hn
          have hbusy := hout.busy_of_curenv hon
          rw [hst] at hbusy
          cases hbusy
        · exact hs.2
      · rename_i hoff
        exact (hwait hb).2.resolve_right fun hs => hoff hs.1
    · rw [hl] at hm hwait
      exact (hwait rfl).1.trans hm.2.2

theorem noted_cases (k : Kernel) (ev : Event) (x : EnvIx) (log : List Mail) :
    noted k ev x log = log ∨ noted k ev x log = .receive :: log ∨
      ∃ sender value, noted k ev x log = .send sender value :: log := by
  unfold noted
  split
  · split <;> simp
  · split <;> simp
  · simp

/-- Whoever has been sent something receives nothing else before it goes on. -/
theorem noted_sent {k : Kernel} {sender value : Word} {log : List Mail}
    (h : rounds (noted k ev x (.send sender value :: log)) = true) :
    noted k ev x (.send sender value :: log) = .send sender value :: log := by
  rcases noted_cases k ev x (.send sender value :: log) with hn | hn | ⟨s, v, hn⟩
  · exact hn
  · rw [hn] at h; cases h
  · rw [hn] at h; cases h

/-- The call has been carried out, and the CPU leaves the kernel. -/
theorem Mailboxes.leave {k : Kernel} (hleave : Leaves k ev.cpu k')
    (hfree : ∀ x, t.k.status x = .ENV_FREE → k.status x = .ENV_FREE)
    (hslots : ∀ x, t.k.status x ≠ .ENV_FREE → rounds (noted t.k ev x (t.log x)) = true ∧
      Mailed (k.envs x) (noted t.k ev x (t.log x)))
    (hlive : k'.status x ≠ .ENV_FREE) :
    Delivered t k' ev x := by
  have hl : t.k.status x ≠ .ENV_FREE := fun hf => hlive ((leaves_free hleave x).mpr (hfree x hf))
  obtain ⟨hr, hm⟩ := hslots x hl
  have hlog : t.logAfter k' ev x = if k'.curenv ev.cpu = some x then
      resumed (noted t.k ev x (t.log x)) else noted t.k ev x (t.log x) := by
    unfold Posted.logAfter
    rw [if_neg hl]
  refine ⟨?_, by rw [hlog]; exact hm.leave hleave, fun s v l _ hs => ?_⟩
  · rw [hlog]
    split
    · exact rounds_resumed hr
    · exact hr
  · rw [hs] at hr hm
    rw [noted_sent hr] at hm
    obtain ⟨⟨runs, cpunum, henv⟩, -⟩ := leaves_env hleave x
    rw [henv]
    exact hm.2.2

/-- The target of a send that succeeds is in `sys_ipc_recv`, and is not the
sender. -/
theorem Mailboxes.target {target : EnvIx} (h : Mailboxes t) (hlive : t.k.status target ≠ .ENV_FREE)
    (hrecv : (t.k.envs target).env_ipc_recving = true) (hcur : t.k.curenv c = some cur) :
    target ≠ cur ∧ ∃ l, t.log target = .receive :: l ∧ complete l = true := by
  obtain ⟨hst, l, hl⟩ := (h.mailed target hlive).recving hrecv
  have hr := h.ordered target hlive
  rw [hl] at hr
  refine ⟨?_, l, hl, hr⟩
  rintro rfl
  have hbusy := h.outside.1.busy_of_curenv hcur
  rw [Kernel.status, hst] at hbusy
  cases hbusy

/-- Slots other than the caller's are as they were, and the caller is not
blocked. -/
theorem Mailboxes.caller {env : Env} (h : Mailboxes t) (hcur : t.k.curenv c = some cur)
    (hlive : t.k.status x ≠ .ENV_FREE) (hother : x ≠ cur → env = t.k.envs x)
    (hrecv : env.env_ipc_recving = (t.k.envs x).env_ipc_recving)
    (hfrom : env.env_ipc_from = (t.k.envs x).env_ipc_from)
    (hvalue : env.env_ipc_value = (t.k.envs x).env_ipc_value) : Mailed env (t.log x) := by
  have hm := h.mailed x hlive
  by_cases hx : x = cur
  · subst hx
    exact hm.idle (hm.not_busy (h.outside.1.busy_of_curenv hcur)) hrecv hfrom hvalue
  · rw [hother hx]
    exact hm

theorem Mailboxes.delivered (h : Mailboxes t) (hu : untouched t ev = true)
    (hs : jos.step t.k ev = some k') (hout : Outside k') (hlive : k'.status x ≠ .ENV_FREE) :
    Delivered t k' ev x := by
  cases ipc_step h.outside.1 hs with
  | other hno hs => exact h.other hu hno hs hout hlive
  | @refused c tf cr2 cur call r k' hcall hret hr hleave =>
    have hcur : t.k.curenv c = some cur := callOf_curenv hcall
    have hans := answerOf_eq hcall
    rw [hret] at hans
    have hst : (setEax (t.k.saved c cur tf) cur r).status = t.k.status :=
      (Kernel.setEnv_status_same rfl).trans (Kernel.saved_status ..)
    have hnoted : ∀ x log, noted t.k (.trap c tf cr2) x log = log := by
      intro x log
      have hne : ¬ r = 0 := by omega
      unfold noted
      rw [hans]
      split
      · rename_i heq; cases heq
      · rename_i heq; cases heq; simp [hne]
      · rfl
    refine Mailboxes.leave hleave (fun x hf => by rw [hst]; exact hf) (fun x hl => ?_) hlive
    rw [hnoted]
    refine ⟨h.ordered x hl, h.caller hcur hl (fun hx => by simp [setEax, hx]) ?_ ?_ ?_⟩
    all_goals by_cases hx : x = cur <;> simp [setEax, hx]
  | @receive c tf cr2 dstva cur k' hcall hleft hrun hleave =>
    have hcur : t.k.curenv c = some cur := callOf_curenv hcall
    have hans := answerOf_eq hcall
    rw [hleft] at hans
    have hnoted : ∀ x log, noted t.k (.trap c tf cr2) x log =
        if x = cur then .receive :: log else log := by
      intro x log
      simp only [noted, hans]
    have hslot : ∀ x ≠ cur, ((t.k.saved c cur tf).receive cur dstva).envs x = t.k.envs x := by
      intro x hx
      simp [Kernel.receive, hx]
    refine Mailboxes.leave hleave (fun x hf => ?_) (fun x hl => ?_) hlive
    · have hx : x ≠ cur := by
        rintro rfl
        rw [hrun] at hf
        cases hf
      rw [Kernel.status, hslot x hx]
      exact hf
    · rw [hnoted]
      have hm := h.mailed x hl
      by_cases hx : x = cur
      · subst hx
        rw [if_pos rfl]
        have hb := hm.not_busy (h.outside.1.busy_of_curenv hcur)
        refine ⟨complete_of_idle (h.ordered x hl) hb, ?_⟩
        simp [Mailed, Kernel.receive]
      · rw [if_neg hx, hslot x hx]
        exact ⟨h.ordered x hl, hm⟩
  | @send c tf cr2 envid value srcva perm cur target k₁ k' hcall hret he hrecv hsent hleave hon =>
    have hans := answerOf_eq hcall
    rw [hret] at hans
    have hcur : t.k.curenv c = some cur := callOf_curenv hcall
    have hfound := h.outside.1.found hcall he
    obtain ⟨hne, l, hlog, hl⟩ := h.target hfound hrecv hcur
    have hnoted : ∀ x log, noted t.k (.trap c tf cr2) x log =
        if target = x then .send (t.k.envs cur).env_id value :: log else log := by
      intro x log
      simp only [noted, hans, he, Except.toOption, Option.some.injEq, true_and]
    obtain ⟨perm', henvs⟩ := hsent.envs
    have hslot : ∀ x ≠ cur, x ≠ target → (setEax k₁ cur 0).envs x = t.k.envs x := by
      intro x hx hx'
      simp [setEax, henvs, hx, hx']
    refine Mailboxes.leave hleave (fun x hf => ?_) (fun x hlx => ?_) hlive
    · have hx : x ≠ cur := by
        rintro rfl
        exact h.outside.1.live hcur hf
      have hx' : x ≠ target := by
        rintro rfl
        exact hfound hf
      rw [Kernel.status, hslot x hx hx']
      exact hf
    · rw [hnoted]
      by_cases hx : target = x
      · subst hx
        rw [if_pos rfl, hlog]
        refine ⟨hl, ?_⟩
        simp [Mailed, setEax, henvs, hne, Ne.symm hne]
      · rw [if_neg hx]
        have hx := Ne.symm hx
        refine ⟨h.ordered x hlx, h.caller hcur hlx (fun hx' => hslot x hx' hx) ?_ ?_ ?_⟩
        all_goals by_cases hx' : x = cur <;> simp [setEax, henvs, hx, hx', Ne.symm hne]

theorem mailboxes_step {t' : Posted} (h : Mailboxes t)
    (hok : untouched t ev = true ∧ apart t ev = true) (hs : t.step ev = some t') :
    Mailboxes t' := by
  obtain ⟨k', hstep, rfl⟩ := Option.map_eq_some_iff.mp hs
  have hout := outside_step h.outside (h.careful hok.2) (step_cases hstep)
  exact ⟨hout, fun x hx => (h.delivered hok.1 hstep hout.1 hx).ordered,
    fun x hx => (h.delivered hok.1 hstep hout.1 hx).mailed⟩

end steps

/-! ## Runs -/

/-- The start, with no environment. -/
def Posted.start (k : Kernel) : Posted := ⟨k, fun _ => []⟩

theorem Mailboxes.start {k : Kernel} (hout : Outside k ∧ FreeListed k)
    (hfree : ∀ x, k.status x = .ENV_FREE) : Mailboxes (.start k) :=
  ⟨hout, fun x hx => absurd (hfree x) hx, fun x hx => absurd (hfree x) hx⟩

theorem Booting.mailboxes {k : Kernel} (h : Booting k) : Mailboxes (.start (env_init k)) := by
  refine Mailboxes.start h.outside fun x => ?_
  rw [env_init, (env_init_slots_spec h.empty (Nat.le_refl NENV)).2.1]
  exact h.free x

/-- In every run in which no other call touches a blocked receiver or changes the
status of an environment on another CPU: the log of each environment is a
sequence of rounds, each of one receive, one send and going on, and the
slot has what the last send has put there. A send that succeeds finds its
target in `sys_ipc_recv`, one that fails does nothing, and an environment
that goes on gets 0 from `sys_ipc_recv`. -/
theorem each_message_is_delivered_once {k₀ : Kernel} {t : Posted} {evs : List Event}
    (hboot : Booting k₀) (hr : runs.runFrom Posted.step (.start (env_init k₀)) evs = some t)
    (hall : runs.Along Posted.step (fun t ev => untouched t ev = true ∧ apart t ev = true)
      (.start (env_init k₀)) evs) :
    (∀ x, t.k.status x ≠ .ENV_FREE → rounds (t.log x) = true ∧ Mailed (t.k.envs x) (t.log x)) ∧
    ∀ ev t', untouched t ev = true → apart t ev = true → t.step ev = some t' →
      (∀ x sender value log, t.k.status x ≠ .ENV_FREE → t.log x = .send sender value :: log →
        t'.log x = .resume :: t.log x → t'.k.curenv ev.cpu = some x ∧
          (t'.k.envs x).env_tf.tf_regs.reg_eax = 0 ∧
          (t'.k.envs x).env_ipc_from = sender ∧ (t'.k.envs x).env_ipc_value = value) ∧
      ∀ c tf cr2 cur envid value srcva perm, ev = .trap c tf cr2 →
        callOf t.k ev = some (cur, .ipc_try_send envid value srcva perm) →
        ∃ r k₁, (Call.ipc_try_send envid value srcva perm).run (t.k.saved c cur tf) c cur =
            .ret r k₁ ∧
          ((r < 0 ∧ k₁ = t.k.saved c cur tf) ∨
            (r = 0 ∧ ∃ x log, envid2env t.k cur envid false = .ok x ∧ t.log x = .receive :: log ∧
              t'.log x = .send (t.k.envs cur).env_id value :: t.log x)) := by
  have h : Mailboxes t :=
    runs.runFrom_keeps (fun _ _ _ => mailboxes_step) hboot.mailboxes hr hall
  refine ⟨fun x hx => ⟨h.ordered x hx, h.mailed x hx⟩, fun ev t' hu ha hs => ?_⟩
  obtain ⟨k', hstep, rfl⟩ := Option.map_eq_some_iff.mp hs
  have hout := outside_step h.outside (h.careful ha) (step_cases hstep)
  refine ⟨fun x s v l hx hl hl' => ?_, ?_⟩
  · have hl' : t.logAfter k' ev x = .resume :: t.log x := hl'
    have hon : k'.curenv ev.cpu = some x := by
      by_contra hoff
      rw [Posted.logAfter, if_neg hx, if_neg hoff, hl] at hl'
      rcases noted_cases t.k ev x (.send s v :: l) with hn | hn | ⟨s', v', hn⟩ <;>
        exact absurd (hn.symm.trans hl') (by simp)
    have hd := h.delivered hu hstep hout.1 (hout.1.live hon)
    have hm := hd.mailed
    rw [hl', hl] at hm
    exact ⟨hon, hd.answer s v l hx hl, hm.2⟩
  · rintro c tf cr2 cur envid value srcva perm rfl hcall
    cases ipc_step h.outside.1 hstep with
    | other hno => cases hno _ _ hcall
    | @refused _ _ _ _ _ r _ hcall' hret hr =>
      cases hcall.symm.trans hcall'
      exact ⟨r, _, hret, Or.inl ⟨hr, rfl⟩⟩
    | receive hcall' => cases hcall.symm.trans hcall'
    | @send _ _ _ _ _ _ _ _ target k₁ _ hcall' hret he hrecv hsent hleave hon =>
      cases hcall.symm.trans hcall'
      have hcur : t.k.curenv c = some cur := callOf_curenv hcall
      have hfound := h.outside.1.found hcall he
      obtain ⟨hne, l, hlog, -⟩ := h.target hfound hrecv hcur
      refine ⟨0, k₁, hret, Or.inr ⟨rfl, target, l, he, hlog, ?_⟩⟩
      -- the sender goes on at once, and the target does not
      have hoff : k'.curenv (Event.cpu (.trap c tf cr2)) ≠ some target := fun hx =>
        hne (Option.some.inj (hx.symm.trans (hon hne)))
      have hans := answerOf_eq hcall
      rw [hret] at hans
      show t.logAfter k' (.trap c tf cr2) target = _
      rw [Posted.logAfter, if_neg hoff, if_neg hfound]
      simp only [noted, hans, he, Except.toOption, true_and, if_true]

/-- Environment 0 makes environment 1 and receives, and environment 1 sends it
42. -/
def talk : List Event :=
  [.create onePage .ENV_TYPE_USER, .boot, .trap 0 (sysTf SYS_exofork 0 0 0 0 0) 0,
    .trap 0 (sysTf SYS_env_set_status 0x1001 2 0 0 0) 0,
    .trap 0 (sysTf SYS_ipc_recv UTOP 0 0 0 0) 0,
    .trap 0 (sysTf SYS_ipc_try_send 0x1000 42 UTOP 0 0) 0]

/-- A machine of 64 pages, before its first environment. -/
def silent (ncpu : Nat) : Posted := .start (env_init (zeroKernel 64 pages_64 ncpu))

/-- The second CPU finds environment 0, which goes on. -/
theorem each_message_is_delivered_once_talk :
    ∃ t t', runs.runFrom Posted.step (silent 2) talk = some t ∧ t.step (.start 1) = some t' ∧
      t'.log 0 = [.resume, .send 0x1001 42, .receive] ∧ t'.k.curenv 1 = some 0 ∧
      (t'.k.envs 0).env_tf.tf_regs.reg_eax = 0 ∧ (t'.k.envs 0).env_ipc_value = 42 := by
  have hrun : ((runs.runFrom Posted.step (silent 2) talk).bind fun t =>
      (t.step (.start 1)).map fun t' => (t.log 0, t'.log 0, t.k.status 0)) =
      some ([.send 0x1001 42, .receive], [.resume, .send 0x1001 42, .receive], .ENV_RUNNABLE) := by
    decide +kernel
  have hall : runs.Along Posted.step (fun t ev => untouched t ev = true ∧ apart t ev = true)
      (silent 2) talk := by decide +kernel
  obtain ⟨t, hr, hnext⟩ := Option.bind_eq_some_iff.mp hrun
  obtain ⟨t', hs, hfacts⟩ := Option.map_eq_some_iff.mp hnext
  simp only [Prod.mk.injEq] at hfacts
  obtain ⟨hlog, hlog', hst⟩ := hfacts
  obtain ⟨-, hstep⟩ := each_message_is_delivered_once (zeroKernel_booting (by decide)) hr hall
  obtain ⟨hon, heax, -, hvalue⟩ := (hstep (.start 1) t' rfl rfl hs).1 0 0x1001 42 [.receive]
    (by rw [hst]; decide) hlog (by rw [hlog, hlog'])
  exact ⟨t, t', hr, hs, hlog', hon, heax, hvalue⟩

theorem step_start {k : Kernel} {c d : Nat} (hc : c < k.ncpu) (hmode : k.mode c = .off)
    (hlock : k.kernel_lock = none) (hcur : k.curenv c = none)
    (h0 : k.status 0 ≠ .ENV_RUNNABLE) (h1 : k.status 1 = .ENV_RUNNABLE) (hdir : k.dir 1 = some d)
    (hload : (k.envs 1).env_tf.loadable = true) :
    jos.step k (.start c) = some ((k.entered c).switch c 1 d) := by
  have hfirst : nextRunnable (k.entered c) NENV 0 = 1 := by
    show (if k.status 0 = .ENV_RUNNABLE then (0 : EnvIx) else
      if k.status 1 = .ENV_RUNNABLE then 1 else _) = 1
    rw [if_neg h0, if_pos h1]
  have hcur' : (k.entered c).curenv c = none := by simpa using hcur
  have h1' : (k.entered c).status 1 = .ENV_RUNNABLE := h1
  have hdir' : (k.entered c).dir 1 = some d := hdir
  have hyield : sched_yield (k.entered c) c = .left ((k.entered c).switch c 1 d) := by
    simp only [sched_yield, hcur', hfirst, h1', if_true, env_run_eq, hdir']
    simp [hload]
  have henter : lock_kernel (k.setCpu c fun cpu => { cpu with cpu_status := .CPU_STARTED }) c =
      .ok (k.entered c) := by
    simp only [lock_kernel, Kernel.setCpu_lock, hlock, reduceCtorEq, if_false]
    rfl
  have hmode : (k.cpus c).mode = .off := hmode
  simp only [jos.step, enter, hc, hmode, hlock, and_self, if_true, henter, hyield]
  rfl

/-- Environment 0 makes its child 1 runnable once more while it runs on CPU 1, and
starts two others. CPU 0 runs environment 1 too, which receives there, and
environment 2 sends it 42. Then CPU 1 is interrupted. -/
def talkTwice : List Event :=
  [.create onePage .ENV_TYPE_USER, .boot, .trap 0 (sysTf SYS_exofork 0 0 0 0 0) 0,
    .trap 0 (sysTf SYS_exofork 0 0 0 0 0) 0, .trap 0 (sysTf SYS_exofork 0 0 0 0 0) 0,
    .trap 0 (sysTf SYS_env_set_status 0x1001 2 0 0 0) 0, .start 1,
    .trap 0 (sysTf SYS_env_set_status 0x1001 2 0 0 0) 0,
    .trap 0 (sysTf SYS_env_set_status 0x1002 2 0 0 0) 0,
    .trap 0 (sysTf SYS_env_set_status 0x1003 2 0 0 0) 0,
    .trap 0 (sysTf SYS_ipc_recv UTOP 0 0 0 0) 0, .trap 0 (sysTf SYS_ipc_recv UTOP 0 0 0 0) 0,
    .trap 0 (sysTf SYS_ipc_try_send 0x1001 42 UTOP 0 0) 0,
    .trap 1 { sysTf 7 0 0 0 0 0 with tf_trapno := IRQ_TIMER } 0]

/-- When environment 1 goes on, what CPU 1 had in its registers has taken the
place of what `sys_ipc_recv` was to return. -/
theorem receiver_on_two_cpus : ∃ t t', runs.runFrom Posted.step (silent 3) talkTwice = some t ∧
    runs.Along Posted.step (fun t ev => untouched t ev = true) (silent 3) talkTwice ∧
    t.step (.start 2) = some t' ∧ t'.log 1 = [.resume, .send 0x1002 42, .receive] ∧
    t'.k.curenv 2 = some 1 ∧ (t'.k.envs 1).env_tf.tf_regs.reg_eax = 7 := by
  have hlog : (runs.runFrom Posted.step (silent 3) talkTwice).map (fun t => t.log 1) =
      some [.send 0x1002 42, .receive] := by decide +kernel
  have hcpu : (runs.runFrom Posted.step (silent 3) talkTwice).map (fun t =>
      (decide (2 < t.k.ncpu), t.k.mode 2, t.k.kernel_lock, t.k.curenv 2)) =
      some (true, .off, none, none) := by decide +kernel
  have henv : (runs.runFrom Posted.step (silent 3) talkTwice).map (fun t =>
      (t.k.status 0, t.k.status 1, (t.k.dir 1).isSome, (t.k.envs 1).env_tf.loadable)) =
      some (.ENV_NOT_RUNNABLE, .ENV_RUNNABLE, true, true) := by decide +kernel
  have heax : (runs.runFrom Posted.step (silent 3) talkTwice).map (fun t =>
      (t.k.envs 1).env_tf.tf_regs.reg_eax) = some 7 := by decide +kernel
  have hall : runs.Along Posted.step (fun t ev => untouched t ev = true) (silent 3) talkTwice := by
    decide +kernel
  obtain ⟨t, hr, hlog⟩ := Option.map_eq_some_iff.mp hlog
  rw [hr, Option.map_some, Option.some_inj] at hcpu henv heax
  simp only [Prod.mk.injEq, decide_eq_true_eq] at hcpu henv
  obtain ⟨hn, hmode, hlock, hcur⟩ := hcpu
  obtain ⟨h0, h1, hdir, hload⟩ := henv
  obtain ⟨d, hdir⟩ := Option.isSome_iff_exists.mp hdir
  have hs := step_start hn hmode hlock hcur (by rw [h0]; decide) h1 hdir hload
  have hon : ((t.k.entered 2).switch 2 1 d).curenv 2 = some 1 := by simp [Kernel.curenv]
  have htf : (((t.k.entered 2).switch 2 1 d).envs 1).env_tf = (t.k.envs 1).env_tf := by
    simp [Kernel.switch_envs, Kernel.demote_env]
  generalize (t.k.entered 2).switch 2 1 d = k' at hs hon htf
  refine ⟨t, ⟨k', t.logAfter k' (.start 2)⟩, hr, hall, ?_, ?_, hon, ?_⟩
  · rw [Posted.step, hs]
    rfl
  · show t.logAfter k' (.start 2) 1 = _
    have hcpu : k'.curenv (Event.cpu (.start 2)) = some 1 := hon
    rw [Posted.logAfter, if_pos hcpu, if_neg (by rw [h1]; decide), hlog]
    rfl
  · rw [← heax]
    exact congrArg (fun tf => tf.tf_regs.reg_eax) htf

end jos
