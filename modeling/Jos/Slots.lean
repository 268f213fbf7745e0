-- What a step of the machine does to one slot of `envs`: a sequence of small
-- changes, each with the reason for it. An invariant of a slot is kept by a
-- step if each of these changes keeps it.
import Jos.OneCpu
import Mathlib

namespace jos

open Relation (ReflTransGen)

/-- The CPU that takes the step. -/
def Event.cpu : Event → Nat
  | .create .. | .boot => 0
  | .start c | .trap c .. | .interrupt c .. | .store c .. | .touch c .. => c

/-- The environment whose trap is handled in the step. -/
def trapOf (k : Kernel) : Event → Option (EnvIx × Trapframe)
  | .trap c tf _ => (k.curenv c).map fun cur => (cur, tf)
  | _ => none

/-- A change of slot `x` in the step from `k` to `k'`. -/
inductive Change (k k' : Kernel) (ev : Event) (x : EnvIx) : Env → Env → Prop
  | create {env : Env} {prog : Program} {type : EnvType} {pgdir : Nat}
      (hev : ev = .create prog type) (hfree : k.status x = .ENV_FREE) :
      Change k k' ev x env { freshEnv env x 0 pgdir with
        env_type := type
        env_tf := { initialTf with
          tf_eip := prog.e_entry
          tf_eflags :=
            if type = .ENV_TYPE_FS then initialTf.tf_eflags ||| FL_IOPL_3
            else initialTf.tf_eflags } }
  /-- the environment traps -/
  | save {env : Env} {tf : Trapframe} (htrap : trapOf k ev = some (x, tf)) :
      Change k k' ev x env { env with env_tf := tf }
  /-- it goes on at its handler -/
  | upcall {env : Env} {tf : Trapframe} (htrap : trapOf k ev = some (x, tf)) :
      Change k k' ev x env { env with env_tf :=
        { env.env_tf with tf_esp := usertf tf, tf_eip := env.env_pgfault_upcall } }
  /-- it is destroyed -/
  | destroyed {env : Env} {tf : Trapframe} {link : Option EnvIx}
      (htrap : trapOf k ev = some (x, tf)) : Change k k' ev x env (freedEnv env link)
  /-- a system call of the environment returns -/
  | eax {env : Env} {call : Call} (r : Int) (hcall : callOf k ev = some (x, call)) :
      Change k k' ev x env { env with env_tf := { env.env_tf with
        tf_regs := { env.env_tf.tf_regs with reg_eax := BitVec.ofInt 32 r } } }
  | receive {env : Env} {dstva : Word} (hcall : callOf k ev = some (x, .ipc_recv dstva)) :
      Change k k' ev x env { env with
        env_ipc_dstva := if dstva < UTOP then dstva else env.env_ipc_dstva
        env_ipc_recving := true
        env_status := .ENV_NOT_RUNNABLE }
  /-- a system call of `cur` changes the slot -/
  | dying {env : Env} {cur : EnvIx} {envid : Word} (hcall : callOf k ev = some (cur, .env_destroy envid))
      (he : envid2env k cur envid true = .ok x) (hrun : k.status x = .ENV_RUNNING) :
      Change k k' ev x env { env with env_status := .ENV_DYING }
  | freed {env : Env} {cur : EnvIx} {envid : Word} {link : Option EnvIx}
      (hcall : callOf k ev = some (cur, .env_destroy envid))
      (he : envid2env k cur envid true = .ok x) (hrun : k.status x ≠ .ENV_RUNNING) :
      Change k k' ev x env (freedEnv env link)
  | fork {env : Env} {cur : EnvIx} {tf : Trapframe} {pgdir : Nat}
      (hcall : callOf k ev = some (cur, .exofork)) (htrap : trapOf k ev = some (cur, tf))
      (hfree : k.status x = .ENV_FREE) :
      Change k k' ev x env { freshEnv env x (k.envs cur).env_id pgdir with
        env_status := .ENV_NOT_RUNNABLE
        env_tf := { tf with tf_regs := { tf.tf_regs with reg_eax := 0 } } }
  | status {env : Env} {cur : EnvIx} {envid status : Word} {st : EnvStatus}
      (hcall : callOf k ev = some (cur, .env_set_status envid status))
      (he : envid2env k cur envid true = .ok x) (hst : settable status = some st) :
      Change k k' ev x env { env with env_status := st }
  | trapframe {env : Env} {cur : EnvIx} {envid tf : Word} {frame : Trapframe}
      (hcall : callOf k ev = some (cur, .env_set_trapframe envid tf))
      (he : envid2env k cur envid true = .ok x)
      (hload : loadTrapframe (k.pm.load (k.cpus ev.cpu).cr3) tf = .ok frame) :
      Change k k' ev x env { env with env_tf := userTf frame }
  | func {env : Env} {cur : EnvIx} {envid func : Word}
      (hcall : callOf k ev = some (cur, .env_set_pgfault_upcall envid func))
      (he : envid2env k cur envid true = .ok x) :
      Change k k' ev x env { env with env_pgfault_upcall := func }
  | deliver {env : Env} {cur : EnvIx} {envid value srcva perm perm' : Word}
      (hcall : callOf k ev = some (cur, .ipc_try_send envid value srcva perm))
      (he : envid2env k cur envid false = .ok x) (hrecv : (k.envs x).env_ipc_recving = true) :
      Change k k' ev x env { env with
        env_ipc_perm := perm'
        env_ipc_recving := false
        env_ipc_from := (k.envs cur).env_id
        env_tf := { env.env_tf with tf_regs := { env.env_tf.tf_regs with reg_eax := 0 } }
        env_ipc_value := value
        env_status := .ENV_RUNNABLE }
  /-- the CPU gives the environment up -/
  | demote {env : Env} {tf : Trapframe} (htrap : trapOf k ev = some (x, tf))
      (hrun : env.env_status = .ENV_RUNNING) :
      Change k k' ev x env { env with env_status := .ENV_RUNNABLE }
  /-- the CPU runs the environment -/
  | run {env : Env} (hcur : k'.curenv ev.cpu = some x) (hmode : k'.mode ev.cpu = .user)
      (hready : env.env_status = .ENV_RUNNABLE ∨ env.env_status = .ENV_RUNNING) :
      Change k k' ev x env { env with
        env_status := .ENV_RUNNING
        env_runs := env.env_runs + 1
        env_cpunum := ev.cpu }

/-- What a step may make of a slot. -/
abbrev Changes (k k' : Kernel) (ev : Event) (x : EnvIx) : Env → Env → Prop :=
  ReflTransGen (Change k k' ev x)

section changes

variable {k k' k₁ : Kernel} {ev : Event} {x : EnvIx}

/-- A change of one slot, where it is slot `x`. -/
theorem Changes.update {envs : EnvIx → Env} {e : EnvIx} {env : Env}
    (h : e = x → Change k k' ev x (envs x) env) :
    Changes k k' ev x (envs x) (Function.update envs e env x) := by
  by_cases hx : e = x
  · subst hx
    rw [Function.update_self]
    exact .single (h rfl)
  · rw [Function.update_of_ne (Ne.symm hx)]

end changes

/-! ## A trap -/

section trap

variable {k k' k₁ : Kernel} {c : Nat} {cur x : EnvIx} {tf : Trapframe} {cr2 : Word} {call : Call}
  {r : Int}

/-- Only the frame of a slot may be other than it was. -/
theorem Kernel.saved_env (k : Kernel) (c : Nat) (cur : EnvIx) (tf : Trapframe) (x : EnvIx) :
    (k.saved c cur tf).envs x =
      { k.envs x with env_tf := ((k.saved c cur tf).envs x).env_tf } := by
  by_cases hx : x = cur <;> simp [hx]

theorem effect_curenv (h : Effect k c cur call r k') : k'.curenv = k.curenv := by
  cases h with
  | quiet _ hq => obtain ⟨_, _, _, rfl⟩ := hq; rfl
  | freed => exact Kernel.release_curenv ..
  | _ => rfl

theorem effect_changes (hl : FreeListed k) (hcur : k.curenv c = some cur)
    (hlive : k.status cur ≠ .ENV_FREE) (hcall : callOf k (.trap c tf cr2) = some (cur, call))
    (h : Effect (k.saved c cur tf) c cur call r k₁) :
    Changes k k' (.trap c tf cr2) x ((k.saved c cur tf).envs x) (k₁.envs x) := by
  have htrap : trapOf k (.trap c tf cr2) = some (cur, tf) := by simp [trapOf, hcur]
  have hdeliver : ∀ {envid value srcva perm perm' : Word} {target : EnvIx},
      call = .ipc_try_send envid value srcva perm →
      envid2env (k.saved c cur tf) cur envid false = .ok target →
      ((k.saved c cur tf).envs target).env_ipc_recving = true → target = x →
      Change k k' (.trap c tf cr2) x ((k.saved c cur tf).envs x)
        { (k.saved c cur tf).envs target with
          env_ipc_perm := perm'
          env_ipc_recving := false
          env_ipc_from := ((k.saved c cur tf).envs cur).env_id
          env_tf := { ((k.saved c cur tf).envs target).env_tf with
            tf_regs := { ((k.saved c cur tf).envs target).env_tf.tf_regs with reg_eax := 0 } }
          env_ipc_value := value
          env_status := .ENV_RUNNABLE } := by
    rintro envid value srcva perm perm' target rfl he hrecv rfl
    have hid : ((k.saved c cur tf).envs cur).env_id = (k.envs cur).env_id := by
      rw [Kernel.saved_env]
    rw [Kernel.saved_env] at hrecv
    rw [hid]
    exact .deliver hcall (by rwa [envid2env_saved] at he) hrecv
  cases h with
  | quiet _ hq => obtain ⟨_, _, _, rfl⟩ := hq; exact .refl
  | dying he hother hrun =>
    refine Changes.update fun hx => ?_
    subst hx
    exact .dying hcall (by rwa [envid2env_saved] at he) (by simpa using hrun)
  | freed he hother hrun =>
    rw [Kernel.release_envs]
    refine Changes.update fun hx => ?_
    subst hx
    exact .freed hcall (by rwa [envid2env_saved] at he) (by simpa using hrun)
  | @fork child pgdir pm r hfree hvm =>
    have hchild : k.status child = .ENV_FREE := hl.head hfree
    have hne : cur ≠ child := fun h => hlive (h ▸ hchild)
    have henvs : ((k.saved c cur tf).fork cur child pgdir pm).envs =
        Function.update (k.saved c cur tf).envs child
          { freshEnv (k.envs child) child (k.envs cur).env_id pgdir with
            env_status := .ENV_NOT_RUNNABLE
            env_tf := { tf with tf_regs := { tf.tf_regs with reg_eax := 0 } } } := by
      simp [Kernel.fork, hne, hne.symm]
    rw [henvs]
    refine Changes.update fun hx => ?_
    subst hx
    have hslot : (k.saved c cur tf).envs child = k.envs child := by simp [hne.symm]
    rw [hslot]
    exact .fork hcall htrap hchild
  | status he hst =>
    refine Changes.update fun hx => ?_
    subst hx
    exact .status hcall (by rwa [envid2env_saved] at he) hst
  | trapframe he hload =>
    refine Changes.update fun hx => ?_
    subst hx
    refine .trapframe hcall (by rwa [envid2env_saved] at he) ?_
    simpa [Event.cpu] using hload
  | upcall he =>
    refine Changes.update fun hx => ?_
    subst hx
    exact .func hcall (by rwa [envid2env_saved] at he)
  | send he hrecv => exact Changes.update (hdeliver rfl he hrecv)
  | sendPage he hrecv => exact Changes.update (hdeliver rfl he hrecv)
  | _ => exact .refl

/-- Handling a trap. The environment on the CPU stays there or is gone. -/
theorem handled_changes (hl : FreeListed k) (hcur : k.curenv c = some cur)
    (hlive : k.status cur ≠ .ENV_FREE) (h : Handled k c cur tf cr2 k₁) :
    Changes k k' (.trap c tf cr2) x (k.envs x) (k₁.envs x) ∧
      ∀ e, k₁.curenv c = some e → e = cur := by
  have htrap : trapOf k (.trap c tf cr2) = some (cur, tf) := by simp [trapOf, hcur]
  have hsaved : Changes k k' (.trap c tf cr2) x (k.envs x) ((k.saved c cur tf).envs x) :=
    Changes.update fun hx => by subst hx; exact .save htrap
  have hown : ∀ e, (k.saved c cur tf).curenv c = some e → e = cur := by
    intro e he
    rw [Kernel.saved_curenv, hcur] at he
    exact (Option.some.inj he).symm
  -- the environment that traps is freed
  have hvacate : ∀ {k₂ : Kernel} {pm : Phys},
      Changes k k' (.trap c tf cr2) x (k.envs x) (k₂.envs x) →
      Changes k k' (.trap c tf cr2) x (k.envs x) ((k₂.vacate c cur pm).envs x) ∧
        ∀ e, (k₂.vacate c cur pm).curenv c = some e → e = cur := by
    intro k₂ pm h₂
    refine ⟨h₂.trans ?_, fun e he => ?_⟩
    · show Changes _ _ _ _ _ ((k₂.release c cur pm).envs x)
      rw [Kernel.release_envs]
      exact Changes.update fun hx => by subst hx; exact .destroyed htrap
    · rw [Kernel.vacate, setCurenv_curenv, Function.update_self] at he
      cases he
  cases h with
  | died hdying hpages => exact hvacate .refl
  | @ret k₁ r hdy hno he =>
    have hcall : callOf k (.trap c tf cr2) = some (cur, tf.call) := by
      simp [callOf, hcur, hno, hdy]
    refine ⟨(hsaved.trans (effect_changes hl hcur hlive hcall he)).trans ?_, fun e hc => ?_⟩
    · exact Changes.update fun hx => by subst hx; exact .eax r hcall
    · exact hown e ((congrFun (effect_curenv he) c).symm.trans hc)
  | exit hdy hno he =>
    have hcall : callOf k (.trap c tf cr2) = some (cur, tf.call) := by
      simp [callOf, hcur, hno, hdy]
    generalize tf.call = call at he hcall
    cases he with
    | yield => exact ⟨hsaved, hown⟩
    | receive =>
      exact ⟨hsaved.trans (Changes.update fun hx => by subst hx; exact .receive hcall), hown⟩
    | destroyed hq hpages =>
      obtain ⟨_, _, _, rfl⟩ := hq
      exact hvacate hsaved
  | interrupt => exact ⟨hsaved, hown⟩
  | fault hdy hq hstore =>
    obtain ⟨_, _, _, rfl⟩ := hq
    exact ⟨hsaved.trans (Changes.update fun hx => by subst hx; exact .upcall htrap), hown⟩
  | destroyed hdy hq hpages =>
    obtain ⟨_, _, _, rfl⟩ := hq
    exact hvacate hsaved

end trap

/-! ## Leaving the kernel -/

section leaving

variable {k k' k₁ : Kernel} {ev : Event} {x : EnvIx}

theorem leaves_changes (hown : ∀ e, k₁.curenv ev.cpu = some e → ∃ tf, trapOf k ev = some (e, tf))
    (h : Leaves k₁ ev.cpu k') : Changes k k' ev x (k₁.envs x) (k'.envs x) := by
  cases h with
  | @run e pgdir hlock hdir hready hload =>
    have hdemote : Changes k (k₁.switch ev.cpu e pgdir) ev x (k₁.envs x)
        ((k₁.demote ev.cpu).envs x) := by
      rw [Kernel.demote_env, Kernel.demote_status]
      split
      · rename_i hx
        obtain ⟨tf, htrap⟩ := hown x hx.1
        exact .single (.demote htrap hx.2)
      · exact .refl
    refine hdemote.trans ?_
    rw [Kernel.switch_envs]
    refine Changes.update fun hx => ?_
    subst hx
    refine .run ?_ ?_ ?_
    · rw [switch_curenv, Function.update_self]
    · rw [switch_mode, Function.update_self]
    · have hst : ((k₁.demote ev.cpu).envs e).env_status = (k₁.demote ev.cpu).status e := rfl
      rw [hst, Kernel.demote_status]
      rcases hready with hr | ⟨hc, hr⟩
      · rw [hr]; simp
      · simp [hc, hr]
  | halt => exact .refl

end leaving

/-- Each step is a sequence of such changes for each slot. -/
theorem step_changes {k k' : Kernel} {ev : Event} (h : Outside k ∧ FreeListed k)
    (hs : StepCases k ev k') (x : EnvIx) : Changes k k' ev x (k.envs x) (k'.envs x) := by
  obtain ⟨h, hl⟩ := h
  have hidle : ∀ c, k.mode c ≠ .user → ∀ e, k.curenv c = some e → ∃ tf, trapOf k ev = some (e, tf) :=
    fun c hm e he => by rw [h.other c hm] at he; cases he
  cases hs with
  | @create prog type e pgdir pm pm' hmode hlock hfree hvm hload =>
    have henvs : (k.loaded e pgdir pm pm' prog type).envs = Function.update k.envs e
        { freshEnv (k.envs e) e 0 pgdir with
          env_type := type
          env_tf := { initialTf with
            tf_eip := prog.e_entry
            tf_eflags :=
              if type = .ENV_TYPE_FS then initialTf.tf_eflags ||| FL_IOPL_3
              else initialTf.tf_eflags } } := by
      simp [Kernel.loaded, freshEnv]
    rw [henvs]
    refine Changes.update fun hx => ?_
    subst hx
    exact .create rfl (hl.head hfree)
  | boot hmode hlock hleave =>
    exact leaves_changes (hidle 0 (by simp [Kernel.mode, hmode])) hleave
  | @start c k' hmode hlock hleave =>
    have hcur := hidle c (by simp [Kernel.mode, hmode])
    rw [← Kernel.entered_curenv k c] at hcur
    exact @leaves_changes k k' (k.entered c) (.start c) x hcur hleave
  | @trap c tf cr2 k' hmode hlock hload htrap =>
    obtain ⟨cur, hcur, hbusy⟩ := h.user _ hmode
    have hst : k.status cur = .ENV_RUNNING ∨ k.status cur = .ENV_DYING := by
      cases hs : k.status cur <;> simp_all [EnvStatus.busy]
    have hlive : k.status cur ≠ .ENV_FREE := by rcases hst with h | h <;> rw [h] <;> decide
    obtain ⟨k₁, hh, hleave⟩ := trap_handled hcur hst (loadable_user hload) htrap
    obtain ⟨hch, hown⟩ := handled_changes hl hcur hlive hh
    refine hch.trans (@leaves_changes k k' k₁ (.trap c tf cr2) x (fun e he => ⟨tf, ?_⟩) hleave)
    rw [hown e he]
    simp [trapOf, hcur]
  | @interrupt c tf k' hmode hlock hcs hdev htrap =>
    have hm : k.mode c ≠ .user := by simp [Kernel.mode, hmode]
    have hleave := interrupt_leaves (h.other c hm) hlock hcs hdev htrap
    have hcur := hidle c hm
    rw [← Kernel.entered_curenv k c] at hcur
    exact @leaves_changes k k' (k.entered c) (.interrupt c tf) x hcur hleave
  | store | touch => exact .refl

/-! ## The other CPUs -/

section cpus

variable {k k' k₁ : Kernel} {c c' : Nat} {cur : EnvIx} {tf : Trapframe} {cr2 : Word} {ev : Event}

theorem release_cpus_other (e : EnvIx) (pm : Phys) (hc : c' ≠ c) :
    (k.release c e pm).cpus c' = k.cpus c' := by
  rw [Kernel.release_cpus]
  split
  · exact Function.update_of_ne hc ..
  · rfl

theorem effect_cpus {call : Call} {r : Int} (h : Effect k c cur call r k') (hc : c' ≠ c) :
    k'.cpus c' = k.cpus c' := by
  cases h with
  | quiet _ hq => obtain ⟨_, _, _, rfl⟩ := hq; rfl
  | freed => exact release_cpus_other _ _ hc
  | _ => rfl

theorem vacate_cpus (e : EnvIx) (pm : Phys) (hc : c' ≠ c) :
    (k.vacate c e pm).cpus c' = k.cpus c' := by
  rw [Kernel.vacate, Kernel.setCurenv, Kernel.setCpu_cpus, Function.update_of_ne hc]
  exact release_cpus_other e pm hc

theorem entered_cpus_other (hc : c' ≠ c) : (k.entered c).cpus c' = k.cpus c' :=
  Function.update_of_ne hc ..

theorem handled_cpus (h : Handled k c cur tf cr2 k₁) (hc : c' ≠ c) : k₁.cpus c' = k.cpus c' := by
  have hsaved : (k.saved c cur tf).cpus c' = k.cpus c' := entered_cpus_other hc
  cases h with
  | died => exact (vacate_cpus _ _ hc).trans (entered_cpus_other hc)
  | ret _ _ he => exact (effect_cpus he hc).trans hsaved
  | exit _ _ he =>
    generalize tf.call = call at he
    cases he with
    | yield | receive => exact hsaved
    | destroyed hq =>
      obtain ⟨_, _, _, rfl⟩ := hq
      exact (vacate_cpus _ _ hc).trans hsaved
  | interrupt => exact hsaved
  | fault _ hq =>
    obtain ⟨_, _, _, rfl⟩ := hq
    exact hsaved
  | destroyed _ hq =>
    obtain ⟨_, _, _, rfl⟩ := hq
    exact (vacate_cpus _ _ hc).trans hsaved

theorem leaves_cpus (h : Leaves k c k') (hc : c' ≠ c) : k'.cpus c' = k.cpus c' := by
  cases h with
  | run => rw [Kernel.switch_cpus, Function.update_of_ne hc]
  | halt => exact Function.update_of_ne hc ..

/-- The other CPUs take no part in a step. -/
theorem step_cpus (h : Outside k) (hs : StepCases k ev k') (hc : c' ≠ ev.cpu) :
    k'.cpus c' = k.cpus c' := by
  cases hs with
  | create | store | touch => rfl
  | boot _ _ hleave => exact leaves_cpus hleave hc
  | start _ _ hleave => exact (leaves_cpus hleave hc).trans (entered_cpus_other hc)
  | @trap c tf cr2 k' hmode hlock hload htrap =>
    obtain ⟨cur, hcur, hbusy⟩ := h.user _ hmode
    have hst : k.status cur = .ENV_RUNNING ∨ k.status cur = .ENV_DYING := by
      cases hs : k.status cur <;> simp_all [EnvStatus.busy]
    obtain ⟨k₁, hh, hleave⟩ := trap_handled hcur hst (loadable_user hload) htrap
    exact (leaves_cpus hleave hc).trans (handled_cpus hh hc)
  | @interrupt c tf k' hmode hlock hcs hdev htrap =>
    have hm : k.mode c ≠ .user := by simp [Kernel.mode, hmode]
    exact (leaves_cpus (interrupt_leaves (h.other c hm) hlock hcs hdev htrap) hc).trans
      (entered_cpus_other hc)

end cpus

/-! ## The saved frames -/

section frames

variable {k k' : Kernel} {ev : Event} {x : EnvIx}

theorem Outside.live {c : Nat} (h : Outside k) (hcur : k.curenv c = some x) :
    k.status x ≠ .ENV_FREE := by
  have hmode : k.mode c = .user := by
    by_contra hm
    rw [h.other c hm] at hcur
    cases hcur
  obtain ⟨e, he, hbusy⟩ := h.user c hmode
  cases hcur.symm.trans he
  intro hfree
  rw [hfree] at hbusy
  cases hbusy

theorem trapOf_curenv {tf : Trapframe} (htrap : trapOf k ev = some (x, tf)) :
    k.curenv ev.cpu = some x := by
  cases ev with
  | trap c tf' cr2 =>
    obtain ⟨cur, hcur, heq⟩ := Option.map_eq_some_iff.mp htrap
    cases heq
    exact hcur
  | _ => cases htrap

theorem callOf_curenv {cur : EnvIx} {call : Call} (hcall : callOf k ev = some (cur, call)) :
    k.curenv ev.cpu = some cur := by
  cases ev with
  | trap c tf cr2 =>
    simp only [callOf] at hcall
    split at hcall
    · rename_i e he
      split at hcall
      · cases hcall; exact he
      · cases hcall
    · cases hcall
  | _ => cases hcall

/-- An environment that a call finds is not free. -/
theorem Outside.found {cur : EnvIx} {call : Call} {envid : Word} {checkperm : Bool} (h : Outside k)
    (hcall : callOf k ev = some (cur, call)) (he : envid2env k cur envid checkperm = .ok x) :
    k.status x ≠ .ENV_FREE := by
  rcases envid2env_live he with rfl | hl
  · exact h.live (callOf_curenv hcall)
  · exact hl

/-- What a step may do to the type and the frame of an environment. -/
structure KeepsFrames (P : EnvType → Trapframe → Prop) (k : Kernel) (ev : Event) : Prop where
  create : ∀ prog type, ev = .create prog type → P type { initialTf with
    tf_eip := prog.e_entry
    tf_eflags :=
      if type = .ENV_TYPE_FS then initialTf.tf_eflags ||| FL_IOPL_3 else initialTf.tf_eflags }
  regs : ∀ type tf regs, P type tf → P type { tf with tf_regs := regs }
  jump : ∀ type tf esp eip, P type tf → P type { tf with tf_esp := esp, tf_eip := eip }
  save : ∀ x tf, trapOf k ev = some (x, tf) → P (k.envs x).env_type tf
  fork : ∀ cur tf, callOf k ev = some (cur, .exofork) → trapOf k ev = some (cur, tf) →
    P .ENV_TYPE_USER tf
  frame : ∀ cur envid va x frame, callOf k ev = some (cur, .env_set_trapframe envid va) →
    envid2env k cur envid true = .ok x →
    loadTrapframe (k.pm.load (k.cpus ev.cpu).cr3) va = .ok frame →
    P (k.envs x).env_type (userTf frame)

/-- The type of an environment stays, and what holds of all frames is kept. -/
theorem frames_step {P : EnvType → Trapframe → Prop} (h : Outside k ∧ FreeListed k)
    (hs : StepCases k ev k') (hP : KeepsFrames P k ev)
    (hI : ∀ x, k.status x ≠ .ENV_FREE → P (k.envs x).env_type (k.envs x).env_tf) (x : EnvIx) :
    (k.status x ≠ .ENV_FREE → (k'.envs x).env_type = (k.envs x).env_type) ∧
      (k'.status x ≠ .ENV_FREE → P (k'.envs x).env_type (k'.envs x).env_tf) := by
  -- a slot that was not free satisfies `P` all along, also when it is freed
  have hinv : ∀ env, Changes k k' ev x (k.envs x) env →
      (k.status x ≠ .ENV_FREE → env.env_type = (k.envs x).env_type) ∧
      (k.status x ≠ .ENV_FREE ∨ env.env_status ≠ .ENV_FREE → P env.env_type env.env_tf) := by
    intro env hch
    induction hch with
    | refl => exact ⟨fun _ => rfl, fun hl => hI x (hl.elim id id)⟩
    | tail _ hch ih =>
      obtain ⟨htype, hframe⟩ := ih
      have htrapped : ∀ {tf}, trapOf k ev = some (x, tf) → k.status x ≠ .ENV_FREE :=
        fun ht => h.1.live (trapOf_curenv ht)
      have hcalled : ∀ {call}, callOf k ev = some (x, call) → k.status x ≠ .ENV_FREE :=
        fun hc => h.1.live (callOf_curenv hc)
      cases hch with
      | create hev hfree => exact ⟨fun hl => absurd hfree hl, fun _ => hP.create _ _ hev⟩
      | fork hcall htrap hfree =>
        exact ⟨fun hl => absurd hfree hl, fun _ => hP.regs _ _ _ (hP.fork _ _ hcall htrap)⟩
      | save htrap =>
        refine ⟨htype, fun _ => ?_⟩
        rw [htype (htrapped htrap)]
        exact hP.save x _ htrap
      | upcall htrap =>
        exact ⟨htype, fun _ => hP.jump _ _ _ _ (hframe (Or.inl (htrapped htrap)))⟩
      | destroyed htrap | demote htrap =>
        exact ⟨htype, fun _ => hframe (Or.inl (htrapped htrap))⟩
      | eax r hcall => exact ⟨htype, fun _ => hP.regs _ _ _ (hframe (Or.inl (hcalled hcall)))⟩
      | receive hcall => exact ⟨htype, fun _ => hframe (Or.inl (hcalled hcall))⟩
      | dying hcall he | freed hcall he | status hcall he | func hcall he =>
        exact ⟨htype, fun _ => hframe (Or.inl (h.1.found hcall he))⟩
      | trapframe hcall he hload =>
        refine ⟨htype, fun _ => ?_⟩
        rw [htype (h.1.found hcall he)]
        exact hP.frame _ _ _ x _ hcall he hload
      | deliver hcall he =>
        exact ⟨htype, fun _ => hP.regs _ _ _ (hframe (Or.inl (h.1.found hcall he)))⟩
      | run hcur hmode hready =>
        refine ⟨htype, fun _ => hframe (Or.inr ?_)⟩
        rcases hready with hr | hr <;> rw [hr] <;> decide
  obtain ⟨htype, hframe⟩ := hinv _ (step_changes h hs x)
  exact ⟨htype, fun hl => hframe (Or.inr hl)⟩

end frames

end jos
