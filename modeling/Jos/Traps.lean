-- What a trap does, said once: the state in which the kernel has handled it
-- and is about to leave. With the ways out of the kernel this gives all the
-- steps of the machine.
import Jos.Trap
import Jos.Calls

namespace jos

open outcome (Outcome)

/-- The system call that the saved registers ask for. -/
def Trapframe.call (tf : Trapframe) : Call :=
  let r := tf.tf_regs
  .of r.reg_eax r.reg_edx r.reg_ecx r.reg_ebx r.reg_edi r.reg_esi

namespace Kernel

/-- CPU `c` has come in and has the lock. -/
def entered (k : Kernel) (c : Nat) : Kernel :=
  { k.setCpu c fun cpu => { cpu with cpu_status := .CPU_STARTED } with kernel_lock := some c }

/-- The registers of the environment on CPU `c` are saved. -/
def saved (k : Kernel) (c : Nat) (cur : EnvIx) (tf : Trapframe) : Kernel :=
  (k.entered c).setEnv cur fun env => { env with env_tf := tf }

variable (k : Kernel) (c : Nat) (cur : EnvIx) (tf : Trapframe)

@[simp] theorem entered_envs : (k.entered c).envs = k.envs := rfl
@[simp] theorem entered_lock : (k.entered c).kernel_lock = some c := rfl
@[simp] theorem entered_cpus : (k.entered c).cpus =
    Function.update k.cpus c { k.cpus c with cpu_status := .CPU_STARTED } := rfl

@[simp] theorem entered_curenv : (k.entered c).curenv = k.curenv := by
  funext x; by_cases h : x = c <;> simp [curenv, h]

@[simp] theorem saved_pm : (k.saved c cur tf).pm = k.pm := rfl
@[simp] theorem saved_envs : (k.saved c cur tf).envs =
    Function.update k.envs cur { k.envs cur with env_tf := tf } := rfl
@[simp] theorem saved_cpus : (k.saved c cur tf).cpus = (k.entered c).cpus := rfl
@[simp] theorem saved_curenv : (k.saved c cur tf).curenv = k.curenv := entered_curenv k c

@[simp] theorem saved_status : (k.saved c cur tf).status = k.status :=
  setEnv_status_same (k := k.entered c) rfl

@[simp] theorem saved_link : (k.saved c cur tf).link = k.link :=
  setEnv_link_same (k := k.entered c) rfl

@[simp] theorem saved_dir : (k.saved c cur tf).dir = k.dir :=
  setEnv_dir_same (k := k.entered c) rfl

end Kernel

/-! ## Handling a trap -/

/-- Where the frame of a fault goes: below the frame of the handler that it
interrupts, or at the top of the exception stack. -/
def usertf (tf : Trapframe) : Word :=
  if tf.tf_esp < UXSTACKTOP ∧ tf.tf_esp ≥ UXSTACKTOP - 0x1000 then tf.tf_esp - 4 - 52
  else UXSTACKTOP - 52

/-- The frame of a fault has been stored on the exception stack of `cur`, and
`cur` is to go on at its handler. -/
def Kernel.upcall (k : Kernel) (cur : EnvIx) (tf : Trapframe) (pm : Phys) : Kernel :=
  (k.withPm pm).setEnv cur fun env =>
    { env with env_tf := { env.env_tf with tf_esp := usertf tf, tf_eip := env.env_pgfault_upcall } }

section upcall

variable (k : Kernel) (cur : EnvIx) (tf : Trapframe) (pm : Phys)

@[simp] theorem Kernel.upcall_status : (k.upcall cur tf pm).status = k.status :=
  setEnv_status_same (k := k.withPm pm) rfl


@[simp] theorem Kernel.upcall_dir : (k.upcall cur tf pm).dir = k.dir :=
  setEnv_dir_same (k := k.withPm pm) rfl

end upcall

/-- The state in which the trap of the environment `cur` on CPU `c` has been
handled. -/
inductive Handled (k : Kernel) (c : Nat) (cur : EnvIx) (tf : Trapframe) (cr2 : Word) :
    Kernel → Prop
  /-- the environment has been destroyed by another CPU -/
  | died {pm : Phys} (hdying : k.status cur = .ENV_DYING) (hpages : FreesPages k cur pm) :
      Handled k c cur tf cr2 ((k.entered c).vacate c cur pm)
  /-- a system call returns -/
  | ret {k₁ : Kernel} {r : Int} (hlive : k.status cur ≠ .ENV_DYING)
      (hno : tf.tf_trapno = T_SYSCALL) (he : Effect (k.saved c cur tf) c cur tf.call r k₁) :
      Handled k c cur tf cr2 (setEax k₁ cur r)
  /-- a system call gives up the CPU -/
  | exit {k₁ : Kernel} (hlive : k.status cur ≠ .ENV_DYING)
      (hno : tf.tf_trapno = T_SYSCALL) (he : Exit (k.saved c cur tf) c cur tf.call k₁) :
      Handled k c cur tf cr2 k₁
  /-- an interrupt -/
  | interrupt (hlive : k.status cur ≠ .ENV_DYING) : Handled k c cur tf cr2 (k.saved c cur tf)
  /-- a fault that the environment handles -/
  | fault {k₁ : Kernel} {pm : Phys} (hlive : k.status cur ≠ .ENV_DYING)
      (hq : Quiet (k.saved c cur tf) k₁)
      (hstore : k.pm.storeBytes (k.cpus c).cr3 (usertf tf) (utrapframe tf cr2) = .ok pm) :
      Handled k c cur tf cr2 (k₁.upcall cur tf pm)
  /-- a trap that ends the environment -/
  | destroyed {k₁ : Kernel} {pm : Phys} (hlive : k.status cur ≠ .ENV_DYING)
      (hq : Quiet (k.saved c cur tf) k₁) (hpages : FreesPages k₁ cur pm) :
      Handled k c cur tf cr2 (k₁.vacate c cur pm)

section traps

variable {k : Kernel} {c : Nat} {cur : EnvIx} {tf : Trapframe} {cr2 : Word}

theorem trap_return_leaves {k' : Kernel} (h : trap_return k c = .left k') : Leaves k c k' := by
  unfold trap_return at h
  split at h
  · split at h
    · exact env_run_leaves h (Or.inr ⟨‹_›, ‹_›⟩)
    · exact sched_yield_leaves h
  · exact sched_yield_leaves h

/-- A fault in user mode, with the registers saved. -/
theorem page_fault_handler_holds (hcur : k.curenv c = some cur)
    (hrun : k.status cur = .ENV_RUNNING) :
    (page_fault_handler (k.saved c cur tf) c tf cr2).Holds (fun _ _ => False)
      (fun k' => ∃ k₁, Handled k c cur tf cr2 k₁ ∧ Leaves k₁ c k') fun _ => True := by
  have hlive : k.status cur ≠ .ENV_DYING := by rw [hrun]; decide
  have hcur' : (k.saved c cur tf).curenv c = some cur := by simpa using hcur
  unfold page_fault_handler
  split
  · trivial
  · rw [hcur']
    dsimp only
    refine Outcome.Holds.bind (P := fun _ k₁ => Quiet (k.saved c cur tf) k₁) ?_ fun _ k₁ hq => ?_
    · split
      · refine (env_destroy_holds _ c cur).mono (fun _ k' h => ?_) (fun k' h => ?_)
          fun _ _ => trivial
        · exact absurd hcur' h.1
        · obtain ⟨-, pm, hpages, hleave⟩ := h
          exact ⟨_, .destroyed hlive ⟨_, _, _, rfl⟩ hpages, hleave⟩
      · exact Quiet.refl _
    · refine Outcome.Holds.bind (P := fun _ k₂ => Quiet (k.saved c cur tf) k₂) ?_
        fun _ k₂ hq₂ => ?_
      · have hc₁ : k₁.curenv c = some cur := by obtain ⟨_, _, _, rfl⟩ := hq; exact hcur'
        refine (user_mem_assert_holds hc₁ _ _ _).mono (fun _ _ h => hq.trans h) (fun k' h => ?_)
          fun _ h => h
        obtain ⟨k₂, pm, hq₂, hpages, hleave⟩ := h
        exact ⟨_, .destroyed hlive (hq.trans hq₂) hpages, hleave⟩
      · split
        · trivial
        · rename_i pm hstore
          obtain ⟨addr, out, inp, rfl⟩ := hq₂
          have hcr3 : ((k.saved c cur tf).cpus c).cr3 = (k.cpus c).cr3 := by simp
          refine Outcome.holds_noreturn_of_left fun k' h =>
            ⟨_, .fault hlive ⟨addr, out, inp, rfl⟩ (hcr3 ▸ hstore), env_run_leaves h (Or.inr ⟨hcur', ?_⟩)⟩
          rw [Kernel.upcall_status]
          exact (congrFun (Kernel.saved_status k c cur tf) cur).trans hrun

/-- Any other trap from user mode: it is handled, and the kernel goes on to
the end of `trap`. -/
theorem trap_dispatch_holds (hcur : k.curenv c = some cur) (hrun : k.status cur = .ENV_RUNNING) :
    (trap_dispatch (k.saved c cur tf) c tf cr2).Holds (fun _ k₁ => Handled k c cur tf cr2 k₁)
      (fun k' => ∃ k₁, Handled k c cur tf cr2 k₁ ∧ Leaves k₁ c k') fun _ => True := by
  have hlive : k.status cur ≠ .ENV_DYING := by rw [hrun]; decide
  have hcur' : (k.saved c cur tf).curenv c = some cur := by simpa using hcur
  unfold trap_dispatch
  split
  · exact .interrupt hlive
  · split
    · trivial
    · split
      · exact (page_fault_handler_holds hcur hrun).mono (fun _ _ h => h.elim) (fun _ h => h)
          fun _ h => h
      · split
        · rename_i hno
          rw [hcur']
          dsimp only
          rw [syscall_eq]
          refine Outcome.Holds.bind
            (P := fun r k₁ => Effect (k.saved c cur tf) c cur tf.call r k₁) ?_
            fun r k₁ he => .ret hlive hno he
          refine (call_ends hcur' _).mono (fun _ _ h => h) (fun k' h => ?_) fun _ h => h
          obtain ⟨k₁, he, hleave⟩ := h
          exact ⟨k₁, .exit hlive hno he, hleave⟩
        · split
          · exact Outcome.holds_noreturn_of_left fun k' h =>
              ⟨_, .interrupt hlive, sched_yield_leaves h⟩
          · split
            · exact .interrupt hlive
            · split
              · trivial
              · rw [hcur']
                refine (env_destroy_holds _ c cur).mono (fun _ k' h => ?_) (fun k' h => ?_)
                  fun _ h => h
                · exact absurd hcur' h.1
                · obtain ⟨-, pm, hpages, hleave⟩ := h
                  exact ⟨_, .destroyed hlive (Quiet.refl _) hpages, hleave⟩

theorem lock_kernel_eq {k' : Kernel} (h : lock_kernel k c = .ok k') :
    k.kernel_lock ≠ some c ∧ k' = { k with kernel_lock := some c } := by
  unfold lock_kernel at h
  split at h
  · cases h
  · cases h; exact ⟨‹_›, rfl⟩

/-- A trap from user mode, by an environment that runs or is dying. -/
theorem trap_handled {k' : Kernel} (hcur : k.curenv c = some cur)
    (hbusy : k.status cur = .ENV_RUNNING ∨ k.status cur = .ENV_DYING)
    (hcs : tf.tf_cs &&& 3 = 3) (h : trap k c tf cr2 = .left k') :
    ∃ k₁, Handled k c cur tf cr2 k₁ ∧ Leaves k₁ c k' := by
  have hholds : (trap k c tf cr2).Holds (fun _ _ => True)
      (fun k' => ∃ k₁, Handled k c cur tf cr2 k₁ ∧ Leaves k₁ c k') fun _ => True := by
    simp only [trap, hcs, if_true]
    split
    · trivial
    · rename_i k₁ hlock
      refine Outcome.Holds.bind (P := fun _ k₂ => k₂ = k.saved c cur tf ∧
        k.status cur = .ENV_RUNNING) ?_ fun _ k₂ ⟨hk₂, hrun⟩ => ?_
      · unfold trap_enter
        split
        · trivial
        · rename_i k₂ hlock₂
          -- a CPU that had halted would take the lock twice
          obtain ⟨hfree, rfl⟩ := lock_kernel_eq hlock₂
          have hk₁ : k₁ = k.setCpu c fun cpu => { cpu with cpu_status := .CPU_STARTED } := by
            split at hlock
            · obtain ⟨-, rfl⟩ := lock_kernel_eq hlock
              exact absurd rfl hfree
            · cases hlock; rfl
          subst hk₁
          have hcur' : (k.entered c).curenv c = some cur := by simpa using hcur
          split
          · rename_i hnone
            exact absurd (hcur'.symm.trans hnone) (Option.some_ne_none cur)
          · rename_i cur₁ hsome
            cases hcur'.symm.trans hsome
            split
            · rename_i hdying
              split
              · trivial
              · rename_i k₃ hfree'
                obtain ⟨pgdir, pm, hdir, hpages, rfl⟩ := env_free_cases hfree'
                exact Outcome.holds_noreturn_of_left fun k' hy =>
                  ⟨_, .died hdying ⟨pgdir, hdir, hpages⟩, sched_yield_leaves hy⟩
            · rename_i hlive
              exact ⟨rfl, hbusy.resolve_right hlive⟩
      · subst hk₂
        refine (trap_dispatch_holds hcur hrun).bind fun _ k₂ hk₂ => ?_
        rcases hret : trap_return k₂ c with _ | k' | _ | _
        · trivial
        · exact ⟨k₂, hk₂, trap_return_leaves hret⟩
        · trivial
        · trivial
  rw [h] at hholds
  exact hholds

theorem trap_dispatch_syscall (hcur : k.curenv c = some cur) (hno : tf.tf_trapno = T_SYSCALL) :
    trap_dispatch k c tf cr2 =
      (tf.call.run k c cur).bind fun ret k => .ret () (setEax k cur ret) := by
  have hne : ¬ T_SYSCALL = IRQ_SPURIOUS ∧ ¬ T_SYSCALL = T_BRKPT ∧ ¬ T_SYSCALL = T_PGFLT := by
    decide
  simp only [trap_dispatch, hno, hne, if_false, if_true, hcur, syscall_eq]
  rfl

/-- A system call of the running environment: the call, and the end of
`trap`. -/
theorem trap_syscall (hon : (k.cpus c).cpu_status ≠ .CPU_HALTED) (hlock : k.kernel_lock = none)
    (hcur : k.curenv c = some cur) (hrun : k.status cur = .ENV_RUNNING) (hcs : tf.tf_cs &&& 3 = 3)
    (hno : tf.tf_trapno = T_SYSCALL) : trap k c tf cr2 =
      (tf.call.run (k.saved c cur tf) c cur).bind fun ret k => trap_return (setEax k cur ret) c := by
  have henter : trap_enter (k.setCpu c fun cpu => { cpu with cpu_status := .CPU_STARTED }) c tf =
      .ret () (k.saved c cur tf) := by
    have hlive : ¬ (k.entered c).status cur = .ENV_DYING := by
      have hst : (k.entered c).status cur = .ENV_RUNNING := hrun
      rw [hst]
      decide
    have hcur' : (k.entered c).curenv c = some cur := by simpa using hcur
    have hl : lock_kernel (k.setCpu c fun cpu => { cpu with cpu_status := .CPU_STARTED }) c =
        .ok (k.entered c) := by
      simp only [lock_kernel, Kernel.setCpu_lock, hlock, reduceCtorEq, if_false]
      rfl
    simp only [trap_enter, hl, hcur', hlive, if_false]
    rfl
  have hcur' : (k.saved c cur tf).curenv c = some cur := by simpa using hcur
  simp only [trap, hon, if_false, hcs, if_true, henter, Outcome.bind_ret, trap_dispatch_syscall hcur' hno]
  cases tf.call.run (k.saved c cur tf) c cur <;> rfl

/-- An interrupt wakes a halted CPU, which looks for something to run. -/
theorem interrupt_leaves {k' : Kernel} (hcur : k.curenv c = none) (hlock : k.kernel_lock = none)
    (hcs : tf.tf_cs = GD_KT) (hdev : deviceInterrupt tf.tf_trapno = true)
    (h : trap k c tf cr2 = .left k') : Leaves (k.entered c) c k' := by
  have hcur' : (k.entered c).curenv c = none := by simpa using hcur
  have hkern : ¬ tf.tf_cs &&& 3 = 3 := by rw [hcs]; decide
  -- whatever the device, the CPU ends up in the scheduler
  have hyield : ∀ k₁ : Kernel, k₁.curenv c = none →
      ((trap_dispatch k₁ c tf cr2).bind fun _ k => trap_return k c) = sched_yield k₁ c := by
    intro k₁ hk₁
    have hret : trap_return k₁ c = sched_yield k₁ c := by simp [trap_return, hk₁]
    have hno : tf.tf_trapno = IRQ_TIMER ∨ tf.tf_trapno = IRQ_KBD ∨ tf.tf_trapno = IRQ_SERIAL ∨
        tf.tf_trapno = IRQ_SPURIOUS := by
      simpa [deviceInterrupt, or_assoc] using hdev
    rcases hno with hno | hno | hno | hno <;> rw [trap_dispatch, hno]
    · exact Outcome.noreturn_bind ..
    all_goals exact hret
  simp only [trap, hkern, if_false] at h
  split at h
  · cases h
  · rename_i k₁ hk₁
    split at hk₁
    · obtain ⟨-, rfl⟩ := lock_kernel_eq hk₁
      exact sched_yield_leaves ((hyield _ hcur').symm.trans h)
    · cases hk₁
      have hleave := sched_yield_leaves ((hyield _ (by simpa [Kernel.curenv] using hcur)).symm.trans h)
      -- without the lock there is no way out
      cases hleave with
      | run hl => simp [hlock] at hl
      | halt hl => simp [hlock] at hl

end traps

/-- A frame that can be loaded is one of user mode. -/
theorem loadable_user {tf : Trapframe} (h : tf.loadable = true) : tf.tf_cs &&& 3 = 3 := by
  have hcs : tf.tf_cs = GD_UT ||| 3 := by
    simp only [Trapframe.loadable, Bool.and_eq_true, beq_iff_eq] at h
    exact h.1.1.1.1
  rw [hcs]
  decide

/-! ## The steps of the machine -/

/-- The state after `env_create`: a new environment with the memory of its
program. -/
def Kernel.loaded (k : Kernel) (e : EnvIx) (pgdir : Nat) (pm pm' : Phys) (prog : Program)
    (type : EnvType) : Kernel :=
  ((k.enlist e 0 pgdir pm).withPm pm').setEnv e fun env =>
    { env with
      env_type := type
      env_tf := { env.env_tf with
        tf_eip := prog.e_entry
        tf_eflags :=
          if type = .ENV_TYPE_FS then env.env_tf.tf_eflags ||| FL_IOPL_3
          else env.env_tf.tf_eflags } }

theorem env_create_cases {k k' : Kernel} {prog : Program} {type : EnvType}
    (h : env_create k prog type = .ok k') :
    ∃ e pgdir pm pm', k.env_free_list = some e ∧
      env_setup_vm k.pm k.kern_pgdir = .ok (some pgdir, pm) ∧
      load_icode pm pgdir prog = .ok pm' ∧ k' = k.loaded e pgdir pm pm' prog type := by
  unfold env_create at h
  split at h
  · cases h
  · cases h
  · rename_i e k₁ halloc
    rcases env_alloc_cases halloc with ⟨code, he, -⟩ | ⟨e', pgdir, pm, he, hfree, hvm, rfl⟩
    · cases he
    · cases he
      have hdir : ((k.enlist e 0 pgdir pm).envs e).env_pgdir = some pgdir := by simp [freshEnv]
      rw [hdir] at h
      dsimp only at h
      split at h
      · cases h
      · cases h
        exact ⟨e, pgdir, pm, _, hfree, hvm, ‹_›, rfl⟩

/-- The steps of the machine, case by case. -/
inductive StepCases (k : Kernel) : Event → Kernel → Prop
  | create {prog : Program} {type : EnvType} {e : EnvIx} {pgdir : Nat} {pm pm' : Phys}
      (hmode : (k.cpus 0).mode = .off) (hlock : k.kernel_lock = some 0)
      (hfree : k.env_free_list = some e)
      (hvm : env_setup_vm k.pm k.kern_pgdir = .ok (some pgdir, pm))
      (hload : load_icode pm pgdir prog = .ok pm') :
      StepCases k (.create prog type) (k.loaded e pgdir pm pm' prog type)
  | boot {k' : Kernel} (hmode : (k.cpus 0).mode = .off) (hlock : k.kernel_lock = some 0)
      (hleave : Leaves k 0 k') : StepCases k .boot k'
  | start {c : Nat} {k' : Kernel} (hmode : (k.cpus c).mode = .off) (hlock : k.kernel_lock = none)
      (hleave : Leaves (k.entered c) c k') : StepCases k (.start c) k'
  | trap {c : Nat} {tf : Trapframe} {cr2 : Word} {k' : Kernel} (hmode : (k.cpus c).mode = .user)
      (hlock : k.kernel_lock = none) (hload : tf.loadable = true)
      (htrap : trap k c tf cr2 = .left k') : StepCases k (.trap c tf cr2) k'
  | interrupt {c : Nat} {tf : Trapframe} {k' : Kernel} (hmode : (k.cpus c).mode = .halted)
      (hlock : k.kernel_lock = none) (hcs : tf.tf_cs = GD_KT)
      (hdev : deviceInterrupt tf.tf_trapno = true) (htrap : trap k c tf 0 = .left k') :
      StepCases k (.interrupt c tf) k'
  | store {c : Nat} {va : Word} {b : Byte} {pm : Phys} (hmode : (k.cpus c).mode = .user)
      (hva : va < UTOP) (hstore : k.pm.store (k.cpus c).cr3 va (PTE_U ||| PTE_W) b = some pm) :
      StepCases k (.store c va b) (k.withPm pm)
  | touch {c : Nat} {va : Word} {dirty : Bool} (hmode : (k.cpus c).mode = .user)
      (hva : va < UTOP) :
      StepCases k (.touch c va dirty) (k.withPm (touchEntry k.pm (k.cpus c).cr3 va dirty))

theorem out_eq_some {r : Res Empty} {k' : Kernel} : out r = some k' ↔ r = .left k' := by
  cases r <;> simp [out]

theorem step_cases {k k' : Kernel} {ev : Event} (h : step k ev = some k') : StepCases k ev k' := by
  cases ev with
  | create prog type =>
    simp only [step] at h
    split at h
    · split at h
      · cases h
        obtain ⟨e, pgdir, pm, pm', hfree, hvm, hload, rfl⟩ := env_create_cases ‹_›
        exact .create (by tauto) (by tauto) hfree hvm hload
      · cases h
    · cases h
  | boot =>
    simp only [step, enter] at h
    split at h
    · rename_i hb
      exact .boot hb.1 hb.2 (sched_yield_leaves (out_eq_some.mp h))
    · cases h
  | start c =>
    simp only [step, enter] at h
    split at h
    · rename_i hb
      split at h
      · cases h
      · rename_i k₁ hk₁
        obtain ⟨-, rfl⟩ := lock_kernel_eq hk₁
        exact .start hb.2.1 hb.2.2 (sched_yield_leaves (out_eq_some.mp h))
    · cases h
  | trap c tf cr2 =>
    simp only [step, enter] at h
    split at h
    · rename_i hb
      exact .trap hb.1 hb.2.1 hb.2.2 (out_eq_some.mp h)
    · cases h
  | interrupt c tf =>
    simp only [step, enter] at h
    split at h
    · rename_i hb
      exact .interrupt hb.1 hb.2.1 hb.2.2.1 hb.2.2.2 (out_eq_some.mp h)
    · cases h
  | store c va b =>
    simp only [step] at h
    split at h
    · rename_i hb
      obtain ⟨pm, hpm, rfl⟩ := Option.map_eq_some_iff.mp h
      exact .store hb.1 hb.2 hpm
    · cases h
  | touch c va dirty =>
    simp only [step] at h
    split at h
    · rename_i hb
      cases h
      exact .touch hb.1 hb.2
    · cases h

/-- Every step of the run is allowed in the state before it. -/
abbrev Along : (Kernel → Event → Prop) → Kernel → List Event → Prop := runs.Along step

/-- What every allowed step keeps, a run of them keeps. -/
theorem runFrom_keeps {allowed : Kernel → Event → Prop} {I : Kernel → Prop}
    (hstep : ∀ k ev k', I k → allowed k ev → StepCases k ev k' → I k') {k k' : Kernel}
    (hI : I k) {evs : List Event} (hr : runFrom k evs = some k') (hall : Along allowed k evs) :
    I k' :=
  runs.runFrom_keeps (fun k ev k' h ha hs => hstep k ev k' h ha (step_cases hs)) hI hr hall

end jos
