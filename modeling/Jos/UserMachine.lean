-- User code on the whole machine. A page fault, from the trap to the return to
-- user mode, does to the user what `deliver` says. A store of user code leaves
-- the page tables and the free pages alone.
import Jos.UserRange
import Jos.Answers

namespace jos

open ia32 (Space)
open upcall (trapframe)
open outcome (Outcome)
open runs (Along)
open linked_list (Chain)

variable {kept : Nat → Prop} {k : Kernel} {c d : Nat} {cur : EnvIx}

/-! ## The check of the exception stack -/

/-- A range that the user may write passes. -/
theorem Memory.check_writable {va : Word} {len : Nat} (h : Memory kept k) (hd : k.dir cur = some d)
    (hva : va.toNat + len ≤ UTOP.toNat) (hlen : 0 < len)
    (hroom : ∀ i < len, (userSpace k.pm d).writable (va + BitVec.ofNat 32 i) = true) :
    user_mem_check_bad k.pm d va (BitVec.ofNat 32 len) (PTE_U ||| PTE_P ||| PTE_W ||| PTE_U) =
      .ok none := by
  obtain ⟨free, ha⟩ := h.accounts
  rw [UTOP_toNat] at hva
  have hnat : ∀ i ≤ len, (va + BitVec.ofNat 32 i).toNat = va.toNat + i := by
    intro i hi
    rw [BitVec.toNat_add, BitVec.toNat_ofNat]
    omega
  have hend := hnat len le_rfl
  rcases user_mem_check_bad_ends k.pm d (PTE_U ||| PTE_P ||| PTE_W ||| PTE_U)
    (show va.toNat < ULIM.toNat by rw [ULIM_toNat]; omega)
    (show (va + BitVec.ofNat 32 len).toNat < ULIM.toNat by rw [hend, ULIM_toNat]; omega) with
    ⟨hr, -⟩ | ⟨i, hi, his, hno, -⟩
  · exact hr
  · rw [hend] at his
    -- the page has a byte of the range
    obtain ⟨j, hj, rfl⟩ : ∃ j < len, (va + BitVec.ofNat 32 j).toNat / 4096 = i := by
      refine ⟨max (4096 * i) va.toNat - va.toNat, by omega, ?_⟩
      rw [hnat _ (by omega)]
      omega
    have hw := hroom j hj
    simp only [userSpace, Bool.and_eq_true, decide_eq_true_eq] at hw
    have hpdx : PDX (va + BitVec.ofNat 32 j) = (va + BitVec.ofNat 32 j).toNat / 4096 / 1024 := by
      rw [PDX_eq]
      omega
    have htable := (allowed_present hw.2).1
    have hbits := hw.2
    simp only [allowed, Bool.and_eq_true, beq_iff_eq, hpdx, PTX_eq] at hbits
    rw [hpdx] at htable
    refine absurd ⟨⟨htable, hbits.2⟩, fun _ => ?_⟩ hno
    exact ha.separated.table_lt cur d _ _ hd (hpdx ▸ PDX_lt_NPDU hw.1) (if_pos htable)

/-! ## The handler -/

/-- Where the exception stack has room for the frame, `page_fault_handler` does to
the user what `deliver` says, and resumes it at its upcall. -/
theorem page_fault_handler_delivers {user user' : ia32.State} {rest : Trapframe} {fault_va : Word}
    (h : Memory kept k) (hcur : k.curenv c = some cur) (hd : k.dir cur = some d)
    (hcr3 : (k.cpus c).cr3 = d) (hup : (k.envs cur).env_pgfault_upcall ≠ 0)
    (hcs : (trapframe user.toCpu rest).tf_cs &&& 0x11 ≠ 0) (hview : user.mem = userSpace k.pm d)
    (hdel : upcall.deliver (k.envs cur).env_pgfault_upcall user rest fault_va = some user') :
    ∃ pm, let tf := trapframe user.toCpu rest
      page_fault_handler (k.saved c cur tf) c tf fault_va =
        (env_run ((k.saved c cur tf).upcall cur tf pm) c cur).noreturn ∧
      userSpace pm d = user'.mem ∧
      (((k.saved c cur tf).upcall cur tf pm).envs cur).env_tf = trapframe user'.toCpu rest := by
  obtain ⟨mem, hmem, rfl⟩ := Option.map_eq_some_iff.mp hdel
  rw [hview] at hmem
  obtain ⟨pm, hstore, hpm⟩ := h.view_storeBytes hd hmem
  have hcheck := @Memory.check_writable kept k d cur _ 52 h hd (usertf_le _) (by decide)
    (Space.storeBytes_writable hmem)
  refine ⟨pm, ?_, hpm, ?_⟩
  · generalize trapframe user.toCpu rest = tf at hcs hstore hcheck
    have hcur' : (k.saved c cur tf).curenv c = some cur := by simpa using hcur
    have hup' : ((k.saved c cur tf).envs cur).env_pgfault_upcall ≠ 0 := by simpa using hup
    have hd' : ((k.saved c cur tf).envs cur).env_pgdir = some d := by
      have hdir : (k.saved c cur tf).dir cur = some d := by rw [Kernel.saved_dir, hd]
      exact hdir
    have hcr3' : ((k.saved c cur tf).cpus c).cr3 = d := by simpa using hcr3
    have hassert : user_mem_assert (k.saved c cur tf) c cur (usertf tf) 52
        (PTE_U ||| PTE_P ||| PTE_W) = .ret () (k.saved c cur tf) := by
      have hcheck : user_mem_check_bad (k.saved c cur tf).pm d (usertf tf) 52
          (PTE_U ||| PTE_P ||| PTE_W ||| PTE_U) = .ok none := hcheck
      simp only [user_mem_assert, user_mem_check, hd', hcheck]
      rfl
    simp only [page_fault_handler, if_neg hcs, hcur', if_neg hup', Outcome.bind_ret]
    change Outcome.bind (user_mem_assert (k.saved c cur tf) c cur (usertf tf) 52
      (PTE_U ||| PTE_P ||| PTE_W)) _ = _
    rw [hassert, Outcome.bind_ret, hcr3']
    have hstore' : (k.saved c cur tf).pm.storeBytes d
        (if tf.tf_esp < UXSTACKTOP ∧ tf.tf_esp ≥ UXSTACKTOP - 0x1000 then tf.tf_esp - 4 - 52
          else UXSTACKTOP - 52) (utrapframe tf fault_va) = .ok pm := hstore
    rw [hstore']
    rfl
  · simp only [Kernel.upcall, Kernel.withPm, Kernel.setEnv_envs, Function.update_self,
      Kernel.saved_envs]
    rfl

/-! ## The machine -/

/-- A page fault of the running environment: the handler, and the end of `trap`. -/
theorem trap_pgflt {tf : Trapframe} {cr2 : Word} (hon : (k.cpus c).cpu_status ≠ .CPU_HALTED)
    (hlock : k.kernel_lock = none) (hcur : k.curenv c = some cur)
    (hrun : k.status cur = .ENV_RUNNING) (hcs : tf.tf_cs &&& 3 = 3) (hno : tf.tf_trapno = T_PGFLT) :
    trap k c tf cr2 =
      (page_fault_handler (k.saved c cur tf) c tf cr2).bind fun _ k => trap_return k c := by
  have henter : trap_enter (k.setCpu c fun cpu => { cpu with cpu_status := .CPU_STARTED }) c tf =
      .ret () (k.saved c cur tf) := by
    have hlive : ¬ (k.entered c).status cur = .ENV_DYING := by
      have hst : (k.entered c).status cur = .ENV_RUNNING := hrun
      rw [hst]
      decide
    have hcur' : (k.entered c).curenv c = some cur := by simpa using hcur
    have hl : lock_kernel (k.setCpu c fun cpu => { cpu with cpu_status := .CPU_STARTED }) c =
        .ok (k.entered c) := by
      simp only [lock_kernel, Kernel.setCpu_lock, hlock, reduceCtorEq, if_false]
      rfl
    simp only [trap_enter, hl, hcur', hlive, if_false]
    rfl
  have hne : ¬ T_PGFLT = IRQ_SPURIOUS ∧ ¬ T_PGFLT = T_BRKPT := by decide
  simp only [trap, hon, if_false, hcs, if_true, henter, Outcome.bind_ret, trap_dispatch, hno, hne]

/-- The environment `e` on CPU `c` is, for the user, in the state `user`. -/
structure Shows (k : Kernel) (c : Nat) (e : EnvIx) (user : ia32.State) : Prop where
  mode : k.mode c = .user
  curenv : k.curenv c = some e
  mem : user.mem = userSpace k.pm (k.cpus c).cr3

/-- The environment gets an exception stack and names its upcall. -/
def stackRuns : List Event :=
  oneRuns ++ [.trap 0 (sysTf SYS_page_alloc 0 (UXSTACKTOP - 0x1000) 7 0 0) 0,
    .trap 0 (sysTf SYS_env_set_pgfault_upcall 0 0x800040 0 0 0) 0]

/-- It faults with an empty stack. -/
def faulting : ia32.Cpu where
  gpr := fun _ => USTACKTOP
  eip := 0x800020
  eflags := 0x200

def faultTf : Trapframe := { initialTf with tf_trapno := T_PGFLT }

/-- The page directories, the page tables and the free pages. -/
def OutOfReach (k : Kernel) (p : Nat) : Prop :=
  p = k.kern_pgdir ∨ (∃ e, k.dir e = some p) ∨
    (∃ e d, k.dir e = some d ∧ ∃ i < NPDU, table k.pm d i = some p) ∨
    ∃ free, Chain k.pm.link k.pm.page_free_list free ∧ p ∈ free

end jos
