-- What the system calls answer. The comments in `kern/syscall.c` say for each
-- call what it does and which errors it returns, as negative numbers, and the
-- stubs of the user library rely on the sign. Some answers have the wrong
-- sign, and one test lets pass what it should refuse.
import Jos.Conservation
import Jos.PageTransfer

namespace jos

open linked_list (Chain)
open outcome (Outcome)

/-! ## What the comments say -/

/-- `PTE_U | PTE_P` are set, and nothing outside `PTE_SYSCALL` is. -/
def appropriate (perm : Word) : Bool :=
  perm &&& (PTE_U ||| PTE_P) == PTE_U ||| PTE_P && perm &&& ~~~PTE_SYSCALL == 0

/-- There is no environment `envid`, or the caller may not change it. -/
def Refused (k : Kernel) (cur : EnvIx) (envid : Word) (checkperm : Bool) : Prop :=
  ∀ e, envid2env k cur envid checkperm ≠ .ok e

/-- There are fewer than `n` free pages. -/
def Lacks (k : Kernel) (n : Nat) : Prop :=
  ∃ free, Chain k.pm.link k.pm.page_free_list free ∧ free.length < n

/-- The page tables that environment `e` needs for a mapping at `va`. -/
def Kernel.tablesFor (k : Kernel) (e : EnvIx) (va : Word) : Nat :=
  if (k.dir e).bind (fun d => table k.pm d (PDX va)) = none then 1 else 0

/-- The entry of environment `e` for `va` does not allow what `perm` asks for. -/
def ReadOnly (k : Kernel) (e : EnvIx) (va perm : Word) : Prop :=
  perm &&& PTE_W ≠ 0 ∧ k.pte e (PDX va) (PTX va) &&& PTE_W = 0

namespace Call

/-- The calls of which the comments are about. -/
def documented : Call → Bool
  | env_destroy .. | page_alloc .. | page_map .. | page_unmap .. | exofork | env_set_status ..
  | env_set_pgfault_upcall .. | ipc_try_send .. | ipc_recv .. => true
  | _ => false

/-- The calls whose `perm` is for a page. -/
def wantsPage : Call → Bool
  | page_alloc .. | page_map .. => true
  | ipc_try_send _ _ srcva _ => srcva < UTOP
  | _ => false

/-- The errors that a comment lists, each with its condition, but for the one on
`perm`. -/
def Flaw (k : Kernel) (cur : EnvIx) : Call → Int → Prop
  | env_destroy envid, r => r = -E_BAD_ENV ∧ Refused k cur envid true
  | page_alloc envid va _, r =>
    (r = -E_BAD_ENV ∧ Refused k cur envid true) ∨
    (r = -E_INVAL ∧ (va ≥ UTOP ∨ unaligned va)) ∨
    (r = -E_NO_MEM ∧ (Lacks k 1 ∨
      ∃ e, envid2env k cur envid true = .ok e ∧ Lacks k (1 + k.tablesFor e va)))
  | page_map srcenvid srcva dstenvid dstva perm, r =>
    (r = -E_BAD_ENV ∧ (Refused k cur srcenvid true ∨ Refused k cur dstenvid true)) ∨
    (r = -E_INVAL ∧ (srcva ≥ UTOP ∨ unaligned srcva ∨ dstva ≥ UTOP ∨ unaligned dstva ∨
      ∃ src, envid2env k cur srcenvid true = .ok src ∧
        (k.pageAt src srcva = none ∨ ReadOnly k src srcva perm))) ∨
    (r = -E_NO_MEM ∧ ∃ dst, envid2env k cur dstenvid true = .ok dst ∧
      Lacks k (k.tablesFor dst dstva))
  | page_unmap envid va, r =>
    (r = -E_BAD_ENV ∧ Refused k cur envid true) ∨ (r = -E_INVAL ∧ (va ≥ UTOP ∨ unaligned va))
  | exofork, r =>
    (r = -E_NO_FREE_ENV ∧ ∀ e, k.status e ≠ .ENV_FREE) ∨ (r = -E_NO_MEM ∧ Lacks k 1)
  | env_set_status envid status, r =>
    (r = -E_BAD_ENV ∧ Refused k cur envid true) ∨ (r = -E_INVAL ∧ settable status = none)
  | env_set_pgfault_upcall envid _, r => r = -E_BAD_ENV ∧ Refused k cur envid true
  | ipc_try_send envid _ srcva perm, r =>
    (r = -E_BAD_ENV ∧ Refused k cur envid false) ∨
    ∃ x, envid2env k cur envid false = .ok x ∧
      ((r = -E_IPC_NOT_RECV ∧ (k.envs x).env_ipc_recving = false) ∨
      (r = -E_INVAL ∧ srcva < UTOP ∧
        (unaligned srcva ∨ k.pageAt cur srcva = none ∨ ReadOnly k cur srcva perm)) ∨
      (r = -E_NO_MEM ∧ Lacks k (k.tablesFor x (k.envs x).env_ipc_dstva)))
  | ipc_recv dstva, r => r = -E_INVAL ∧ dstva < UTOP ∧ unaligned dstva
  | _, _ => False

/-- Error `r` is in the comment, and its condition holds. -/
def Listed (k : Kernel) (cur : EnvIx) (call : Call) (r : Int) : Prop :=
  call.Flaw k cur r ∨ (r = -E_INVAL ∧ call.wantsPage = true ∧ appropriate call.perm = false)

/-- The call has led from `k` to `k'` and has done there what its comment says. -/
def Performed (k : Kernel) (cur : EnvIx) : Call → Kernel → Prop
  | env_destroy envid, k' => ∃ e, envid2env k cur envid true = .ok e ∧
      (k'.status e = .ENV_FREE ∨
        (k.status e = .ENV_RUNNING ∧ e ≠ cur ∧ k'.status e = .ENV_DYING))
  | page_alloc envid va perm, k' =>
    va < UTOP ∧ unaligned va = false ∧ appropriate perm = true ∧
    ∃ e p free, envid2env k cur envid true = .ok e ∧
      Chain k.pm.link k.pm.page_free_list free ∧ p ∈ free ∧ k'.pageAt e va = some p ∧
      permOf (k'.pte e (PDX va) (PTX va)) = perm ||| PTE_P ∧ ∀ j, k'.pm.mem p j = 0
  | page_map srcenvid srcva dstenvid dstva perm, k' =>
    srcva < UTOP ∧ unaligned srcva = false ∧ dstva < UTOP ∧ unaligned dstva = false ∧
    appropriate perm = true ∧
    ∃ src dst, envid2env k cur srcenvid true = .ok src ∧ envid2env k cur dstenvid true = .ok dst ∧
      ¬ ReadOnly k src srcva perm ∧ Shares k k' src dst srcva dstva perm
  | page_unmap envid va, k' =>
    va < UTOP ∧ unaligned va = false ∧
    ∃ e, envid2env k cur envid true = .ok e ∧ k'.pageAt e va = none
  | exofork, k' => ∃ child, k.status child = .ENV_FREE ∧ k'.status child = .ENV_NOT_RUNNABLE ∧
      (k'.envs child).env_parent_id = (k.envs cur).env_id ∧
      (k'.envs child).env_tf = { (k.envs cur).env_tf with
        tf_regs := { (k.envs cur).env_tf.tf_regs with reg_eax := 0 } }
  | env_set_status envid status, k' => ∃ e st, envid2env k cur envid true = .ok e ∧
      settable status = some st ∧ k'.status e = st
  | env_set_pgfault_upcall envid func, k' => ∃ e, envid2env k cur envid true = .ok e ∧
      (k'.envs e).env_pgfault_upcall = func
  | ipc_try_send envid value srcva perm, k' => ∃ x, envid2env k cur envid false = .ok x ∧
      (k.envs x).env_ipc_recving = true ∧ (k'.envs x).env_ipc_recving = false ∧
      (k'.envs x).env_ipc_from = (k.envs cur).env_id ∧ (k'.envs x).env_ipc_value = value ∧
      k'.status x = .ENV_RUNNABLE ∧
      (srcva < UTOP ∧ (k.envs x).env_ipc_dstva < UTOP → appropriate perm = true) ∧
      Transferred k k' cur x srcva (k.envs x).env_ipc_dstva perm
  | ipc_recv dstva, k' => (k'.envs cur).env_ipc_recving = true ∧
      k'.status cur = .ENV_NOT_RUNNABLE ∧
      (dstva < UTOP → (k'.envs cur).env_ipc_dstva = dstva)
  | _, _ => False

/-- The answer of a call that has led from `k` to `k'`, if it has been performed. -/
def Success (k k' : Kernel) : Call → Int → Prop
  | exofork, r => 0 < r ∧ ∃ child, k.status child = .ENV_FREE ∧
      k'.status child = .ENV_NOT_RUNNABLE ∧ r = (k'.envs child).env_id.toInt
  | _, r => r = 0

/-- The call answers as its comment says: it is performed and says so, or it is not
and returns an error that the comment lists for a condition that holds. A
call that gives up the CPU has been performed. -/
def Reported (k : Kernel) (c : Nat) (cur : EnvIx) (call : Call) : Prop :=
  (∃ r k', call.run k c cur = .ret r k' ∧
    ((call.Performed k cur k' ∧ call.Success k k' r) ∨
      (¬ call.Performed k cur k' ∧ r < 0 ∧ call.Listed k cur r))) ∨
  ∃ k₁, Exit k c cur call k₁ ∧ call.run k c cur = (sched_yield k₁ c).noreturn ∧
    call.Performed k cur k₁

/-- What the code gets right: the calls that answer as their comments say. -/
def Proper (k : Kernel) (cur : EnvIx) : Call → Prop
  | page_alloc envid va perm =>
    va < UTOP ∧ unaligned va = false ∧ badPerm perm = false ∧ ¬ Lacks k 1 ∧
    (appropriate perm = true ∨ Refused k cur envid true ∨
      ∃ e, envid2env k cur envid true = .ok e ∧ Lacks k (1 + k.tablesFor e va))
  | page_map srcenvid srcva dstenvid dstva perm =>
    appropriate perm = true ∨ badPerm perm = true ∨
    ∃ r, Flaw k cur (page_map srcenvid srcva dstenvid dstva perm) r
  | env_set_status envid status => Refused k cur envid true ∨ settable status ≠ none
  | ipc_try_send envid _ srcva perm => ∀ x, envid2env k cur envid false = .ok x →
    (k.envs x).env_ipc_recving = true → srcva < UTOP → (k.envs x).env_ipc_dstva < UTOP →
    badPerm perm = true ∨ unaligned srcva = true ∨ k.pageAt cur srcva = none ∨
    ReadOnly k cur srcva perm ∨
    ((k.envs x).env_ipc_dstva ≠ 0 ∧ Lacks k (k.tablesFor x (k.envs x).env_ipc_dstva)) ∨
    (appropriate perm = true ∧ ((k.envs x).env_ipc_dstva ≠ 0 ∨
      Shares k k cur x srcva (k.envs x).env_ipc_dstva perm))
  | _ => True

end Call

/-! ## The calls that return -/

section answers

variable {kept : Nat → Prop} {k m : Kernel} {c : Nat} {cur e : EnvIx} {call : Call} {r : Int}
  {envid va perm : Word} {checkperm : Bool}

theorem noreturn_ne_ret {α : Type} {x : Res Empty} {a : α} : x.noreturn ≠ .ret a k := by
  intro h
  cases x with
  | ret y => exact y.elim
  | _ => cases h

/-- A call that returns gives up nothing. -/
theorem reported_ret (hrun : call.run k c cur = .ret r m) : call.Reported k c cur ↔
    (call.Performed k cur m ∧ call.Success k m r) ∨
      (¬ call.Performed k cur m ∧ r < 0 ∧ call.Listed k cur r) := by
  unfold Call.Reported
  constructor
  · rintro (⟨r₁, k₁, hrun₁, h⟩ | ⟨k₁, -, hrun₁, -⟩)
    · cases hrun.symm.trans hrun₁
      exact h
    · exact absurd (hrun₁.symm.trans hrun) noreturn_ne_ret
  · exact fun h => Or.inl ⟨r, m, hrun, h⟩

/-- An error that the comment lists. -/
theorem reported_flaw (hrun : call.run k c cur = .ret r m) (hno : ¬ call.Performed k cur m)
    (hneg : r < 0) (hflaw : call.Flaw k cur r) : call.Reported k c cur :=
  (reported_ret hrun).mpr (Or.inr ⟨hno, hneg, Or.inl hflaw⟩)

/-- A call that is not performed must not answer with 0 or more. -/
theorem not_reported (hrun : call.run k c cur = .ret r m) (hno : ¬ call.Performed k cur m)
    (hnneg : ¬ r < 0) : ¬ call.Reported k c cur := by
  rw [reported_ret hrun]
  rintro (h | h)
  · exact hno h.1
  · exact hnneg h.2.1

theorem refused_of_error (h : envid2env k cur envid checkperm = .error r) :
    Refused k cur envid checkperm ∧ r = -E_BAD_ENV := by
  refine ⟨fun e he => ?_, ?_⟩
  · rw [h] at he
    cases he
  unfold envid2env at h
  split at h
  · cases h
  · dsimp only at h
    split at h
    · cases h; rfl
    · split at h
      · cases h; rfl
      · cases h

theorem bad_env_neg : -E_BAD_ENV < 0 := by decide

/-- An environment that the caller can name has a directory. -/
theorem Memory.dir_of_named (h : Memory kept k) (hlive : k.status cur ≠ .ENV_FREE)
    (he : envid2env k cur envid checkperm = .ok e) : ∃ d, k.dir e = some d := by
  rcases envid2env_live he with rfl | hx
  · exact h.some_dir hlive
  · exact h.some_dir hx

theorem lacks_iff {free : List Nat} {n : Nat}
    (hc : Chain k.pm.link k.pm.page_free_list free) : Lacks k n ↔ free.length < n := by
  constructor
  · rintro ⟨free', hc', hlt⟩
    rwa [hc.unique hc']
  · exact fun hlt => ⟨free, hc, hlt⟩

/-- `page_insert` lacks a page for a page table, or answers 0. -/
theorem Memory.insert_answer {d p : Nat} (h : Memory kept k) (hd : k.dir e = some d)
    (hva : va < UTOP) (hp : p < k.pm.npages) (perm : Word) :
    (Lacks k (k.tablesFor e va) ∧ k.pageAt e va = none ∧
      page_insert k.pm d p va perm = .ok (-E_NO_MEM, k.pm)) ∨
    (¬ Lacks k (k.tablesFor e va) ∧ ∃ pm, page_insert k.pm d p va perm = .ok (0, pm)) := by
  obtain ⟨free, ha⟩ := h.accounts
  rw [lacks_iff ha.chain]
  rcases page_insert_cases perm ha.separated hd hva hp with
    ⟨t, ht, he⟩ | ⟨ht, rfl, he⟩ | ⟨q, rest, ht, rfl, he⟩
  · exact Or.inr ⟨by simp [Kernel.tablesFor, hd, ht], _, he⟩
  · refine Or.inl ⟨by simp [Kernel.tablesFor, hd, ht], ?_, he⟩
    simp [Kernel.pageAt, hd, pteAt, entry, ht]
  · exact Or.inr ⟨by simp [Kernel.tablesFor, hd, ht], _, he⟩

/-- The inversion of a call on pages, as far as entries go. -/
theorem Memory.remapped (h : Memory kept k) (hcall : call.onPages = true) (hlow : call.lowPerm)
    (hrun : call.run k c cur = .ret r m) : Remaps k cur call r m := by
  have hends : Ends k c cur call (call.run k c cur) := page_call_ends hcall
  rw [hrun] at hends
  exact h.remaps (fun hno => by rw [hcall] at hno; cases hno) hlow hends

theorem appropriate_lt (h : appropriate perm = true) : perm < 0x1000 := by
  refine permOk_lt ?_
  simp only [appropriate, Bool.and_eq_true, beq_iff_eq] at h
  simp only [permOk, Bool.and_eq_true, bne_iff_ne, ne_eq, beq_iff_eq]
  refine ⟨fun h0 => ?_, h.2⟩
  have hu : perm &&& (PTE_U ||| PTE_P) &&& PTE_U = PTE_U := by rw [h.1]; decide
  rw [BitVec.and_assoc, show (PTE_U ||| PTE_P) &&& PTE_U = PTE_U from by decide, h0] at hu
  exact absurd hu (by decide)

/-- The test of the code refuses nothing that it should take. -/
theorem badPerm_of_appropriate (h : appropriate perm = true) : badPerm perm = false := by
  simp only [appropriate, Bool.and_eq_true, beq_iff_eq] at h
  by_contra hbad
  simp only [Bool.not_eq_false, badPerm, Bool.and_eq_true, beq_iff_eq] at hbad
  have hu : perm &&& (PTE_U ||| PTE_P) &&& PTE_U = PTE_U := by rw [h.1]; decide
  rw [BitVec.and_assoc, show (PTE_U ||| PTE_P) &&& PTE_U = PTE_U from by decide, hbad.1.1] at hu
  exact absurd hu (by decide)

/-! ## Calls on environments -/

theorem env_set_pgfault_upcall_reported (func : Word) :
    (Call.env_set_pgfault_upcall envid func).Reported k c cur := by
  rcases he : envid2env k cur envid true with r | e
  · obtain ⟨href, rfl⟩ := refused_of_error he
    refine reported_flaw (m := k) (by simp only [Call.run, sys_env_set_pgfault_upcall, he]) ?_
      bad_env_neg ⟨rfl, href⟩
    rintro ⟨e, h, -⟩
    exact href e h
  · have hrun : (Call.env_set_pgfault_upcall envid func).run k c cur =
        .ret 0 (k.setEnv e fun env => { env with env_pgfault_upcall := func }) := by
      simp only [Call.run, sys_env_set_pgfault_upcall, he]
    exact (reported_ret hrun).mpr (Or.inl ⟨⟨e, he, by simp⟩, rfl⟩)

theorem env_set_status_reported (status : Word) :
    (Call.env_set_status envid status).Reported k c cur ↔
      (Call.env_set_status envid status).Proper k cur := by
  unfold Call.Proper
  rcases he : envid2env k cur envid true with r | e
  · obtain ⟨href, rfl⟩ := refused_of_error he
    refine iff_of_true (reported_flaw (m := k) (by simp only [Call.run, sys_env_set_status, he]) ?_
      bad_env_neg (Or.inl ⟨rfl, href⟩)) (Or.inl href)
    rintro ⟨e, st, h, -⟩
    exact href e h
  · have hnref : ¬ Refused k cur envid true := fun href => href e he
    rcases hst : settable status with _ | st
    · -- the error is returned without its sign
      refine iff_of_false (not_reported (r := E_INVAL) (m := k)
        (by simp only [Call.run, sys_env_set_status, he, hst]) ?_ (by decide)) ?_
      · rintro ⟨e', st, -, hst', -⟩
        rw [hst] at hst'
        cases hst'
      · rintro (href | hx)
        · exact hnref href
        · exact hx hst
    · have hrun : (Call.env_set_status envid status).run k c cur = .ret 0 (k.setStatus e st) := by
        simp only [Call.run, sys_env_set_status, he, hst]
      refine iff_of_true ((reported_ret hrun).mpr (Or.inl ⟨⟨e, st, he, hst, ?_⟩, rfl⟩))
        (Or.inr (by simp [hst]))
      simp [Kernel.setStatus, Kernel.setEnv_status]

theorem env_destroy_reported (h : Memory kept k) (hcur : k.curenv c = some cur)
    (hlive : k.status cur ≠ .ENV_FREE) : (Call.env_destroy envid).Reported k c cur := by
  rcases he : envid2env k cur envid true with r | e
  · obtain ⟨href, rfl⟩ := refused_of_error he
    refine reported_flaw (m := k) (by simp only [Call.run, sys_env_destroy, he]) ?_
      bad_env_neg ⟨rfl, href⟩
    rintro ⟨e, h, -⟩
    exact href e h
  · have hrun : (Call.env_destroy envid).run k c cur =
        (env_destroy k c e).bind fun _ k => .ret 0 k := by
      simp only [Call.run, sys_env_destroy, he]
    obtain ⟨d, hd⟩ := h.dir_of_named hlive he
    obtain ⟨free, ha⟩ := h.accounts
    obtain ⟨pm, -, hpages, -⟩ := env_free_pages_ok ha hd
    have hfree := env_free_run c hd hpages
    by_cases hec : e = cur
    · subst hec
      have hdes : env_destroy k c e = (sched_yield (k.vacate c e pm) c).noreturn := by
        simp only [env_destroy, hcur, ne_eq, not_true_eq_false, and_false, if_false, hfree,
          Kernel.release_curenv, if_true]
        rfl
      refine Or.inr ⟨k.vacate c e pm, .destroyed (Quiet.refl k) ⟨d, hd, hpages⟩, ?_, e, he,
        Or.inl ?_⟩
      · rw [hrun, hdes]
        cases sched_yield (k.vacate c e pm) c with
        | ret y => exact y.elim
        | _ => rfl
      · have hst : (k.vacate c e pm).status = (k.release c e pm).status := rfl
        rw [hst, Kernel.release_status, Function.update_self]
    · have hne : k.curenv c ≠ some e := by
        rw [hcur]
        exact fun hx => hec (Option.some.inj hx).symm
      by_cases hst : k.status e = .ENV_RUNNING
      · have hdes : env_destroy k c e = .ret () (k.setStatus e .ENV_DYING) := by
          simp only [env_destroy, hst, hne, ne_eq, not_false_eq_true, and_self, if_true]
        refine (reported_ret (r := 0) (by rw [hrun, hdes]; rfl)).mpr
          (Or.inl ⟨⟨e, he, Or.inr ⟨hst, hec, ?_⟩⟩, rfl⟩)
        simp [Kernel.setStatus, Kernel.setEnv_status]
      · have hdes : env_destroy k c e = .ret () (k.release c e pm) := by
          simp only [env_destroy, hst, false_and, if_false, hfree, Kernel.release_curenv, hne]
        refine (reported_ret (r := 0) (by rw [hrun, hdes]; rfl)).mpr
          (Or.inl ⟨⟨e, he, Or.inl ?_⟩, rfl⟩)
        rw [Kernel.release_status, Function.update_self]

theorem exofork_reported (h : Memory kept k) (hl : FreeListed k)
    (hlive : k.status cur ≠ .ENV_FREE) : Call.exofork.Reported k c cur := by
  have hsame : ¬ Call.exofork.Performed k cur k := by
    rintro ⟨child, hfree, hst, -⟩
    rw [hfree] at hst
    cases hst
  obtain ⟨l, hchain, hmem⟩ := hl
  rcases hf : k.env_free_list with _ | child
  · refine reported_flaw (m := k) (r := -E_NO_FREE_ENV)
      (by simp only [Call.run, sys_exofork, env_alloc, hf]) hsame (by decide) (Or.inl ⟨rfl, ?_⟩)
    rw [hf] at hchain
    intro e hst
    have hin := (hmem e).mpr hst
    cases l with
    | nil => cases hin
    | cons x l => cases hchain.1
  · have hchild : k.status child = .ENV_FREE := FreeListed.head ⟨l, hchain, hmem⟩ hf
    obtain ⟨free, ha⟩ := h.accounts
    rcases hpl : k.pm.page_free_list with _ | p
    · have hvm : env_setup_vm k.pm k.kern_pgdir = .ok (none, k.pm) := by
        simp only [env_setup_vm, page_alloc_none hpl]
      refine reported_flaw (m := k) (r := -E_NO_MEM) ?_ hsame (by decide) (Or.inr ⟨rfl, [], ?_, ?_⟩)
      · simp only [Call.run, sys_exofork, env_alloc, hf, hvm, Kernel.withPm_self]
      · rw [hpl]; rfl
      · decide
    · obtain ⟨rest, rfl⟩ := ha.chain.eq_cons hpl
      have hp := ha.kept_lt p (ha.balanced.free_kept p (List.mem_cons_self ..))
      have hvm : env_setup_vm k.pm k.kern_pgdir = _ := env_setup_vm_some hpl hp
      have hrun : Call.exofork.run k c cur =
          .ret ((k.fork cur child p (k.pm.newDir k.kern_pgdir p)).envs child).env_id.toInt
            (k.fork cur child p (k.pm.newDir k.kern_pgdir p)) := by
        simp only [Call.run, sys_exofork, env_alloc, hf, hvm]
        rfl
      have hcc : cur ≠ child := fun hx => hlive (hx ▸ hchild)
      refine (reported_ret hrun).mpr (Or.inl ⟨⟨child, hchild, ?_, ?_, ?_⟩, ?_, child, hchild, ?_, rfl⟩)
      · rw [Kernel.fork_status, Function.update_self]
      · simp [Kernel.fork, freshEnv]
      · simp [Kernel.fork, Function.update_of_ne hcc]
      · simpa [Kernel.fork, freshEnv] using nextId_pos (k.envs child).env_id child
      · rw [Kernel.fork_status, Function.update_self]

/-! ## Receiving -/

theorem ipc_recv_reported (hlive : k.status cur = .ENV_RUNNING) (dstva : Word) :
    (Call.ipc_recv dstva).Reported k c cur := by
  have hrun : (Call.ipc_recv dstva).run k c cur = _ := sys_ipc_recv_eq dstva
  by_cases hbad : dstva < UTOP ∧ unaligned dstva = true
  · rw [if_pos hbad] at hrun
    refine reported_flaw hrun ?_ (by decide) ⟨rfl, hbad⟩
    rintro ⟨-, hst, -⟩
    rw [hlive] at hst
    cases hst
  · rw [if_neg hbad] at hrun
    refine Or.inr ⟨_, .receive, hrun, ?_, ?_, fun hlt => ?_⟩
    · simp [Kernel.receive]
    · simp [Kernel.receive, Kernel.setEnv_status]
    · simp [Kernel.receive, hlt]

/-! ## Calls on pages -/

theorem page_unmap_reported (h : Memory kept k) (hlive : k.status cur ≠ .ENV_FREE) :
    (Call.page_unmap envid va).Reported k c cur := by
  rcases he : envid2env k cur envid true with r | e
  · obtain ⟨href, rfl⟩ := refused_of_error he
    refine reported_flaw (m := k) (by simp only [Call.run, sys_page_unmap, he]) ?_
      bad_env_neg (Or.inl ⟨rfl, href⟩)
    rintro ⟨-, -, e, h, -⟩
    exact href e h
  · by_cases hbad : va ≥ UTOP ∨ unaligned va = true
    · refine reported_flaw (m := k) (r := -E_INVAL)
        (by simp only [Call.run, sys_page_unmap, he, if_pos hbad]) ?_ (by decide)
        (Or.inr ⟨rfl, hbad⟩)
      rintro ⟨hva, hal, -⟩
      rcases hbad with hx | hx
      · exact absurd hva (BitVec.not_lt.mpr hx)
      · rw [hal] at hx; cases hx
    · obtain ⟨d, hd⟩ := h.dir_of_named hlive he
      have hd' : (k.envs e).env_pgdir = some d := hd
      obtain ⟨hge, hal⟩ := not_or.mp hbad
      have hva : va < UTOP := BitVec.not_le.mp hge
      obtain ⟨free, ha⟩ := h.accounts
      obtain ⟨pm, hrem⟩ : ∃ pm, page_remove k.pm d va = .ok pm := by
        rcases page_remove_spec ha hd hva with ⟨-, hrem⟩ | ⟨pm, -, -, hrem, -⟩
        · exact ⟨_, hrem⟩
        · exact ⟨pm, hrem⟩
      have hrun : (Call.page_unmap envid va).run k c cur = .ret 0 (k.withPm pm) := by
        simp only [Call.run, sys_page_unmap, he, if_neg hbad, hd', hrem]
      have hcleared : (Call.page_unmap envid va).cleared k cur = some (e, va) := by
        simp only [Call.cleared, he]
      have hremaps : Remaps k cur (.page_unmap envid va) 0 (k.withPm pm) :=
        h.remapped rfl trivial hrun
      have hgone : (k.withPm pm).pageAt e va = none := by
        cases hremaps with
        | same hno =>
          rcases hno with hno | hno
          · exact absurd rfl hno
          · rw [hcleared] at hno; cases hno.2
        | set _ _ hgiven => cases hgiven
        | clear _ _ hcl hgone =>
          rw [hcleared] at hcl
          cases hcl
          rw [pageAt_eq]
          exact hgone
        | drop hcall => cases hcall
      exact (reported_ret hrun).mpr
        (Or.inl ⟨⟨hva, by simpa using hal, e, he, hgone⟩, rfl⟩)

/-- `page_lookup` finds the page of the entry. -/
theorem Memory.lookup_answer {d : Nat} (h : Memory kept k) (hd : k.dir e = some d)
    (hva : va < UTOP) :
    (k.pageAt e va = none ∧ page_lookup k.pm d va = .ok none) ∨
    ∃ p pte, k.pageAt e va = some p ∧ page_lookup k.pm d va = .ok (some (p, pte)) ∧
      k.pm.mem pte.page pte.idx = k.pte e (PDX va) (PTX va) ∧ p < k.pm.npages := by
  obtain ⟨free, ha⟩ := h.accounts
  have hlt := fun t => ha.separated.table_lt e d (PDX va) t hd (PDX_lt_NPDU hva)
  rw [page_lookup_eq hlt, Kernel.pte_eq hd]
  have hat : k.pageAt e va = pageOf (pteAt k.pm d (PDX va) (PTX va)) := by
    simp [Kernel.pageAt, hd]
  rcases ht : table k.pm d (PDX va) with _ | t
  · refine Or.inl ⟨?_, by simp [lookup, ht]⟩
    rw [hat]
    simp [pteAt, entry, ht]
  · have hpte : pteAt k.pm d (PDX va) (PTX va) = k.pm.mem t (PTX va) := by
      simp [pteAt, entry, ht]
    rcases hp : pageOf (k.pm.mem t (PTX va)) with _ | p
    · exact Or.inl ⟨by rw [hat, hpte, hp], by simp [lookup, ht, hp]⟩
    · refine Or.inr ⟨p, ⟨t, PTX va⟩, by rw [hat, hpte, hp], by simp [lookup, ht, hp], hpte.symm, ?_⟩
      exact ha.kept_lt p (ha.named (slot_of_pte hd hva (by rw [hpte, hp])))

/-- What the third test of the code makes of the entry at the source. -/
theorem readOnly_iff {w : Word} (hw : w = k.pte e (PDX va) (PTX va)) :
    (w &&& PTE_W = 0 ∧ perm &&& PTE_W ≠ 0) ↔ ReadOnly k e va perm := by
  rw [hw, ReadOnly, and_comm]

/-- A page that is there, and permissions that the test lets pass: the call refuses
to make a read-only page writable, lacks a page for a page table, or maps the page. -/
theorem Memory.page_map_answer {srcenvid srcva dstenvid dstva : Word} {src dst : EnvIx} {p : Nat}
    (h : Memory kept k) (hlive : k.status cur ≠ .ENV_FREE)
    (hsrc : envid2env k cur srcenvid true = .ok src)
    (hdst : envid2env k cur dstenvid true = .ok dst) (hva : srcva < UTOP ∧ dstva < UTOP)
    (hal : unaligned srcva = false ∧ unaligned dstva = false)
    (hpage : k.pageAt src srcva = some p) (hbad : badPerm perm = false) :
    (ReadOnly k src srcva perm ∧
      (Call.page_map srcenvid srcva dstenvid dstva perm).run k c cur = .ret (-E_INVAL) k) ∨
    (¬ ReadOnly k src srcva perm ∧ Lacks k (k.tablesFor dst dstva) ∧ k.pageAt dst dstva = none ∧
      (Call.page_map srcenvid srcva dstenvid dstva perm).run k c cur = .ret (-E_NO_MEM) k) ∨
    (¬ ReadOnly k src srcva perm ∧ ¬ Lacks k (k.tablesFor dst dstva) ∧
      ∃ pm, Grant k src dst srcva dstva perm p 0 pm ∧
        (Call.page_map srcenvid srcva dstenvid dstva perm).run k c cur = .ret 0 (k.withPm pm)) := by
  have hge : ¬ (srcva ≥ UTOP ∨ dstva ≥ UTOP) := by
    rintro (hx | hx)
    · exact absurd hva.1 (BitVec.not_lt.mpr hx)
    · exact absurd hva.2 (BitVec.not_lt.mpr hx)
  have hal' : ¬ (unaligned srcva = true ∨ unaligned dstva = true) := by simp [hal]
  obtain ⟨ds, hds⟩ := h.dir_of_named hlive hsrc
  obtain ⟨dd, hdd⟩ := h.dir_of_named hlive hdst
  have hds' : (k.envs src).env_pgdir = some ds := hds
  have hdd' : (k.envs dst).env_pgdir = some dd := hdd
  rcases h.lookup_answer hds hva.1 with ⟨hnone, -⟩ | ⟨q, pte, hq, hlook, hpte, hlt⟩
  · rw [hpage] at hnone
    cases hnone
  cases hpage.symm.trans hq
  have hrun : (Call.page_map srcenvid srcva dstenvid dstva perm).run k c cur =
      if k.pm.mem pte.page pte.idx &&& PTE_W = 0 ∧ perm &&& PTE_W ≠ 0 then .ret (-E_INVAL) k
      else insertIn k dst p dstva perm fun r k => if r < 0 then .ret r k else .ret 0 k := by
    simp only [Call.run, sys_page_map, hsrc, hdst, if_neg hge, if_neg hal', hds', hlook, hbad,
      Bool.false_eq_true, if_false]
  by_cases hro : k.pm.mem pte.page pte.idx &&& PTE_W = 0 ∧ perm &&& PTE_W ≠ 0
  · rw [if_pos hro] at hrun
    exact Or.inl ⟨(readOnly_iff hpte).mp hro, hrun⟩
  rw [if_neg hro] at hrun
  have hnro : ¬ ReadOnly k src srcva perm := fun hr => hro ((readOnly_iff hpte).mpr hr)
  rcases h.insert_answer hdd hva.2 hlt perm with ⟨hlack, hnone, hins⟩ | ⟨hroom, pm, hins⟩
  · refine Or.inr (Or.inl ⟨hnro, hlack, hnone, ?_⟩)
    simp only [hrun, insertIn, hdd', hins, Kernel.withPm_self]
    rfl
  · refine Or.inr (Or.inr ⟨hnro, hroom, pm, ⟨hva.1, hva.2, hbad, ⟨ds, pte, hds, hlook,
      fun hw h0 => hro ⟨h0, hw⟩⟩, dd, hdd, hins⟩, ?_⟩)
    simp only [hrun, insertIn, hdd', hins]
    rfl

theorem page_map_reported {srcenvid srcva dstenvid dstva : Word} (h : Memory kept k)
    (hlive : k.status cur ≠ .ENV_FREE) :
    (Call.page_map srcenvid srcva dstenvid dstva perm).Reported k c cur ↔
      (Call.page_map srcenvid srcva dstenvid dstva perm).Proper k cur := by
  -- a flaw that the code finds
  have hfound : ∀ {r m}, (Call.page_map srcenvid srcva dstenvid dstva perm).run k c cur =
      .ret r m → ¬ (Call.page_map srcenvid srcva dstenvid dstva perm).Performed k cur m → r < 0 →
      (Call.page_map srcenvid srcva dstenvid dstva perm).Flaw k cur r →
      ((Call.page_map srcenvid srcva dstenvid dstva perm).Reported k c cur ↔
        (Call.page_map srcenvid srcva dstenvid dstva perm).Proper k cur) :=
    fun hrun hno hneg hflaw =>
      iff_of_true (reported_flaw hrun hno hneg hflaw) (Or.inr (Or.inr ⟨_, hflaw⟩))
  rcases hsrc : envid2env k cur srcenvid true with r | src
  · obtain ⟨href, rfl⟩ := refused_of_error hsrc
    refine hfound (m := k) (by simp only [Call.run, sys_page_map, hsrc]) ?_ bad_env_neg
      (Or.inl ⟨rfl, Or.inl href⟩)
    rintro ⟨-, -, -, -, -, src, -, hs, -⟩
    exact href src hs
  rcases hdst : envid2env k cur dstenvid true with r | dst
  · obtain ⟨href, rfl⟩ := refused_of_error hdst
    refine hfound (m := k) (by simp only [Call.run, sys_page_map, hsrc, hdst]) ?_ bad_env_neg
      (Or.inl ⟨rfl, Or.inr href⟩)
    rintro ⟨-, -, -, -, -, -, dst, -, hs, -⟩
    exact href dst hs
  by_cases hge : srcva ≥ UTOP ∨ dstva ≥ UTOP
  · refine hfound (m := k) (r := -E_INVAL)
      (by simp only [Call.run, sys_page_map, hsrc, hdst, if_pos hge]) ?_ (by decide)
      (Or.inr (Or.inl ⟨rfl, hge.elim Or.inl fun hx => Or.inr (Or.inr (Or.inl hx))⟩))
    rintro ⟨hs, -, hd, -⟩
    rcases hge with hx | hx
    · exact absurd hs (BitVec.not_lt.mpr hx)
    · exact absurd hd (BitVec.not_lt.mpr hx)
  by_cases hal : unaligned srcva = true ∨ unaligned dstva = true
  · refine hfound (m := k) (r := -E_INVAL)
      (by simp only [Call.run, sys_page_map, hsrc, hdst, if_neg hge, if_pos hal]) ?_ (by decide)
      (Or.inr (Or.inl ⟨rfl, hal.elim (fun hx => Or.inr (Or.inl hx))
        fun hx => Or.inr (Or.inr (Or.inr (Or.inl hx)))⟩))
    rintro ⟨-, hs, -, hd, -⟩
    rw [hs, hd] at hal
    simp at hal
  have hva : srcva < UTOP ∧ dstva < UTOP :=
    ⟨BitVec.not_le.mp (not_or.mp hge).1, BitVec.not_le.mp (not_or.mp hge).2⟩
  have hal' : unaligned srcva = false ∧ unaligned dstva = false := by simpa using hal
  obtain ⟨ds, hds⟩ := h.dir_of_named hlive hsrc
  have hds' : (k.envs src).env_pgdir = some ds := hds
  rcases h.lookup_answer hds hva.1 with ⟨hnone, hlook⟩ | ⟨p, pte, hpage, hlook, -, -⟩
  · refine hfound (m := k) (r := -E_INVAL)
      (by simp only [Call.run, sys_page_map, hsrc, hdst, if_neg hge, if_neg hal, hds', hlook]) ?_
      (by decide) (Or.inr (Or.inl ⟨rfl, Or.inr (Or.inr (Or.inr (Or.inr ⟨src, hsrc,
        Or.inl hnone⟩)))⟩))
    rintro ⟨-, -, -, -, -, src', dst', hs, -, -, p, hp, -⟩
    cases hsrc.symm.trans hs
    rw [hnone] at hp
    cases hp
  by_cases hbad : badPerm perm = true
  · refine iff_of_true ((reported_ret (m := k) (r := -E_INVAL) (by
      simp only [Call.run, sys_page_map, hsrc, hdst, if_neg hge, if_neg hal, hds', hlook,
        if_pos hbad])).mpr (Or.inr ⟨?_, by decide, Or.inr ⟨rfl, rfl, ?_⟩⟩)) (Or.inr (Or.inl hbad))
    · rintro ⟨-, -, -, -, happ, -⟩
      rw [badPerm_of_appropriate happ] at hbad
      cases hbad
    · by_contra happ
      rw [badPerm_of_appropriate (by simpa [Call.perm] using happ)] at hbad
      cases hbad
  rcases h.page_map_answer hlive hsrc hdst hva hal' hpage (by simpa using hbad) with
    ⟨hro, hrun⟩ | ⟨-, hlack, hnone, hrun⟩ | ⟨hnro, hroom, pm, hg, hrun⟩
  · refine hfound hrun ?_ (by decide) (Or.inr (Or.inl ⟨rfl, Or.inr (Or.inr (Or.inr (Or.inr
      ⟨src, hsrc, Or.inr hro⟩)))⟩))
    rintro ⟨-, -, -, -, -, src', dst', hs, -, hnro, -⟩
    cases hsrc.symm.trans hs
    exact hnro hro
  · refine hfound hrun ?_ (by decide) (Or.inr (Or.inr ⟨rfl, dst, hdst, hlack⟩))
    rintro ⟨-, -, -, -, -, src', dst', -, hd, -, p', -, hp', -⟩
    cases hdst.symm.trans hd
    rw [hnone] at hp'
    cases hp'
  by_cases happ : appropriate perm = true
  · exact iff_of_true ((reported_ret hrun).mpr (Or.inl ⟨⟨hva.1, hal'.1, hva.2, hal'.2, happ, src,
      dst, hsrc, hdst, hnro, h.grant_shares hg (appropriate_lt happ)⟩, rfl⟩)) (Or.inl happ)
  · -- the test has let the permissions pass
    refine iff_of_false (not_reported hrun ?_ (by decide)) ?_
    · exact fun hx => happ hx.2.2.2.2.1
    · rintro (hx | hx | ⟨r, hx | ⟨-, hx⟩ | ⟨-, dst', hd, hlack⟩⟩)
      · exact happ hx
      · exact hbad hx
      · exact hx.2.elim (fun href => href src hsrc) fun href => href dst hdst
      · rcases hx with hx | hx | hx | hx | ⟨src', hs, hx⟩
        · exact hge (Or.inl hx)
        · exact hal (Or.inl hx)
        · exact hge (Or.inr hx)
        · exact hal (Or.inr hx)
        · cases hsrc.symm.trans hs
          rcases hx with hx | hx
          · rw [hpage] at hx; cases hx
          · exact hnro hx
      · cases hdst.symm.trans hd
        exact hroom hlack

theorem page_alloc_reported (h : Memory kept k) (hlive : k.status cur ≠ .ENV_FREE) :
    (Call.page_alloc envid va perm).Reported k c cur ↔
      (Call.page_alloc envid va perm).Proper k cur := by
  by_cases hbad : va ≥ UTOP ∨ unaligned va = true
  · -- the error is returned without its sign
    have hnot : ¬ (va < UTOP ∧ unaligned va = false) := by
      rintro ⟨hlt, hal⟩
      rcases hbad with hx | hx
      · exact absurd hlt (BitVec.not_lt.mpr hx)
      · rw [hal] at hx; cases hx
    exact iff_of_false (not_reported (m := k) (r := E_INVAL)
      (by simp only [Call.run, sys_page_alloc, if_pos hbad]) (fun hx => hnot ⟨hx.1, hx.2.1⟩)
      (by decide)) fun hx => hnot ⟨hx.1, hx.2.1⟩
  obtain ⟨hge, hal⟩ := not_or.mp hbad
  have hva : va < UTOP := BitVec.not_le.mp hge
  have hal : unaligned va = false := by simpa using hal
  by_cases hperm : badPerm perm = true
  · refine iff_of_false (not_reported (m := k) (r := E_INVAL)
      (by simp only [Call.run, sys_page_alloc, if_neg hbad, if_pos hperm]) (fun hx => ?_)
      (by decide)) fun hx => ?_
    · rw [badPerm_of_appropriate hx.2.2.1] at hperm; cases hperm
    · rw [hx.2.2.1] at hperm; cases hperm
  obtain ⟨free, ha⟩ := h.accounts
  rcases ha.page_alloc_ok ALLOC_ZERO with ⟨rfl, halloc⟩ | ⟨p, rest, rfl, halloc⟩
  · refine iff_of_false (not_reported (m := k) (r := E_NO_MEM)
      (by simp only [Call.run, sys_page_alloc, if_neg hbad, if_neg hperm, halloc,
        Kernel.withPm_self]) (fun hx => ?_) (by decide)) fun hx => ?_
    · obtain ⟨-, -, -, e, q, free, -, hc, hq, -⟩ := hx
      rw [hc.unique ha.chain] at hq
      cases hq
    · exact hx.2.2.2.1 ((lacks_iff ha.chain).mpr (by simp))
  have hhas : ¬ Lacks k 1 := by rw [lacks_iff ha.chain]; simp
  obtain ⟨h₁, -, hlist⟩ := h.lost halloc
  rcases he : envid2env k cur envid true with r | e
  · obtain ⟨href, rfl⟩ := refused_of_error he
    have he' : envid2env (k.withPm (k.pm.alloced p ALLOC_ZERO)) cur envid true =
        .error (-E_BAD_ENV) := he
    refine iff_of_true (reported_flaw (m := k.withPm (k.pm.alloced p ALLOC_ZERO))
      (by simp only [Call.run, sys_page_alloc, if_neg hbad, if_neg hperm, halloc, he'])
      ?_ bad_env_neg (Or.inl ⟨rfl, href⟩))
      ⟨hva, hal, by simpa using hperm, hhas, Or.inr (Or.inl href)⟩
    rintro ⟨-, -, -, e, -, -, hx, -⟩
    exact href e hx
  have he' : envid2env (k.withPm (k.pm.alloced p ALLOC_ZERO)) cur envid true = .ok e := he
  obtain ⟨d, hd⟩ := h.dir_of_named hlive he
  have hd' : ((k.withPm (k.pm.alloced p ALLOC_ZERO)).envs e).env_pgdir = some d := hd
  have hp := ha.kept_lt p (ha.balanced.free_kept p (List.mem_cons_self ..))
  -- the new page is gone from the list when `page_insert` looks for a page table
  have hlack : Lacks (k.withPm (k.pm.alloced p ALLOC_ZERO))
      ((k.withPm (k.pm.alloced p ALLOC_ZERO)).tablesFor e va) ↔
      Lacks k (1 + k.tablesFor e va) := by
    have htab : (k.withPm (k.pm.alloced p ALLOC_ZERO)).tablesFor e va = k.tablesFor e va := by
      have hsame : table (k.pm.alloced p ALLOC_ZERO) d (PDX va) = table k.pm d (PDX va) :=
        table_alloced ha.separated (List.mem_cons_self ..) hd
      have hdir : (k.withPm (k.pm.alloced p ALLOC_ZERO)).dir e = some d := hd
      simp only [Kernel.tablesFor, hdir, hd, Option.bind_some]
      rw [← hsame]
      rfl
    have hc : Chain (k.pm.alloced p ALLOC_ZERO).link (k.pm.alloced p ALLOC_ZERO).page_free_list
        rest := ha.alloced.chain
    rw [htab, lacks_iff (k := k.withPm (k.pm.alloced p ALLOC_ZERO)) hc, lacks_iff ha.chain,
      List.length_cons]
    omega
  rcases h₁.insert_answer hd hva (by simpa using hp) perm with ⟨hno, hnone, hins⟩ | ⟨hroom, pm, hins⟩
  · have hfree : page_free (k.pm.alloced p ALLOC_ZERO) p =
        .ok ((k.pm.alloced p ALLOC_ZERO).pushFree p) := page_free_eq (by simp)
    have hins' : page_insert (k.pm.alloced p ALLOC_ZERO) d p va perm =
        .ok (-E_NO_MEM, k.pm.alloced p ALLOC_ZERO) := hins
    have hrun : (Call.page_alloc envid va perm).run k c cur =
        .ret (-E_NO_MEM) (k.withPm ((k.pm.alloced p ALLOC_ZERO).pushFree p)) := by
      simp only [Call.run, sys_page_alloc, if_neg hbad, if_neg hperm, halloc, he', insertIn, hd',
        Kernel.withPm_pm, hins']
      simp only [show (-E_NO_MEM : Int) < 0 from by decide, if_true, hfree]
      rfl
    have hl := hlack.mp hno
    refine iff_of_true (reported_flaw hrun ?_ (by decide) (Or.inr (Or.inr ⟨rfl, Or.inr ⟨e, he, hl⟩⟩)))
      ⟨hva, hal, by simpa using hperm, hhas, Or.inr (Or.inr ⟨e, he, hl⟩)⟩
    rintro ⟨-, -, -, e', q, -, hx, -, -, hq, -⟩
    cases he.symm.trans hx
    have hsame : (k.withPm ((k.pm.alloced p ALLOC_ZERO).pushFree p)).pageAt e va =
        (k.withPm (k.pm.alloced p ALLOC_ZERO)).pageAt e va := rfl
    rw [hsame, hnone] at hq
    cases hq
  have hins' : page_insert (k.pm.alloced p ALLOC_ZERO) d p va perm = .ok (0, pm) := hins
  have hrun : (Call.page_alloc envid va perm).run k c cur = .ret 0 (k.withPm pm) := by
    simp only [Call.run, sys_page_alloc, if_neg hbad, if_neg hperm, halloc, he', insertIn, hd',
      Kernel.withPm_pm, hins']
    rfl
  by_cases happ : appropriate perm = true
  · refine iff_of_true ((reported_ret hrun).mpr (Or.inl ⟨?_, rfl⟩))
      ⟨hva, hal, by simpa using hperm, hhas, Or.inl happ⟩
    have hlow := appropriate_lt happ
    have hremaps : Remaps k cur (.page_alloc envid va perm) 0 (k.withPm pm) :=
      h.remapped rfl hlow hrun
    cases hremaps with
    | same hno =>
      rcases hno with hno | hno
      · exact absurd rfl hno
      · simp [Call.given, he, hlist] at hno
    | @set e' va' q _ _ hgiven horigin hset =>
      simp only [Call.given, he, hlist, Option.map_some, Option.some.injEq, Prod.mk.injEq] at hgiven
      obtain ⟨rfl, rfl, rfl⟩ := hgiven
      have hpte := hset e (PDX va) (PTX va) (PDX_lt_NPDU hva)
      rw [if_pos ⟨rfl, rfl, rfl⟩] at hpte
      have hp20 : p < 2 ^ 20 := by have := k.pm.npages_le; omega
      refine ⟨hva, hal, happ, e, p, _, he, ha.chain, List.mem_cons_self .., ?_, ?_, horigin.2⟩
      · rw [pageAt_eq, hpte]
        exact pageOf_pteFor hp20 (lt_page hlow)
      · rw [hpte]
        exact permOf_pteFor hp20 (lt_page hlow)
    | clear _ _ hcl => cases hcl
    | drop hcall => cases hcall
  · -- the test has let the permissions pass
    refine iff_of_false (not_reported hrun (fun hx => happ hx.2.2.1) (by decide)) ?_
    rintro ⟨-, -, -, -, hx | hx | ⟨e', hx, hl⟩⟩
    · exact happ hx
    · exact hx e he
    · cases he.symm.trans hx
      exact hroom (hlack.mpr hl)

/-! ## Sending -/

/-- A message that has arrived. The page is what remains to be seen. -/
theorem sent_performed {x : EnvIx} {value srcva perm' : Word}
    (hx : envid2env k cur envid false = .ok x) (hrecv : (k.envs x).env_ipc_recving = true)
    (henvs : m.envs = k.envs) :
    (Call.ipc_try_send envid value srcva perm).Performed k cur (deliver m cur x value perm') ↔
      (srcva < UTOP ∧ (k.envs x).env_ipc_dstva < UTOP → appropriate perm = true) ∧
      Transferred k (deliver m cur x value perm') cur x srcva (k.envs x).env_ipc_dstva perm := by
  constructor
  · rintro ⟨x', hx', -, -, -, -, -, hrest⟩
    cases hx.symm.trans hx'
    exact hrest
  · intro hrest
    exact ⟨x, hx, hrecv, by simp [deliver], by simp [deliver, henvs], by simp [deliver],
      by simp [deliver, Kernel.setEnv_status], hrest⟩

theorem ipc_try_send_reported {value srcva : Word} (h : Memory kept k)
    (hlive : k.status cur ≠ .ENV_FREE) :
    (Call.ipc_try_send envid value srcva perm).Reported k c cur ↔
      (Call.ipc_try_send envid value srcva perm).Proper k cur := by
  rcases hx : envid2env k cur envid false with r | x
  · obtain ⟨href, -⟩ := refused_of_error hx
    refine iff_of_true (reported_flaw (m := k) (r := -E_BAD_ENV)
      (by simp only [Call.run, sys_ipc_try_send, hx]) ?_ bad_env_neg (Or.inl ⟨rfl, href⟩)) ?_
    · rintro ⟨x, hx, -⟩
      exact href x hx
    · exact fun x hx => absurd hx (href x)
  rcases hrecv : (k.envs x).env_ipc_recving with _ | _
  · refine iff_of_true (reported_flaw (m := k) (r := -E_IPC_NOT_RECV)
      (by simp [Call.run, sys_ipc_try_send, hx, hrecv]) ?_ (by decide)
      (Or.inr ⟨x, hx, Or.inl ⟨rfl, hrecv⟩⟩)) ?_
    · rintro ⟨x', hx', hr, -⟩
      cases hx.symm.trans hx'
      rw [hrecv] at hr
      cases hr
    · intro x' hx' hr
      cases hx.symm.trans hx'
      rw [hrecv] at hr
      cases hr
  -- a send that fails leaves the receiver waiting
  have hsame : ¬ (Call.ipc_try_send envid value srcva perm).Performed k cur k := by
    rintro ⟨x', hx', hr, hr', -⟩
    rw [hr] at hr'
    cases hr'
  have hgo : (!(k.envs x).env_ipc_recving) = false := by rw [hrecv]; rfl
  by_cases hpage : srcva < UTOP ∧ (k.envs x).env_ipc_dstva < UTOP
  · have hproper : (Call.ipc_try_send envid value srcva perm).Proper k cur ↔
        badPerm perm = true ∨ unaligned srcva = true ∨ k.pageAt cur srcva = none ∨
        ReadOnly k cur srcva perm ∨
        ((k.envs x).env_ipc_dstva ≠ 0 ∧ Lacks k (k.tablesFor x (k.envs x).env_ipc_dstva)) ∨
        (appropriate perm = true ∧ ((k.envs x).env_ipc_dstva ≠ 0 ∨
          Shares k k cur x srcva (k.envs x).env_ipc_dstva perm)) := by
      constructor
      · exact fun hp => hp x hx hrecv hpage.1 hpage.2
      · intro hp x' hx' _ _ _
        cases hx.symm.trans hx'
        exact hp
    rw [hproper]
    by_cases hal : unaligned srcva = true
    · exact iff_of_true (reported_flaw (m := k) (r := -E_INVAL)
        (by simp [Call.run, sys_ipc_try_send, hx, hgo, hpage, hal]) hsame (by decide)
        (Or.inr ⟨x, hx, Or.inr (Or.inl ⟨rfl, hpage.1, Or.inl hal⟩)⟩)) (Or.inr (Or.inl hal))
    by_cases hbad : badPerm perm = true
    · have happ : appropriate perm = false := by
        by_contra happ
        rw [badPerm_of_appropriate (by simpa using happ)] at hbad
        cases hbad
      exact iff_of_true ((reported_ret (m := k) (r := -E_INVAL)
        (by simp [Call.run, sys_ipc_try_send, hx, hgo, hpage, hal, hbad])).mpr
        (Or.inr ⟨hsame, by decide, Or.inr ⟨rfl, by simp [Call.wantsPage, hpage.1], happ⟩⟩))
        (Or.inl hbad)
    obtain ⟨ds, hds⟩ := h.some_dir hlive
    have hds' : (k.envs cur).env_pgdir = some ds := hds
    rcases h.lookup_answer hds hpage.1 with ⟨hnone, hlook⟩ | ⟨p, pte, hat, hlook, hpte, hp⟩
    · exact iff_of_true (reported_flaw (m := k) (r := -E_INVAL)
        (by simp [Call.run, sys_ipc_try_send, hx, hgo, hpage, hal, hbad, hds', hlook]) hsame
        (by decide) (Or.inr ⟨x, hx, Or.inr (Or.inl ⟨rfl, hpage.1, Or.inr (Or.inl hnone)⟩)⟩))
        (Or.inr (Or.inr (Or.inl hnone)))
    by_cases hro : perm &&& PTE_W ≠ 0 ∧ k.pm.mem pte.page pte.idx &&& PTE_W = 0
    · have hro' : ReadOnly k cur srcva perm := (readOnly_iff hpte).mp ⟨hro.2, hro.1⟩
      refine iff_of_true (reported_flaw (m := k) (r := -E_INVAL) ?_ hsame
        (by decide) (Or.inr ⟨x, hx, Or.inr (Or.inl ⟨rfl, hpage.1, Or.inr (Or.inr hro')⟩)⟩))
        (Or.inr (Or.inr (Or.inr (Or.inl hro'))))
      simp only [Call.run, sys_ipc_try_send, hx, hgo, Bool.false_eq_true, if_false, if_pos hpage,
        if_neg hal, if_neg hbad, hds', hlook, if_pos hro]
    have hnro : ¬ ReadOnly k cur srcva perm := fun hr => hro ((readOnly_iff hpte).mpr hr).symm
    by_cases hzero : (k.envs x).env_ipc_dstva = 0
    · -- nothing is mapped at address 0
      have hrun : (Call.ipc_try_send envid value srcva perm).run k c cur =
          .ret 0 (deliver k cur x value perm) := by
        simp only [Call.run, sys_ipc_try_send, hx, hgo, Bool.false_eq_true, if_false, if_pos hpage,
          if_neg hal, if_neg hbad, hds', hlook, if_neg hro, if_neg (not_not.mpr hzero)]
      have hshares : Shares k (deliver k cur x value perm) cur x srcva (k.envs x).env_ipc_dstva
          perm ↔ Shares k k cur x srcva (k.envs x).env_ipc_dstva perm := by
        simp only [Shares, pageAt_eq, pte_deliver]
      have hperf : (Call.ipc_try_send envid value srcva perm).Performed k cur
          (deliver k cur x value perm) ↔
          appropriate perm = true ∧ Shares k k cur x srcva (k.envs x).env_ipc_dstva perm := by
        rw [sent_performed (m := k) hx hrecv rfl, Transferred, if_pos hpage, hshares]
        exact ⟨fun hh => ⟨hh.1 hpage, hh.2.1⟩, fun hh => ⟨fun _ => hh.1, hh.2, deliver_perm ..⟩⟩
      rw [reported_ret hrun, hperf]
      constructor
      · rintro (hh | hh)
        · exact Or.inr (Or.inr (Or.inr (Or.inr (Or.inr ⟨hh.1.1, Or.inr hh.1.2⟩))))
        · exact absurd hh.2.1 (by decide)
      · rintro (hh | hh | hh | hh | hh | hh)
        · exact absurd hh hbad
        · exact absurd hh hal
        · rw [hat] at hh; cases hh
        · exact absurd hh hnro
        · exact absurd hzero hh.1
        · exact Or.inl ⟨⟨hh.1, hh.2.resolve_left fun hne => hne hzero⟩, rfl⟩
    obtain ⟨d, hd⟩ := h.dir_of_named hlive hx
    have hd' : (k.envs x).env_pgdir = some d := hd
    rcases h.insert_answer hd hpage.2 hp perm with ⟨hlack, -, hins⟩ | ⟨hroom, pm, hins⟩
    · refine iff_of_true (reported_flaw (m := k) (r := -E_NO_MEM) ?_ hsame (by decide)
        (Or.inr ⟨x, hx, Or.inr (Or.inr ⟨rfl, hlack⟩)⟩))
        (Or.inr (Or.inr (Or.inr (Or.inr (Or.inl ⟨hzero, hlack⟩)))))
      simp only [Call.run, sys_ipc_try_send, hx, hgo, Bool.false_eq_true, if_false, if_pos hpage,
        if_neg hal, if_neg hbad, hds', hlook, if_neg hro, ne_eq, hzero, not_false_eq_true, if_true,
        insertIn, hd', hins, Kernel.withPm_self]
      rfl
    have hrun : (Call.ipc_try_send envid value srcva perm).run k c cur =
        .ret 0 (deliver (k.withPm pm) cur x value perm) := by
      simp only [Call.run, sys_ipc_try_send, hx, hgo, Bool.false_eq_true, if_false, if_pos hpage,
        if_neg hal, if_neg hbad, hds', hlook, if_neg hro, ne_eq, hzero, not_false_eq_true, if_true,
        insertIn, hd', hins]
      rfl
    by_cases happ : appropriate perm = true
    · refine iff_of_true ((reported_ret hrun).mpr (Or.inl ⟨?_, rfl⟩))
        (Or.inr (Or.inr (Or.inr (Or.inr (Or.inr ⟨happ, Or.inl hzero⟩)))))
      have hg : Grant k cur x srcva (k.envs x).env_ipc_dstva perm p 0 pm :=
        ⟨hpage.1, hpage.2, badPerm_of_appropriate happ,
          ⟨ds, pte, hds, hlook, fun hw h0 => hro ⟨hw, h0⟩⟩, d, hd, hins⟩
      rw [sent_performed (m := k.withPm pm) hx hrecv rfl, Transferred, if_pos hpage]
      refine ⟨fun _ => happ, ?_, deliver_perm ..⟩
      simpa only [Shares, pageAt_eq, pte_deliver] using h.grant_shares hg (appropriate_lt happ)
    · refine iff_of_false (not_reported hrun ?_ (by decide)) ?_
      · rw [sent_performed (m := k.withPm pm) hx hrecv rfl]
        exact fun hh => happ (hh.1 hpage)
      · rintro (hh | hh | hh | hh | hh | hh)
        · exact hbad hh
        · exact hal hh
        · rw [hat] at hh; cases hh
        · exact hnro hh
        · exact hroom hh.2
        · exact happ hh.1
  · -- one of the two has no page to send, or no place for it
    have hrun : (Call.ipc_try_send envid value srcva perm).run k c cur =
        .ret 0 (deliver k cur x value 0) := by
      simp only [Call.run, sys_ipc_try_send, hx, hgo, Bool.false_eq_true, if_false, if_neg hpage]
    refine iff_of_true ((reported_ret hrun).mpr (Or.inl ⟨?_, rfl⟩)) ?_
    · rw [sent_performed (m := k) hx hrecv rfl, Transferred, if_neg hpage, pte_deliver]
      exact ⟨fun hh => absurd hh hpage, fun _ _ _ => rfl, deliver_perm ..⟩
    · intro x' hx' _ hs hdst
      cases hx.symm.trans hx'
      exact absurd ⟨hs, hdst⟩ hpage

/-- A call answers as its comment says exactly if it is proper. -/
theorem Memory.reported_iff (h : Memory kept k) (hl : FreeListed k) (hcur : k.curenv c = some cur)
    (hst : k.status cur = .ENV_RUNNING) (hcall : call.documented = true) :
    call.Reported k c cur ↔ call.Proper k cur := by
  have hlive : k.status cur ≠ .ENV_FREE := by rw [hst]; decide
  cases call with
  | env_destroy => exact iff_of_true (env_destroy_reported h hcur hlive) trivial
  | page_alloc => exact page_alloc_reported h hlive
  | page_map => exact page_map_reported h hlive
  | page_unmap => exact iff_of_true (page_unmap_reported h hlive) trivial
  | exofork => exact iff_of_true (exofork_reported h hl hlive) trivial
  | env_set_status => exact env_set_status_reported _
  | env_set_pgfault_upcall => exact iff_of_true (env_set_pgfault_upcall_reported _) trivial
  | ipc_try_send => exact ipc_try_send_reported h hlive
  | ipc_recv => exact iff_of_true (ipc_recv_reported hst _) trivial
  | _ => cases hcall

end answers

/-! ## The stubs -/

/-- What the stub of `lib/syscall.c` makes of the answer of the kernel. -/
def lib_syscall (num : Nat) (check : Bool) (ret : Int) : Except String Int :=
  if check ∧ ret > 0 then .error s!"syscall {num} returned {ret} (> 0)" else .ok ret

/-- The calls whose stub checks the answer. `sys_exofork` has no stub. -/
def Call.checked : Call → Bool
  | .env_destroy .. | .page_alloc .. | .page_map .. | .page_unmap .. | .env_set_status ..
  | .env_set_trapframe .. | .env_set_pgfault_upcall .. | .ipc_recv .. => true
  | _ => false

/-! ## Runs -/

/-- In every run whose steps fit, a call answers as its comment says exactly if it
is proper, and its stub panics on every answer above 0. -/
theorem failures_are_reported {kept : Nat → Prop} {k₀ k : Kernel} {evs : List Event}
    (hboot : Bootable kept k₀) (hr : runFrom (env_init k₀) evs = some k)
    (hfits : Along Fits (env_init k₀) evs) {c : Nat} {cur : EnvIx} {tf : Trapframe} {cr2 : Word}
    {call : Call} (hcall : callOf k (.trap c tf cr2) = some (cur, call))
    (hdoc : call.documented = true) :
    (call.Reported (k.saved c cur tf) c cur ↔ call.Proper (k.saved c cur tf) cur) ∧
    ∀ num ret, call.checked = true → 0 < ret →
      lib_syscall num call.checked ret = .error s!"syscall {num} returned {ret} (> 0)" := by
  have h := sound_run hboot hr hfits
  obtain ⟨hcur, hlive⟩ : k.curenv c = some cur ∧ k.status cur ≠ .ENV_DYING := by
    simp only [callOf] at hcall
    split at hcall
    · rename_i x hx
      split at hcall
      · cases hcall
        exact ⟨hx, (‹_ ∧ _›).2⟩
      · cases hcall
    · cases hcall
  have hst : k.status cur = .ENV_RUNNING := by
    have hbusy := h.outside.busy_of_curenv hcur
    cases hs : k.status cur <;> simp_all [EnvStatus.busy]
  have hm : Memory kept (k.saved c cur tf) :=
    h.memory.congr rfl (Kernel.saved_dir ..) rfl fun e => by rw [Kernel.saved_status]
  have hl : FreeListed (k.saved c cur tf) :=
    h.listed.congr rfl (Kernel.saved_link ..) fun e => by rw [Kernel.saved_status]
  exact ⟨hm.reported_iff hl ((congrFun (Kernel.saved_curenv k c cur tf) c).trans hcur)
    ((congrFun (Kernel.saved_status k c cur tf) cur).trans hst) hdoc,
    fun num ret hcheck hpos => if_pos ⟨hcheck, hpos⟩⟩

/-- One environment runs. -/
def oneRuns : List Event := [.create onePage .ENV_TYPE_USER, .boot]

theorem oneRuns_fits : Along Fits sparse oneRuns :=
  along_fits (zeroKernel_bootable pages_64 (by decide)) (by decide +kernel)

/-- It asks for a page and is told that it has got one. -/
theorem failures_are_reported_alloc : ∃ k, runFrom sparse oneRuns = some k ∧
    callOf k (.trap 0 (sysTf SYS_page_alloc 0 0x1000000 7 0 0) 0) =
      some (0, .page_alloc 0 0x1000000 7) ∧
    (Call.page_alloc 0 0x1000000 7).Reported
      (k.saved 0 0 (sysTf SYS_page_alloc 0 0x1000000 7 0 0)) 0 0 := by
  have hrun : (runFrom sparse oneRuns).map (fun k => (k.pm.page_free_list.isSome,
      callOf k (.trap 0 (sysTf SYS_page_alloc 0 0x1000000 7 0 0) 0))) =
      some (true, some (0, .page_alloc 0 0x1000000 7)) := by decide +kernel
  obtain ⟨k, hr, hfacts⟩ := Option.map_eq_some_iff.mp hrun
  simp only [Prod.mk.injEq] at hfacts
  obtain ⟨hfree, hcall⟩ := hfacts
  refine ⟨k, hr, hcall, ((failures_are_reported (zeroKernel_bootable pages_64 (by decide)) hr
    oneRuns_fits hcall rfl).1).mpr ⟨by decide, by decide, by decide, ?_, Or.inl (by decide)⟩⟩
  rintro ⟨free, hc, hlen⟩
  obtain rfl : free = [] := List.length_eq_zero_iff.mp (by omega)
  have hc : k.pm.page_free_list = none := hc
  rw [hc] at hfree
  cases hfree

/-- An address above `UTOP` and a status that does not exist are answered with 3, on
which the stub panics, and permissions without `PTE_U` with 0: a page is mapped. -/
theorem errors_are_positive : ∃ k, runFrom sparse oneRuns = some k ∧ Along Fits sparse oneRuns ∧
    answerOf k (.trap 0 (sysTf SYS_page_alloc 0 0xF0000000 7 0 0) 0) =
      some (0, .page_alloc 0 0xF0000000 7, some E_INVAL) ∧
    answerOf k (.trap 0 (sysTf SYS_env_set_status 0 7 0 0 0) 0) =
      some (0, .env_set_status 0 7, some E_INVAL) ∧
    lib_syscall 4 (Call.page_alloc 0 0xF0000000 7).checked E_INVAL =
      .error "syscall 4 returned 3 (> 0)" ∧
    appropriate 1 = false ∧
    answerOf k (.trap 0 (sysTf SYS_page_alloc 0 0x1000000 1 0 0) 0) =
      some (0, .page_alloc 0 0x1000000 1, some 0) ∧
    answerOf k (.trap 0 (sysTf SYS_page_map 0 0x800000 0 0x1000000 1) 0) =
      some (0, .page_map 0 0x800000 0 0x1000000 1, some 0) := by
  have hrun : (runFrom sparse oneRuns).map (fun k =>
      [answerOf k (.trap 0 (sysTf SYS_page_alloc 0 0xF0000000 7 0 0) 0),
        answerOf k (.trap 0 (sysTf SYS_env_set_status 0 7 0 0 0) 0),
        answerOf k (.trap 0 (sysTf SYS_page_alloc 0 0x1000000 1 0 0) 0),
        answerOf k (.trap 0 (sysTf SYS_page_map 0 0x800000 0 0x1000000 1) 0)]) =
      some [some (0, .page_alloc 0 0xF0000000 7, some 3), some (0, .env_set_status 0 7, some 3),
        some (0, .page_alloc 0 0x1000000 1, some 0),
        some (0, .page_map 0 0x800000 0 0x1000000 1, some 0)] := by
    decide +kernel
  obtain ⟨k, hr, hfacts⟩ := Option.map_eq_some_iff.mp hrun
  simp only [List.cons.injEq, and_true] at hfacts
  obtain ⟨hva, hstatus, halloc, hmap⟩ := hfacts
  exact ⟨k, hr, oneRuns_fits, hva, hstatus, by decide, by decide, halloc, hmap⟩

end jos
