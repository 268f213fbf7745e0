-- Pages in messages. A receiver asks for a page with the address that it
-- gives to `sys_ipc_recv`. The kernel keeps that address in the slot, and
-- leaves the slot alone if the receiver asks for no page. So the sender may
-- find there what an earlier call has asked for.
import Jos.Ipc
import Jos.Mappings

namespace jos

/-! ## What the receivers ask for -/

/-- The kernel, with the address that each environment has last given to
`sys_ipc_recv` in order to wait. -/
structure Asking where
  k : Kernel
  asked : EnvIx → Word

def Asking.askedAfter (t : Asking) (ev : Event) : EnvIx → Word :=
  match answerOf t.k ev with
  | some (cur, .ipc_recv dstva, none) => Function.update t.asked cur dstva
  | _ => t.asked

def Asking.step (t : Asking) (ev : Event) : Option Asking :=
  (jos.step t.k ev).map fun k' => ⟨k', t.askedAfter ev⟩

/-- The slot of an environment that waits has the address that it asks for, if
that is below `UTOP`, and some other such address if it is not. -/
structure Answering (t : Asking) : Prop where
  outside : Outside t.k ∧ FreeListed t.k
  below : ∀ x, (t.k.envs x).env_ipc_dstva < UTOP
  asked : ∀ x, t.k.status x ≠ .ENV_FREE → (t.k.envs x).env_ipc_recving = true →
    t.asked x < UTOP → (t.k.envs x).env_ipc_dstva = t.asked x

section steps

variable {t : Asking} {k k' : Kernel} {ev : Event} {x : EnvIx}

/-- A step without a message leaves the address, and makes no environment wait. -/
theorem changes_asking (h : Outside k)
    (hno : ∀ cur call, callOf k ev = some (cur, call) → call.isIpc = false) {env : Env}
    (hch : Changes k k' ev x (k.envs x) env) :
    env.env_ipc_dstva = (k.envs x).env_ipc_dstva ∧
    (env.env_ipc_recving = true → (k.envs x).env_ipc_recving = true ∧
      (k.status x ≠ .ENV_FREE ∨ env.env_status = .ENV_FREE)) := by
  induction hch with
  | refl => exact ⟨rfl, fun hr => ⟨hr, (em _).symm⟩⟩
  | tail _ hch ih =>
    obtain ⟨hdst, hwait⟩ := ih
    cases hch with
    | create | fork => exact ⟨hdst, fun hr => by cases hr⟩
    | save htrap | upcall htrap | destroyed htrap | demote htrap =>
      exact ⟨hdst, fun hr => ⟨(hwait hr).1, Or.inl (h.live (trapOf_curenv htrap))⟩⟩
    | eax r hcall => exact ⟨hdst, fun hr => ⟨(hwait hr).1, Or.inl (h.live (callOf_curenv hcall))⟩⟩
    | receive hcall | deliver hcall => cases hno _ _ hcall
    | dying hcall he | freed hcall he | status hcall he | func hcall he | trapframe hcall he =>
      exact ⟨hdst, fun hr => ⟨(hwait hr).1, Or.inl (h.found hcall he)⟩⟩
    | run hon hmode hready =>
      refine ⟨hdst, fun hr => ⟨(hwait hr).1, Or.inl ?_⟩⟩
      refine (hwait hr).2.resolve_right fun hf => ?_
      rcases hready with hr | hr <;> rw [hf] at hr <;> cases hr

theorem askedAfter_other
    (hno : ∀ dstva cur, answerOf t.k ev ≠ some (cur, .ipc_recv dstva, none)) :
    t.askedAfter ev = t.asked := by
  unfold Asking.askedAfter
  split
  · rename_i hans
    exact absurd hans (hno _ _)
  · rfl

/-- The slots are in order when the CPU leaves the kernel. -/
theorem Answering.leave {c : Nat} {asked : EnvIx → Word} (hout : Outside k' ∧ FreeListed k')
    (hleave : Leaves k c k') (hbelow : ∀ x, (k.envs x).env_ipc_dstva < UTOP)
    (hasked : ∀ x, k.status x ≠ .ENV_FREE → (k.envs x).env_ipc_recving = true → asked x < UTOP →
      (k.envs x).env_ipc_dstva = asked x) : Answering ⟨k', asked⟩ := by
  have hsame : ∀ x, (k'.envs x).env_ipc_dstva = (k.envs x).env_ipc_dstva ∧
      (k'.envs x).env_ipc_recving = (k.envs x).env_ipc_recving := by
    intro x
    obtain ⟨⟨runs, cpunum, henv⟩, -⟩ := leaves_env hleave x
    rw [henv]
    exact ⟨rfl, rfl⟩
  refine ⟨hout, fun x => ?_, fun x hl hr hlt => ?_⟩
  · show (k'.envs x).env_ipc_dstva < UTOP
    rw [(hsame x).1]
    exact hbelow x
  · have hl : k.status x ≠ .ENV_FREE := fun hf => hl ((leaves_free hleave x).mpr hf)
    have hr : (k'.envs x).env_ipc_recving = true := hr
    rw [(hsame x).2] at hr
    exact (hsame x).1.trans (hasked x hl hr hlt)

theorem answering_step {t' : Asking} (h : Answering t) (hc : Careful t.k ev)
    (hs : t.step ev = some t') : Answering t' := by
  obtain ⟨k', hstep, rfl⟩ := Option.map_eq_some_iff.mp hs
  have hout := outside_step h.outside hc (step_cases hstep)
  cases ipc_step h.outside.1 hstep with
  | other hno hs =>
    have hasked : t.askedAfter ev = t.asked :=
      askedAfter_other fun dstva cur hans => by cases hno _ _ (callOf_answerOf hans)
    rw [hasked]
    refine ⟨hout, fun x => ?_, fun x hl hr hlt => ?_⟩
    · show (k'.envs x).env_ipc_dstva < UTOP
      rw [(changes_asking h.outside.1 hno (step_changes h.outside hs x)).1]
      exact h.below x
    · obtain ⟨hdst, hwait⟩ := changes_asking h.outside.1 hno (step_changes h.outside hs x)
      obtain ⟨hrecv, hlive⟩ := hwait hr
      exact hdst.trans (h.asked x (hlive.resolve_right hl) hrecv hlt)
  | @refused c tf cr2 cur call r k' hcall hret hr hleave =>
    have hans := answerOf_eq hcall
    rw [hret] at hans
    rw [askedAfter_other fun dstva cur he => by cases hans.symm.trans he]
    refine Answering.leave hout hleave (fun x => ?_) fun x hl hr hlt => ?_
    · have hdst : ((setEax (t.k.saved c cur tf) cur r).envs x).env_ipc_dstva =
          (t.k.envs x).env_ipc_dstva := by
        by_cases hx : x = cur <;> simp [setEax, hx]
      rw [hdst]
      exact h.below x
    · by_cases hx : x = cur
      · subst hx
        have hl := h.outside.1.live (callOf_curenv hcall)
        simpa [setEax] using h.asked x hl (by simpa [setEax] using hr) hlt
      · have henv : (setEax (t.k.saved c cur tf) cur r).envs x = t.k.envs x := by simp [setEax, hx]
        rw [Kernel.status, henv] at hl
        rw [henv] at hr ⊢
        exact h.asked x hl hr hlt
  | @receive c tf cr2 dstva cur k' hcall hleft hrun hleave =>
    have hans := answerOf_eq hcall
    rw [hleft] at hans
    have hasked : t.askedAfter (.trap c tf cr2) = Function.update t.asked cur dstva := by
      simp only [Asking.askedAfter, hans]
    rw [hasked]
    refine Answering.leave hout hleave (fun x => ?_) fun x hl hr hlt => ?_
    · by_cases hx : x = cur
      · subst hx
        simp only [Kernel.receive, Kernel.setEnv_envs, Function.update_self]
        split
        · assumption
        · simpa using h.below x
      · simpa [Kernel.receive, hx] using h.below x
    · by_cases hx : x = cur
      · subst hx
        rw [Function.update_self] at hlt ⊢
        simp [Kernel.receive, hlt]
      · have henv : ((t.k.saved c cur tf).receive cur dstva).envs x = t.k.envs x := by
          simp [Kernel.receive, hx]
        rw [Function.update_of_ne hx] at hlt ⊢
        rw [Kernel.status, henv] at hl
        rw [henv] at hr ⊢
        exact h.asked x hl hr hlt
  | @send c tf cr2 envid value srcva perm cur target k₁ k' hcall hret he hrecv hsent hleave hon =>
    have hans := answerOf_eq hcall
    rw [hret] at hans
    rw [askedAfter_other fun dstva cur he => by cases hans.symm.trans he]
    obtain ⟨perm', henvs⟩ := hsent.envs
    have hdst : ∀ x, ((setEax k₁ cur 0).envs x).env_ipc_dstva = (t.k.envs x).env_ipc_dstva := by
      intro x
      by_cases hx : x = cur <;> by_cases hx' : x = target <;> simp_all [setEax]
    refine Answering.leave hout hleave (fun x => by rw [hdst]; exact h.below x) fun x hl hr hlt => ?_
    rw [hdst]
    by_cases hx : x = cur
    · subst hx
      refine h.asked x (h.outside.1.live (callOf_curenv hcall)) ?_ hlt
      by_cases hx' : x = target <;> simp_all [setEax]
    · by_cases hx' : x = target
      · subst hx'
        simp [setEax, henvs, hx] at hr
      · have henv : (setEax k₁ cur 0).envs x = t.k.envs x := by simp [setEax, henvs, hx, hx']
        rw [Kernel.status, henv] at hl
        rw [henv] at hr
        exact h.asked x hl hr hlt

end steps

/-! ## What a send does -/

/-- In `k'` environment `x` has at `dstva` the page that `cur` has at `srcva` in `k`,
with the permissions `perm`. -/
def Shares (k k' : Kernel) (cur x : EnvIx) (srcva dstva perm : Word) : Prop :=
  ∃ p, k.pageAt cur srcva = some p ∧ k'.pageAt x dstva = some p ∧
    permOf (k'.pte x (PDX dstva) (PTX dstva)) = perm ||| PTE_P

/-- The send to `x` that has led from `k` to `k'` has passed a page on if both sides
asked for it, and otherwise has left the address space of `x` alone. -/
def Transferred (k k' : Kernel) (cur x : EnvIx) (srcva asked perm : Word) : Prop :=
  if srcva < UTOP ∧ asked < UTOP then
    Shares k k' cur x srcva asked perm ∧ (k'.envs x).env_ipc_perm = perm
  else (∀ i j, i < NPDU → k'.pte x i j = k.pte x i j) ∧ (k'.envs x).env_ipc_perm = 0

section send

variable {kept : Nat → Prop} {k k' : Kernel} {cur x : EnvIx} {value srcva dstva perm : Word}

theorem Shares.perm_lt (h : Shares k k' cur x srcva dstva perm) : perm < 0x1000 := by
  obtain ⟨p, -, -, hperm⟩ := h
  have hlt : (permOf (k'.pte x (PDX dstva) (PTX dstva))).toNat < 4096 := by
    rw [permOf_toNat]
    exact Nat.mod_lt _ (by decide)
  rw [hperm, BitVec.toNat_or] at hlt
  exact Nat.lt_of_le_of_lt Nat.left_le_or hlt

theorem perm_ne_zero (h : badPerm perm = false) : perm ≠ 0 := by
  rintro rfl
  cases h

theorem pte_deliver (k : Kernel) (cur target : EnvIx) (value perm : Word) :
    (deliver k cur target value perm).pte = k.pte := by
  funext e i j
  unfold Kernel.pte
  rw [deliver_dir]
  rfl

theorem deliver_perm (k : Kernel) (cur target : EnvIx) (value perm : Word) :
    ((deliver k cur target value perm).envs target).env_ipc_perm = perm := by
  simp [deliver]

/-- A page that both sides asked for arrives. -/
theorem Memory.grant_shares {p : Nat} {pm : Phys} (h : Memory kept k)
    (hg : Grant k cur x srcva dstva perm p 0 pm) (hperm : perm < 0x1000) :
    Shares k (k.withPm pm) cur x srcva dstva perm := by
  have hpage := h.grant_pageAt hg
  rcases h.grant_entry hg hperm with ⟨hr, -⟩ | ⟨-, d, hd, hset⟩
  · exact absurd hr (by decide)
  · have hsets := h.setsPte hd hset.pteAt
    have hi := PDX_lt_NPDU hg.dstva_lt
    have hpte := hsets x (PDX dstva) (PTX dstva) hi
    rw [if_pos ⟨rfl, rfl, rfl⟩] at hpte
    have hp : p < 2 ^ 20 := by
      rw [pageAt_eq] at hpage
      exact pageOf_lt hpage
    refine ⟨p, hpage, ?_, ?_⟩
    · rw [pageAt_eq, hpte]
      exact pageOf_pteFor hp (lt_page hperm)
    · rw [hpte]
      exact permOf_pteFor hp (lt_page hperm)

/-- A send does what was asked for if no page was sent, or if one was and the
receiver has asked for it, at an address other than 0 unless it is there
already, and with permissions below `0x1000`. -/
theorem Sent.transferred_iff {asked : Word} (h : Memory kept k)
    (hsent : Sent k cur x value srcva perm k') (hbelow : (k.envs x).env_ipc_dstva < UTOP)
    (hasked : asked < UTOP → (k.envs x).env_ipc_dstva = asked) :
    Transferred k k' cur x srcva asked perm ↔
      ¬ srcva < UTOP ∨ (asked < UTOP ∧ perm < 0x1000 ∧
        (asked ≠ 0 ∨ Shares k k cur x srcva asked perm)) := by
  unfold Transferred
  cases hsent with
  | plain hno =>
    have hsrc : ¬ srcva < UTOP := fun hs => hno ⟨hs, hbelow⟩
    rw [if_neg fun hx => hsrc hx.1, pte_deliver, deliver_perm]
    exact ⟨fun _ => Or.inl hsrc, fun _ => ⟨fun _ _ _ => rfl, rfl⟩⟩
  | nowhere hsrc hperm hdst =>
    rw [deliver_perm]
    by_cases ha : asked < UTOP
    · have h0 : asked = 0 := (hasked ha).symm.trans hdst
      have hsame : Shares k (deliver k cur x value perm) cur x srcva asked perm ↔
          Shares k k cur x srcva asked perm := by
        simp only [Shares, pageAt_eq, pte_deliver]
      rw [if_pos ⟨hsrc, ha⟩, hsame]
      constructor
      · rintro ⟨hshare, -⟩
        exact Or.inr ⟨ha, hshare.perm_lt, Or.inr hshare⟩
      · rintro (hno | ⟨-, -, hne | hshare⟩)
        · exact absurd hsrc hno
        · exact absurd h0 hne
        · exact ⟨hshare, rfl⟩
    · rw [if_neg fun hx => ha hx.2]
      constructor
      · exact fun hx => absurd hx.2 (perm_ne_zero hperm)
      · rintro (hno | hx)
        · exact absurd hsrc hno
        · exact absurd hx.1 ha
  | @page p pm hg hdst =>
    rw [deliver_perm]
    by_cases ha : asked < UTOP
    · have haddr := hasked ha
      have hsame : Shares k (deliver (k.withPm pm) cur x value perm) cur x srcva asked perm ↔
          Shares k (k.withPm pm) cur x srcva asked perm := by
        simp only [Shares, pageAt_eq, pte_deliver]
      rw [if_pos ⟨hg.srcva_lt, ha⟩, hsame]
      constructor
      · rintro ⟨hshare, -⟩
        exact Or.inr ⟨ha, hshare.perm_lt, Or.inl (haddr ▸ hdst)⟩
      · rintro (hno | ⟨-, hperm, -⟩)
        · exact absurd hg.srcva_lt hno
        · rw [← haddr]
          exact ⟨h.grant_shares hg hperm, rfl⟩
    · rw [if_neg fun hx => ha hx.2]
      constructor
      · exact fun hx => absurd hx.2 (perm_ne_zero hg.perm_ok)
      · rintro (hno | hx)
        · exact absurd hg.srcva_lt hno
        · exact absurd hx.1 ha

end send

/-! ## Runs -/

/-- The start. The memory of `envs` is cleared. -/
def Asking.start (k : Kernel) : Asking := ⟨k, fun _ => 0⟩

theorem Sound.asking {kept : Nat → Prop} {k : Kernel} (h : Sound kept k)
    (hzero : ∀ x, (k.envs x).env_ipc_dstva = 0) :
    Sound kept (Asking.start k).k ∧ Answering (.start k) := by
  refine ⟨h, ⟨h.outside, h.listed⟩, fun x => ?_, fun x _ _ _ => hzero x⟩
  show (k.envs x).env_ipc_dstva < UTOP
  rw [hzero x]
  decide

theorem env_init_dstva (k : Kernel) (x : EnvIx) :
    ((env_init k).envs x).env_ipc_dstva = (k.envs x).env_ipc_dstva := by
  have hset : ∀ {k : Kernel} {e : EnvIx} {f : Env → Env}, (∀ env, (f env).env_ipc_dstva =
      env.env_ipc_dstva) → ((k.setEnv e f).envs x).env_ipc_dstva = (k.envs x).env_ipc_dstva := by
    intro k e f hf
    by_cases hx : x = e
    · subst hx
      simp [hf]
    · simp [hx]
  have hslots : ∀ n, ((env_init_slots n k).envs x).env_ipc_dstva = (k.envs x).env_ipc_dstva := by
    intro n
    induction n with
    | zero => rfl
    | succ n ih =>
      simp only [env_init_slots, env_init_slot]
      generalize env_init_slots n k = k₁ at ih ⊢
      have hclear : ((k₁.setEnv (envAt n) fun env =>
          { env with env_id := 0, env_link := none }).envs x).env_ipc_dstva =
          (k₁.envs x).env_ipc_dstva := hset fun _ => rfl
      split
      · exact hclear.trans ih
      · refine (hset fun env => ?_).trans (hclear.trans ih)
        rfl
  rw [env_init]
  exact hslots NENV

/-- After every run whose calls fit, a send that succeeds has passed a page on
exactly as both sides asked if no page was sent, or the receiver has asked
for one, at an address other than 0 (or where it already is), and the
permissions are below `0x1000`. -/
theorem pages_are_transferred_as_asked {kept : Nat → Prop} {k₀ : Kernel} {t : Asking}
    {evs : List Event} {c : Nat} {tf : Trapframe} {cr2 envid value srcva perm : Word}
    {cur x : EnvIx} {k' : Kernel} (hboot : Bootable kept k₀)
    (hzero : ∀ e, (k₀.envs e).env_ipc_dstva = 0)
    (hr : runs.runFrom Asking.step (.start (env_init k₀)) evs = some t)
    (hfits : runs.Along Asking.step (fun t ev => Fits t.k ev) (.start (env_init k₀)) evs)
    (hcall : callOf t.k (.trap c tf cr2) = some (cur, .ipc_try_send envid value srcva perm))
    (hret : (Call.ipc_try_send envid value srcva perm).run (t.k.saved c cur tf) c cur = .ret 0 k')
    (hx : envid2env t.k cur envid false = .ok x) :
    Transferred t.k k' cur x srcva (t.asked x) perm ↔
      ¬ srcva < UTOP ∨ (t.asked x < UTOP ∧ perm < 0x1000 ∧
        (t.asked x ≠ 0 ∨ Shares t.k t.k cur x srcva (t.asked x) perm)) := by
  obtain ⟨hsound, hans⟩ : Sound kept t.k ∧ Answering t := by
    refine runs.runFrom_keeps (I := fun t => Sound kept t.k ∧ Answering t) (fun t ev t' h hf hs => ?_)
      (hboot.sound.asking fun x => ?_) hr hfits
    · refine ⟨?_, answering_step h.2 hf.1 hs⟩
      obtain ⟨k', hstep, rfl⟩ := Option.map_eq_some_iff.mp hs
      exact sound_step h.1 hf (step_cases hstep)
    · rw [env_init_dstva, hzero]
  have hmem : Memory kept (t.k.saved c cur tf) :=
    hsound.memory.congr rfl (Kernel.saved_dir ..) rfl fun e => by rw [Kernel.saved_status]
  have hholds : ((Call.ipc_try_send envid value srcva perm).run (t.k.saved c cur tf) c
    cur).Holds _ _ _ := sys_ipc_try_send_holds envid value srcva perm
  rw [hret] at hholds
  rcases hholds with ⟨hneg, -⟩ | ⟨-, target, he, hrecv, hsent⟩
  · exact absurd hneg (by decide)
  · rw [envid2env_saved] at he
    cases hx.symm.trans he
    -- the frame of the sender is all that has changed so far
    have hslot : ((t.k.saved c cur tf).envs x).env_ipc_dstva = (t.k.envs x).env_ipc_dstva ∧
        ((t.k.saved c cur tf).envs x).env_ipc_recving = (t.k.envs x).env_ipc_recving := by
      by_cases hx : x = cur <;> simp [hx]
    have hpte : (t.k.saved c cur tf).pte = t.k.pte := by
      funext e i j
      unfold Kernel.pte
      rw [Kernel.saved_dir, Kernel.saved_pm]
    have hpage : (t.k.saved c cur tf).pageAt = t.k.pageAt := by
      funext e va
      rw [pageAt_eq, pageAt_eq, hpte]
    rw [hslot.2] at hrecv
    have hiff : Transferred (t.k.saved c cur tf) k' cur x srcva (t.asked x) perm ↔ _ :=
      hsent.transferred_iff hmem (by rw [hslot.1]; exact hans.below x) fun hlt => by
        rw [hslot.1]
        exact hans.asked x (hsound.outside.found hcall hx) hrecv hlt
    simpa only [Transferred, Shares, hpage, hpte] using hiff

/-- Environment 0 makes environments 1 and 2, gives the first of them a page at
0x1000000, and waits for a page at 0xA00000. -/
def askOnce : List Event :=
  [.create onePage .ENV_TYPE_USER, .boot, .trap 0 (sysTf SYS_exofork 0 0 0 0 0) 0,
    .trap 0 (sysTf SYS_exofork 0 0 0 0 0) 0,
    .trap 0 (sysTf SYS_page_alloc 0x1001 0x1000000 7 0 0) 0,
    .trap 0 (sysTf SYS_env_set_status 0x1001 2 0 0 0) 0,
    .trap 0 (sysTf SYS_env_set_status 0x1002 2 0 0 0) 0,
    .trap 0 (sysTf SYS_ipc_recv 0xA00000 0 0 0 0) 0]

/-- A machine of 64 pages and two CPUs, before its first environment. -/
def unasked : Asking := .start (env_init (zeroKernel 64 pages_64 2))

/-- It is enough to look at the counts. -/
theorem Sound.asking_fits {kept : Nat → Prop} {k : Kernel} {evs : List Event} (h : Sound kept k)
    (hnow : runs.Along Asking.step (fun t ev => fitsNow t.k ev = true) (.start k) evs) :
    runs.Along Asking.step (fun t ev => Fits t.k ev) (.start k) evs := by
  refine runs.Along.imp (I := fun t : Asking => Sound kept t.k)
    (fun t ev h hev => h.memory.fits_of_now hev) (fun t ev t' h hf hs => ?_) h hnow
  obtain ⟨k', hstep, rfl⟩ := Option.map_eq_some_iff.mp hs
  exact sound_step h hf (step_cases hstep)

/-- The page at 0x1000000 of environment 1 arrives at 0xA00000 of environment 0. -/
theorem pages_are_transferred_as_asked_once : ∃ t k',
    runs.runFrom Asking.step unasked askOnce = some t ∧
    (Call.ipc_try_send 0x1000 5 0x1000000 7).run
      (t.k.saved 0 1 (sysTf SYS_ipc_try_send 0x1000 5 0x1000000 7 0)) 0 1 = .ret 0 k' ∧
    Transferred t.k k' 1 0 0x1000000 0xA00000 7 := by
  have hrun : (runs.runFrom Asking.step unasked askOnce).map (fun t =>
      (callOf t.k (.trap 0 (sysTf SYS_ipc_try_send 0x1000 5 0x1000000 7 0) 0),
        (envid2env t.k 1 0x1000 false).toOption, t.asked 0,
        ((Call.ipc_try_send 0x1000 5 0x1000000 7).run
          (t.k.saved 0 1 (sysTf SYS_ipc_try_send 0x1000 5 0x1000000 7 0)) 0 1).result?)) =
      some (some (1, .ipc_try_send 0x1000 5 0x1000000 7), some 0, 0xA00000, some 0) := by
    decide +kernel
  have hnow : runs.Along Asking.step (fun t ev => fitsNow t.k ev = true) unasked askOnce := by
    decide +kernel
  obtain ⟨t, hr, hfacts⟩ := Option.map_eq_some_iff.mp hrun
  simp only [Prod.mk.injEq] at hfacts
  obtain ⟨hcall, hx, hasked, hret⟩ := hfacts
  have hx : envid2env t.k 1 0x1000 false = .ok 0 := by
    rcases he : envid2env t.k 1 0x1000 false with _ | e
    · rw [he] at hx; cases hx
    · rw [he] at hx; cases hx; rfl
  have hboot := @zeroKernel_bootable 64 2 (by decide) (by decide)
  obtain ⟨k', hsend⟩ := outcome.Outcome.result?_eq_some hret
  refine ⟨t, k', hr, hsend, ?_⟩
  rw [← hasked]
  exact (pages_are_transferred_as_asked hboot (fun _ => rfl) hr (hboot.sound.asking_fits hnow)
    hcall hsend hx).mpr (Or.inr ⟨by rw [hasked]; decide, by decide,
      Or.inl (by rw [hasked]; decide)⟩)

/-- Environment 1 sends a message without a page. Environment 0 goes on, on CPU 1,
and waits again, without asking for a page. Environment 1 sends its page:
it is mapped at 0xA00000, and environment 0 is told that there is one. -/
theorem page_arrives_unasked : ∃ t t',
    runs.runFrom Asking.step unasked (askOnce ++
      [.trap 0 (sysTf SYS_ipc_try_send 0x1000 1 UTOP 0 0) 0, .start 1,
        .trap 1 (sysTf SYS_ipc_recv UTOP 0 0 0 0) 0]) = some t ∧
    t.step (.trap 0 (sysTf SYS_ipc_try_send 0x1000 2 0x1000000 7 0) 0) = some t' ∧
    t.asked 0 = UTOP ∧ t.k.pageAt 0 0xA00000 = none ∧ t'.k.pageAt 0 0xA00000 = some 9 ∧
    (t'.k.envs 0).env_ipc_perm = 7 ∧ (t'.k.envs 1).env_tf.tf_regs.reg_eax = 0 := by
  have hrun : ((runs.runFrom Asking.step unasked (askOnce ++
      [.trap 0 (sysTf SYS_ipc_try_send 0x1000 1 UTOP 0 0) 0, .start 1,
        .trap 1 (sysTf SYS_ipc_recv UTOP 0 0 0 0) 0])).bind fun t =>
      (t.step (.trap 0 (sysTf SYS_ipc_try_send 0x1000 2 0x1000000 7 0) 0)).map fun t' =>
        (t.asked 0, t.k.pageAt 0 0xA00000, t'.k.pageAt 0 0xA00000,
          (t'.k.envs 0).env_ipc_perm, (t'.k.envs 1).env_tf.tf_regs.reg_eax)) =
      some (UTOP, none, some 9, 7, 0) := by decide +kernel
  obtain ⟨t, hr, hnext⟩ := Option.bind_eq_some_iff.mp hrun
  obtain ⟨t', hs, hfacts⟩ := Option.map_eq_some_iff.mp hnext
  simp only [Prod.mk.injEq] at hfacts
  exact ⟨t, t', hr, hs, hfacts⟩

end jos
