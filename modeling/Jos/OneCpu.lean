-- Where an environment runs. Traps on the CPUs come in any order, one at a
-- time, and an environment is on one CPU at most and is not freed there.
-- Three system calls break this when they are aimed at an environment that
-- is running on another CPU.
import Jos.Traps

namespace jos

open linked_list (Chain)

/-! ## The invariant -/

/-- On a CPU: running, or destroyed while it was. -/
def EnvStatus.busy : EnvStatus → Bool
  | .ENV_RUNNING => true
  | .ENV_DYING => true
  | _ => false

/-- The mode of CPU `c`. -/
def Kernel.mode (k : Kernel) (c : Nat) : Mode := (k.cpus c).mode

/-- No CPU is in the kernel: each environment is on one CPU at most, and the
busy ones are those of the CPUs in user mode. -/
structure Outside (k : Kernel) : Prop where
  one : ∀ c c' e, k.curenv c = some e → k.curenv c' = some e → c = c'
  user : ∀ c, k.mode c = .user → ∃ e, k.curenv c = some e ∧ (k.status e).busy = true
  other : ∀ c, k.mode c ≠ .user → k.curenv c = none
  busy : ∀ e, (k.status e).busy = true → ∃ c, k.mode c = .user ∧ k.curenv c = some e

/-- CPU `c` is in the kernel: the same for the other CPUs, and `c` may have an
environment of any status that is not on one of them. -/
structure Inside (k : Kernel) (c : Nat) : Prop where
  one : ∀ c c' e, k.curenv c = some e → k.curenv c' = some e → c = c'
  user : ∀ c' ≠ c, k.mode c' = .user → ∃ e, k.curenv c' = some e ∧ (k.status e).busy = true
  other : ∀ c' ≠ c, k.mode c' ≠ .user → k.curenv c' = none
  busy : ∀ e, (k.status e).busy = true →
    k.curenv c = some e ∨ ∃ c' ≠ c, k.mode c' = .user ∧ k.curenv c' = some e

section modes

variable (k : Kernel) (c : Nat) (e : EnvIx) (pgdir : Nat)

theorem setCurenv_curenv (o : Option EnvIx) :
    (k.setCurenv c o).curenv = Function.update k.curenv c o := by
  funext x; by_cases h : x = c <;> simp [Kernel.curenv, Kernel.setCurenv, h]

theorem setCurenv_mode (o : Option EnvIx) : (k.setCurenv c o).mode = k.mode := by
  funext x; by_cases h : x = c <;> simp [Kernel.mode, Kernel.setCurenv, h]

theorem release_mode (pm : Phys) : (k.release c e pm).mode = k.mode := by
  funext x
  simp only [Kernel.mode, Kernel.release_cpus]
  by_cases hc : k.curenv c = some e <;> by_cases hx : x = c <;> simp [hc, hx]

theorem switch_curenv : (k.switch c e pgdir).curenv = Function.update k.curenv c (some e) := by
  funext x; by_cases h : x = c <;> simp [Kernel.curenv, h]

theorem switch_mode : (k.switch c e pgdir).mode = Function.update k.mode c .user := by
  funext x; by_cases h : x = c <;> simp [Kernel.mode, h]

theorem halt_curenv : (k.halt c).curenv = Function.update k.curenv c none := by
  funext x; by_cases h : x = c <;> simp [Kernel.curenv, Kernel.halt, h]

theorem halt_mode : (k.halt c).mode = Function.update k.mode c .halted := by
  funext x; by_cases h : x = c <;> simp [Kernel.mode, Kernel.halt, h]

end modes

section inside

variable {k k' : Kernel} {c : Nat} {e cur : EnvIx} {st : EnvStatus}

theorem Outside.congr (h : Outside k) (hcur : k'.curenv = k.curenv) (hmode : k'.mode = k.mode)
    (hst : ∀ e, (k'.status e).busy = (k.status e).busy) : Outside k' := by
  refine ⟨?_, ?_, ?_, ?_⟩
  · rw [hcur]; exact h.one
  · simpa only [hcur, hmode, hst] using h.user
  · simpa only [hcur, hmode] using h.other
  · simpa only [hcur, hmode, hst] using h.busy

theorem Inside.congr (h : Inside k c) (hcur : k'.curenv = k.curenv) (hmode : k'.mode = k.mode)
    (hst : ∀ e, (k'.status e).busy = (k.status e).busy) : Inside k' c := by
  refine ⟨?_, ?_, ?_, ?_⟩
  · rw [hcur]; exact h.one
  · simpa only [hcur, hmode, hst] using h.user
  · simpa only [hcur, hmode] using h.other
  · simpa only [hcur, hmode, hst] using h.busy

theorem Outside.enter (h : Outside k) (c : Nat) : Inside k c where
  one := h.one
  user c' _ := h.user c'
  other c' _ := h.other c'
  busy e he := by
    obtain ⟨c', hmode, hcur⟩ := h.busy e he
    by_cases hc : c' = c
    · exact Or.inl (hc ▸ hcur)
    · exact Or.inr ⟨c', hc, hmode, hcur⟩

/-- An environment that is on no other CPU gets a status of one that is on none. -/
theorem Inside.rest (h : Inside k c) (he : k.curenv c = some e ∨ (k.status e).busy = false)
    (hst : st.busy = false) (hcur : k'.curenv = k.curenv) (hmode : k'.mode = k.mode)
    (hstatus : k'.status = Function.update k.status e st) : Inside k' c := by
  -- no other CPU has it
  have hother : ∀ c' ≠ c, ∀ x, k.curenv c' = some x → (k.status x).busy = true → x ≠ e := by
    rintro c' hc' x hx hbusy rfl
    rcases he with he | he
    · exact hc' (h.one c' c x hx he)
    · rw [he] at hbusy; cases hbusy
  refine ⟨?_, ?_, ?_, ?_⟩
  · rw [hcur]; exact h.one
  · intro c' hc' hm
    obtain ⟨x, hx, hbusy⟩ := h.user c' hc' (hmode ▸ hm)
    refine ⟨x, hcur ▸ hx, ?_⟩
    rw [hstatus, Function.update_of_ne (hother c' hc' x hx hbusy)]
    exact hbusy
  · simpa only [hcur, hmode] using h.other
  · intro x hx
    rw [hstatus, Function.update_apply] at hx
    split at hx
    · rw [hst] at hx; cases hx
    · rw [hcur, hmode]; exact h.busy x hx

/-- The CPU gives up an environment that is no longer busy. -/
theorem Inside.giveUp (h : Inside k c) (hidle : ∀ e, k.curenv c = some e → (k.status e).busy = false)
    (hcur : k'.curenv = Function.update k.curenv c none) (hmode : k'.mode = k.mode)
    (hstatus : k'.status = k.status) : Inside k' c := by
  have hne : ∀ c' ≠ c, k'.curenv c' = k.curenv c' := fun c' hc' => by
    rw [hcur, Function.update_of_ne hc']
  have hnone : k'.curenv c = none := by rw [hcur, Function.update_self]
  refine ⟨?_, ?_, ?_, ?_⟩
  · intro c₁ c₂ e h₁ h₂
    by_cases hc₁ : c₁ = c
    · rw [hc₁, hnone] at h₁; cases h₁
    · by_cases hc₂ : c₂ = c
      · rw [hc₂, hnone] at h₂; cases h₂
      · exact h.one c₁ c₂ e (hne c₁ hc₁ ▸ h₁) (hne c₂ hc₂ ▸ h₂)
  · intro c' hc' hm
    rw [hne c' hc', hstatus]
    exact h.user c' hc' (hmode ▸ hm)
  · intro c' hc' hm
    rw [hne c' hc']
    exact h.other c' hc' (hmode ▸ hm)
  · intro e he
    rw [hstatus] at he
    rcases h.busy e he with hc | ⟨c', hc', hm, hx⟩
    · rw [hidle e hc] at he; cases he
    · exact Or.inr ⟨c', hc', by rw [hmode]; exact hm, by rw [hne c' hc']; exact hx⟩

/-- A CPU without an environment leaves the kernel for `hlt`. -/
theorem Inside.sleep (h : Inside k c) (hnone : k.curenv c = none) (hcur : k'.curenv = k.curenv)
    (hmode : k'.mode = Function.update k.mode c .halted) (hstatus : k'.status = k.status) :
    Outside k' := by
  have hne : ∀ c', k'.mode c' = .user → c' ≠ c ∧ k.mode c' = .user := by
    intro c' hm
    rw [hmode, Function.update_apply] at hm
    split at hm
    · cases hm
    · exact ⟨‹_›, hm⟩
  refine ⟨?_, ?_, ?_, ?_⟩
  · rw [hcur]; exact h.one
  · intro c' hm
    rw [hcur, hstatus]
    exact h.user c' (hne c' hm).1 (hne c' hm).2
  · intro c' hm
    rw [hcur]
    by_cases hc' : c' = c
    · rw [hc']; exact hnone
    · rw [hmode, Function.update_of_ne hc'] at hm
      exact h.other c' hc' hm
  · intro e he
    rw [hstatus] at he
    rcases h.busy e he with hc | ⟨c', hc', hm, hx⟩
    · rw [hnone] at hc; cases hc
    · exact ⟨c', by rw [hmode, Function.update_of_ne hc']; exact hm, by rw [hcur]; exact hx⟩

/-- The CPU leaves the kernel. It cannot leave an environment behind that is
dying, and one that was running becomes runnable. -/
theorem Inside.leave (h : Inside k c) (hown : ∀ e, k.curenv c = some e → k.status e ≠ .ENV_DYING)
    (hleave : Leaves k c k') : Outside k' := by
  cases hleave with
  | @run e pgdir hlock hdir hready hload =>
    -- no other CPU has `e`
    have hfree : ∀ c' ≠ c, k.curenv c' ≠ some e := by
      intro c' hc' hx
      rcases hready with hst | ⟨hc, -⟩
      · by_cases hm : k.mode c' = .user
        · obtain ⟨x, hx', hbusy⟩ := h.user c' hc' hm
          cases hx.symm.trans hx'
          rw [hst] at hbusy
          cases hbusy
        · rw [h.other c' hc' hm] at hx; cases hx
      · exact hc' (h.one c' c e hx hc)
    -- who is busy elsewhere stays so
    have hkeep : ∀ c' ≠ c, ∀ x, k.curenv c' = some x → (k.switch c e pgdir).status x = k.status x := by
      intro c' hc' x hx
      have hxe : x ≠ e := fun he => hfree c' hc' (he ▸ hx)
      rw [Kernel.switch_status, Function.update_of_ne hxe, Kernel.demote_status, if_neg]
      exact fun hd => hc' (h.one c' c x hx hd.1)
    refine ⟨?_, ?_, ?_, ?_⟩
    · intro c₁ c₂ x h₁ h₂
      by_cases hc₁ : c₁ = c <;> by_cases hc₂ : c₂ = c
      · rw [hc₁, hc₂]
      · simp [switch_curenv, hc₁] at h₁
        simp [switch_curenv, hc₂] at h₂
        exact absurd (h₁ ▸ h₂) (hfree c₂ hc₂)
      · simp [switch_curenv, hc₁] at h₁
        simp [switch_curenv, hc₂] at h₂
        exact absurd (h₂ ▸ h₁) (hfree c₁ hc₁)
      · simp [switch_curenv, hc₁] at h₁
        simp [switch_curenv, hc₂] at h₂
        exact h.one c₁ c₂ x h₁ h₂
    · intro c' hm
      by_cases hc' : c' = c
      · exact ⟨e, by simp [switch_curenv, hc'], by simp [Kernel.switch_status, EnvStatus.busy]⟩
      · simp only [switch_mode, ne_eq, hc', not_false_eq_true, Function.update_of_ne] at hm
        obtain ⟨x, hx, hbusy⟩ := h.user c' hc' hm
        exact ⟨x, by simpa [switch_curenv, hc'] using hx, by rw [hkeep c' hc' x hx]; exact hbusy⟩
    · intro c' hm
      by_cases hc' : c' = c
      · simp [switch_mode, hc'] at hm
      · simp only [switch_mode, ne_eq, hc', not_false_eq_true, Function.update_of_ne] at hm
        simpa [switch_curenv, hc'] using h.other c' hc' hm
    · intro x hx
      by_cases hxe : x = e
      · exact ⟨c, by simp [switch_mode], by simp [switch_curenv, hxe]⟩
      · rw [Kernel.switch_status, Function.update_of_ne hxe, Kernel.demote_status] at hx
        split at hx
        · cases hx
        · rename_i hdem
          rcases h.busy x hx with hc | ⟨c', hc', hm, hcur⟩
          · have hrun : k.status x ≠ .ENV_RUNNING := fun hr => hdem ⟨hc, hr⟩
            have hdy := hown x hc
            cases hs : k.status x <;> simp_all [EnvStatus.busy]
          · exact ⟨c', by simpa [switch_mode, hc'] using hm, by simpa [switch_curenv, hc'] using hcur⟩
  | halt hlock hidle =>
    have hgone : ∀ e, k.curenv c = some e → (k.status e).busy = false := by
      intro e he
      have hr := hidle e he
      have hd := hown e he
      cases hs : k.status e <;> simp_all [EnvStatus.busy]
    have hcur := setCurenv_curenv k c none
    have hmode := setCurenv_mode k c none
    refine (h.giveUp hgone hcur hmode rfl).sleep (by rw [hcur, Function.update_self]) ?_ ?_ rfl
    · rw [halt_curenv, hcur]
    · rw [halt_mode, hmode]

end inside

/-! ## What a call keeps -/

/-- CPU `c` may leave the kernel. -/
structure Ready (k : Kernel) (c : Nat) : Prop where
  inside : Inside k c
  listed : FreeListed k
  own : ∀ e, k.curenv c = some e → k.status e ≠ .ENV_DYING

/-- The calls that change the status of an environment which is on another CPU
as if it were on none. -/
def meddles (k : Kernel) (cur : EnvIx) : Call → Bool
  | .env_set_status envid status =>
    match envid2env k cur envid true with
    | .ok e => e ≠ cur && (k.status e).busy && (settable status).isSome
    | .error _ => false
  | .env_destroy envid =>
    match envid2env k cur envid true with
    | .ok e => k.status e = .ENV_DYING
    | .error _ => false
  | .ipc_try_send envid _ _ _ =>
    match envid2env k cur envid false with
    | .ok e => e ≠ cur && (k.status e).busy && (k.envs e).env_ipc_recving
    | .error _ => false
  | _ => false

theorem settable_cases {status : Word} {st : EnvStatus} (h : settable status = some st) :
    st = .ENV_RUNNABLE ∨ st = .ENV_NOT_RUNNABLE := by
  unfold settable at h
  split at h
  · cases h; exact Or.inl rfl
  · split at h
    · cases h; exact Or.inr rfl
    · cases h

/-- An environment that an id stands for is the caller or a live one. -/
theorem envid2env_live {k : Kernel} {cur e : EnvIx} {envid : Word} {checkperm : Bool}
    (h : envid2env k cur envid checkperm = .ok e) : e = cur ∨ k.status e ≠ .ENV_FREE := by
  simp only [envid2env] at h
  split at h
  · cases h; exact Or.inl rfl
  · split at h
    · cases h
    · rename_i hnot
      split at h
      · cases h
      · cases h; exact Or.inr (not_or.mp hnot).1

section ready

variable {k k' : Kernel} {c : Nat} {e cur : EnvIx} {f : Env → Env} {pm : Phys}

theorem Ready.congr (h : Ready k c) (hcur : k'.curenv = k.curenv) (hmode : k'.mode = k.mode)
    (hstatus : k'.status = k.status) (hlist : k'.env_free_list = k.env_free_list)
    (hlink : k'.link = k.link) : Ready k' c where
  inside := h.inside.congr hcur hmode fun e => by rw [hstatus]
  listed := h.listed.congr hlist hlink fun e => by rw [hstatus]
  own e he := by
    rw [hstatus]
    exact h.own e (hcur ▸ he)

theorem Ready.quiet (h : Ready k c) (hq : Quiet k k') : Ready k' c := by
  obtain ⟨_, _, _, rfl⟩ := hq
  exact h.congr rfl rfl rfl rfl rfl

theorem Ready.withPm (h : Ready k c) : Ready (k.withPm pm) c := h.congr rfl rfl rfl rfl rfl

theorem Ready.setEnv (h : Ready k c) (hst : (f (k.envs e)).env_status = (k.envs e).env_status)
    (hlink : (f (k.envs e)).env_link = (k.envs e).env_link) : Ready (k.setEnv e f) c :=
  h.congr rfl rfl (Kernel.setEnv_status_same hst) rfl (Kernel.setEnv_link_same hlink)

/-- A live environment that is on no other CPU gets the status of one that
could be on none. -/
theorem Ready.rest (h : Ready k c) (hlive : k.status e ≠ .ENV_FREE)
    (he : k.curenv c = some e ∨ (k.status e).busy = false) {st : EnvStatus}
    (hst : st = .ENV_RUNNABLE ∨ st = .ENV_NOT_RUNNABLE) (hf : (f (k.envs e)).env_status = st)
    (hlink : (f (k.envs e)).env_link = (k.envs e).env_link) : Ready (k.setEnv e f) c := by
  have hidle : st.busy = false := by rcases hst with rfl | rfl <;> rfl
  have hnot : st ≠ .ENV_FREE := by rcases hst with rfl | rfl <;> simp
  have hstatus : (k.setEnv e f).status = Function.update k.status e st := by
    rw [Kernel.setEnv_status, hf]
  refine ⟨h.inside.rest he hidle rfl rfl hstatus, ?_, fun x hx => ?_⟩
  · refine h.listed.congr rfl (Kernel.setEnv_link_same hlink) fun x => ?_
    rw [hstatus, Function.update_apply]
    split
    · rename_i hx; simp [hx, hnot, hlive]
    · rfl
  · rw [hstatus, Function.update_apply]
    split
    · rintro rfl; cases hidle
    · exact h.own x hx

/-- An environment that runs on another CPU is marked. -/
theorem Ready.mark (h : Ready k c) (hother : k.curenv c ≠ some e)
    (hrun : k.status e = .ENV_RUNNING) : Ready (k.setStatus e .ENV_DYING) c := by
  have hstatus : (k.setStatus e .ENV_DYING).status = Function.update k.status e .ENV_DYING :=
    Kernel.setEnv_status ..
  refine ⟨h.inside.congr rfl rfl fun x => ?_, h.listed.congr rfl ?_ fun x => ?_, fun x hx => ?_⟩
  · rw [hstatus, Function.update_apply]
    split
    · rename_i hx; rw [hx, hrun]; rfl
    · rfl
  · exact Kernel.setEnv_link_same rfl
  · rw [hstatus, Function.update_apply]
    split
    · rename_i hx; simp [hx, hrun]
    · rfl
  · rw [hstatus, Function.update_apply]
    split
    · rename_i he; exact absurd (he ▸ hx) hother
    · exact h.own x hx

theorem Ready.release (h : Ready k c) (hlive : k.status e ≠ .ENV_FREE)
    (hidle : (k.status e).busy = false) : Ready (k.release c e pm) c := by
  refine ⟨h.inside.rest (Or.inr hidle) rfl (Kernel.release_curenv ..) (release_mode ..)
    (Kernel.release_status ..), ?_, fun x hx => ?_⟩
  · exact h.listed.put hlive rfl (Kernel.release_link ..) (Kernel.release_status ..)
  · rw [Kernel.release_status, Function.update_apply]
    split
    · simp
    · exact h.own x (by simpa using hx)

/-- The environment of the CPU itself is freed, and the CPU gives it up. Here
the environment may be dying. -/
theorem Inside.vacate (h : Inside k c) (hl : FreeListed k) (hcur : k.curenv c = some e)
    (hlive : k.status e ≠ .ENV_FREE) : Ready (k.vacate c e pm) c := by
  have h₁ : Inside (k.release c e pm) c :=
    h.rest (Or.inl hcur) rfl (Kernel.release_curenv ..) (release_mode ..)
      (Kernel.release_status ..)
  have hnone : (k.vacate c e pm).curenv = Function.update (k.release c e pm).curenv c none :=
    setCurenv_curenv ..
  refine ⟨h₁.giveUp ?_ hnone (setCurenv_mode ..) rfl, ?_, fun x hx => ?_⟩
  · intro x hx
    rw [Kernel.release_curenv, hcur] at hx
    cases hx
    rw [Kernel.release_status, Function.update_self]
    rfl
  · exact hl.put hlive rfl (Kernel.release_link ..) (Kernel.release_status ..)
  · rw [hnone, Function.update_self] at hx
    cases hx

theorem FreeListed.head (h : FreeListed k) (he : k.env_free_list = some e) :
    k.status e = .ENV_FREE := by
  obtain ⟨l, hchain, hmem⟩ := h
  obtain ⟨l, rfl⟩ := hchain.eq_cons he
  exact (hmem e).mp (List.mem_cons_self ..)

theorem Ready.fork (h : Ready k c) (he : k.env_free_list = some e) {pgdir : Nat} :
    Ready (k.fork cur e pgdir pm) c := by
  have hfree := h.listed.head he
  refine ⟨h.inside.rest (Or.inr (by rw [hfree]; rfl)) rfl rfl rfl (Kernel.fork_status ..),
    h.listed.take he rfl (Kernel.fork_link ..) (by simp) (Kernel.fork_status ..), fun x hx => ?_⟩
  rw [Kernel.fork_status, Function.update_apply]
  split
  · simp
  · exact h.own x hx

/-- Every call that does not meddle keeps this. -/
theorem Ready.effect (h : Ready k c) (hcur : k.curenv c = some cur)
    (hrun : k.status cur = .ENV_RUNNING) {call : Call} {r : Int}
    (hsafe : meddles k cur call = false) (heff : Effect k c cur call r k') : Ready k' c := by
  have hlive : ∀ {envid checkperm x}, envid2env k cur envid checkperm = .ok x →
      k.status x ≠ .ENV_FREE := by
    intro envid checkperm x hx
    rcases envid2env_live hx with rfl | hx
    · rw [hrun]; decide
    · exact hx
  have idle : ∀ x, (x ≠ cur → (k.status x).busy = false) →
      k.curenv c = some x ∨ (k.status x).busy = false := by
    intro x hx
    by_cases hxc : x = cur
    · exact Or.inl (hxc ▸ hcur)
    · exact Or.inr (hx hxc)
  cases heff with
  | quiet _ hq => exact h.quiet hq
  | refused => exact h
  | dying he hother hst => exact h.mark hother hst
  | @freed envid x pm he hother hst hpages =>
    refine h.release (hlive he) ?_
    have hnot : k.status x ≠ .ENV_DYING := by simpa [meddles, he] using hsafe
    cases hs : k.status x <;> simp_all [EnvStatus.busy]
  | fork hfree hvm => exact h.fork hfree
  | @status envid status x st he hst =>
    have hx := idle x (by simpa [meddles, he, hst] using hsafe)
    exact h.rest (hlive he) hx (settable_cases hst) rfl rfl
  | trapframe he => exact h.setEnv rfl rfl
  | upcall he => exact h.setEnv rfl rfl
  | lost | alloc | unalloc | map | nomap | unmap | unsend => exact h.withPm
  | @send envid value srcva perm perm' target he hrecv =>
    unfold deliver
    have hx := idle target (by simpa [meddles, he, hrecv] using hsafe)
    exact h.rest (hlive he) hx (Or.inl rfl) rfl rfl
  | @sendPage envid value srcva perm target p r pm he hrecv =>
    unfold deliver
    have hx := idle target (by simpa [meddles, he, hrecv] using hsafe)
    exact h.withPm.rest (hlive he) hx (Or.inl rfl) rfl rfl

/-- Leaving the kernel frees nobody and makes nobody. -/
theorem leaves_free (hleave : Leaves k c k') (x : EnvIx) :
    k'.status x = .ENV_FREE ↔ k.status x = .ENV_FREE := by
  cases hleave with
  | @run e pgdir hlock hdir hready hload =>
    rw [Kernel.switch_status, Function.update_apply, Kernel.demote_status]
    split
    · rename_i hx
      rcases hready with hr | ⟨-, hr⟩ <;> simp [hx, hr]
    · split
      · rename_i hx; simp [hx.2]
      · rfl
  | halt => rfl

theorem Ready.leave (h : Ready k c) (hleave : Leaves k c k') : Outside k' ∧ FreeListed k' := by
  have hfree := leaves_free hleave
  refine ⟨h.inside.leave h.own hleave, ?_⟩
  cases hleave with
  | run => exact h.listed.congr (Kernel.switch_free ..) (Kernel.switch_link ..) hfree
  | halt => exact h.listed.congr rfl rfl hfree

end ready

/-! ## What a trap keeps -/

section handled

variable {k k' : Kernel} {c : Nat} {cur : EnvIx} {tf : Trapframe} {cr2 : Word}

theorem entered_mode (k : Kernel) (c : Nat) : (k.entered c).mode = k.mode := by
  funext x; by_cases h : x = c <;> simp [Kernel.mode, h]

/-- The saved registers do not matter to the ids. -/
theorem envid2env_saved (envid : Word) (checkperm : Bool) :
    envid2env (k.saved c cur tf) cur envid checkperm = envid2env k cur envid checkperm := by
  have hid : ∀ x, ((k.saved c cur tf).envs x).env_id = (k.envs x).env_id := fun x => by
    by_cases hx : x = cur <;> simp [hx]
  have hparent : ∀ x, ((k.saved c cur tf).envs x).env_parent_id = (k.envs x).env_parent_id :=
    fun x => by by_cases hx : x = cur <;> simp [hx]
  have hstatus : ∀ x, ((k.saved c cur tf).envs x).env_status = (k.envs x).env_status :=
    fun x => congrFun (Kernel.saved_status k c cur tf) x
  simp only [envid2env, hid, hparent, hstatus]

theorem meddles_saved (call : Call) : meddles (k.saved c cur tf) cur call = meddles k cur call := by
  have hrecv : ∀ x, ((k.saved c cur tf).envs x).env_ipc_recving = (k.envs x).env_ipc_recving :=
    fun x => by by_cases hx : x = cur <;> simp [hx]
  cases call <;> simp only [meddles, envid2env_saved, Kernel.saved_status, hrecv]

/-- However a trap is handled, the CPU may leave the kernel. -/
theorem handled_ready {k₁ : Kernel} (h : Outside k) (hl : FreeListed k)
    (hcur : k.curenv c = some cur) (hbusy : (k.status cur).busy = true)
    (hsafe : k.status cur ≠ .ENV_DYING → tf.tf_trapno = T_SYSCALL → meddles k cur tf.call = false)
    (hh : Handled k c cur tf cr2 k₁) : Ready k₁ c := by
  have hnotfree : k.status cur ≠ .ENV_FREE := fun hf => by rw [hf] at hbusy; cases hbusy
  have hin : Inside k c := h.enter c
  have hsaved : k.status cur ≠ .ENV_DYING → Ready (k.saved c cur tf) c := by
    intro hlive
    have hready : Ready k c := ⟨hin, hl, fun e he => by
      rw [hcur] at he; cases he; exact hlive⟩
    exact hready.congr (Kernel.saved_curenv ..) (entered_mode k c) (Kernel.saved_status ..) rfl
      (Kernel.saved_link ..)
  have hrun : k.status cur ≠ .ENV_DYING → k.status cur = .ENV_RUNNING := by
    intro hlive
    cases hs : k.status cur <;> simp_all [EnvStatus.busy]
  have hcur' : (k.saved c cur tf).curenv c = some cur := by simpa using hcur
  have hgone : ∀ {k₂ pm}, k.status cur ≠ .ENV_DYING → Quiet (k.saved c cur tf) k₂ →
      Ready (k₂.vacate c cur pm) c := by
    intro k₂ pm hlive hq
    have hready := (hsaved hlive).quiet hq
    obtain ⟨_, _, _, rfl⟩ := hq
    refine hready.inside.vacate hready.listed hcur' ?_
    exact fun hf => hnotfree ((congrFun (Kernel.saved_status k c cur tf) cur).symm.trans hf)
  cases hh with
  | died hdying hpages =>
    exact (hin.congr (Kernel.entered_curenv k c) (entered_mode k c) fun _ => rfl).vacate
      (hl.congr rfl rfl fun _ => Iff.rfl) (by simpa using hcur) hnotfree
  | @ret k₁ r hlive hno he =>
    refine Ready.setEnv ((hsaved hlive).effect hcur' ?_ ?_ he) rfl rfl
    · simpa using hrun hlive
    · rw [meddles_saved]; exact hsafe hlive hno
  | exit hlive hno he =>
    generalize tf.call = call at he
    cases he with
    | yield => exact hsaved hlive
    | receive =>
      refine (hsaved hlive).rest ?_ (Or.inl hcur') (Or.inr rfl) rfl rfl
      simpa using hnotfree
    | destroyed hq hpages => exact hgone hlive hq
  | interrupt hlive => exact hsaved hlive
  | fault hlive hq hstore => exact ((hsaved hlive).quiet hq).withPm.setEnv rfl rfl
  | destroyed hlive hq hpages => exact hgone hlive hq

end handled

/-! ## Runs -/

/-- The system call that an event makes, with the environment that makes it. -/
def callOf (k : Kernel) : Event → Option (EnvIx × Call)
  | .trap c tf _ =>
    match k.curenv c with
    | some cur =>
      if tf.tf_trapno = T_SYSCALL ∧ k.status cur ≠ .ENV_DYING then some (cur, tf.call) else none
    | none => none
  | _ => none

/-- The event makes no call that meddles. -/
def Careful (k : Kernel) (ev : Event) : Prop :=
  match callOf k ev with
  | some (cur, call) => meddles k cur call = false
  | none => True

instance (k : Kernel) (ev : Event) : Decidable (Careful k ev) := by
  unfold Careful
  split <;> infer_instance

/-- Every careful step leaves the environments on their CPUs. -/
theorem outside_step {k k' : Kernel} {ev : Event} (h : Outside k ∧ FreeListed k)
    (hsafe : Careful k ev) (hs : StepCases k ev k') : Outside k' ∧ FreeListed k' := by
  obtain ⟨h, hl⟩ := h
  -- a CPU that is not in user mode comes in without an environment
  have hidle : ∀ c, k.mode c ≠ .user → Ready k c := fun c hm =>
    ⟨h.enter c, hl, fun e he => by rw [h.other c hm] at he; cases he⟩
  have hready : ∀ c, k.mode c ≠ .user → Ready (k.entered c) c := fun c hm =>
    (hidle c hm).congr (Kernel.entered_curenv k c) (entered_mode k c) rfl rfl rfl
  cases hs with
  | @create prog type e pgdir pm pm' hmode hlock hfree hvm hload =>
    have hstatus : (k.loaded e pgdir pm pm' prog type).status =
        Function.update k.status e .ENV_RUNNABLE := by
      rw [Kernel.loaded, Kernel.setEnv_status_same rfl]
      exact Kernel.enlist_status ..
    have hlink : (k.loaded e pgdir pm pm' prog type).link = k.link := by
      rw [Kernel.loaded, Kernel.setEnv_link_same rfl]
      exact Kernel.enlist_link ..
    refine ⟨h.congr rfl rfl fun x => ?_, hl.take hfree rfl hlink (by simp) hstatus⟩
    rw [hstatus, Function.update_apply]
    split
    · rename_i hx; rw [hx, hl.head hfree]; rfl
    · rfl
  | boot hmode hlock hleave => exact (hidle 0 (by simp [Kernel.mode, hmode])).leave hleave
  | start hmode hlock hleave => exact (hready _ (by simp [Kernel.mode, hmode])).leave hleave
  | trap hmode hlock hload htrap =>
    obtain ⟨cur, hcur, hbusy⟩ := h.user _ hmode
    have hst : k.status cur = .ENV_RUNNING ∨ k.status cur = .ENV_DYING := by
      cases hs : k.status cur <;> simp_all [EnvStatus.busy]
    obtain ⟨k₁, hh, hleave⟩ := trap_handled hcur hst (loadable_user hload) htrap
    refine (handled_ready h hl hcur hbusy (fun hlive hno => ?_) hh).leave hleave
    simpa [Careful, callOf, hcur, hno, hlive] using hsafe
  | @interrupt c tf k' hmode hlock hcs hdev htrap =>
    have hm : k.mode c ≠ .user := by simp [Kernel.mode, hmode]
    exact (hready c hm).leave (interrupt_leaves (h.other c hm) hlock hcs hdev htrap)
  | store => exact ⟨h.congr rfl rfl fun _ => rfl, hl.congr rfl rfl fun _ => Iff.rfl⟩
  | touch => exact ⟨h.congr rfl rfl fun _ => rfl, hl.congr rfl rfl fun _ => Iff.rfl⟩

/-- At the start no CPU runs anything, and all slots are free. -/
structure Booting (k : Kernel) : Prop where
  empty : k.env_free_list = none
  free : ∀ e, k.status e = .ENV_FREE
  off : ∀ c, k.mode c = .off ∧ k.curenv c = none

theorem env_init_cpus (k : Kernel) : (env_init k).cpus = k.cpus := by
  have hslots : ∀ n, (env_init_slots n k).cpus = k.cpus := by
    intro n
    induction n with
    | zero => rfl
    | succ n ih =>
      simp only [env_init_slots, env_init_slot]
      split <;> simpa using ih
  exact hslots NENV

theorem Booting.outside {k : Kernel} (h : Booting k) :
    Outside (env_init k) ∧ FreeListed (env_init k) := by
  have hcur : ∀ c, (env_init k).curenv c = none := fun c => by
    rw [Kernel.curenv, env_init_cpus]; exact (h.off c).2
  have hmode : ∀ c, (env_init k).mode c = .off := fun c => by
    rw [Kernel.mode, env_init_cpus]; exact (h.off c).1
  have hstatus : ∀ e, (env_init k).status e = .ENV_FREE := fun e => by
    rw [env_init, (env_init_slots_spec h.empty (Nat.le_refl NENV)).2.1]; exact h.free e
  refine ⟨⟨?_, ?_, ?_, ?_⟩, env_init_listed h.empty h.free⟩
  · intro c c' e he; rw [hcur] at he; cases he
  · intro c hm; rw [hmode] at hm; cases hm
  · intro c _; exact hcur c
  · intro e he; rw [hstatus] at he; cases he

/-- From the start on, in any number of CPUs and any order of traps, and as
long as no call meddles with an environment on another CPU: an environment
is on one CPU at most, it is running or dying exactly when it is on a CPU in
user mode, and none that is free or runnable is there. -/
theorem an_environment_is_on_one_cpu {k₀ k : Kernel} {evs : List Event} (hboot : Booting k₀)
    (hr : runFrom (env_init k₀) evs = some k) (hcareful : Along Careful (env_init k₀) evs) :
    (∀ c c' e, k.curenv c = some e → k.curenv c' = some e → c = c') ∧
    (∀ e, (k.status e = .ENV_RUNNING ∨ k.status e = .ENV_DYING) ↔
      ∃ c, k.mode c = .user ∧ k.curenv c = some e) ∧
    (∃ l, Chain k.link k.env_free_list l ∧ ∀ e, e ∈ l ↔ k.status e = .ENV_FREE) ∧
    ∀ c e, k.mode c = .user → k.curenv c = some e →
      k.status e ≠ .ENV_FREE ∧ k.status e ≠ .ENV_RUNNABLE := by
  obtain ⟨h, hl⟩ : Outside k ∧ FreeListed k :=
    runFrom_keeps (fun _ _ _ => outside_step) hboot.outside hr hcareful
  have hbusy : ∀ e, (k.status e).busy = true ↔
      k.status e = .ENV_RUNNING ∨ k.status e = .ENV_DYING := fun e => by
    cases k.status e <;> simp [EnvStatus.busy]
  have huser : ∀ c e, k.mode c = .user → k.curenv c = some e →
      k.status e = .ENV_RUNNING ∨ k.status e = .ENV_DYING := by
    intro c e hm hc
    obtain ⟨e', hc', hb⟩ := h.user c hm
    cases hc.symm.trans hc'
    exact (hbusy e).mp hb
  refine ⟨h.one, fun e => ⟨fun he => h.busy e ((hbusy e).mpr he), ?_⟩, hl, ?_⟩
  · rintro ⟨c, hm, hc⟩
    exact huser c e hm hc
  · intro c e hm hc
    rcases huser c e hm hc with he | he <;> rw [he] <;> decide

/-- The frame of a system call, with its number and arguments. -/
def sysTf (syscallno a1 a2 a3 a4 a5 : Word) : Trapframe :=
  { initialTf with tf_trapno := T_SYSCALL, tf_regs := ⟨a4, a5, 0, 0, a3, a1, a2, syscallno⟩ }

/-- A program of one page. -/
def onePage : Program where
  segments := [(0x800000, 0x1000)]
  e_entry := 0x800020
  below seg h := by
    rw [List.mem_singleton.mp h]
    decide

/-- Two CPUs, and the first environment forks and starts a child, which the
second CPU runs. -/
def startChild : List Event :=
  [.create onePage .ENV_TYPE_USER, .boot, .trap 0 (sysTf SYS_exofork 0 0 0 0 0) 0,
    .trap 0 (sysTf SYS_env_set_status 0x1001 2 0 0 0) 0, .start 1]

theorem zeroKernel_booting {n ncpu : Nat} (hn : n ≤ 0x10000) : Booting (zeroKernel n hn ncpu) :=
  ⟨rfl, fun _ => rfl, fun _ => ⟨rfl, rfl⟩⟩

theorem an_environment_is_on_one_cpu_child :
    ∃ k, runFrom (env_init (zeroKernel 64 (by decide) 2)) startChild = some k ∧
      k.status 1 = .ENV_RUNNING ∧ ∃ c, k.mode c = .user ∧ k.curenv c = some 1 := by
  have hrun : (runFrom (env_init (zeroKernel 64 (by decide) 2)) startChild).map
      (fun k => k.status 1) = some .ENV_RUNNING := by decide +kernel
  obtain ⟨k, hr, hst⟩ := Option.map_eq_some_iff.mp hrun
  refine ⟨k, hr, hst, ?_⟩
  have hcareful : Along Careful (env_init (zeroKernel 64 (by decide) 2)) startChild := by
    decide +kernel
  exact ((an_environment_is_on_one_cpu (zeroKernel_booting _) hr hcareful).2.1 1).mp (Or.inl hst)

/-- While the child runs, its parent sets its status to `ENV_RUNNABLE` again and
yields: now both CPUs run the child. -/
theorem set_status_puts_one_environment_on_two_cpus :
    ∃ k, runFrom (env_init (zeroKernel 64 (by decide) 2)) (startChild ++
        [.trap 0 (sysTf SYS_env_set_status 0x1001 2 0 0 0) 0,
          .trap 0 (sysTf SYS_yield 0 0 0 0 0) 0]) = some k ∧
      k.mode 0 = .user ∧ k.curenv 0 = some 1 ∧ k.mode 1 = .user ∧ k.curenv 1 = some 1 := by
  have hrun : (runFrom (env_init (zeroKernel 64 (by decide) 2)) (startChild ++
        [.trap 0 (sysTf SYS_env_set_status 0x1001 2 0 0 0) 0,
          .trap 0 (sysTf SYS_yield 0 0 0 0 0) 0])).map
      (fun k => (k.mode 0, k.curenv 0, k.mode 1, k.curenv 1)) =
      some (.user, some 1, .user, some 1) := by decide +kernel
  obtain ⟨k, hr, hfacts⟩ := Option.map_eq_some_iff.mp hrun
  simp only [Prod.mk.injEq] at hfacts
  exact ⟨k, hr, hfacts⟩

end jos
