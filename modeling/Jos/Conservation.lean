-- No page is lost: each page that `page_alloc` may hand out is on the free
-- list or in use. The one call that loses a page is a `sys_page_alloc` for an
-- environment that the caller may not change: it has taken a page by the
-- time it is refused.
import Jos.Machine
import Jos.Slots

namespace jos

open linked_list (Chain)
open ledger

/-- Each page that `page_alloc` may hand out is on the free list, once, or an
entry of a live address space names it, or it is a live directory. -/
def Conserved (kept : Nat → Prop) (k : Kernel) : Prop :=
  ∃ free, Chain k.pm.link k.pm.page_free_list free ∧ free.Nodup ∧
    ∀ p, kept p → p ∈ free ∨ ∃ r, slots k.pm k.dir r = some p

/-- With the accounts right, that is to say that no page is lost. -/
theorem Memory.conserved_iff {kept : Nat → Prop} {k : Kernel} (h : Memory kept k) :
    Conserved kept k ↔ ∀ p, kept p → ¬ k.pm.Lost p := by
  obtain ⟨free, ha⟩ := h.accounts
  constructor
  · rintro ⟨free', hc, -, hall⟩ p hp ⟨href, hout⟩
    rcases hall p hp with hmem | ⟨r, hr⟩
    · exact hout free' hc hmem
    · have hpos := ha.ref_pos hr
      rw [href] at hpos
      exact absurd hpos (by decide)
  · intro hno
    refine ⟨free, ha.chain, ha.balanced.nodup, fun p hp => ?_⟩
    by_cases hmem : p ∈ free
    · exact Or.inl hmem
    · right
      have hpos : 0 < refs k.pm k.dir p := by
        rw [← ha.count hp]
        by_contra hz
        refine hno p hp ⟨BitVec.eq_of_toNat_eq (by simpa using hz), fun free' hc hin => hmem ?_⟩
        rwa [ha.chain.unique hc]
      exact tally_pos.mp hpos

/-- A `sys_page_alloc` is for an environment that the caller may change. -/
def sparing (k : Kernel) (cur : EnvIx) : Call → Bool
  | .page_alloc envid _ _ => (envid2env k cur envid true).isOk
  | _ => true

/-- The event makes no call that meddles, asks for too much or loses a page. -/
def Saving (k : Kernel) (ev : Event) : Prop :=
  Fits k ev ∧ ∀ cur call, callOf k ev = some (cur, call) → sparing k cur call = true

/-- The call has not done what it was asked to. Three calls answer with a value
when they succeed, and the others with 0. -/
def Call.failed (call : Call) (r : Int) : Prop :=
  match call with
  | .cgetc | .getenvid | .exofork => r < 0
  | _ => r ≠ 0

/-! ## The calls -/

section calls

variable {kept : Nat → Prop} {k k' : Kernel} {c : Nat} {cur : EnvIx} {call : Call} {r : Int}

theorem Memory.setup_noLoss {e : EnvIx} {pgdir : Nat} {pm : Phys} (h : Memory kept k)
    (hvm : env_setup_vm k.pm k.kern_pgdir = .ok (some pgdir, pm)) (hfree : k.dir e = none) :
    NoLoss k.pm pm := by
  obtain ⟨free, ha⟩ := h.accounts
  obtain ⟨-, -, rfl, hlist⟩ := h.setup hvm hfree
  obtain ⟨rest, rfl⟩ := ha.chain.eq_cons hlist
  exact noLoss_newDir ha.chain

theorem Memory.grant_noLoss {src dst : EnvIx} {srcva dstva perm : Word} {p : Nat} {pm : Phys}
    (h : Memory kept k) (hg : Grant k src dst srcva dstva perm p r pm) (hperm : perm < 0x1000)
    (hrefs : refs k.pm k.dir p < 65535) : NoLoss k.pm pm := by
  rcases h.grant_entry hg hperm with ⟨-, rfl⟩ | ⟨rfl, -⟩
  · exact NoLoss.refl _
  · obtain ⟨free, ha⟩ := h.accounts
    obtain ⟨ds, hds, hp, -⟩ := h.grant_source hg
    obtain ⟨d, hd, hins⟩ := hg.insert
    have hslot := slot_of_pte hds hg.srcva_lt hp
    exact fun x hx => (lost_page_insert ha hd hg.dstva_lt (ha.named hslot) (ha.not_free hslot)
      (Or.inl hrefs) hins hx).1

/-- The page that goes back is on the free list as before. -/
theorem Memory.fresh_back_list {e : EnvIx} {va perm : Word} {p : Nat} {pm pm' : Phys}
    (h : Memory kept k) (hf : Fresh k e va perm p r pm) (hperm : perm < 0x1000) (hr : r < 0)
    (hback : page_free pm p = .ok pm') :
    pm'.ref = k.pm.ref ∧ pm'.link = k.pm.link ∧ pm'.page_free_list = k.pm.page_free_list := by
  obtain ⟨hlist, ⟨-, rfl⟩ | ⟨rfl, -⟩⟩ := h.fresh hf hperm
  · obtain ⟨free, ha⟩ := h.accounts
    obtain ⟨rest, rfl⟩ := ha.chain.eq_cons hlist
    have href : k.pm.ref p = 0 := ha.ref_free (List.mem_cons_self ..)
    cases hback.symm.trans (page_free_eq (by simp))
    refine ⟨?_, ?_, ?_⟩
    · rw [Phys.pushFree_ref, Phys.alloced_ref, ← href, Function.update_eq_self]
    · rw [Phys.pushFree_link, Phys.alloced_link, Phys.alloced_free, Function.update_idem,
        Function.update_eq_self]
    · exact hlist.symm
  · exact absurd hr (by decide)

theorem FreesPages.noLoss {pm : Phys} (h : Memory kept k) (hp : FreesPages k cur pm) :
    NoLoss k.pm pm := by
  obtain ⟨free, ha⟩ := h.accounts
  obtain ⟨d, hd, hrun⟩ := hp
  obtain ⟨pm', free', hrun', -, -, -, hlost⟩ := env_free_pages_ok ha hd
  cases hrun.symm.trans hrun'
  exact hlost

theorem Memory.effect_noLoss (h : Memory kept k) (hl : FreeListed k) (hfit : Fitting k cur call)
    (hspare : sparing k cur call = true) (heff : Effect k c cur call r k') : NoLoss k.pm k'.pm := by
  cases heff with
  | quiet _ hq =>
    obtain ⟨_, _, _, rfl⟩ := hq
    exact NoLoss.refl _
  | refused | dying | status | trapframe | upcall | send => exact NoLoss.refl _
  | freed he hother hrun hpages => exact hpages.noLoss h
  | @fork child pgdir pm _ hfree hvm => exact h.setup_noLoss hvm ((h.live child).mpr (hl.head hfree))
  | lost halloc he => simp [sparing, he, Except.isOk, Except.toBool] at hspare
  | alloc he hf hr =>
    obtain ⟨free, ha⟩ := h.accounts
    obtain ⟨pm₀, d, halloc, hd, hins⟩ := hf.insert
    rcases (h.fresh hf hfit).2 with ⟨rfl, -⟩ | ⟨rfl, -⟩
    · exact absurd (by decide) hr
    · obtain ⟨-, rfl, hlist⟩ := h.lost halloc
      obtain ⟨rest, rfl⟩ := ha.chain.eq_cons hlist
      exact ha.noLoss_fresh hd hf.va_lt hins
  | unalloc he hf hr hback =>
    obtain ⟨href, hlink, hlist⟩ := h.fresh_back_list hf hfit hr hback
    exact NoLoss.of_eq href hlink hlist
  | map hsrc hdst hg | nomap hsrc hdst hg =>
    exact h.grant_noLoss hg hfit.1 (hfit.2 _ _ hsrc (h.grant_pageAt hg))
  | unmap he hva hdir hrem =>
    obtain ⟨free, ha⟩ := h.accounts
    exact noLoss_page_remove ha hdir hva hrem
  | unsend he hg | sendPage he _ _ hg =>
    obtain ⟨hperm, hrefs⟩ := hfit hg.srcva_lt
    exact h.grant_noLoss hg hperm (hrefs _ (h.grant_pageAt hg))

/-- The pages are on the free list as they were. -/
def SameFree (s s' : Phys) : Prop := s'.link = s.link ∧ s'.page_free_list = s.page_free_list

theorem nextId_pos (id : Word) (e : EnvIx) : 0 < (nextId id e).toInt := by
  have hpos : ∀ w : Word, 0 < w.toInt ↔ 0 < w.toNat ∧ w.toNat < 2 ^ 31 := by
    intro w
    have hlt := w.isLt
    rw [BitVec.toInt_eq_toNat_cond]
    split <;> omega
  have hgen : ∀ w : Word, 0 < (if w.toInt ≤ 0 then 0x1000 else w : Word).toInt := by
    intro w
    split
    · decide
    · omega
  have hidx : (BitVec.ofNat 32 e.val).toNat < 2 ^ 31 := by
    have he : e.val < 1024 := e.isLt
    rw [BitVec.toNat_ofNat]
    omega
  obtain ⟨h0, h31⟩ := (hpos _).mp (hgen ((id + 0x1000) &&& ~~~0x3FF))
  rw [hpos, nextId, BitVec.toNat_or]
  exact ⟨Nat.lt_of_lt_of_le h0 Nat.left_le_or, Nat.or_lt_two_pow h31 hidx⟩

/-- `sys_exofork` returns the id of the child. -/
theorem sys_exofork_failed (hr : sys_exofork k cur = .ret r k') (hneg : r < 0) : k' = k := by
  unfold sys_exofork at hr
  split at hr
  · cases hr
  · rename_i halloc
    cases hr
    rcases env_alloc_cases halloc with ⟨code, -, -, rfl⟩ | ⟨e, pgdir, pm, he, -⟩
    · rfl
    · cases he
  · rename_i child k₁ halloc
    rcases env_alloc_cases halloc with ⟨code, he, -⟩ | ⟨e, pgdir, pm, he, -, -, rfl⟩
    · cases he
    · cases he
      cases hr
      have hpos := nextId_pos (k.envs child).env_id child
      simp only [Kernel.setEnv_envs, Function.update_self, Kernel.enlist_envs, freshEnv] at hneg
      omega

/-- A call that fails leaves the free list as it was. -/
theorem Memory.failed_same (h : Memory kept k) (hcur : k.curenv c = some cur)
    (hfit : Fitting k cur call) (hspare : sparing k cur call = true) (hr : call.run k c cur = .ret r k')
    (hfail : call.failed r) : SameFree k.pm k'.pm := by
  have heff : Effect k c cur call r k' := by
    have hends := call_ends hcur call
    rwa [hr] at hends
  cases heff with
  | quiet _ hq =>
    obtain ⟨_, _, _, rfl⟩ := hq
    exact ⟨rfl, rfl⟩
  | fork => rw [sys_exofork_failed hr hfail]; exact ⟨rfl, rfl⟩
  | lost halloc he => simp [sparing, he, Except.isOk, Except.toBool] at hspare
  | unalloc he hf hneg hback => exact (h.fresh_back_list hf hfit hneg hback).2
  | nomap hsrc hdst hg hneg =>
    rcases h.grant_entry hg hfit.1 with ⟨-, rfl⟩ | ⟨rfl, -⟩
    · exact ⟨rfl, rfl⟩
    · exact absurd hneg (by decide)
  | unsend he hg hneg =>
    rcases h.grant_entry hg (hfit hg.srcva_lt).1 with ⟨-, rfl⟩ | ⟨rfl, -⟩
    · exact ⟨rfl, rfl⟩
    · exact absurd hneg (by decide)
  | refused => exact ⟨rfl, rfl⟩
  | _ => exact absurd rfl hfail

end calls

/-! ## The steps -/

section steps

variable {kept : Nat → Prop} {k k' : Kernel} {c : Nat} {cur : EnvIx}

theorem leaves_pm (h : Leaves k c k') : k'.pm = k.pm := by
  cases h with
  | run => exact Kernel.switch_pm ..
  | halt => rfl

theorem noLoss_store {s s' : Phys} {d : Nat} {va perm : Word} {b : Byte}
    (h : s.store d va perm b = some s') : NoLoss s s' := by
  obtain ⟨p, j, w, -, rfl⟩ := store_eq_some h
  exact NoLoss.of_eq rfl rfl rfl

theorem noLoss_storeBytes {s s' : Phys} {d : Nat} {va : Word} {bs : List Byte}
    (h : s.storeBytes d va bs = .ok s') : NoLoss s s' := by
  induction bs generalizing s va with
  | nil => cases h; exact NoLoss.refl _
  | cons b bs ih =>
    simp only [Phys.storeBytes] at h
    split at h
    · cases h
    · exact (noLoss_store ‹_›).trans (ih h)

theorem sparing_saved (tf : Trapframe) (call : Call) :
    sparing (k.saved c cur tf) cur call = sparing k cur call := by
  cases call with
  | page_alloc => simp only [sparing, envid2env_saved]
  | _ => rfl

theorem handled_noLoss {tf : Trapframe} {cr2 : Word} (h : Memory kept k) (hl : FreeListed k)
    (hsafe : k.status cur ≠ .ENV_DYING → tf.tf_trapno = T_SYSCALL →
      Fitting k cur tf.call ∧ sparing k cur tf.call = true)
    (hh : Handled k c cur tf cr2 k') : NoLoss k.pm k'.pm := by
  have hmem : Memory kept (k.saved c cur tf) :=
    h.congr rfl (Kernel.saved_dir ..) rfl fun e => by rw [Kernel.saved_status]
  have hlist : FreeListed (k.saved c cur tf) :=
    hl.congr rfl (Kernel.saved_link ..) fun e => by rw [Kernel.saved_status]
  have hgone : ∀ {k₁ pm}, Quiet (k.saved c cur tf) k₁ → FreesPages k₁ cur pm →
      NoLoss k.pm pm := by
    intro k₁ pm hq hp
    obtain ⟨addr, out, inp, hk₁⟩ := hq
    have hm₁ : Memory kept k₁ := by
      rw [hk₁]
      exact hmem.congr rfl rfl rfl fun _ => Iff.rfl
    have hlost := hp.noLoss hm₁
    rwa [hk₁] at hlost
  cases hh with
  | died hdying hpages => exact hpages.noLoss h
  | ret hlive hno he =>
    obtain ⟨hfit, hspare⟩ := hsafe hlive hno
    have hlost := hmem.effect_noLoss hlist (fitting_saved _ hfit)
      ((sparing_saved ..).trans hspare) he
    exact hlost
  | exit hlive hno he =>
    generalize tf.call = call at he
    cases he with
    | yield => exact NoLoss.refl _
    | receive => exact NoLoss.refl _
    | destroyed hq hpages => exact hgone hq hpages
  | interrupt hlive => exact NoLoss.refl _
  | fault hlive hq hstore => exact noLoss_storeBytes hstore
  | destroyed hlive hq hpages => exact hgone hq hpages

theorem step_noLoss {ev : Event} (h : Sound kept k) (hsave : Saving k ev)
    (hs : StepCases k ev k') : NoLoss k.pm k'.pm := by
  obtain ⟨hfits, hspare⟩ := hsave
  cases hs with
  | @create prog type e pgdir pm pm' hmode hlock hfree hvm hload =>
    have hfr := h.listed.head hfree
    obtain ⟨hacc, -⟩ := h.memory.setup hvm ((h.memory.live e).mpr hfr)
    obtain ⟨free, ha⟩ := hacc
    have hd : Function.update k.dir e (some pgdir) e = some pgdir := Function.update_self ..
    have hnew : NoLoss k.pm pm := h.memory.setup_noLoss hvm ((h.memory.live e).mpr hfr)
    exact hnew.trans (load_icode_accounted hd ha hload).2.2
  | boot hmode hlock hleave | start hmode hlock hleave =>
    rw [leaves_pm hleave]
    exact NoLoss.refl _
  | @trap c tf cr2 k' hmode hlock hload htrap =>
    obtain ⟨cur, hcur, hbusy⟩ := h.outside.user _ hmode
    have hst : k.status cur = .ENV_RUNNING ∨ k.status cur = .ENV_DYING := by
      cases hs : k.status cur <;> simp_all [EnvStatus.busy]
    obtain ⟨k₁, hh, hleave⟩ := trap_handled hcur hst (loadable_user hload) htrap
    rw [leaves_pm hleave]
    refine handled_noLoss h.memory h.listed (fun hlive hno => ?_) hh
    have hcall : callOf k (.trap c tf cr2) = some (cur, tf.call) := by
      simp [callOf, hcur, hno, hlive]
    exact ⟨hfits.2 cur _ hcall, hspare cur _ hcall⟩
  | @interrupt c tf k' hmode hlock hcs hdev htrap =>
    have hm : k.mode c ≠ .user := by simp [Kernel.mode, hmode]
    rw [leaves_pm (interrupt_leaves (h.outside.other c hm) hlock hcs hdev htrap)]
    exact NoLoss.refl _
  | store hmode hva hstore => exact noLoss_store hstore
  | @touch c va dirty hmode hva =>
    show NoLoss k.pm (touchEntry ..)
    unfold touchEntry
    split
    · exact NoLoss.refl _
    · dsimp only
      split
      · exact NoLoss.of_eq rfl rfl rfl
      · exact NoLoss.refl _

end steps

/-! ## Runs -/

/-- In every run from a state in which no page is lost, whose events make no call
that meddles, asks for too much or allocates a page for an environment that
the caller may not change: no page is lost, and a call that fails leaves
the free list as it was. -/
theorem no_page_is_lost {kept : Nat → Prop} {k₀ k : Kernel} {evs : List Event}
    (hsound : Sound kept k₀) (h₀ : Conserved kept k₀) (hr : runFrom k₀ evs = some k)
    (hall : Along Saving k₀ evs) :
    Conserved kept k ∧ ∀ c tf cr2 cur call r k', Saving k (.trap c tf cr2) →
      callOf k (.trap c tf cr2) = some (cur, call) →
      call.run (k.saved c cur tf) c cur = .ret r k' → call.failed r → SameFree k.pm k'.pm := by
  obtain ⟨hk, hkeep⟩ : Sound kept k ∧ ∀ p, kept p → ¬ k.pm.Lost p := by
    refine runFrom_keeps (I := fun k => Sound kept k ∧ ∀ p, kept p → ¬ k.pm.Lost p)
      (fun k ev k' h hsave hs => ?_) ⟨hsound, hsound.memory.conserved_iff.mp h₀⟩ hr hall
    exact ⟨sound_step h.1 hsave.1 hs,
      fun p hp hlost => h.2 p hp (step_noLoss h.1 hsave hs p hlost)⟩
  refine ⟨hk.memory.conserved_iff.mpr hkeep, fun c tf cr2 cur call r k' hsave hcall hrun hfail => ?_⟩
  have hmem : Memory kept (k.saved c cur tf) :=
    hk.memory.congr rfl (Kernel.saved_dir ..) rfl fun e => by rw [Kernel.saved_status]
  have hcur : k.curenv c = some cur := callOf_curenv hcall
  exact hmem.failed_same (by simpa using hcur) (fitting_saved call (hsave.1.2 cur call hcall))
    ((sparing_saved ..).trans (hsave.2 cur call hcall)) hrun hfail

/-- A machine of 64 pages, before its first environment. -/
def sparse : Kernel := env_init (zeroKernel 64 pages_64 1)

theorem sparse_conserved :
    Sound (fun p => 2 ≤ p ∧ p < 64) sparse ∧ Conserved (fun p => 2 ≤ p ∧ p < 64) sparse := by
  refine ⟨(zeroKernel_bootable (by decide) (by decide)).sound, List.range' 2 62, ?_,
    List.nodup_range', ?_⟩
  · rw [sparse, (env_init_rest _).1]
    exact bootPhys_chain (by decide) (Nat.le_refl 2) (by decide)
  · rintro p ⟨h2, h64⟩
    left
    rw [List.mem_range'_1]
    omega

/-- A page is allocated and unmapped. -/
def allocUnmap : List Event :=
  [.create onePage .ENV_TYPE_USER, .boot,
    .trap 0 (sysTf SYS_page_alloc 0 0x1000000 7 0 0) 0,
    .trap 0 (sysTf SYS_page_unmap 0 0x1000000 0 0 0) 0]

/-- What `Saving` asks for, with the counts of the pages. -/
def savingNow (k : Kernel) (ev : Event) : Bool :=
  fitsNow k ev && (callOf k ev).all fun call => sparing k call.1 call.2

theorem Memory.saving_of_now {kept : Nat → Prop} {k : Kernel} {ev : Event} (h : Memory kept k)
    (hev : savingNow k ev = true) : Saving k ev := by
  obtain ⟨hfits, hall⟩ := Bool.and_eq_true_iff.mp hev
  refine ⟨h.fits_of_now hfits, fun cur call hcall => ?_⟩
  simpa [hcall] using hall

/-- After that the page at 0x1000000 cannot be mapped elsewhere, and the call that
asks for it leaves the free list alone. -/
theorem no_page_is_lost_unmapped : ∃ k, runFrom sparse allocUnmap = some k ∧
    Conserved (fun p => 2 ≤ p ∧ p < 64) k ∧
    ∃ k', (Call.page_map 0 0x1000000 0 0x1001000 7).run
        (k.saved 0 0 (sysTf SYS_page_map 0 0x1000000 0 0x1001000 7)) 0 0 = .ret (-E_INVAL) k' ∧
      SameFree k.pm k'.pm := by
  have hrun : (runFrom sparse allocUnmap).map (fun k =>
      (savingNow k (.trap 0 (sysTf SYS_page_map 0 0x1000000 0 0x1001000 7) 0),
        callOf k (.trap 0 (sysTf SYS_page_map 0 0x1000000 0 0x1001000 7) 0),
        ((Call.page_map 0 0x1000000 0 0x1001000 7).run
          (k.saved 0 0 (sysTf SYS_page_map 0 0x1000000 0 0x1001000 7)) 0 0).result?)) =
      some (true, some (0, .page_map 0 0x1000000 0 0x1001000 7), some (-E_INVAL)) := by
    decide +kernel
  have hnow : Along (fun k ev => savingNow k ev = true) sparse allocUnmap := by decide +kernel
  obtain ⟨k, hr, hfacts⟩ := Option.map_eq_some_iff.mp hrun
  simp only [Prod.mk.injEq] at hfacts
  obtain ⟨hsave, hcall, hret⟩ := hfacts
  obtain ⟨hsound, hcons⟩ := sparse_conserved
  have hall : Along Saving sparse allocUnmap :=
    runs.Along.imp (fun _ _ h => h.memory.saving_of_now)
      (fun _ _ _ h hf hs => sound_step h hf.1 (step_cases hs)) hsound hnow
  have hk : Sound (fun p => 2 ≤ p ∧ p < 64) k :=
    runFrom_keeps (fun _ _ _ h hf hs => sound_step h hf.1 hs) hsound hr hall
  obtain ⟨hkeep, hfail⟩ := no_page_is_lost hsound hcons hr hall
  refine ⟨k, hr, hkeep, ?_⟩
  obtain ⟨k', hcallrun⟩ := outcome.Outcome.result?_eq_some hret
  exact ⟨k', hcallrun, hfail _ _ _ _ _ _ _ (hk.memory.saving_of_now hsave) hcall hcallrun
    (show -E_INVAL ≠ 0 by decide)⟩

/-- An environment that does not exist is refused, and page 7, which was to be
its, is neither free nor in use from then on. -/
theorem refused_page_is_lost :
    (Sound (fun p => 2 ≤ p ∧ p < 64) sparse ∧ Conserved (fun p => 2 ≤ p ∧ p < 64) sparse) ∧
    ∃ k, runFrom sparse [.create onePage .ENV_TYPE_USER, .boot,
        .trap 0 (sysTf SYS_page_alloc 0x1234 0x1000000 7 0 0) 0] = some k ∧
      (k.envs 0).env_tf.tf_regs.reg_eax = BitVec.ofInt 32 (-E_BAD_ENV) ∧
      (∀ free, Chain k.pm.link k.pm.page_free_list free → 7 ∉ free) ∧
      ∀ r, slots k.pm k.dir r ≠ some 7 := by
  have hrun : (runFrom sparse [.create onePage .ENV_TYPE_USER, .boot,
      .trap 0 (sysTf SYS_page_alloc 0x1234 0x1000000 7 0 0) 0]).map (fun k =>
        ((k.envs 0).env_tf.tf_regs.reg_eax,
          decide (Chain k.pm.link k.pm.page_free_list (List.range' 8 56)), k.pm.ref 7)) =
      some (BitVec.ofInt 32 (-E_BAD_ENV), true, 0) := by decide +kernel
  have hnow : Along (fun k ev => fitsNow k ev = true) sparse [.create onePage .ENV_TYPE_USER, .boot,
      .trap 0 (sysTf SYS_page_alloc 0x1234 0x1000000 7 0 0) 0] := by decide +kernel
  obtain ⟨k, hr, hfacts⟩ := Option.map_eq_some_iff.mp hrun
  simp only [Prod.mk.injEq, decide_eq_true_eq] at hfacts
  obtain ⟨heax, hchain, href⟩ := hfacts
  have hboot := @zeroKernel_bootable 64 1 (by decide) (by decide)
  obtain ⟨free, ha⟩ := (sound_run hboot hr (along_fits hboot hnow)).memory.accounts
  refine ⟨sparse_conserved, k, hr, heax, fun free' hc h7 => ?_, fun r hr7 => ?_⟩
  · rw [hc.unique hchain] at h7
    simp at h7
  · have hpos := ha.ref_pos hr7
    rw [href] at hpos
    exact absurd hpos (by decide)

end jos
