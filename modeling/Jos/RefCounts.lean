-- The counts of references. As long as no page with 65535 references is
-- mapped once more, `pp_ref` counts the references of every page, and no
-- free page is mapped. Nothing stops a program from mapping a page that
-- often: then the count starts again at 0, and the page is freed while it
-- is still mapped.
import Jos.Mappings

namespace jos

open linked_list (Chain)
open outcome (Outcome)

/-! ## As long as there is room -/

/-- What a call gives to `page_insert` has room for a reference. -/
theorem Memory.given_room {kept : Nat → Prop} {k : Kernel} {cur e : EnvIx} {call : Call} {va : Word}
    {p : Nat} (h : Memory kept k) (hfit : Fitting k cur call)
    (hg : call.given k cur = some (e, va, p)) : (k.pm.ref p).toNat < 65535 := by
  cases call with
  | page_alloc envid va' perm =>
    simp only [Call.given] at hg
    split at hg
    · obtain ⟨q, hq, hfq⟩ := Option.map_eq_some_iff.mp hg
      obtain ⟨free, ha⟩ := h.accounts
      obtain ⟨rest, rfl⟩ := ha.chain.eq_cons hq
      cases hfq
      rw [ha.ref_free (List.mem_cons_self ..)]
      decide
    · cases hg
  | page_map srcenvid srcva dstenvid dstva perm =>
    simp only [Call.given] at hg
    split at hg
    · rename_i src dst hsrc hdst
      split at hg
      · rename_i hva
        obtain ⟨q, hq, hfq⟩ := Option.map_eq_some_iff.mp hg
        cases hfq
        rw [h.count_pageAt hva hq]
        exact hfit.2 src p hsrc hq
      · cases hg
    · cases hg
  | ipc_try_send envid value srcva perm =>
    simp only [Call.given] at hg
    split at hg
    · split at hg
      · rename_i hva
        obtain ⟨q, hq, hfq⟩ := Option.map_eq_some_iff.mp hg
        cases hfq
        rw [h.count_pageAt hva.1 hq]
        exact (hfit hva.1).2 p hq
      · cases hg
    · cases hg
  | _ => cases hg

/-- In every run in which no call meddles, asks for permissions from `0x1000`
on, or maps a page that has 65535 references: `pp_ref` counts the
references of every page, no free page has any, and no count wraps. -/
theorem reference_counts_hold {kept : Nat → Prop} {k₀ k : Kernel} {evs : List Event}
    (hboot : Bootable kept k₀) (hr : runFrom (env_init k₀) evs = some k)
    (hfits : Along Fits (env_init k₀) evs) :
    (∀ p, kept p → (k.pm.ref p).toNat = refs k.pm k.dir p) ∧
    (∃ free, Chain k.pm.link k.pm.page_free_list free ∧
      ∀ p ∈ free, ∀ r, slots k.pm k.dir r ≠ some p) ∧
    ∀ ev cur call e va p, Fits k ev → callOf k ev = some (cur, call) →
      call.given k cur = some (e, va, p) → (k.pm.ref p).toNat < 65535 := by
  have hsound := sound_run hboot hr hfits
  obtain ⟨free, ha⟩ := hsound.memory.accounts
  refine ⟨fun p hp => ha.count hp, ⟨free, ha.chain, fun p hp => ha.unnamed hp⟩, ?_⟩
  intro ev cur call e va p hev hcall hg
  exact hsound.memory.given_room (hev.2 cur call hcall) hg

/-- The first environment maps its program once more, and unmaps it again. -/
def mapAndUnmap : List Event :=
  [.create onePage .ENV_TYPE_USER, .boot,
    .trap 0 (sysTf SYS_page_map 0 0x800000 0 0x1000000 5) 0,
    .trap 0 (sysTf SYS_page_unmap 0 0x800000 0 0 0) 0]

theorem reference_counts_hold_unmap :
    ∃ k, runFrom (env_init (zeroKernel 64 (by decide) 1)) mapAndUnmap = some k ∧
      k.pageAt 0 0x1000000 = some 3 ∧ refs k.pm k.dir 3 = 1 := by
  have hrun : (runFrom (env_init (zeroKernel 64 (by decide) 1)) mapAndUnmap).map
      (fun k => (k.pageAt 0 0x1000000, k.pm.ref 3)) = some (some 3, 1) := by decide +kernel
  have hnow : Along (fun k ev => fitsNow k ev = true)
      (env_init (zeroKernel 64 (by decide) 1)) mapAndUnmap := by decide +kernel
  obtain ⟨k, hr, hfacts⟩ := Option.map_eq_some_iff.mp hrun
  obtain ⟨hpage, href⟩ := Prod.mk.inj hfacts
  have hboot := @zeroKernel_bootable 64 1 (by decide) (by decide)
  have hcount := (reference_counts_hold hboot hr (along_fits hboot hnow)).1 3 (by decide)
  exact ⟨k, hr, hpage, by rw [← hcount, href]; rfl⟩

/-! ## A call that returns -/

/-- CPU 0 runs environment 0, in directory `d`. -/
structure Running (k : Kernel) (d : Nat) : Prop where
  mode : (k.cpus 0).mode = .user
  awake : (k.cpus 0).cpu_status ≠ .CPU_HALTED
  lock : k.kernel_lock = none
  cur : k.curenv 0 = some 0
  status : k.status 0 = .ENV_RUNNING
  dir : k.dir 0 = some d

/-- A system call that returns, and leaves its environment running. -/
theorem step_ret {k k₁ : Kernel} {c d : Nat} {cur : EnvIx} {tf : Trapframe} {cr2 : Word} {r : Int}
    (hmode : (k.cpus c).mode = .user) (hon : (k.cpus c).cpu_status ≠ .CPU_HALTED)
    (hlock : k.kernel_lock = none) (hcur : k.curenv c = some cur)
    (hrun : k.status cur = .ENV_RUNNING) (hload : tf.loadable = true)
    (hno : tf.tf_trapno = T_SYSCALL) (hret : tf.call.run (k.saved c cur tf) c cur = .ret r k₁)
    (hcur₁ : k₁.curenv c = some cur) (hrun₁ : k₁.status cur = .ENV_RUNNING)
    (hlock₁ : k₁.kernel_lock = some c) (hdir₁ : k₁.dir cur = some d)
    (hload₁ : (k₁.envs cur).env_tf.loadable = true) :
    step k (.trap c tf cr2) = some ((setEax k₁ cur r).switch c cur d) := by
  have hreturn : trap_return (setEax k₁ cur r) c = .left ((setEax k₁ cur r).switch c cur d) := by
    have hst : (setEax k₁ cur r).status cur = .ENV_RUNNING :=
      (congrFun (Kernel.setEnv_status_same rfl) cur).trans hrun₁
    have hd : (setEax k₁ cur r).dir cur = some d :=
      (congrFun (Kernel.setEnv_dir_same rfl) cur).trans hdir₁
    have hc : (setEax k₁ cur r).curenv c = some cur := hcur₁
    have hl : (setEax k₁ cur r).kernel_lock = some c := hlock₁
    have htf : ((setEax k₁ cur r).envs cur).env_tf.loadable = true := by
      simpa [setEax, Trapframe.loadable] using hload₁
    simp only [trap_return, hc, hst, if_true, env_run_eq, hd, hl, htf, ne_eq, not_true_eq_false,
      if_false]
  have htrap : trap k c tf cr2 = _ := trap_syscall hon hlock hcur hrun (loadable_user hload) hno
  rw [hret] at htrap
  have htrap := htrap.trans hreturn
  simp only [step, enter, hmode, hlock, hload, and_self, if_true, htrap]
  rfl

theorem sysTf_loadable (syscallno a1 a2 a3 a4 a5 : Word) :
    (sysTf syscallno a1 a2 a3 a4 a5).loadable = true := by
  show initialTf.loadable = true
  decide

/-- A call of environment 0 that changes the pages alone. -/
theorem Running.pages {k : Kernel} {d : Nat} {tf : Trapframe} {call : Call} {r : Int} {pm : Phys}
    (h : Running k d) (hload : tf.loadable = true) (hno : tf.tf_trapno = T_SYSCALL)
    (hcall : tf.call = call)
    (hret : call.run (k.saved 0 0 tf) 0 0 = .ret r ((k.saved 0 0 tf).withPm pm)) :
    ∃ k', step k (.trap 0 tf 0) = some k' ∧ Running k' d ∧ k'.pm = pm ∧ k'.dir = k.dir := by
  subst hcall
  have hdir : ((k.saved 0 0 tf).withPm pm).dir = k.dir := Kernel.saved_dir k 0 0 tf
  have hcur : ((k.saved 0 0 tf).withPm pm).curenv 0 = some 0 :=
    (congrFun (Kernel.saved_curenv k 0 0 tf) 0).trans h.cur
  have hst : ((k.saved 0 0 tf).withPm pm).status 0 = .ENV_RUNNING :=
    (congrFun (Kernel.saved_status k 0 0 tf) 0).trans h.status
  have hload' : (((k.saved 0 0 tf).withPm pm).envs 0).env_tf.loadable = true := by simpa using hload
  have hd : ((k.saved 0 0 tf).withPm pm).dir 0 = some d := by rw [hdir]; exact h.dir
  refine ⟨_, step_ret h.mode h.awake h.lock h.cur h.status hload hno hret hcur hst rfl hd hload',
    ?_, ?_, ?_⟩
  · refine ⟨?_, ?_, rfl, ?_, ?_, ?_⟩
    · simp
    · simp [setEax]
    · simp [Kernel.curenv]
    · rw [Kernel.switch_status, Function.update_self]
    · rw [Kernel.switch_dir]
      exact (congrFun (Kernel.setEnv_dir_same rfl) 0).trans hd
  · rw [Kernel.switch_pm]; rfl
  · rw [Kernel.switch_dir]
    exact (Kernel.setEnv_dir_same rfl).trans hdir

/-- Environment 0 maps one of its pages at another address, without `PTE_W`. -/
theorem map_ret {k : Kernel} {c d p : Nat} {srcva dstva perm : Word} {pte : PteAddr} {pm : Phys}
    (hd : k.dir 0 = some d) (hsrc : srcva < UTOP) (hdst : dstva < UTOP)
    (hsrc' : unaligned srcva = false) (hdst' : unaligned dstva = false)
    (hperm : badPerm perm = false) (hw : perm &&& PTE_W = 0)
    (hlook : page_lookup k.pm d srcva = .ok (some (p, pte)))
    (hins : page_insert k.pm d p dstva perm = .ok (0, pm)) :
    (Call.page_map 0 srcva 0 dstva perm).run k c 0 = .ret 0 (k.withPm pm) := by
  have hd : (k.envs 0).env_pgdir = some d := hd
  have hnot : ¬ (srcva ≥ UTOP ∨ dstva ≥ UTOP) := by
    simp only [ge_iff_le, not_or, BitVec.not_le]
    exact ⟨hsrc, hdst⟩
  simp only [Call.run, sys_page_map, envid2env, if_true, hnot, if_false, hsrc', hdst', hd, hlook,
    hperm, hw, insertIn, hins]
  simp

theorem unmap_ret {k : Kernel} {c d : Nat} {va : Word} {pm : Phys} (hd : k.dir 0 = some d)
    (hva : va < UTOP) (hva' : unaligned va = false) (hrem : page_remove k.pm d va = .ok pm) :
    (Call.page_unmap 0 va).run k c 0 = .ret 0 (k.withPm pm) := by
  have hd : (k.envs 0).env_pgdir = some d := hd
  have hnot : ¬ va ≥ UTOP := by simpa using hva
  simp only [Call.run, sys_page_unmap, envid2env, if_true, hnot, hva', hd, hrem, Bool.false_eq_true,
    or_self, if_false]

/-! ## One page, mapped again and again -/

section aliases

variable {ι : Type} {s : Phys} {dir : ι → Option Nat} {free : List Nat} {o : ι} {d p t : Nat}
  {va perm : Word}

theorem insertAt_none {j : Nat} (h : pageOf (s.mem t j) = none) :
    s.insertAt t j p perm = (s.write t j (pteFor p perm)).incref p := by
  simp only [Phys.insertAt, h]

theorem Separated.insert_none {i j : Nat} (hs : Separated s dir free) (ho : dir o = some d)
    (hi : i < NPDU) (ht : table s d i = some t) (hnone : pageOf (s.mem t j) = none) :
    Separated (s.insertAt t j p perm) dir free := by
  have hap := hs.toApart.write (j := j) (w := pteFor p perm) ho hi ht
  have htab : ∀ {o' d' i'}, dir o' = some d' →
      table (s.insertAt t j p perm) d' i' = table s d' i' :=
    fun ho' => table_insertAt hs.toApart ho hi ht ho'
  rw [insertAt_none hnone] at htab ⊢
  refine ⟨⟨hap.table_lt, hap.table_dir, hap.table_inj⟩, ?_, hs.free_lt, hs.free_dir, ?_⟩
  · rw [Phys.incref_link, Phys.incref_free]
    exact hs.chain
  · intro q hq o' d' i' ho' hi'
    rw [htab ho']
    exact hs.free_table q hq o' d' i' ho' hi'

/-- The page is not itself a directory or a page table. -/
def DataPage (s : Phys) (dir : ι → Option Nat) (p : Nat) : Prop :=
  (∀ o, dir o ≠ some p) ∧ ∀ o d i, dir o = some d → i < NPDU → table s d i ≠ some p

/-- A page is mapped where nothing was, and counts one reference more, modulo
2^16. At most one free page is used, for a page table. -/
theorem page_insert_alias (hs : Separated s dir free) (ho : dir o = some d) (hva : va < UTOP)
    (hp : p < s.npages) (hpf : p ∉ free) (hdata : DataPage s dir p)
    (hnone : pageOf (pteAt s d (PDX va) (PTX va)) = none)
    (hroom : table s d (PDX va) = none → free ≠ []) :
    ∃ s' free', page_insert s d p va perm = .ok (0, s') ∧ Separated s' dir free' ∧
      s'.ref p = s.ref p + 1 ∧ DataPage s' dir p ∧
      EntrySet s s' dir d (PDX va) (PTX va) (pteFor p perm) ∧
      (table s d (PDX va) ≠ none ∧ free' = free ∨
        table s d (PDX va) = none ∧ ∃ q, free = q :: free') := by
  have hi := PDX_lt_NPDU hva
  rcases page_insert_cases perm hs ho hva hp with ⟨t, ht, he⟩ | ⟨ht, hf, -⟩ | ⟨q, rest, ht, rfl, he⟩
  · have hempty : pageOf (s.mem t (PTX va)) = none := by
      simpa [pteAt, entry, ht] using hnone
    refine ⟨_, free, he, hs.insert_none ho hi ht hempty, ?_, ⟨hdata.1, fun o' d' i' ho' hi' => ?_⟩,
      entrySet_insertAt hs.toApart ho hi ht, Or.inl ⟨by simp [ht], rfl⟩⟩
    · rw [insertAt_none hempty]
      simp
    · rw [table_insertAt hs.toApart ho hi ht ho']
      exact hdata.2 o' d' i' ho' hi'
  · exact absurd hf (hroom ht)
  · have hq : q ∈ q :: rest := List.mem_cons_self ..
    have hqd : q ≠ d := fun hqd => hs.free_dir q hq o (hqd ▸ ho)
    have hpq : p ≠ q := fun hpq => hpf (hpq ▸ hq)
    have ht₁ : table (s.newTable d (PDX va) q) d (PDX va) = some q := by
      rw [table_newTable hs hq ho]; simp
    have hempty : pageOf ((s.newTable d (PDX va) q).mem q (PTX va)) = none := by
      simp [Phys.newTable_mem, hqd]
    have hs₁ : Separated (s.newTable d (PDX va) q) dir rest := Separated.newTable hs
    refine ⟨_, rest, he, hs₁.insert_none ho hi ht₁ hempty, ?_,
      ⟨hdata.1, fun o' d' i' ho' hi' => ?_⟩, entrySet_newTable hs ho hi ht, Or.inr ⟨ht, q, rfl⟩⟩
    · rw [insertAt_none hempty]
      simp [hpq]
    · rw [table_insertAt hs₁.toApart ho hi ht₁ ho', table_newTable hs hq ho']
      split
      · simpa using hpq.symm
      · exact hdata.2 o' d' i' ho' hi'

/-- A page is unmapped: its entry is cleared, and it counts one reference
less. -/
theorem page_remove_alias (hs : Apart s dir) (ho : dir o = some d) (hva : va < UTOP)
    (hp : pageOf (pteAt s d (PDX va) (PTX va)) = some p) :
    ∃ t, table s d (PDX va) = some t ∧
      page_remove s d va = .ok ((s.decref p).write t (PTX va) 0) ∧
      EntrySet s ((s.decref p).write t (PTX va) 0) dir d (PDX va) (PTX va) 0 ∧
      Apart ((s.decref p).write t (PTX va) 0) dir := by
  have hi := PDX_lt_NPDU hva
  rcases page_remove_cases hs ho hva with ⟨hnone, -⟩ | ⟨t, q, ht, hq, he⟩
  · rw [hp] at hnone; cases hnone
  · have hpq : q = p := by
      simp only [pteAt, entry, ht, Option.map_some, Option.getD_some] at hp
      exact Option.some.inj (hq.symm.trans hp)
    subst hpq
    exact ⟨t, ht, he, entrySet_unlink hs ho hi ht,
      (hs.decref q).write ho hi (by simpa using ht)⟩

/-- A page that counts one reference is freed with it, wherever else it may be
mapped. -/
theorem Separated.freed {i j : Nat} (hs : Separated s dir free) (ho : dir o = some d)
    (hi : i < NPDU) (ht : table s d i = some t) (href : s.ref p = 1) (hpf : p ∉ free)
    (hlt : p < s.npages) (hdata : DataPage s dir p) :
    Separated ((s.decref p).write t j 0) dir (p :: free) := by
  have ht' : table (s.decref p) d i = some t := by simpa using ht
  have hzero : s.ref p - 1 = 0 := by rw [href]; rfl
  have htab : ∀ {o' d' i'}, dir o' = some d' →
      table ((s.decref p).write t j 0) d' i' = table s d' i' := by
    intro o' d' i' ho'
    rw [table_write (hs.toApart.decref p) ho hi ht' ho', table_decref]
  refine ⟨(hs.toApart.decref p).write ho hi ht', ?_, ?_, ?_, ?_⟩
  · rw [Phys.write_link, Phys.write_free, Phys.decref_link, Phys.decref_free, if_pos hzero,
      if_pos hzero]
    exact hs.chain.push hpf
  · intro q hq
    rw [Phys.write_npages, Phys.decref_npages]
    rcases List.mem_cons.mp hq with rfl | hq
    · exact hlt
    · exact hs.free_lt q hq
  · intro q hq
    rcases List.mem_cons.mp hq with rfl | hq
    · exact hdata.1
    · exact hs.free_dir q hq
  · intro q hq o' d' i' ho' hi'
    rw [htab ho']
    rcases List.mem_cons.mp hq with rfl | hq
    · exact hdata.2 o' d' i' ho' hi'
    · exact hs.free_table q hq o' d' i' ho' hi'

end aliases

/-- The address of alias number `m`: page after page from 16 MB on. -/
def aliasVa (m : Nat) : Word := BitVec.ofNat 32 (0x1000000 + m * 0x1000)

/-- The number of aliases that there are addresses for here. -/
def NALIAS : Nat := 66 * 1024

section aliasVa

variable {m : Nat} (hm : m < NALIAS)
include hm

theorem aliasVa_toNat : (aliasVa m).toNat = 0x1000000 + m * 0x1000 := by
  simp only [NALIAS] at hm
  rw [aliasVa, BitVec.toNat_ofNat]
  omega

theorem aliasVa_lt : aliasVa m < UTOP := by
  have h := aliasVa_toNat hm
  simp only [NALIAS] at hm
  rw [BitVec.lt_def, UTOP_toNat, h]
  omega

theorem aliasVa_PDX : PDX (aliasVa m) = 4 + m / 1024 := by
  rw [PDX_eq, aliasVa_toNat hm]
  omega

theorem aliasVa_PTX : PTX (aliasVa m) = m % 1024 := by
  rw [PTX_eq, aliasVa_toNat hm]
  omega

theorem aliasVa_aligned : unaligned (aliasVa m) = false := by
  have h : (aliasVa m % 0x1000).toNat = 0 := by
    rw [BitVec.toNat_umod, aliasVa_toNat hm]
    show (0x1000000 + m * 0x1000) % 4096 = 0
    omega
  have h0 : aliasVa m % 0x1000 = 0 := BitVec.eq_of_toNat_eq h
  rw [unaligned, h0]
  rfl

end aliasVa

/-- Page `p` of directory `d` is mapped at 0x800000 and at the first `m` aliases,
and counts that modulo 2^16. -/
structure Aliased (dir : EnvIx → Option Nat) (d p m : Nat) (s : Phys) : Prop where
  free : ∃ free, Separated s dir free ∧ p ∉ free ∧ 66 ≤ free.length + (m + 1023) / 1024
  lt : p < s.npages
  data : DataPage s dir p
  count : s.ref p = BitVec.ofNat 16 (m + 1)
  source : pageOf (pteAt s d (PDX 0x800000) (PTX 0x800000)) = some p
  mapped : ∀ m' < m, pageOf (pteAt s d (4 + m' / 1024) (m' % 1024)) = some p
  clear : ∀ m', m ≤ m' → m' < NALIAS → pageOf (pteAt s d (4 + m' / 1024) (m' % 1024)) = none
  gap : table s d 128 = none

theorem table_of_pte {s : Phys} {d p i j : Nat} (h : pageOf (pteAt s d i j) = some p) :
    table s d i ≠ none := by
  intro hn
  simp [pteAt, entry, hn] at h

theorem Aliased.lookup {dir : EnvIx → Option Nat} {d p m : Nat} {s : Phys}
    (h : Aliased dir d p m s) (ho : dir 0 = some d) :
    ∃ a, page_lookup s d 0x800000 = .ok (some (p, a)) := by
  obtain ⟨free, hs, -, -⟩ := h.free
  have hi : PDX 0x800000 < NPDU := PDX_lt_NPDU (by decide)
  rw [page_lookup_eq fun t => hs.table_lt 0 d _ t ho hi]
  rcases ht : table s d (PDX 0x800000) with _ | t
  · exact absurd ht (table_of_pte h.source)
  · have hpage := h.source
    simp only [pteAt, entry, ht, Option.map_some, Option.getD_some] at hpage
    exact ⟨⟨t, PTX 0x800000⟩, by rw [jos.lookup, ht, Option.bind_some, hpage]; rfl⟩

theorem Aliased.more {dir : EnvIx → Option Nat} {d p m : Nat} {s : Phys} (h : Aliased dir d p m s)
    (ho : dir 0 = some d) (hm : m < NALIAS) :
    ∃ s', page_insert s d p (aliasVa m) 5 = .ok (0, s') ∧ Aliased dir d p (m + 1) s' := by
  obtain ⟨free, hs, hpf, hlen⟩ := h.free
  have hva := aliasVa_lt hm
  have hroom : table s d (PDX (aliasVa m)) = none → m % 1024 = 0 := by
    intro hn
    by_contra hne
    -- the alias before this one is in the same page table
    refine table_of_pte (h.mapped (m - 1) (by omega)) ?_
    rw [show (m - 1) / 1024 = m / 1024 by omega, ← aliasVa_PDX hm]
    exact hn
  have hm' : m < 66 * 1024 := hm
  obtain ⟨s', free', he, hs', href, hdata, hset, hfree⟩ := @page_insert_alias _ _ _ _ _ _ _ _ 5 hs ho hva
    h.lt hpf h.data (by rw [aliasVa_PDX hm, aliasVa_PTX hm]; exact h.clear m (Nat.le_refl m) hm)
    (fun hn hnil => by
      have hmod := hroom hn
      rw [hnil, List.length_nil] at hlen
      omega)
  have hpte : ∀ i j, i < NPDU → pteAt s' d i j =
      if i = 4 + m / 1024 ∧ j = m % 1024 then pteFor p 5 else pteAt s d i j := by
    intro i j hi
    rw [hset.pteAt 0 d i j ho hi, aliasVa_PDX hm, aliasVa_PTX hm]
    simp
  have hlt : p < 2 ^ 20 := by have := s.npages_le; have := h.lt; omega
  have hnpdu : ∀ m' < NALIAS, 4 + m' / 1024 < NPDU := by
    intro m' hm'
    simp only [NALIAS] at hm'
    rw [NPDU_eq]
    omega
  refine ⟨s', he, ⟨free', hs', ?_, ?_⟩, ?_, hdata, ?_, ?_, ?_, ?_, ?_⟩
  · rcases hfree with ⟨-, rfl⟩ | ⟨-, q, rfl⟩
    · exact hpf
    · exact fun hx => hpf (List.mem_cons_of_mem _ hx)
  · rcases hfree with ⟨-, rfl⟩ | ⟨hn, q, rfl⟩
    · omega
    · have hmod := hroom hn
      rw [List.length_cons] at hlen
      omega
  · rw [hset.npages]; exact h.lt
  · rw [href, h.count]
    exact (BitVec.ofNat_add (m + 1) 1).symm
  · rw [hpte _ _ (PDX_lt_NPDU (by decide)), if_neg (fun hx => by
      have h2 : PDX 0x800000 = 2 := by decide
      omega)]
    exact h.source
  · intro m' hm'
    rw [hpte _ _ (hnpdu m' (by omega))]
    split
    · exact pageOf_pteFor hlt (by decide)
    · exact h.mapped m' (by omega)
  · intro m' hm' hlt'
    rw [hpte _ _ (hnpdu m' hlt'), if_neg (fun hx => by omega)]
    exact h.clear m' (by omega) hlt'
  · rw [hset.table 0 d 128 ho (by decide) (Or.inr fun hx => by rw [aliasVa_PDX hm] at hx; omega)]
    exact h.gap

/-- Environment 0 maps its program at alias `m`, for reading. -/
def aliasEvent (m : Nat) : Event := .trap 0 (sysTf SYS_page_map 0 0x800000 0 (aliasVa m) 5) 0

/-- Boot, and the first `n` aliases. -/
def aliasRun (n : Nat) : List Event :=
  [.create onePage .ENV_TYPE_USER, .boot] ++ (List.range n).map aliasEvent

/-- A machine of 128 pages, on which environment 0 has been started with directory
2 and with page 3 at 0x800000. -/
def crowded : Kernel := env_init (zeroKernel 128 (by decide) 1)

theorem aliasRun_zero :
    ∃ k, runFrom crowded (aliasRun 0) = some k ∧ Running k 2 ∧ Aliased k.dir 2 3 0 k.pm := by
  have hcpu : (runFrom crowded (aliasRun 0)).map (fun k =>
      ((k.cpus 0).mode, (k.cpus 0).cpu_status, k.kernel_lock)) =
      some (.user, .CPU_UNUSED, none) := by decide +kernel
  have henv : (runFrom crowded (aliasRun 0)).map (fun k => (k.curenv 0, k.status 0, k.dir 0)) =
      some (some 0, .ENV_RUNNING, some 2) := by decide +kernel
  have hpages : (runFrom crowded (aliasRun 0)).map (fun k =>
      (decide (Chain k.pm.link k.pm.page_free_list (List.range' 7 121)), k.pm.npages, k.pm.ref 3,
        k.pageAt 0 0x800000, (4 :: 128 :: List.range' 5 65).all fun i => table k.pm 2 i == none)) =
      some (true, 128, 1, some 3, true) := by decide +kernel
  have hnow : Along (fun k ev => fitsNow k ev = true) crowded (aliasRun 0) := by decide +kernel
  obtain ⟨k, hr, hcpu⟩ := Option.map_eq_some_iff.mp hcpu
  rw [hr, Option.map_some, Option.some_inj] at henv hpages
  simp only [Prod.mk.injEq, decide_eq_true_eq, List.all_eq_true, beq_iff_eq] at hcpu henv hpages
  obtain ⟨hmode, hon, hlock⟩ := hcpu
  obtain ⟨hcur, hst, hdir⟩ := henv
  obtain ⟨hchain, hn, href, hpage, htab⟩ := hpages
  have hboot := @zeroKernel_bootable 128 1 (by decide) (by decide)
  obtain ⟨free, ha⟩ := (sound_run hboot hr (along_fits hboot hnow)).memory.accounts
  obtain rfl := ha.chain.unique hchain
  have hpte : pageOf (pteAt k.pm 2 (PDX 0x800000) (PTX 0x800000)) = some 3 := by
    simpa [Kernel.pageAt, hdir] using hpage
  have hdata : DataPage k.pm k.dir 3 := by
    have hshared := ha.mapped_shared (slot_of_pte hdir (by decide) hpte)
    exact ⟨fun o ho => hshared (.own o) ho,
      fun o d i ho hi ht => hshared (.pde o ⟨i, hi⟩) ((slots_pde hi ho).trans ht)⟩
  refine ⟨k, hr, ⟨hmode, by simp [hon], hlock, hcur, hst, hdir⟩, ⟨_, ha.separated, by simp, by simp⟩,
    by omega, hdata, href, hpte, fun m' hm' => absurd hm' (by omega), fun m' _ hm' => ?_, ?_⟩
  · have hm' : m' < 66 * 1024 := hm'
    simp [pteAt, entry, htab (4 + m' / 1024) (by simp; omega)]
  · exact htab 128 (by simp)

theorem aliasRun_keeps {n : Nat} (hn : n ≤ NALIAS) :
    ∃ k, runFrom crowded (aliasRun n) = some k ∧ Running k 2 ∧ Aliased k.dir 2 3 n k.pm := by
  induction n with
  | zero => exact aliasRun_zero
  | succ n ih =>
    obtain ⟨k, hr, hrun, hal⟩ := ih (by omega)
    have hn : n < NALIAS := by omega
    obtain ⟨pm, hins, hal'⟩ := hal.more hrun.dir hn
    obtain ⟨a, hlook⟩ := hal.lookup hrun.dir
    have hcall : (sysTf SYS_page_map 0 0x800000 0 (aliasVa n) 5).call =
        .page_map 0 0x800000 0 (aliasVa n) 5 := rfl
    have hsaved := (congrFun (Kernel.saved_dir k 0 0 (sysTf SYS_page_map 0 0x800000 0 (aliasVa n) 5))
      0).trans hrun.dir
    obtain ⟨k', hstep, hrun', hpm, hdir⟩ := hrun.pages (sysTf_loadable ..) rfl hcall
      (map_ret hsaved (by decide) (aliasVa_lt hn) (by decide) (aliasVa_aligned hn) (by decide)
        (by decide) hlook hins)
    refine ⟨k', ?_, hrun', ?_⟩
    · rw [aliasRun, List.range_succ, List.map_append, ← List.append_assoc]
      exact runs.runFrom_snoc hr hstep
    · rw [hdir, hpm]
      exact hal'

/-- Page `p` is the first free page, and is still mapped at 0x800000 and at the
aliases from alias 1 on. -/
structure Stale (dir : EnvIx → Option Nat) (d p : Nat) (s : Phys) : Prop where
  free : ∃ free, Separated s dir (p :: free)
  source : pageOf (pteAt s d (PDX 0x800000) (PTX 0x800000)) = some p
  mapped : ∀ m, 1 ≤ m → m < 65536 → pageOf (pteAt s d (4 + m / 1024) (m % 1024)) = some p
  gap : table s d 128 = none

/-- After 65536 aliases the page counts one reference, and the first alias to go
frees it. -/
theorem Aliased.stale {dir : EnvIx → Option Nat} {d p : Nat} {s : Phys}
    (h : Aliased dir d p 65536 s) (ho : dir 0 = some d) :
    ∃ s', page_remove s d (aliasVa 0) = .ok s' ∧ Stale dir d p s' := by
  obtain ⟨free, hs, hpf, -⟩ := h.free
  have hva : aliasVa 0 < UTOP := by decide
  have hat : PDX (aliasVa 0) = 4 ∧ PTX (aliasVa 0) = 0 := by decide
  obtain ⟨t, ht, he, hset, -⟩ := page_remove_alias hs.toApart ho hva
    (by rw [hat.1, hat.2]; exact h.mapped 0 (by omega))
  have hpte : ∀ i j, i < NPDU → ¬ (i = 4 ∧ j = 0) →
      pteAt ((s.decref p).write t (PTX (aliasVa 0)) 0) d i j = pteAt s d i j := by
    intro i j hi hne
    rw [hset.pteAt 0 d i j ho hi, hat.1, hat.2, if_neg fun hx => hne hx.2]
  have hcount : s.ref p = 1 := h.count
  refine ⟨_, he, ⟨free, hs.freed ho (PDX_lt_NPDU hva) ht hcount hpf h.lt h.data⟩, ?_, ?_, ?_⟩
  · rw [hpte _ _ (PDX_lt_NPDU (by decide)) (by decide)]
    exact h.source
  · intro m h1 hm
    have hi : 4 + m / 1024 < NPDU := by rw [NPDU_eq]; omega
    rw [hpte _ _ hi (by omega)]
    exact h.mapped m hm
  · rw [hset.table 0 d 128 ho (by decide) (Or.inr fun hx => by rw [hat.1] at hx; omega)]
    exact h.gap

/-- One of the aliases is unmapped. -/
def unmapAlias (m : Nat) : Event := .trap 0 (sysTf SYS_page_unmap 0 (aliasVa m) 0 0 0) 0

theorem Running.unmap {k : Kernel} {d m : Nat} {pm : Phys} (h : Running k d) (hm : m < NALIAS)
    (hrem : page_remove k.pm d (aliasVa m) = .ok pm) :
    ∃ k', step k (unmapAlias m) = some k' ∧ Running k' d ∧ k'.pm = pm ∧ k'.dir = k.dir := by
  have hcall : (sysTf SYS_page_unmap 0 (aliasVa m) 0 0 0).call = .page_unmap 0 (aliasVa m) := rfl
  have hsaved := (congrFun (Kernel.saved_dir k 0 0 (sysTf SYS_page_unmap 0 (aliasVa m) 0 0 0))
    0).trans h.dir
  exact h.pages (sysTf_loadable ..) rfl hcall
    (unmap_ret hsaved (aliasVa_lt hm) (aliasVa_aligned hm) hrem)

theorem crowded_stale : ∃ k, runFrom crowded (aliasRun 65536 ++ [unmapAlias 0]) = some k ∧
    Running k 2 ∧ Stale k.dir 2 3 k.pm := by
  obtain ⟨k, hr, hrun, hal⟩ := aliasRun_keeps (n := 65536) (by decide)
  obtain ⟨pm, hrem, hstale⟩ := hal.stale hrun.dir
  obtain ⟨k', hstep, hrun', hpm, hdir⟩ := hrun.unmap (by decide) hrem
  refine ⟨k', runs.runFrom_snoc hr hstep, hrun', ?_⟩
  rw [hdir, hpm]
  exact hstale

/-- With 65535 references the next mapping makes the count of page 3 wrap to 0.
After one more, the page counts 1 reference, and when one of its aliases is
unmapped it is freed, while it is still mapped at 0x800000. -/
theorem mapping_a_page_wraps_its_count :
    (∃ k, runFrom crowded (aliasRun 65534) = some k ∧ k.pm.ref 3 = 65535) ∧
    (∃ k, runFrom crowded (aliasRun 65535) = some k ∧ k.pm.ref 3 = 0) ∧
    ∃ k, runFrom crowded (aliasRun 65536 ++ [unmapAlias 0]) = some k ∧
      k.pm.page_free_list = some 3 ∧ k.pageAt 0 0x800000 = some 3 := by
  have hcount : ∀ n ≤ NALIAS, ∃ k, runFrom crowded (aliasRun n) = some k ∧
      k.pm.ref 3 = BitVec.ofNat 16 (n + 1) := by
    intro n hn
    obtain ⟨k, hr, -, hal⟩ := aliasRun_keeps hn
    exact ⟨k, hr, hal.count⟩
  refine ⟨hcount 65534 (by decide), hcount 65535 (by decide), ?_⟩
  obtain ⟨k, hr, hrun, hstale⟩ := crowded_stale
  obtain ⟨free, hs⟩ := hstale.free
  refine ⟨k, hr, hs.chain.1, ?_⟩
  have hpage := hstale.source
  simpa only [Kernel.pageAt, hrun.dir, Option.bind_some] using hpage

end jos
