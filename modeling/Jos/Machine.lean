-- The memory of the whole machine. Whatever the CPUs do, the accounts of the
-- pages stay right and the kernel's half of every address space stays as it
-- is, as long as the calls on pages ask for what the page tables can hold
-- and no environment is freed under a running CPU.
import Jos.OneCpu
import Jos.EnvPages

namespace jos

open linked_list (Chain)
open ledger

/-! ## The invariant -/

/-- The entries of `kern_pgdir` are empty below `UTOP`, name pages of the machine
above it, and stand in every live directory, but for the one at `UVPT`. -/
structure KernelHalf (kept : Nat → Prop) (s : Phys) (dir : EnvIx → Option Nat) (kern : Nat) :
    Prop where
  own : ¬ kept kern
  low : ∀ i < NPDU, table s kern i = none
  tables : ∀ i t, NPDU ≤ i → i < NPTENTRIES → i ≠ PDX UVPT → table s kern i = some t → t < s.npages
  upper : ∀ o d i, dir o = some d → NPDU ≤ i → i < NPTENTRIES → i ≠ PDX UVPT →
    s.mem d i = s.mem kern i
  self : ∀ o d, dir o = some d → s.mem d (PDX UVPT) = page2pa d ||| PTE_P ||| PTE_U

/-- The accounts are right, the live environments are those with a page
directory, and the kernel's half is in place. -/
structure Memory (kept : Nat → Prop) (k : Kernel) : Prop where
  accounts : ∃ free, Accounted k.pm k.dir kept free
  live : ∀ e, k.dir e = none ↔ k.status e = .ENV_FREE
  kern : KernelHalf kept k.pm k.dir k.kern_pgdir

/-- No CPU is in the kernel, and the CPUs in user mode are in the address
spaces of their environments. -/
structure Sound (kept : Nat → Prop) (k : Kernel) : Prop where
  outside : Outside k
  listed : FreeListed k
  memory : Memory kept k
  cr3 : ∀ c e, k.mode c = .user → k.curenv c = some e → k.dir e = some (k.cpus c).cr3

/-- CPU `c` is in the kernel and may leave it. -/
structure Steady (kept : Nat → Prop) (k : Kernel) (c : Nat) : Prop where
  ready : Ready k c
  memory : Memory kept k
  cr3 : ∀ c' ≠ c, ∀ e, k.mode c' = .user → k.curenv c' = some e → k.dir e = some (k.cpus c').cr3

/-! ## The kernel's half -/

section kernel_half

variable {kept : Nat → Prop} {s s' : Phys} {dir : EnvIx → Option Nat} {kern p : Nat} {e : EnvIx}

theorem NPDU_le_UVPT : NPDU ≤ PDX UVPT := by decide

theorem KernelHalf.frame (h : KernelHalf kept s dir kern) (hk : KernelKept kept dir s s') :
    KernelHalf kept s' dir kern := by
  have hmem := hk.own kern h.own
  refine ⟨h.own, fun i hi => ?_, fun i t hi hlt hne ht => ?_, fun o d i ho hi hlt hne => ?_,
    fun o d ho => ?_⟩
  · unfold table; rw [hmem]; exact h.low i hi
  · unfold table at ht
    rw [hmem] at ht
    rw [hk.npages]
    exact h.tables i t hi hlt hne ht
  · rw [hk.upper o d i ho hi, hmem]; exact h.upper o d i ho hi hlt hne
  · rw [hk.upper o d _ ho NPDU_le_UVPT]; exact h.self o d ho

theorem KernelHalf.disown (h : KernelHalf kept s dir kern) :
    KernelHalf kept s (Function.update dir e none) kern := by
  have hsub : ∀ o d, Function.update dir e none o = some d → dir o = some d := by
    intro o d ho
    by_cases hoe : o = e
    · simp [hoe] at ho
    · rwa [Function.update_of_ne hoe] at ho
  exact ⟨h.own, h.low, h.tables, fun o d i ho => h.upper o d i (hsub o d ho),
    fun o d ho => h.self o d (hsub o d ho)⟩

theorem KernelHalf.newDir (h : KernelHalf kept s dir kern) (hp : kept p)
    (hfree : ∀ o, dir o ≠ some p) :
    KernelHalf kept (s.newDir kern p) (Function.update dir e (some p)) kern := by
  have hkp : kern ≠ p := fun he => h.own (he ▸ hp)
  have hmem : (s.newDir kern p).mem kern = s.mem kern := Phys.newDir_mem_ne hkp
  have hother : ∀ o d, o ≠ e → Function.update dir e (some p) o = some d →
      dir o = some d ∧ (s.newDir kern p).mem d = s.mem d := by
    intro o d hoe ho
    rw [Function.update_of_ne hoe] at ho
    exact ⟨ho, Phys.newDir_mem_ne fun he : d = p => hfree o (he ▸ ho)⟩
  refine ⟨h.own, fun i hi => ?_, fun i t hi hlt hne ht => ?_, fun o d i ho hi hlt hne => ?_,
    fun o d ho => ?_⟩
  · unfold table; rw [hmem]; exact h.low i hi
  · unfold table at ht
    rw [hmem] at ht
    rw [Phys.newDir_npages]
    exact h.tables i t hi hlt hne ht
  · by_cases hoe : o = e
    · rw [hoe, Function.update_self] at ho
      cases ho
      rw [Phys.newDir_mem hkp hlt hne, hmem]
    · obtain ⟨hd, hsame⟩ := hother o d hoe ho
      rw [hsame, hmem]
      exact h.upper o d i hd hi hlt hne
  · by_cases hoe : o = e
    · rw [hoe, Function.update_self] at ho
      cases ho
      simp [Phys.newDir, Phys.write_mem]
    · obtain ⟨hd, hsame⟩ := hother o d hoe ho
      rw [hsame]
      exact h.self o d hd

end kernel_half

/-! ## What changes memory -/

section memory

variable {kept : Nat → Prop} {k : Kernel} {c : Nat} {e cur : EnvIx} {pm : Phys}

/-- What matters to memory is the pages, the directories and who is free. -/
theorem Memory.congr {k' : Kernel} (h : Memory kept k) (hpm : k'.pm = k.pm) (hdir : k'.dir = k.dir)
    (hkern : k'.kern_pgdir = k.kern_pgdir)
    (hfree : ∀ e, k'.status e = .ENV_FREE ↔ k.status e = .ENV_FREE) : Memory kept k' := by
  refine ⟨?_, fun e => ?_, ?_⟩
  · rw [hpm, hdir]; exact h.accounts
  · rw [hdir, hfree]; exact h.live e
  · rw [hpm, hdir, hkern]; exact h.kern

theorem Memory.withPm {free : List Nat} (h : Memory kept k) (ha : Accounted pm k.dir kept free)
    (hk : KernelKept kept k.dir k.pm pm) : Memory kept (k.withPm pm) :=
  ⟨⟨free, ha⟩, h.live, h.kern.frame hk⟩

/-- A slot changes, and neither its directory nor whether it is free. -/
theorem Memory.setEnv {f : Env → Env} (h : Memory kept k)
    (hdir : (f (k.envs e)).env_pgdir = (k.envs e).env_pgdir)
    (hst : (f (k.envs e)).env_status = .ENV_FREE ↔ (k.envs e).env_status = .ENV_FREE) :
    Memory kept (k.setEnv e f) := by
  refine h.congr rfl (Kernel.setEnv_dir_same hdir) rfl fun x => ?_
  rw [Kernel.setEnv_status, Function.update_apply]
  split
  · rename_i hx; rw [hx]; exact hst
  · rfl

theorem Memory.some_dir (h : Memory kept k) (hlive : k.status e ≠ .ENV_FREE) :
    ∃ d, k.dir e = some d := by
  rcases hd : k.dir e with _ | d
  · exact absurd ((h.live e).mp hd) hlive
  · exact ⟨d, rfl⟩

theorem Memory.release (h : Memory kept k) (hp : FreesPages k e pm) : Memory kept (k.release c e pm) := by
  obtain ⟨free, ha⟩ := h.accounts
  obtain ⟨d, hd, hrun⟩ := hp
  obtain ⟨pm', free', hrun', ha', hn, honly, -⟩ := env_free_pages_ok ha hd
  cases hrun.symm.trans hrun'
  have hdir : (k.release c e pm).dir = Function.update k.dir e none := Kernel.release_dir ..
  refine ⟨⟨free', by rw [hdir]; exact ha'⟩, fun x => ?_, ?_⟩
  · rw [hdir, Kernel.release_status]
    by_cases hx : x = e
    · simp [hx]
    · simpa [hx] using h.live x
  · rw [hdir, Kernel.release_kern_pgdir]
    -- the directory itself is no longer live, and the others have not changed
    refine (h.kern.disown (e := e)).frame ⟨hn, fun x hx => ?_, fun o d' i ho hi => ?_⟩
    · funext j
      rcases honly x j with hsame | rfl | ⟨i, hi, ht⟩
      · exact hsame
      · exact absurd (ha.named (r := .own e) hd) hx
      · exact absurd (ha.named (r := .pde e ⟨i, hi⟩) (by rw [slots_pde hi hd, ht])) hx
    · by_cases hoe : o = e
      · simp [hoe] at ho
      · rw [Function.update_of_ne hoe] at ho
        exact congrFun (honly.others ha hd ho hoe).1 i

theorem Memory.vacate (h : Memory kept k) (hp : FreesPages k e pm) : Memory kept (k.vacate c e pm) :=
  (h.release hp).congr rfl rfl rfl fun _ => Iff.rfl

theorem Memory.setup {pgdir : Nat} (h : Memory kept k)
    (hvm : env_setup_vm k.pm k.kern_pgdir = .ok (some pgdir, pm)) (hfree : k.dir e = none) :
    (∃ free, Accounted pm (Function.update k.dir e (some pgdir)) kept free) ∧
      KernelHalf kept pm (Function.update k.dir e (some pgdir)) k.kern_pgdir ∧
      pm = k.pm.newDir k.kern_pgdir pgdir ∧ k.pm.page_free_list = some pgdir := by
  obtain ⟨free, ha⟩ := h.accounts
  rcases hlist : k.pm.page_free_list with _ | p
  · have hnone : env_setup_vm k.pm k.kern_pgdir = .ok (none, k.pm) := by
      simp only [env_setup_vm, page_alloc_none hlist]
    cases hvm.symm.trans hnone
  · obtain ⟨rest, rfl⟩ := ha.chain.eq_cons hlist
    have hp : p ∈ p :: rest := List.mem_cons_self ..
    have hkept := ha.balanced.free_kept p hp
    cases hvm.symm.trans (env_setup_vm_some hlist (ha.kept_lt p hkept))
    have hkern : k.kern_pgdir ≠ pgdir := fun he => h.kern.own (he ▸ hkept)
    exact ⟨⟨rest, ha.newDir hfree hkern h.kern.low⟩,
      h.kern.newDir hkept (ha.separated.free_dir pgdir hp), rfl, rfl⟩

theorem Memory.enlist {pgdir : Nat} {pid : Word} (h : Memory kept k)
    (hvm : env_setup_vm k.pm k.kern_pgdir = .ok (some pgdir, pm)) (hfree : k.status e = .ENV_FREE) :
    Memory kept (k.enlist e pid pgdir pm) := by
  obtain ⟨hacc, hkern, -, -⟩ := h.setup hvm ((h.live e).mpr hfree)
  have hdir := Kernel.enlist_dir k e pid pgdir pm
  refine ⟨by rw [hdir]; exact hacc, fun x => ?_, by rw [hdir]; exact hkern⟩
  rw [hdir, Kernel.enlist_status]
  by_cases hx : x = e
  · simp [hx]
  · simpa [hx] using h.live x

end memory

/-! ## The calls on pages -/

/-- The page at `va` of environment `e`. -/
def Kernel.pageAt (k : Kernel) (e : EnvIx) (va : Word) : Option Nat :=
  (k.dir e).bind fun d => pageOf (pteAt k.pm d (PDX va) (PTX va))

/-- The call asks for entries that the page tables can hold: permissions below
`0x1000`, and a page that has fewer than 65535 references. -/
def Fitting (k : Kernel) (cur : EnvIx) : Call → Prop
  | .page_alloc _ _ perm => perm < 0x1000
  | .page_map srcenvid srcva _ _ perm => perm < 0x1000 ∧
      ∀ src p, envid2env k cur srcenvid true = .ok src → k.pageAt src srcva = some p →
        refs k.pm k.dir p < 65535
  | .ipc_try_send _ _ srcva perm => srcva < UTOP → perm < 0x1000 ∧
      ∀ p, k.pageAt cur srcva = some p → refs k.pm k.dir p < 65535
  | _ => True

/-- The permissions that the call asks for are below `0x1000`. -/
def Call.lowPerm : Call → Prop
  | .page_alloc _ _ perm => perm < 0x1000
  | .page_map _ _ _ _ perm => perm < 0x1000
  | .ipc_try_send _ _ srcva perm => srcva < UTOP → perm < 0x1000
  | _ => True

theorem Fitting.lowPerm {k : Kernel} {cur : EnvIx} {call : Call} (h : Fitting k cur call) :
    call.lowPerm := by
  cases call with
  | page_alloc => exact h
  | page_map => exact h.1
  | ipc_try_send => exact fun hva => (h hva).1
  | _ => trivial

/-- The same, with the counts of the pages in place of their references. -/
def fits (k : Kernel) (cur : EnvIx) (call : Call) : Bool :=
  let room : Option Nat → Bool := fun page => page.all fun p => (k.pm.ref p).toNat < 65535
  match call with
  | .page_alloc _ _ perm => perm < 0x1000
  | .page_map srcenvid srcva _ _ perm => perm < 0x1000 && srcva < UTOP &&
      match envid2env k cur srcenvid true with
      | .ok src => room (k.pageAt src srcva)
      | .error _ => true
  | .ipc_try_send _ _ srcva perm => !(srcva < UTOP) || perm < 0x1000 && room (k.pageAt cur srcva)
  | _ => true

/-- The page at an address below `UTOP` is a reference of the accounts. -/
theorem slot_of_pte {s : Phys} {dir : EnvIx → Option Nat} {e : EnvIx} {d p : Nat} {va : Word}
    (hd : dir e = some d) (hva : va < UTOP) (hp : pageOf (pteAt s d (PDX va) (PTX va)) = some p) :
    slots s dir (.pte e ⟨PDX va, PDX_lt_NPDU hva⟩ ⟨PTX va, PTX_lt va⟩) = some p := by
  rw [slots_pte (PDX_lt_NPDU hva) (PTX_lt va) hd, hp]

section pages

variable {kept : Nat → Prop} {k : Kernel} {e src dst : EnvIx} {va srcva dstva perm : Word}
  {p : Nat} {r : Int} {pm : Phys}

theorem lt_page {perm : Word} (h : perm < 0x1000) : perm.toNat < 4096 := h

/-- A page that is mapped has as many references as it counts. -/
theorem Memory.count_pageAt (h : Memory kept k) (hva : va < UTOP) (hp : k.pageAt e va = some p) :
    (k.pm.ref p).toNat = refs k.pm k.dir p := by
  obtain ⟨free, ha⟩ := h.accounts
  obtain ⟨d, hd, hp⟩ := Option.bind_eq_some_iff.mp hp
  exact ha.count (ha.named (slot_of_pte hd hva hp))

theorem Memory.fitting_of_fits {cur : EnvIx} {call : Call} (h : Memory kept k)
    (hf : fits k cur call = true) : Fitting k cur call := by
  have hroom : ∀ {e va}, va < UTOP →
      (k.pageAt e va).all (fun p => decide ((k.pm.ref p).toNat < 65535)) = true →
      ∀ p, k.pageAt e va = some p → refs k.pm k.dir p < 65535 := by
    intro e va hva hall p hp
    rw [← h.count_pageAt hva hp]
    simpa [hp] using hall
  cases call with
  | page_alloc envid va perm =>
    have hperm : perm < 0x1000 := by simpa [fits] using hf
    exact hperm
  | page_map srcenvid srcva dstenvid dstva perm =>
    simp only [fits, Bool.and_eq_true, decide_eq_true_eq] at hf
    refine ⟨hf.1.1, fun src p hsrc hp => ?_⟩
    rw [hsrc] at hf
    exact hroom hf.1.2 hf.2 p hp
  | ipc_try_send envid value srcva perm =>
    intro hva
    simp only [fits, hva, decide_true, Bool.not_true, Bool.false_or, Bool.and_eq_true,
      decide_eq_true_eq] at hf
    exact ⟨hf.1, hroom hva hf.2⟩
  | _ => trivial

/-- What a grant has found at the source: a mapped page, writable if the
grant is. -/
theorem Memory.grant_source (h : Memory kept k) (hg : Grant k src dst srcva dstva perm p r pm) :
    ∃ d, k.dir src = some d ∧ pageOf (pteAt k.pm d (PDX srcva) (PTX srcva)) = some p ∧
      (perm &&& PTE_W ≠ 0 → pteAt k.pm d (PDX srcva) (PTX srcva) &&& PTE_W ≠ 0) := by
  obtain ⟨free, ha⟩ := h.accounts
  obtain ⟨d, pte, hd, hlook, hw⟩ := hg.source
  have hlt := fun t => ha.separated.table_lt src d (PDX srcva) t hd (PDX_lt_NPDU hg.srcva_lt)
  rw [page_lookup_eq hlt] at hlook
  have hl : lookup k.pm d srcva = some (p, pte) := Except.ok.inj hlook
  rcases ht : table k.pm d (PDX srcva) with _ | t
  · simp [lookup, ht] at hl
  · simp only [lookup, ht, Option.bind_some, Option.map_eq_some_iff, Prod.mk.injEq] at hl
    obtain ⟨q, hq, rfl, rfl⟩ := hl
    have hpte : pteAt k.pm d (PDX srcva) (PTX srcva) = k.pm.mem t (PTX srcva) := by
      simp [pteAt, entry, ht]
    exact ⟨d, hd, by rw [hpte]; exact hq, by rw [hpte]; exact hw⟩

theorem Memory.grant_pageAt (h : Memory kept k) (hg : Grant k src dst srcva dstva perm p r pm) :
    k.pageAt src srcva = some p := by
  obtain ⟨d, hd, hp, -⟩ := h.grant_source hg
  simpa [Kernel.pageAt, hd] using hp

/-- A grant finds no page for a page table and changes nothing, or sets one
entry. -/
theorem Memory.grant_entry (h : Memory kept k) (hg : Grant k src dst srcva dstva perm p r pm)
    (hperm : perm < 0x1000) : (r = -E_NO_MEM ∧ pm = k.pm) ∨
    (r = 0 ∧ ∃ d, k.dir dst = some d ∧
      EntrySet k.pm pm k.dir d (PDX dstva) (PTX dstva) (pteFor p perm)) := by
  obtain ⟨free, ha⟩ := h.accounts
  obtain ⟨ds, hds, hp, -⟩ := h.grant_source hg
  obtain ⟨d, hd, hins⟩ := hg.insert
  have hkept := ha.named (slot_of_pte hds hg.srcva_lt hp)
  rcases page_insert_effect ha hd hg.dstva_lt (lt_page hperm) hkept with
    ⟨-, -, he⟩ | ⟨pm', f, he, hset, -, -⟩
  · cases hins.symm.trans he
    exact Or.inl ⟨rfl, rfl⟩
  · cases hins.symm.trans he
    exact Or.inr ⟨rfl, d, hd, hset⟩

/-- With room for the reference, a grant keeps memory in order. -/
theorem Memory.grant (h : Memory kept k) (hg : Grant k src dst srcva dstva perm p r pm)
    (hperm : perm < 0x1000) (hrefs : refs k.pm k.dir p < 65535) :
    (r = -E_NO_MEM ∧ pm = k.pm) ∨ (r = 0 ∧ Memory kept (k.withPm pm)) := by
  rcases h.grant_entry hg hperm with hno | ⟨rfl, d, hd, hset⟩
  · exact Or.inl hno
  · obtain ⟨free, ha⟩ := h.accounts
    obtain ⟨ds, hds, hp, -⟩ := h.grant_source hg
    obtain ⟨d', hd', hins⟩ := hg.insert
    cases hd.symm.trans hd'
    have hslot := slot_of_pte hds hg.srcva_lt hp
    obtain ⟨free', ha', -⟩ := page_insert_accounted ha hd hg.dstva_lt (lt_page hperm)
      (ha.named hslot) (ha.not_free hslot) (ha.mapped_shared hslot) (Or.inl hrefs) hins
    exact Or.inr ⟨rfl, h.withPm ha' (kernelKept_entrySet hset ha' hd (PDX_lt_NPDU hg.dstva_lt))⟩

/-- `sys_page_alloc` takes the first free page. It has no page for a page table
and would give it back, or it sets one entry. -/
theorem Memory.fresh (h : Memory kept k) (hf : Fresh k e va perm p r pm) (hperm : perm < 0x1000) :
    k.pm.page_free_list = some p ∧
    ((r = -E_NO_MEM ∧ pm = k.pm.alloced p ALLOC_ZERO) ∨
    (r = 0 ∧ Memory kept (k.withPm pm) ∧ ∃ d, k.dir e = some d ∧
      EntrySet (k.pm.alloced p ALLOC_ZERO) pm k.dir d (PDX va) (PTX va) (pteFor p perm))) := by
  obtain ⟨free, ha⟩ := h.accounts
  obtain ⟨pm₀, d, halloc, hd, hins⟩ := hf.insert
  rcases ha.page_alloc_ok ALLOC_ZERO with ⟨-, he⟩ | ⟨q, rest, rfl, he⟩
  · cases halloc.symm.trans he
  · cases halloc.symm.trans he
    refine ⟨ha.chain.1, ?_⟩
    rcases ha.insert_fresh hd hf.va_lt (lt_page hperm) hins with hno | ⟨hr, ⟨free', ha'⟩, hk, hset⟩
    · exact Or.inl hno
    · exact Or.inr ⟨hr, h.withPm ha' hk, d, hd, hset⟩

/-- The page that could not be mapped is free again. -/
theorem Memory.fresh_back {pm' : Phys} (h : Memory kept k) (hf : Fresh k e va perm p r pm)
    (hperm : perm < 0x1000) (hr : r < 0) (hback : page_free pm p = .ok pm') :
    Memory kept (k.withPm pm') ∧ pm'.mem = (k.pm.alloced p ALLOC_ZERO).mem := by
  obtain ⟨hlist, ⟨-, rfl⟩ | ⟨rfl, -⟩⟩ := h.fresh hf hperm
  · obtain ⟨free, ha⟩ := h.accounts
    obtain ⟨rest, rfl⟩ := ha.chain.eq_cons hlist
    have hp : p ∈ p :: rest := List.mem_cons_self ..
    have ha₁ : Accounted (k.pm.alloced p ALLOC_ZERO) k.dir kept rest := ha.alloced
    have hun : ∀ r, slots (k.pm.alloced p ALLOC_ZERO) k.dir r ≠ some p := by
      rw [slots_alloced ha.separated hp]; exact ha.unnamed hp
    cases hback.symm.trans (page_free_eq (by simp))
    refine ⟨h.withPm (ha₁.pushFree (ha.balanced.free_kept p hp)
      (List.nodup_cons.mp ha.balanced.nodup).1 hun) ?_, rfl⟩
    exact ha.kernelKept_alloced.trans ⟨rfl, fun _ _ => rfl, fun _ _ _ _ _ => rfl⟩
  · exact absurd hr (by decide)

/-- A page that is taken and not mapped. -/
theorem Memory.lost (h : Memory kept k)
    (halloc : page_alloc k.pm ALLOC_ZERO = .ok (some p, pm)) :
    Memory kept (k.withPm pm) ∧ pm = k.pm.alloced p ALLOC_ZERO ∧
      k.pm.page_free_list = some p := by
  obtain ⟨free, ha⟩ := h.accounts
  rcases ha.page_alloc_ok ALLOC_ZERO with ⟨-, he⟩ | ⟨q, rest, rfl, he⟩
  · cases halloc.symm.trans he
  · cases halloc.symm.trans he
    exact ⟨h.withPm ha.alloced ha.kernelKept_alloced, rfl, ha.chain.1⟩

theorem Memory.unmap {d : Nat} (h : Memory kept k) (hd : k.dir e = some d) (hva : va < UTOP)
    (hrem : page_remove k.pm d va = .ok pm) :
    Memory kept (k.withPm pm) ∧
      (pm = k.pm ∨ EntrySet k.pm pm k.dir d (PDX va) (PTX va) 0) := by
  obtain ⟨free, ha⟩ := h.accounts
  rcases page_remove_spec ha hd hva with ⟨-, he⟩ | ⟨pm', q, -, he, ha', hset, -⟩
  · cases hrem.symm.trans he
    exact ⟨h, Or.inl rfl⟩
  · cases hrem.symm.trans he
    exact ⟨h.withPm ha' (kernelKept_entrySet hset ha' hd (PDX_lt_NPDU hva)), Or.inr hset⟩

end pages

/-! ## The calls -/

section calls

variable {kept : Nat → Prop} {k k' : Kernel} {c : Nat} {cur : EnvIx} {call : Call} {r : Int}

/-- Every fitting call keeps memory in order. -/
theorem Memory.effect (h : Memory kept k) (hl : call.onPages = false → FreeListed k)
    (hlive : k.status cur ≠ .ENV_FREE)
    (hfit : Fitting k cur call) (heff : Effect k c cur call r k') : Memory kept k' := by
  have hreach : ∀ {envid checkperm x}, envid2env k cur envid checkperm = .ok x →
      (k.envs x).env_status ≠ .ENV_FREE := by
    intro envid checkperm x hx
    rcases envid2env_live hx with rfl | hx
    · exact hlive
    · exact hx
  -- a live slot gets another live status
  have hslot : ∀ {k₁ : Kernel} {x : EnvIx} {f : Env → Env}, Memory kept k₁ →
      (k₁.envs x).env_status ≠ .ENV_FREE → (f (k₁.envs x)).env_pgdir = (k₁.envs x).env_pgdir →
      (f (k₁.envs x)).env_status ≠ .ENV_FREE → Memory kept (k₁.setEnv x f) := by
    intro k₁ x f h₁ hx hdir hst
    exact h₁.setEnv hdir ⟨fun he => absurd he hst, fun he => absurd he hx⟩
  cases heff with
  | quiet _ hq =>
    obtain ⟨_, _, _, rfl⟩ := hq
    exact h.congr rfl rfl rfl fun _ => Iff.rfl
  | refused => exact h
  | dying he hother hrun => exact hslot h (hreach he) rfl (by simp)
  | freed he hother hrun hpages => exact h.release hpages
  | @fork child pgdir pm _ hfree hvm =>
    unfold Kernel.fork
    refine hslot (h.enlist hvm ((hl rfl).head hfree)) ?_ rfl (by simp)
    simp [freshEnv]
  | @status envid status x st he hst =>
    refine hslot h (hreach he) rfl ?_
    rcases settable_cases hst with rfl | rfl <;> simp
  | trapframe he => exact h.setEnv rfl Iff.rfl
  | upcall he => exact h.setEnv rfl Iff.rfl
  | lost halloc he => exact (h.lost halloc).1
  | alloc he hf hr =>
    rcases (h.fresh hf hfit).2 with ⟨rfl, -⟩ | ⟨-, hm, -⟩
    · exact absurd (by decide) hr
    · exact hm
  | unalloc he hf hr hback => exact (h.fresh_back hf hfit hr hback).1
  | map hsrc hdst hg | nomap hsrc hdst hg =>
    rcases h.grant hg hfit.1 (hfit.2 _ _ hsrc (h.grant_pageAt hg)) with ⟨-, rfl⟩ | ⟨-, hm⟩
    · exact h
    · exact hm
  | unmap he hva hdir hrem => exact (h.unmap hdir hva hrem).1
  | send he =>
    unfold deliver
    exact hslot h (hreach he) rfl (by simp)
  | unsend he hg hr =>
    obtain ⟨hperm, hrefs⟩ := hfit hg.srcva_lt
    rcases h.grant hg hperm (hrefs _ (h.grant_pageAt hg)) with ⟨-, rfl⟩ | ⟨-, hm⟩
    · exact h
    · exact hm
  | sendPage he _ _ hg hr =>
    obtain ⟨hperm, hrefs⟩ := hfit hg.srcva_lt
    unfold deliver
    rcases h.grant hg hperm (hrefs _ (h.grant_pageAt hg)) with ⟨rfl, -⟩ | ⟨-, hm⟩
    · exact absurd (by decide) hr
    · exact hslot hm (hreach he) rfl (by simp)

/-- A call changes no other CPU, and takes no directory from an environment
that is on a CPU. -/
theorem effect_busy (hl : FreeListed k) (hsafe : meddles k cur call = false)
    (heff : Effect k c cur call r k') :
    (∀ c' ≠ c, k'.cpus c' = k.cpus c') ∧ ∀ x, (k.status x).busy = true → k'.dir x = k.dir x := by
  cases heff with
  | quiet _ hq =>
    obtain ⟨_, _, _, rfl⟩ := hq
    exact ⟨fun _ _ => rfl, fun _ _ => rfl⟩
  | dying he hother hrun =>
    exact ⟨fun _ _ => rfl, fun x _ => congrFun (Kernel.setEnv_dir_same rfl) x⟩
  | @freed envid e pm he hother hrun hpages =>
    refine ⟨fun c' hc' => ?_, fun x hx => ?_⟩
    · rw [Kernel.release_cpus, if_neg hother]
    · rw [Kernel.release_dir, Function.update_of_ne]
      rintro rfl
      have hnot : k.status x ≠ .ENV_DYING := by simpa [meddles, he] using hsafe
      cases hs : k.status x <;> simp_all [EnvStatus.busy]
  | @fork child pgdir pm _ hfree hvm =>
    refine ⟨fun _ _ => rfl, fun x hx => ?_⟩
    rw [Kernel.fork_dir, Function.update_of_ne]
    rintro rfl
    rw [hl.head hfree] at hx
    cases hx
  | status he hst => exact ⟨fun _ _ => rfl, fun x _ => congrFun (Kernel.setEnv_dir_same rfl) x⟩
  | trapframe he => exact ⟨fun _ _ => rfl, fun x _ => congrFun (Kernel.setEnv_dir_same rfl) x⟩
  | upcall he => exact ⟨fun _ _ => rfl, fun x _ => congrFun (Kernel.setEnv_dir_same rfl) x⟩
  | refused | lost | alloc | unalloc | map | nomap | unmap | unsend =>
    exact ⟨fun _ _ => rfl, fun _ _ => rfl⟩
  | send =>
    unfold deliver
    exact ⟨fun _ _ => rfl, fun x _ => congrFun (Kernel.setEnv_dir_same rfl) x⟩
  | sendPage =>
    unfold deliver
    exact ⟨fun _ _ => rfl, fun x _ => congrFun (Kernel.setEnv_dir_same rfl) x⟩

/-- A call that neither meddles nor asks for too much leaves the machine in
order. -/
theorem Steady.effect (h : Steady kept k c) (hcur : k.curenv c = some cur)
    (hrun : k.status cur = .ENV_RUNNING) (hsafe : meddles k cur call = false)
    (hfit : Fitting k cur call) (heff : Effect k c cur call r k') : Steady kept k' c := by
  have hlive : k.status cur ≠ .ENV_FREE := by rw [hrun]; decide
  obtain ⟨hcpus, hdirs⟩ := effect_busy h.ready.listed hsafe heff
  refine ⟨h.ready.effect hcur hrun hsafe heff, h.memory.effect (fun _ => h.ready.listed) hlive hfit heff,
    ?_⟩
  intro c' hc' e hm he
  rw [Kernel.mode, hcpus c' hc'] at hm
  rw [Kernel.curenv, hcpus c' hc'] at he
  have hbusy : (k.status e).busy = true := by
    obtain ⟨e', he', hb⟩ := h.ready.inside.user c' hc' hm
    cases he.symm.trans he'
    exact hb
  rw [hdirs e hbusy, hcpus c' hc']
  exact h.cr3 c' hc' e hm he

theorem Steady.leave (h : Steady kept k c) (hleave : Leaves k c k') : Sound kept k' := by
  obtain ⟨hout, hlist⟩ := h.ready.leave hleave
  have hfree := leaves_free hleave
  refine ⟨hout, hlist, ?_, ?_⟩
  · cases hleave with
    | run =>
      exact h.memory.congr (Kernel.switch_pm ..) (Kernel.switch_dir ..)
        (Kernel.switch_kern_pgdir ..) hfree
    | halt => exact h.memory.congr rfl rfl rfl hfree
  · intro c' e hm he
    by_cases hc' : c' = c
    · cases hleave with
      | @run e' pgdir hlock hdir hready hload =>
        rw [hc', switch_curenv, Function.update_self] at he
        cases he
        rw [hc', Kernel.switch_dir, Kernel.switch_cpus, Function.update_self]
        exact hdir
      | halt =>
        rw [hc', halt_mode, Function.update_self] at hm
        cases hm
    · have hsame : k'.cpus c' = k.cpus c' ∧ k'.dir = k.dir := by
        cases hleave with
        | run => exact ⟨by simp [hc'], Kernel.switch_dir ..⟩
        | halt => exact ⟨by simp [Kernel.halt, hc'], rfl⟩
      rw [Kernel.mode, hsame.1] at hm
      rw [Kernel.curenv, hsame.1] at he
      rw [hsame.1, hsame.2]
      exact h.cr3 c' hc' e hm he

end calls

/-! ## Stores -/

section stores

variable {kept : Nat → Prop} {k : Kernel} {e : EnvIx} {d : Nat} {va perm : Word} {pm : Phys}

theorem translate_eq (s : Phys) (d : Nat) (va : Word) :
    translate s d va = pageOf (pteAt s d (PDX va) (PTX va)) := by
  simp only [translate, pteAt, entry, table]
  rcases pageOf (s.mem d (PDX va)) with _ | t <;> simp

theorem store_eq_some {s : Phys} {b : Byte} (h : s.store d va perm b = some pm) :
    ∃ p j w, translate s d va = some p ∧ pm = s.write p j w := by
  unfold Phys.store at h
  split at h
  · obtain ⟨p, hp, rfl⟩ := Option.map_eq_some_iff.mp h
    exact ⟨p, _, _, hp, rfl⟩
  · cases h

/-- A store below `UTOP` goes to a data page. -/
theorem Memory.store {b : Byte} (h : Memory kept k) (hd : k.dir e = some d) (hva : va < UTOP)
    (hs : k.pm.store d va perm b = some pm) : Memory kept (k.withPm pm) := by
  obtain ⟨free, ha⟩ := h.accounts
  obtain ⟨p, j, w, hp, rfl⟩ := store_eq_some hs
  have hslot := slot_of_pte hd hva ((translate_eq k.pm d va).symm.trans hp)
  have hdata := ha.mapped_shared hslot
  refine h.withPm (ha.data hdata) (KernelKept.page rfl (fun x hx => ?_) (ha.named hslot) ?_)
  · funext y
    simp [Phys.write_mem, hx]
  · exact fun o ho => hdata (.own o) ho

theorem Memory.storeBytes (hd : k.dir e = some d) {bs : List Byte} (h : Memory kept k)
    (hva : va.toNat + bs.length ≤ UTOP.toNat) (hs : k.pm.storeBytes d va bs = .ok pm) :
    Memory kept (k.withPm pm) := by
  induction bs generalizing k va with
  | nil => cases hs; exact h
  | cons b bs ih =>
    simp only [List.length_cons, UTOP_toNat] at hva
    simp only [Phys.storeBytes] at hs
    split at hs
    · cases hs
    · rename_i pm₁ hs₁
      have hlt : va < UTOP := by rw [BitVec.lt_def, UTOP_toNat]; omega
      have hnext : (va + 1).toNat = va.toNat + 1 := by
        rw [BitVec.toNat_add]
        simp
        omega
      exact ih (k := k.withPm pm₁) hd (h.store hd hlt hs₁) (by rw [hnext, UTOP_toNat]; omega) hs

/-- The MMU marks an entry, which still names its page. -/
theorem Memory.touch {dirty : Bool} (h : Memory kept k) (hd : k.dir e = some d) (hva : va < UTOP) :
    Memory kept (k.withPm (touchEntry k.pm d va dirty)) := by
  obtain ⟨free, ha⟩ := h.accounts
  unfold touchEntry
  split
  · exact h
  · rename_i t ht
    have ht : table k.pm d (PDX va) = some t := ht
    have hi := PDX_lt_NPDU hva
    dsimp only
    split
    · refine h.withPm (ha.relink hd hi (PTX_lt va) ht ?_) (KernelKept.page (p := t) rfl ?_ ?_ ?_)
      · refine (pageOf_or ?_ ?_).symm <;> cases dirty <;> decide
      · intro x hx
        funext y
        simp [Phys.write_mem, hx]
      · exact ha.named (r := .pde e ⟨PDX va, hi⟩) (by rw [slots_pde hi hd, ht])
      · exact ha.separated.table_dir e d (PDX va) t hd hi ht
    · exact h

end stores

/-! ## Programs -/

section programs

variable {kept : Nat → Prop} {s s' : Phys} {dir : EnvIx → Option Nat} {free : List Nat} {e : EnvIx}
  {d : Nat} {va len : Word}

/-- What every page that is allocated and put into the directory keeps, the loop
of `region_alloc` keeps. -/
theorem region_alloc_pages_keeps {I : Phys → Prop} {vaEnd : Word} (hend : vaEnd ≤ UTOP)
    (hstep : ∀ s p s₁ va s', I s → va < UTOP → page_alloc s 0 = .ok (some p, s₁) →
      page_insert s₁ d p va (PTE_W ||| PTE_U) = .ok (0, s') → I s')
    {n : Nat} (h : I s) (hr : region_alloc_pages d vaEnd n va s = .ok s') : I s' := by
  induction n generalizing va s with
  | zero => cases hr; exact h
  | succ n ih =>
    simp only [region_alloc_pages] at hr
    split at hr
    · rename_i hlt
      have hva : va < UTOP := by
        rw [BitVec.lt_def] at hlt ⊢
        rw [BitVec.le_def] at hend
        omega
      split at hr
      · cases hr
      · cases hr
      · rename_i p s₁ halloc
        split at hr
        · cases hr
        · rename_i r s₂ hins
          split at hr
          · cases hr
          · rename_i hr0
            obtain rfl : r = 0 := not_not.mp hr0
            exact ih (hstep s p s₁ va s₂ h hva halloc hins) hr
    · cases hr
      exact h

theorem ROUNDUP_le {a : Word} (h : a ≤ UTOP) : ROUNDUP a 0x1000 ≤ UTOP := by
  rw [BitVec.le_def, UTOP_toNat] at h
  rw [BitVec.le_def, UTOP_toNat, ROUNDUP_toNat (by omega)]
  omega

theorem load_icode_keeps {I : Phys → Prop} {prog : Program}
    (hstep : ∀ s p s₁ va s', I s → va < UTOP → page_alloc s 0 = .ok (some p, s₁) →
      page_insert s₁ d p va (PTE_W ||| PTE_U) = .ok (0, s') → I s')
    (h : I s) (hr : load_icode s d prog = .ok s') : I s' := by
  have hsegs : ∀ segs : List (Word × Word),
      (∀ seg ∈ segs, seg.1.toNat + seg.2.toNat ≤ UTOP.toNat) → ∀ s, I s →
      segs.foldlM (fun (s : Phys) (seg : Word × Word) => region_alloc s d seg.1 seg.2) s = .ok s' →
      I s' := by
    intro segs
    induction segs with
    | nil => intro _ s h hr; cases hr; exact h
    | cons seg segs ih =>
      intro hbelow s h hr
      rw [List.foldlM_cons] at hr
      obtain ⟨s₁, hr₁, hr⟩ := loop.bind_eq_ok.mp hr
      have hend : seg.1 + seg.2 ≤ UTOP := by
        have hseg := hbelow seg (List.mem_cons_self ..)
        rw [BitVec.le_def, BitVec.toNat_add]
        rw [UTOP_toNat] at hseg ⊢
        omega
      exact ih (fun x hx => hbelow x (List.mem_cons_of_mem _ hx)) s₁
        (region_alloc_pages_keeps (ROUNDUP_le hend) hstep h hr₁) hr
  refine hsegs _ (fun seg hseg => ?_) s h hr
  rcases List.mem_append.mp hseg with hseg | hseg
  · exact prog.below seg hseg
  · rw [List.mem_singleton] at hseg
    rw [hseg]
    decide

theorem load_icode_accounted {prog : Program} (ho : dir e = some d) (h : Accounted s dir kept free)
    (hr : load_icode s d prog = .ok s') :
    (∃ free', Accounted s' dir kept free') ∧ KernelKept kept dir s s' ∧ NoLoss s s' := by
  refine load_icode_keeps (I := fun x => (∃ free', Accounted x dir kept free') ∧
    KernelKept kept dir s x ∧ NoLoss s x) ?_ ⟨⟨free, h⟩, KernelKept.refl, NoLoss.refl s⟩ hr
  rintro s₀ p s₁ va s₂ ⟨⟨free₀, h₀⟩, hk₀, hl₀⟩ hva halloc hins
  rcases h₀.page_alloc_ok 0 with ⟨-, he⟩ | ⟨q, rest, rfl, he⟩
  · cases halloc.symm.trans he
  · cases halloc.symm.trans he
    rcases h₀.insert_fresh ho hva (by decide) hins with ⟨hr, -⟩ | ⟨-, hacc, hk, -⟩
    · exact absurd hr (by decide)
    · exact ⟨hacc, hk₀.trans hk, hl₀.trans (h₀.noLoss_fresh ho hva hins)⟩

end programs

/-! ## Traps -/

section traps

variable {kept : Nat → Prop} {k k' : Kernel} {c : Nat} {cur : EnvIx} {tf : Trapframe} {cr2 : Word}

theorem fitting_saved (call : Call) (h : Fitting k cur call) :
    Fitting (k.saved c cur tf) cur call := by
  have hpage : (k.saved c cur tf).pageAt = k.pageAt := by
    unfold Kernel.pageAt
    rw [Kernel.saved_dir, Kernel.saved_pm]
  cases call with
  | page_map | ipc_try_send =>
    simpa only [Fitting, envid2env_saved, hpage, Kernel.saved_dir, Kernel.saved_pm] using h
  | _ => exact h

/-- What CPU `c` does to itself and to its own environment does not concern the
other CPUs. -/
theorem Sound.steady {k₁ : Kernel} (h : Sound kept k) (hready : Ready k₁ c)
    (hmem : Memory kept k₁) (hcpus : ∀ c' ≠ c, k₁.cpus c' = k.cpus c')
    (hdir : ∀ c' ≠ c, ∀ e, k.curenv c' = some e → k₁.dir e = k.dir e) : Steady kept k₁ c := by
  refine ⟨hready, hmem, fun c' hc' e hm he => ?_⟩
  rw [Kernel.mode, hcpus c' hc'] at hm
  rw [Kernel.curenv, hcpus c' hc'] at he
  rw [hcpus c' hc', hdir c' hc' e he]
  exact h.cr3 c' e hm he

theorem Steady.setEnv {e : EnvIx} {f : Env → Env} (h : Steady kept k c)
    (hst : (f (k.envs e)).env_status = (k.envs e).env_status)
    (hlink : (f (k.envs e)).env_link = (k.envs e).env_link)
    (hdir : (f (k.envs e)).env_pgdir = (k.envs e).env_pgdir) : Steady kept (k.setEnv e f) c where
  ready := h.ready.setEnv hst hlink
  memory := h.memory.setEnv hdir (by rw [hst])
  cr3 c' hc' x hm hx := by
    rw [Kernel.setEnv_dir_same hdir]
    exact h.cr3 c' hc' x hm hx

theorem usertf_le (tf : Trapframe) : (usertf tf).toNat + 52 ≤ UTOP.toNat := by
  have hu : UXSTACKTOP.toNat = 0xEEC00000 := by decide
  have hb : (UXSTACKTOP - 0x1000).toNat = 0xEEBFF000 := by decide
  rw [UTOP_toNat]
  unfold usertf
  split
  · rename_i hx
    obtain ⟨hlt, hge⟩ := hx
    rw [BitVec.lt_def, hu] at hlt
    rw [ge_iff_le, BitVec.le_def, hb] at hge
    have hsub : (tf.tf_esp - 4 - 52).toNat = tf.tf_esp.toNat - 56 := by
      rw [BitVec.toNat_sub, BitVec.toNat_sub]
      simp
      omega
    rw [hsub]
    omega
  · decide

/-- However a trap is handled, the machine is in order when the CPU is about to
leave the kernel. -/
theorem handled_steady {k₁ : Kernel} (h : Sound kept k) (hcur : k.curenv c = some cur)
    (hmode : k.mode c = .user) (hbusy : (k.status cur).busy = true)
    (hsafe : k.status cur ≠ .ENV_DYING → tf.tf_trapno = T_SYSCALL →
      meddles k cur tf.call = false ∧ Fitting k cur tf.call)
    (hh : Handled k c cur tf cr2 k₁) : Steady kept k₁ c := by
  have hready := handled_ready h.outside h.listed hcur hbusy (fun hl hno => (hsafe hl hno).1) hh
  have hrun : k.status cur ≠ .ENV_DYING → k.status cur = .ENV_RUNNING := by
    intro hlive
    cases hs : k.status cur <;> simp_all [EnvStatus.busy]
  have hne : ∀ c' ≠ c, ∀ e, k.curenv c' = some e → e ≠ cur := by
    rintro c' hc' e he rfl
    exact hc' (h.outside.one c' c e he hcur)
  have hcpus : ∀ c' ≠ c, (k.entered c).cpus c' = k.cpus c' := fun c' hc' => by simp [hc']
  have hmem : Memory kept (k.saved c cur tf) :=
    h.memory.congr rfl (Kernel.saved_dir ..) rfl fun e => by rw [Kernel.saved_status]
  have hsaved : k.status cur ≠ .ENV_DYING → Steady kept (k.saved c cur tf) c := by
    intro hlive
    have hr := handled_ready h.outside h.listed hcur hbusy (fun hl hno => (hsafe hl hno).1)
      (.interrupt hlive : Handled k c cur tf cr2 (k.saved c cur tf))
    exact h.steady hr hmem hcpus fun c' _ e _ => by rw [Kernel.saved_dir]
  -- the environment of the CPU is freed
  have hvacate : ∀ {k₂ pm}, Ready (k₂.vacate c cur pm) c → Memory kept k₂ →
      (∀ c' ≠ c, k₂.cpus c' = k.cpus c') → k₂.dir = k.dir → k₂.curenv c = some cur →
      FreesPages k₂ cur pm → Steady kept (k₂.vacate c cur pm) c := by
    intro k₂ pm hr hm hc hd hcur₂ hp
    refine h.steady hr (hm.vacate hp) (fun c' hc' => ?_) fun c' hc' e he => ?_
    · rw [← hc c' hc']
      simp [Kernel.vacate, Kernel.setCurenv, Kernel.release_cpus, hcur₂, hc']
    · have hdir : (k₂.vacate c cur pm).dir = Function.update k₂.dir cur none :=
        Kernel.release_dir ..
      rw [hdir, Function.update_of_ne (hne c' hc' e he), hd]
  have hgone : ∀ {k₂ pm}, Ready (k₂.vacate c cur pm) c → Quiet (k.saved c cur tf) k₂ →
      FreesPages k₂ cur pm → Steady kept (k₂.vacate c cur pm) c := by
    intro k₂ pm hr hq hp
    obtain ⟨_, _, _, rfl⟩ := hq
    refine hvacate hr (hmem.congr rfl rfl rfl fun _ => Iff.rfl) hcpus ?_ ?_ hp
    · exact Kernel.saved_dir k c cur tf
    · exact (congrFun (Kernel.saved_curenv k c cur tf) c).trans hcur
  cases hh with
  | died hdying hpages =>
    refine hvacate hready (h.memory.congr rfl rfl rfl fun _ => Iff.rfl) hcpus rfl ?_ hpages
    simpa using hcur
  | ret hlive hno he =>
    refine Steady.setEnv ((hsaved hlive).effect ?_ ?_ ?_ ?_ he) rfl rfl rfl
    · simpa using hcur
    · simpa using hrun hlive
    · rw [meddles_saved]; exact (hsafe hlive hno).1
    · exact fitting_saved _ (hsafe hlive hno).2
  | exit hlive hno he =>
    generalize tf.call = call at he
    cases he with
    | yield => exact hsaved hlive
    | receive =>
      refine h.steady hready (hmem.setEnv rfl ?_) hcpus fun c' _ e _ => ?_
      · have hnf : ((k.saved c cur tf).envs cur).env_status ≠ .ENV_FREE := by
          have hst := congrFun (Kernel.saved_status k c cur tf) cur
          rw [hrun hlive] at hst
          exact fun hf => by rw [Kernel.status, hf] at hst; cases hst
        exact ⟨fun hx => absurd hx (by simp), fun hx => absurd hx hnf⟩
      · exact (congrFun (Kernel.setEnv_dir_same rfl) e).trans
          (congrFun (Kernel.saved_dir k c cur tf) e)
    | destroyed hq hpages => exact hgone hready hq hpages
  | interrupt hlive => exact hsaved hlive
  | @fault k₂ pm hlive hq hstore =>
    obtain ⟨_, _, _, rfl⟩ := hq
    have hd : k.dir cur = some (k.cpus c).cr3 := h.cr3 c cur hmode hcur
    have hlen : (utrapframe tf cr2).length = 52 := rfl
    have hm : Memory kept (k.withPm pm) :=
      h.memory.storeBytes hd (by rw [hlen]; exact usertf_le tf) hstore
    refine h.steady hready ?_ hcpus fun c' _ e _ => ?_
    · refine hm.congr rfl ?_ rfl fun e => ?_
      · exact (Kernel.upcall_dir ..).trans (Kernel.saved_dir k c cur tf)
      · exact iff_of_eq (congrArg (· = EnvStatus.ENV_FREE)
          ((congrFun (Kernel.upcall_status ..) e).trans
            (congrFun (Kernel.saved_status k c cur tf) e)))
    · exact (congrFun (Kernel.upcall_dir ..) e).trans (congrFun (Kernel.saved_dir k c cur tf) e)
  | destroyed hlive hq hpages => exact hgone hready hq hpages

end traps

/-! ## Runs -/

/-- The event makes no call that meddles or that asks for too much. -/
def Fits (k : Kernel) (ev : Event) : Prop :=
  Careful k ev ∧ ∀ cur call, callOf k ev = some (cur, call) → Fitting k cur call

/-- The same, with the counts of the pages in place of their references. -/
def fitsNow (k : Kernel) (ev : Event) : Bool :=
  decide (Careful k ev) && (callOf k ev).all fun call => fits k call.1 call.2

theorem Memory.fits_of_now {kept : Nat → Prop} {k : Kernel} {ev : Event} (h : Memory kept k)
    (hev : fitsNow k ev = true) : Fits k ev := by
  obtain ⟨hcareful, hall⟩ := Bool.and_eq_true_iff.mp hev
  refine ⟨of_decide_eq_true hcareful, fun cur call hcall => h.fitting_of_fits ?_⟩
  simpa [hcall] using hall

/-- Every such step leaves the machine in order. -/
theorem sound_step {kept : Nat → Prop} {k k' : Kernel} {ev : Event} (h : Sound kept k)
    (hfits : Fits k ev) (hs : StepCases k ev k') : Sound kept k' := by
  -- a CPU that is not in user mode comes in without an environment
  have hidle : ∀ c, k.mode c ≠ .user → Ready k c := fun c hm =>
    ⟨h.outside.enter c, h.listed, fun e he => by rw [h.outside.other c hm] at he; cases he⟩
  have henter : ∀ c, k.mode c ≠ .user → Steady kept (k.entered c) c := fun c hm =>
    h.steady ((hidle c hm).congr (Kernel.entered_curenv k c) (entered_mode k c) rfl rfl rfl)
      (h.memory.congr rfl rfl rfl fun _ => Iff.rfl) (fun c' hc' => by simp [hc'])
      fun _ _ _ _ => rfl
  have hout := outside_step ⟨h.outside, h.listed⟩ hfits.1 hs
  cases hs with
  | @create prog type e pgdir pm pm' hmode hlock hfree hvm hload =>
    have hfr := h.listed.head hfree
    have hm : Memory kept (k.enlist e 0 pgdir pm) := h.memory.enlist hvm hfr
    obtain ⟨free, ha⟩ := hm.accounts
    have hd : (k.enlist e 0 pgdir pm).dir e = some pgdir := by simp [Kernel.enlist_dir]
    obtain ⟨⟨free', ha'⟩, hk, -⟩ := load_icode_accounted hd ha hload
    have hm' : Memory kept (k.loaded e pgdir pm pm' prog type) :=
      (hm.withPm ha' hk).setEnv rfl Iff.rfl
    refine ⟨hout.1, hout.2, hm', fun c x hmc hx => ?_⟩
    have hne : x ≠ e := by
      rintro rfl
      obtain ⟨x', hx', hb⟩ := h.outside.user c hmc
      cases hx.symm.trans hx'
      rw [hfr] at hb
      cases hb
    have hdir : (k.loaded e pgdir pm pm' prog type).dir x = k.dir x := by
      rw [Kernel.loaded, Kernel.setEnv_dir_same rfl]
      show (k.enlist e 0 pgdir pm).dir x = k.dir x
      rw [Kernel.enlist_dir, Function.update_of_ne hne]
    rw [hdir]
    exact h.cr3 c x hmc hx
  | boot hmode hlock hleave =>
    have hm : k.mode 0 ≠ .user := by simp [Kernel.mode, hmode]
    exact Steady.leave (h.steady (hidle 0 hm) h.memory (fun _ _ => rfl) fun _ _ _ _ => rfl) hleave
  | start hmode hlock hleave => exact (henter _ (by simp [Kernel.mode, hmode])).leave hleave
  | trap hmode hlock hload htrap =>
    obtain ⟨cur, hcur, hbusy⟩ := h.outside.user _ hmode
    have hst : k.status cur = .ENV_RUNNING ∨ k.status cur = .ENV_DYING := by
      cases hs : k.status cur <;> simp_all [EnvStatus.busy]
    obtain ⟨k₁, hh, hleave⟩ := trap_handled hcur hst (loadable_user hload) htrap
    refine (handled_steady h hcur hmode hbusy (fun hlive hno => ?_) hh).leave hleave
    obtain ⟨hc, hf⟩ := hfits
    exact ⟨by simpa [Careful, callOf, hcur, hno, hlive] using hc,
      hf cur _ (by simp [callOf, hcur, hno, hlive])⟩
  | @interrupt c tf k' hmode hlock hcs hdev htrap =>
    have hm : k.mode c ≠ .user := by simp [Kernel.mode, hmode]
    exact (henter c hm).leave (interrupt_leaves (h.outside.other c hm) hlock hcs hdev htrap)
  | @store c va b pm hmode hva hstore =>
    obtain ⟨e, hcur, -⟩ := h.outside.user c hmode
    exact ⟨hout.1, hout.2, h.memory.store (h.cr3 c e hmode hcur) hva hstore, h.cr3⟩
  | @touch c va dirty hmode hva =>
    obtain ⟨e, hcur, -⟩ := h.outside.user c hmode
    exact ⟨hout.1, hout.2, h.memory.touch (h.cr3 c e hmode hcur) hva, h.cr3⟩

/-- A machine before `env_init`: no slot has a directory, the accounts are right,
and the kernel's half is in place. -/
structure Bootable (kept : Nat → Prop) (k : Kernel) : Prop extends Booting k where
  dirs : ∀ e, k.dir e = none
  accounts : ∃ free, Accounted k.pm k.dir kept free
  kern : KernelHalf kept k.pm k.dir k.kern_pgdir

/-- `env_init` touches the links and the ids alone. -/
theorem env_init_rest (k : Kernel) : (env_init k).pm = k.pm ∧ (env_init k).dir = k.dir ∧
    (env_init k).kern_pgdir = k.kern_pgdir := by
  have hslots : ∀ n, (env_init_slots n k).pm = k.pm ∧ (env_init_slots n k).dir = k.dir ∧
      (env_init_slots n k).kern_pgdir = k.kern_pgdir := by
    intro n
    induction n with
    | zero => exact ⟨rfl, rfl, rfl⟩
    | succ n ih =>
      simp only [env_init_slots, env_init_slot]
      generalize env_init_slots n k = k₁ at ih ⊢
      obtain ⟨hpm, hdir, hkern⟩ := ih
      have hslot : (k₁.setEnv (envAt n) fun env => { env with env_id := 0, env_link := none }).dir =
          k₁.dir := Kernel.setEnv_dir_same rfl
      split
      · exact ⟨hpm, hslot.trans hdir, hkern⟩
      · exact ⟨hpm, (Kernel.setEnv_dir_same rfl).trans (hslot.trans hdir), hkern⟩
  exact hslots NENV

theorem Bootable.sound {kept : Nat → Prop} {k : Kernel} (h : Bootable kept k) :
    Sound kept (env_init k) := by
  obtain ⟨hout, hlist⟩ := h.toBooting.outside
  obtain ⟨hpm, hdir, hkern⟩ := env_init_rest k
  have hoff : ∀ c, (env_init k).mode c = .off := fun c => by
    rw [Kernel.mode, env_init_cpus]; exact (h.off c).1
  refine ⟨hout, hlist, ⟨?_, fun e => ?_, ?_⟩, fun c e hm => ?_⟩
  · rw [hpm, hdir]; exact h.accounts
  · have hst : (env_init k).status e = .ENV_FREE := by
      rw [env_init, (env_init_slots_spec h.empty (Nat.le_refl NENV)).2.1]; exact h.free e
    simp [hdir, h.dirs e, hst]
  · rw [hpm, hdir, hkern]; exact h.kern
  · rw [hoff c] at hm
    cases hm

/-- From the start on, the machine is in order in every state of a run whose
steps fit. -/
theorem sound_run {kept : Nat → Prop} {k₀ k : Kernel} {evs : List Event} (hboot : Bootable kept k₀)
    (hr : runFrom (env_init k₀) evs = some k) (hfits : Along Fits (env_init k₀) evs) :
    Sound kept k :=
  runFrom_keeps (fun _ _ _ => sound_step) hboot.sound hr hfits

/-- It is enough to look at the counts. -/
theorem along_fits {kept : Nat → Prop} {k₀ : Kernel} {evs : List Event} (hboot : Bootable kept k₀)
    (hall : Along (fun k ev => fitsNow k ev = true) (env_init k₀) evs) :
    Along Fits (env_init k₀) evs :=
  runs.Along.imp (fun _ _ h => h.memory.fits_of_now)
    (fun _ _ _ h hf hs => sound_step h hf (step_cases hs)) hboot.sound hall

/-! ## A machine to start from -/

/-- The free pages of `bootPhys`, from page `m` on. -/
theorem bootPhys_chain {n : Nat} (hn : n ≤ 0x10000) {m : Nat} (hm : 2 ≤ m) (hmn : m ≤ n) :
    Chain (bootPhys n hn).link (if m < n then some m else none) (List.range' m (n - m)) := by
  induction h : n - m generalizing m with
  | zero => rw [if_neg (by omega)]; rfl
  | succ l ih =>
    rw [if_pos (by omega)]
    refine ⟨rfl, ?_⟩
    have hlink : (bootPhys n hn).link m = if m + 1 < n then some (m + 1) else none := by
      simp only [Phys.link, bootPhys, if_neg (show ¬ m < 2 by omega)]
    rw [hlink]
    exact ih (by omega) (by omega) (by omega)

/-- The machine starts in order. `page_alloc` hands out the pages from page 2
on. -/
theorem zeroKernel_bootable {n ncpu : Nat} (hn : n ≤ 0x10000) (h2 : 2 ≤ n) :
    Bootable (fun p => 2 ≤ p ∧ p < n) (zeroKernel n hn ncpu) := by
  have hdir : ∀ e, (zeroKernel n hn ncpu).dir e = none := fun _ => rfl
  have hnone : ∀ {e d}, (zeroKernel n hn ncpu).dir e ≠ some d := fun h => by cases h
  have hfree : ∀ p, p ∈ List.range' 2 (n - 2) ↔ 2 ≤ p ∧ p < n := by
    intro p
    rw [List.mem_range'_1]
    omega
  have hacc := accounted_of_empty (s := bootPhys n hn)
    (fun o d i (ho : (zeroKernel n hn ncpu).dir o = some d) => absurd ho hnone) (bootPhys_chain hn (Nat.le_refl 2) h2)
    (fun o o' d ho => absurd ho hnone)
    (fun p hp => by
      obtain ⟨hp2, hpn⟩ := (hfree p).mp hp
      refine ⟨hpn, ?_, fun o => hnone⟩
      simp only [Phys.ref, bootPhys, if_neg (show ¬ p < 2 by omega)])
    (fun o d ho => absurd ho hnone)
  have hkept : (fun p => p ∈ List.range' 2 (n - 2) ∨ ∃ o, (zeroKernel n hn ncpu).dir o = some p) =
      fun p => 2 ≤ p ∧ p < n := by
    funext p
    simp only [hfree, hdir, eq_iff_iff]
    constructor
    · rintro (h | ⟨o, ho⟩)
      · exact h
      · cases ho
    · exact Or.inl
  rw [hkept] at hacc
  refine ⟨zeroKernel_booting hn, hdir, ⟨_, hacc⟩, ?_⟩
  have htab : ∀ i, table (zeroKernel n hn ncpu).pm 1 i = none := fun _ => pageOf_zero
  refine ⟨fun h => absurd h.1 ?_, fun i _ => htab i, fun i t _ _ _ ht => ?_,
    fun o d i ho => absurd ho hnone, fun o d ho => absurd ho hnone⟩
  · exact Nat.not_succ_le_self 1
  · cases (htab i).symm.trans ht

end jos
