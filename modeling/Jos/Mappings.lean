-- The mappings of the environments. A call sets one entry of one environment,
-- clears one, takes all of an environment away, or leaves them as they are.
-- With a history of the pages that `page_insert` was given, this tells
-- which page every entry names and which bits it has.
import Jos.Machine

namespace jos

open ledger

/-! ## The entries of the environments -/

/-- The entry of environment `e` for page `j` of its table `i`, 0 where there is
none. -/
def Kernel.pte (k : Kernel) (e : EnvIx) (i j : Nat) : Word :=
  (k.dir e).elim 0 fun d => pteAt k.pm d i j

/-- The entries below `UTOP` are what they were. -/
def SamePtes (k k' : Kernel) : Prop := ∀ e i j, i < NPDU → k'.pte e i j = k.pte e i j

/-- They are, but for one of environment `e`, which is now `w`. -/
def SetsPte (k k' : Kernel) (e : EnvIx) (i j : Nat) (w : Word) : Prop :=
  ∀ e' i' j', i' < NPDU →
    k'.pte e' i' j' = if e' = e ∧ i' = i ∧ j' = j then w else k.pte e' i' j'

section ptes

variable {k k' : Kernel} {e : EnvIx} {d i j : Nat} {w : Word} {kept : Nat → Prop} {pm : Phys}

theorem Kernel.pte_eq (hd : k.dir e = some d) : k.pte e i j = pteAt k.pm d i j := by
  simp [Kernel.pte, hd]

theorem Kernel.pte_none (hd : k.dir e = none) : k.pte e i j = 0 := by simp [Kernel.pte, hd]

theorem pageAt_eq (k : Kernel) (e : EnvIx) (va : Word) :
    k.pageAt e va = pageOf (k.pte e (PDX va) (PTX va)) := by
  unfold Kernel.pageAt Kernel.pte
  rcases k.dir e with _ | d <;> simp

theorem SamePtes.refl (k : Kernel) : SamePtes k k := fun _ _ _ _ => rfl

theorem SamePtes.of_eq (hpm : k'.pm = k.pm) (hdir : k'.dir = k.dir) : SamePtes k k' := by
  intro e i j _
  rw [Kernel.pte, hpm, hdir]
  rfl

theorem SetsPte.after {k₁ : Kernel} (h : SetsPte k₁ k' e i j w) (hs : SamePtes k k₁) :
    SetsPte k k' e i j w := by
  intro e' i' j' hi'
  rw [h e' i' j' hi', hs e' i' j' hi']

theorem SetsPte.before {k₁ : Kernel} (h : SetsPte k k₁ e i j w) (hs : SamePtes k₁ k') :
    SetsPte k k' e i j w := by
  intro e' i' j' hi'
  rw [hs e' i' j' hi', h e' i' j' hi']

/-- Entries are read from the directory and from its tables. -/
theorem pteAt_frame {s s' : Phys} (hd : s'.mem d i = s.mem d i)
    (ht : ∀ t, table s d i = some t → s'.mem t = s.mem t) : pteAt s' d i j = pteAt s d i j := by
  have htab : table s' d i = table s d i := by unfold table; rw [hd]
  unfold pteAt entry
  rw [htab]
  rcases h : table s d i with _ | t
  · rfl
  · rw [Option.map_some, Option.map_some, ht t h]

theorem Memory.dir_inj {e' : EnvIx} (h : Memory kept k) (hd : k.dir e = some d)
    (hd' : k.dir e' = some d) : e = e' := by
  obtain ⟨free, ha⟩ := h.accounts
  exact ha.dir_inj hd hd'

/-- One entry of one directory is set, and each directory has one owner. -/
theorem Memory.setsPte (h : Memory kept k) (hd : k.dir e = some d)
    (hpte : ∀ e' d' i' j', k.dir e' = some d' → i' < NPDU →
      pteAt pm d' i' j' = if d' = d ∧ i' = i ∧ j' = j then w else pteAt k.pm d' i' j') :
    SetsPte k (k.withPm pm) e i j w := by
  intro e' i' j' hi'
  rcases hd' : k.dir e' with _ | d'
  · have hne : e' ≠ e := fun he => by rw [he, hd] at hd'; cases hd'
    rw [if_neg fun hx => hne hx.1, Kernel.pte_none hd']
    exact Kernel.pte_none hd'
  · have hw : (k.withPm pm).pte e' i' j' = pteAt pm d' i' j' := Kernel.pte_eq hd'
    have hiff : d' = d ↔ e' = e := ⟨fun hx => h.dir_inj (hx ▸ hd') hd,
      fun hx => by rw [hx, hd] at hd'; exact (Option.some.inj hd').symm⟩
    rw [hw, Kernel.pte_eq hd', hpte e' d' i' j' hd' hi']
    simp only [hiff]

/-- No entry is read from the first free page. -/
theorem Memory.pte_frame {p : Nat} (h : Memory kept k) (hp : k.pm.page_free_list = some p)
    (hmem : ∀ x ≠ p, k'.pm.mem x = k.pm.mem x) (hdir : k'.dir e = k.dir e) (hi : i < NPDU) :
    k'.pte e i j = k.pte e i j := by
  obtain ⟨free, ha⟩ := h.accounts
  obtain ⟨rest, rfl⟩ := ha.chain.eq_cons hp
  have hs := ha.separated
  have hhead : p ∈ p :: rest := List.mem_cons_self ..
  rcases hd : k.dir e with _ | d
  · rw [Kernel.pte_none hd, Kernel.pte_none (hdir.trans hd)]
  · rw [Kernel.pte_eq hd, Kernel.pte_eq (hdir.trans hd)]
    refine pteAt_frame ?_ fun t ht => ?_
    · rw [hmem d fun he => hs.free_dir p hhead e (he ▸ hd)]
    · exact hmem t fun he => hs.free_table p hhead e d i hd hi (he ▸ ht)

theorem Memory.same_alloced {p : Nat} {fl : Word} (h : Memory kept k)
    (hp : k.pm.page_free_list = some p) (hmem : pm.mem = (k.pm.alloced p fl).mem) :
    SamePtes k (k.withPm pm) := by
  refine fun e i j hi => h.pte_frame hp (fun x hx => ?_) rfl hi
  funext y
  exact (congrFun (congrFun hmem x) y).trans (by rw [Phys.alloced_mem, if_neg fun he => hx he.2])

theorem Memory.same_newDir {pgdir : Nat} (h : Memory kept k)
    (hvm : env_setup_vm k.pm k.kern_pgdir = .ok (some pgdir, pm)) (hfree : k.dir e = none)
    (hpm : k'.pm = pm) (hdir : k'.dir = Function.update k.dir e (some pgdir)) : SamePtes k k' := by
  obtain ⟨-, -, hnew, hlist⟩ := h.setup hvm hfree
  have hne : k.kern_pgdir ≠ pgdir := by
    obtain ⟨free, ha⟩ := h.accounts
    obtain ⟨rest, rfl⟩ := ha.chain.eq_cons hlist
    exact fun he => h.kern.own (he ▸ ha.balanced.free_kept _ (List.mem_cons_self ..))
  have hmem : ∀ x ≠ pgdir, k'.pm.mem x = k.pm.mem x := fun x hx => by
    rw [hpm, hnew, Phys.newDir_mem_ne hx]
  intro x i j hi
  by_cases hx : x = e
  · have hd : k'.dir x = some pgdir := by rw [hdir, hx, Function.update_self]
    have htab : table k'.pm pgdir i = none := by
      have hi' : i < NPTENTRIES ∧ i ≠ PDX UVPT := by
        have huvpt : PDX UVPT = 957 := by decide
        have hn : NPTENTRIES = 1024 := rfl
        rw [NPDU_eq] at hi
        omega
      unfold table
      rw [hpm, hnew, Phys.newDir_mem hne hi'.1 hi'.2]
      exact h.kern.low i hi
    rw [Kernel.pte_eq hd, Kernel.pte_none (hx ▸ hfree)]
    simp [pteAt, entry, htab]
  · exact h.pte_frame hlist hmem (by rw [hdir, Function.update_of_ne hx]) hi

/-- The entries of an environment are gone, and the others are what they
were. -/
structure DropsPtes (k k' : Kernel) (e : EnvIx) : Prop where
  gone : ∀ i j, k'.pte e i j = 0
  rest : ∀ e' ≠ e, ∀ i j, i < NPDU → k'.pte e' i j = k.pte e' i j

theorem Memory.drops (h : Memory kept k) (hp : FreesPages k e pm) (hpm : k'.pm = pm)
    (hdir : k'.dir = Function.update k.dir e none) : DropsPtes k k' e := by
  obtain ⟨free, ha⟩ := h.accounts
  obtain ⟨d, hd, hrun⟩ := hp
  obtain ⟨pm', free', hrun', -, -, honly, -⟩ := env_free_pages_ok ha hd
  cases hrun.symm.trans hrun'
  refine ⟨fun i j => Kernel.pte_none (by rw [hdir, Function.update_self]), fun x hx i j hi => ?_⟩
  have hsame : k'.dir x = k.dir x := by rw [hdir, Function.update_of_ne hx]
  rcases hd' : k.dir x with _ | d'
  · rw [Kernel.pte_none hd', Kernel.pte_none (hsame.trans hd')]
  · obtain ⟨hmem, htab⟩ := honly.others ha hd hd' hx
    rw [Kernel.pte_eq hd', Kernel.pte_eq (hsame.trans hd'), hpm]
    exact pteAt_frame (congrFun hmem i) fun t ht => htab i hi t ht

end ptes

/-! ## What a call does to the entries -/

namespace Call

/-- The permissions that the call asks for. -/
def perm : Call → Word
  | page_alloc _ _ perm => perm
  | page_map _ _ _ _ perm => perm
  | ipc_try_send _ _ _ perm => perm
  | _ => 0

/-- The environment that a page is taken from, and the address there. -/
def source (k : Kernel) (cur : EnvIx) : Call → Option (EnvIx × Word)
  | page_map srcenvid srcva _ _ _ =>
    match envid2env k cur srcenvid true with
    | .ok src => some (src, srcva)
    | .error _ => none
  | ipc_try_send _ _ srcva _ => some (cur, srcva)
  | _ => none

/-- What the call gives to `page_insert` if it returns 0: the environment, the
address, and the page. -/
def given (k : Kernel) (cur : EnvIx) : Call → Option (EnvIx × Word × Nat)
  | page_alloc envid va _ =>
    match envid2env k cur envid true with
    | .ok e => k.pm.page_free_list.map fun p => (e, va, p)
    | .error _ => none
  | page_map srcenvid srcva dstenvid dstva _ =>
    match envid2env k cur srcenvid true, envid2env k cur dstenvid true with
    | .ok src, .ok dst =>
      if srcva < UTOP then (k.pageAt src srcva).map fun p => (dst, dstva, p) else none
    | _, _ => none
  | ipc_try_send envid _ srcva _ =>
    match envid2env k cur envid false with
    | .ok target =>
      let dstva := (k.envs target).env_ipc_dstva
      -- without an address on both sides no page is sent
      if srcva < UTOP ∧ dstva < UTOP ∧ dstva ≠ 0 then
        (k.pageAt cur srcva).map fun p => (target, dstva, p)
      else none
    | .error _ => none
  | _ => none

/-- The place that the call clears if it returns 0. -/
def cleared (k : Kernel) (cur : EnvIx) : Call → Option (EnvIx × Word)
  | page_unmap envid va =>
    match envid2env k cur envid true with
    | .ok e => some (e, va)
    | .error _ => none
  | _ => none

/-- Where page `p` comes from: it was free and is cleared now, or the source has
it, writable if the call asks for that. -/
def Origin (k k' : Kernel) (cur : EnvIx) (p : Nat) : Call → Prop
  | page_alloc .. => k.pm.page_free_list = some p ∧ ∀ j, k'.pm.mem p j = 0
  | call => ∃ src srcva, call.source k cur = some (src, srcva) ∧ srcva < UTOP ∧
      pageOf (k.pte src (PDX srcva) (PTX srcva)) = some p ∧
      (call.perm &&& PTE_W ≠ 0 → k.pte src (PDX srcva) (PTX srcva) &&& PTE_W ≠ 0)

theorem given_cleared_none {k : Kernel} {cur : EnvIx} {call : Call} (h : call.onPages = false) :
    call.given k cur = none ∧ call.cleared k cur = none := by
  cases call <;> first | exact ⟨rfl, rfl⟩ | cases h

end Call

/-- What a call by `cur` that returns `r` has done to the entries. -/
inductive Remaps (k : Kernel) (cur : EnvIx) (call : Call) (r : Int) (k' : Kernel) : Prop
  | same (hno : r ≠ 0 ∨ call.given k cur = none ∧ call.cleared k cur = none)
      (hsame : SamePtes k k')
  | set {e : EnvIx} {va : Word} {p : Nat} (hr : r = 0) (hva : va < UTOP)
      (hgiven : call.given k cur = some (e, va, p)) (horigin : call.Origin k k' cur p)
      (hset : SetsPte k k' e (PDX va) (PTX va) (pteFor p call.perm))
  | clear {e : EnvIx} {va : Word} (hr : r = 0) (hva : va < UTOP)
      (hcleared : call.cleared k cur = some (e, va))
      (hgone : pageOf (k'.pte e (PDX va) (PTX va)) = none)
      (hrest : ∀ e' i j, i < NPDU → ¬ (e' = e ∧ i = PDX va ∧ j = PTX va) →
        k'.pte e' i j = k.pte e' i j)
  | drop {e : EnvIx} (hcall : call.onPages = false) (hdrops : DropsPtes k k' e)

section remaps

variable {kept : Nat → Prop} {k k' : Kernel} {c : Nat} {cur : EnvIx} {call : Call} {r : Int}

/-- A page that is mapped now is no page table, so it is as `page_alloc` has
cleared it. -/
theorem Memory.fresh_zero {e : EnvIx} {d p : Nat} {va perm : Word} {pm : Phys}
    (hm : Memory kept (k.withPm pm)) (hd : k.dir e = some d) (hva : va < UTOP)
    (hp : p < 2 ^ 20) (hperm : perm < 0x1000)
    (hset : EntrySet (k.pm.alloced p ALLOC_ZERO) pm k.dir d (PDX va) (PTX va) (pteFor p perm))
    (j : Nat) : pm.mem p j = 0 := by
  obtain ⟨free, ha⟩ := hm.accounts
  have hi := PDX_lt_NPDU hva
  have hpte : pageOf (pteAt pm d (PDX va) (PTX va)) = some p := by
    rw [hset.pteAt e d _ _ hd hi, if_pos ⟨rfl, rfl, rfl⟩]
    exact pageOf_pteFor hp (lt_page hperm)
  have hslot : slots pm k.dir _ = some p := slot_of_pte hd hva hpte
  have hdata := ha.mapped_shared hslot
  rcases hset.mem p j with hsame | ⟨rfl, -, -⟩ | ht
  · rw [hsame, Phys.alloced_mem, if_pos ⟨by decide, rfl⟩]
  · exact absurd (hdata (.own e) hd) id
  · exact absurd (hdata (.pde e ⟨_, hi⟩) ((slots_pde hi hd).trans ht)) id

theorem Memory.grant_origin {src dst : EnvIx} {srcva dstva perm : Word} {p : Nat} {pm : Phys}
    (h : Memory kept k) (hg : Grant k src dst srcva dstva perm p r pm) :
    pageOf (k.pte src (PDX srcva) (PTX srcva)) = some p ∧
      (perm &&& PTE_W ≠ 0 → k.pte src (PDX srcva) (PTX srcva) &&& PTE_W ≠ 0) := by
  obtain ⟨d, hd, hp, hw⟩ := h.grant_source hg
  rw [Kernel.pte_eq hd]
  exact ⟨hp, hw⟩

/-- The inversion of a call, as far as entries go. -/
theorem Memory.remaps (h : Memory kept k) (hl : call.onPages = false → FreeListed k)
    (hlow : call.lowPerm) (heff : Effect k c cur call r k') : Remaps k cur call r k' := by
  cases heff with
  | quiet hcall hq =>
    obtain ⟨_, _, _, rfl⟩ := hq
    exact .same (Or.inr (Call.given_cleared_none hcall)) (.of_eq rfl rfl)
  | refused hr => exact .same (Or.inl hr) (.refl k)
  | dying | status | trapframe | upcall =>
    exact .same (Or.inr ⟨rfl, rfl⟩) (.of_eq rfl (Kernel.setEnv_dir_same rfl))
  | freed he hother hrun hpages =>
    exact .drop rfl (h.drops hpages rfl (Kernel.release_dir ..))
  | fork hfree hvm =>
    exact .same (Or.inr ⟨rfl, rfl⟩)
      (h.same_newDir hvm ((h.live _).mpr ((hl rfl).head hfree)) rfl (Kernel.fork_dir ..))
  | lost halloc he =>
    obtain ⟨-, rfl, hlist⟩ := h.lost halloc
    exact .same (Or.inl (envid2env_error he)) (h.same_alloced hlist rfl)
  | @alloc envid va perm e p r pm he hf hr =>
    obtain ⟨hlist, ⟨rfl, -⟩ | ⟨-, hm, d, hd, hset⟩⟩ := h.fresh hf hlow
    · exact absurd (by decide) hr
    · obtain ⟨free, ha⟩ := h.accounts
      obtain ⟨rest, rfl⟩ := ha.chain.eq_cons hlist
      have hlt := ha.kept_lt p (ha.balanced.free_kept p (List.mem_cons_self ..))
      have hp : p < 2 ^ 20 := by have := k.pm.npages_le; omega
      have hm₁ : Memory kept (k.withPm (k.pm.alloced p ALLOC_ZERO)) :=
        h.withPm ha.alloced ha.kernelKept_alloced
      refine .set (e := e) (p := p) rfl hf.va_lt (by simp [Call.given, he, hlist])
        ⟨hlist, hm.fresh_zero hd hf.va_lt hp hlow hset⟩ ?_
      exact SetsPte.after (hm₁.setsPte hd hset.pteAt) (h.same_alloced hlist rfl)
  | unalloc he hf hr hback =>
    obtain ⟨-, hmem⟩ := h.fresh_back hf hlow hr hback
    exact .same (Or.inl (by omega)) (h.same_alloced (h.fresh hf hlow).1 hmem)
  | @map srcenvid srcva dstenvid dstva perm src dst p r pm hsrc hdst hg hr =>
    have hpage := h.grant_pageAt hg
    rcases h.grant_entry hg hlow with ⟨rfl, -⟩ | ⟨-, d, hd, hset⟩
    · exact absurd (by decide) hr
    · refine .set (e := dst) (p := p) rfl hg.dstva_lt ?_
        ⟨src, srcva, by simp only [Call.source, hsrc], hg.srcva_lt, h.grant_origin hg⟩
        (h.setsPte hd hset.pteAt)
      simp only [Call.given, hsrc, hdst, hpage, Option.map_some, if_pos hg.srcva_lt]
  | nomap hsrc hdst hg hr =>
    rcases h.grant_entry hg hlow with ⟨-, rfl⟩ | ⟨rfl, -⟩
    · exact .same (Or.inl (by omega)) (.refl k)
    · exact absurd hr (by decide)
  | @unmap envid va e d pm he hva hdir hrem =>
    obtain ⟨free, ha⟩ := h.accounts
    have hcleared : Call.cleared k cur (.page_unmap envid va) = some (e, va) := by
      simp only [Call.cleared, he]
    rcases page_remove_spec ha hdir hva with ⟨hnone, hrun⟩ | ⟨pm', q, -, hrun, -, hset, -⟩
    · cases hrem.symm.trans hrun
      refine .clear rfl hva hcleared ?_ fun _ _ _ _ _ => rfl
      rw [Kernel.pte_eq (k := k.withPm k.pm) hdir]
      exact hnone
    · cases hrem.symm.trans hrun
      have hsets := h.setsPte hdir hset.pteAt
      refine .clear rfl hva hcleared ?_ fun e' i j hi hne => ?_
      · rw [hsets e _ _ (PDX_lt_NPDU hva), if_pos ⟨rfl, rfl, rfl⟩]
        exact pageOf_zero
      · rw [hsets e' i j hi, if_neg hne]
  | send he hrecv hno =>
    refine .same (Or.inr ⟨?_, rfl⟩) (.of_eq rfl (deliver_dir ..))
    simp only [Call.given, he]
    exact if_neg hno
  | unsend he hg hr =>
    rcases h.grant_entry hg (hlow hg.srcva_lt) with ⟨-, rfl⟩ | ⟨rfl, -⟩
    · exact .same (Or.inl (by decide)) (.refl k)
    · exact absurd hr (by decide)
  | @sendPage envid value srcva perm target p r pm he hrecv hdst hg hr =>
    have hpage := h.grant_pageAt hg
    rcases h.grant_entry hg (hlow hg.srcva_lt) with ⟨rfl, -⟩ | ⟨-, d, hd, hset⟩
    · exact absurd (by decide) hr
    · refine .set (e := target) rfl hg.dstva_lt ?_ ⟨_, _, rfl, hg.srcva_lt, h.grant_origin hg⟩ ?_
      · simp only [Call.given, he, hpage, Option.map_some]
        exact if_pos ⟨hg.srcva_lt, hg.dstva_lt, hdst⟩
      · exact SetsPte.before (h.setsPte hd hset.pteAt) (.of_eq rfl (deliver_dir ..))

end remaps

/-! ## Runs of calls on pages -/

/-- For each place, the page that `page_insert` was last given for it. -/
abbrev History := EnvIx → Nat → Nat → Option Nat

def History.set (g : History) (e : EnvIx) (va : Word) (page : Option Nat) : History :=
  fun e' i j => if e' = e ∧ i = PDX va ∧ j = PTX va then page else g e' i j

/-- The kernel, with the history of its page tables. -/
structure Traced where
  k : Kernel
  given : History

/-- A call on pages, or the use of a mapping, which the MMU notes. -/
inductive PageEvent
  | call (c : Nat) (cur : EnvIx) (call : Call)
  | touch (e : EnvIx) (va : Word) (dirty : Bool)

/-- The history after a call that has returned `r`. -/
def Call.record (k : Kernel) (cur : EnvIx) (call : Call) (r : Int) (g : History) : History :=
  if r ≠ 0 then g
  else
    match call.given k cur, call.cleared k cur with
    | some (e, va, p), _ => g.set e va (some p)
    | none, some (e, va) => g.set e va none
    | none, none => g

/-- One of the calls on pages by an environment that is not free. There is no
step where it does not return. -/
def pageStep (t : Traced) : PageEvent → Option Traced
  | .call c cur call =>
    if call.onPages ∧ t.k.status cur ≠ .ENV_FREE then
      match call.run t.k c cur with
      | .ret r k => some ⟨k, call.record t.k cur r t.given⟩
      | _ => none
    else none
  | .touch e va dirty =>
    if va < UTOP then
      (t.k.dir e).map fun d => { t with k := t.k.withPm (touchEntry t.k.pm d va dirty) }
    else none

/-- A present entry is for the user, and has no bits but those that a call may
set and those that the MMU sets. -/
def Confined (w : Word) : Prop :=
  present w = true → w &&& PTE_U ≠ 0 ∧ w &&& PTE_P ≠ 0 ∧
    permOf w &&& ~~~(PTE_SYSCALL ||| PTE_A ||| PTE_D) = 0

/-- The entries name the pages of the history, and are confined. -/
structure Tracked (t : Traced) : Prop where
  named : ∀ e i j, i < NPDU → j < NPTENTRIES → pageOf (t.k.pte e i j) = t.given e i j
  confined : ∀ e i j, i < NPDU → j < NPTENTRIES → Confined (t.k.pte e i j)

/-- The permissions that the calls are documented to take: `PTE_U`, and nothing
outside `PTE_SYSCALL`. -/
def permOk (perm : Word) : Bool := perm &&& PTE_U != 0 && perm &&& ~~~PTE_SYSCALL == 0

/-- The call asks for such permissions, if it asks for any. -/
def Call.permOk : Call → Bool
  | page_alloc _ _ perm => jos.permOk perm
  | page_map _ _ _ _ perm => jos.permOk perm
  | ipc_try_send _ _ srcva perm => !(srcva < UTOP) || jos.permOk perm
  | _ => true

/-- The call asks for permissions that it may ask for, and for a page that has
fewer than 65535 references. -/
def Orderly (t : Traced) : PageEvent → Prop
  | .call _ cur call => call.permOk ∧ Fitting t.k cur call
  | .touch .. => True

section tracked

variable {kept : Nat → Prop} {t t' : Traced}

theorem and_or_distrib (a b c : Word) : (a ||| b) &&& c = (a &&& c) ||| (b &&& c) := by
  ext i hi
  simp only [BitVec.getElem_and, BitVec.getElem_or]
  cases a[i] <;> cases b[i] <;> simp

theorem permOk_lt {perm : Word} (h : permOk perm = true) : perm.toNat < 4096 := by
  simp only [permOk, Bool.and_eq_true, bne_iff_ne, ne_eq, beq_iff_eq] at h
  have hle : perm &&& PTE_SYSCALL = perm := by
    have hsplit : perm = (perm &&& PTE_SYSCALL) ||| (perm &&& ~~~PTE_SYSCALL) := by
      ext i hi
      simp only [BitVec.getElem_or, BitVec.getElem_and, BitVec.getElem_not]
      cases perm[i] <;> cases PTE_SYSCALL[i] <;> rfl
    rw [h.2] at hsplit
    simpa using hsplit.symm
  have hand := @Nat.and_le_right perm.toNat PTE_SYSCALL.toNat
  rw [← BitVec.toNat_and, hle] at hand
  have hsys : PTE_SYSCALL.toNat = 0xE07 := by decide
  omega

/-- What `page_insert` writes for such permissions is confined. -/
theorem confined_pteFor {p : Nat} {perm : Word} (hp : p < 2 ^ 20) (h : permOk perm = true) :
    Confined (pteFor p perm) := by
  have hlow := permOk_lt h
  simp only [permOk, Bool.and_eq_true, bne_iff_ne, ne_eq, beq_iff_eq] at h
  refine fun _ => ⟨fun h0 => ?_, fun h0 => ?_, ?_⟩
  · rw [pteFor, and_or_distrib] at h0
    exact h.1 (BitVec.or_eq_zero_iff.mp h0).2
  · rw [pteFor, and_or_distrib, and_or_distrib] at h0
    exact absurd (BitVec.or_eq_zero_iff.mp (BitVec.or_eq_zero_iff.mp h0).1).2 (by decide)
  · rw [permOf_pteFor hp hlow, and_or_distrib]
    have hperm : perm &&& ~~~(PTE_SYSCALL ||| PTE_A ||| PTE_D) = 0 := by
      have hmask : ~~~(PTE_SYSCALL ||| PTE_A ||| PTE_D) =
          ~~~PTE_SYSCALL &&& ~~~(PTE_SYSCALL ||| PTE_A ||| PTE_D) := by decide
      rw [hmask, ← BitVec.and_assoc, h.2]
      simp
    rw [hperm]
    decide

/-- The bits that the MMU sets. -/
def touchBits (dirty : Bool) : Word := if dirty then PTE_A ||| PTE_D else PTE_A

theorem confined_touch {w : Word} (dirty : Bool) (h : Confined w) : Confined (w ||| touchBits dirty) := by
  have hpage : present (w ||| touchBits dirty) = present w := by
    unfold present
    rw [and_or_distrib]
    cases dirty <;> simp [touchBits, PTE_A, PTE_D, PTE_P]
  intro hp
  obtain ⟨hu, hpp, hlow⟩ := h (hpage ▸ hp)
  refine ⟨fun h0 => ?_, fun h0 => ?_, ?_⟩
  · rw [and_or_distrib] at h0
    exact hu (BitVec.or_eq_zero_iff.mp h0).1
  · rw [and_or_distrib] at h0
    exact hpp (BitVec.or_eq_zero_iff.mp h0).1
  · unfold permOf at hlow ⊢
    rw [and_or_distrib, and_or_distrib, hlow]
    cases dirty <;> decide

theorem pageOf_touch (w : Word) (dirty : Bool) : pageOf (w ||| touchBits dirty) = pageOf w := by
  refine pageOf_or ?_ ?_ <;> cases dirty <;> decide

theorem touchEntry_eq {s : Phys} {d tab : Nat} {va : Word} (dirty : Bool)
    (ht : table s d (PDX va) = some tab) : touchEntry s d va dirty =
      if present (s.mem tab (PTX va)) then
        s.write tab (PTX va) (s.mem tab (PTX va) ||| touchBits dirty)
      else s := by
  have ht : pageOf (s.mem d (PDX va)) = some tab := ht
  simp only [touchEntry, ht]
  rfl

/-- The MMU marks the entry of a page that is mapped. -/
theorem Memory.touch_ptes {k : Kernel} {e : EnvIx} {d : Nat} {va : Word} (dirty : Bool)
    (h : Memory kept k) (hd : k.dir e = some d) (hva : va < UTOP) :
    SamePtes k (k.withPm (touchEntry k.pm d va dirty)) ∨
      SetsPte k (k.withPm (touchEntry k.pm d va dirty)) e (PDX va) (PTX va)
        (k.pte e (PDX va) (PTX va) ||| touchBits dirty) := by
  rcases ht : table k.pm d (PDX va) with _ | tab
  · have ht' : pageOf (k.pm.mem d (PDX va)) = none := ht
    have hsame : touchEntry k.pm d va dirty = k.pm := by simp only [touchEntry, ht']
    rw [hsame]
    exact Or.inl (.refl k)
  · rw [touchEntry_eq dirty ht]
    split
    · obtain ⟨free, ha⟩ := h.accounts
      have hw : k.pte e (PDX va) (PTX va) = k.pm.mem tab (PTX va) := by
        rw [Kernel.pte_eq hd, pteAt, entry, ht]
        rfl
      rw [hw]
      exact Or.inr (h.setsPte hd fun e' d' i' j' =>
        pteAt_write ha.separated.toApart hd (PDX_lt_NPDU hva) ht)
    · exact Or.inl (.refl k)

theorem Call.given_lt {k : Kernel} {cur e : EnvIx} {call : Call} {va : Word} {p : Nat}
    (h : Memory kept k) (hg : call.given k cur = some (e, va, p)) : p < 2 ^ 20 := by
  have hpage : ∀ {e' va'} {f : Nat → EnvIx × Word × Nat}, (∀ q, (f q).2.2 = q) →
      (k.pageAt e' va').map f = some (e, va, p) → p < 2 ^ 20 := by
    intro e' va' f hf hm
    obtain ⟨q, hq, hfq⟩ := Option.map_eq_some_iff.mp hm
    obtain rfl : q = p := by rw [← hf q, hfq]
    rw [pageAt_eq] at hq
    exact pageOf_lt hq
  cases call with
  | page_alloc envid va' perm =>
    simp only [Call.given] at hg
    split at hg
    · obtain ⟨q, hq, hfq⟩ := Option.map_eq_some_iff.mp hg
      obtain ⟨free, ha⟩ := h.accounts
      obtain ⟨rest, rfl⟩ := ha.chain.eq_cons hq
      have hlt := ha.kept_lt q (ha.balanced.free_kept q (List.mem_cons_self ..))
      have hle := k.pm.npages_le
      cases hfq
      omega
    · cases hg
  | page_map srcenvid srcva dstenvid dstva perm =>
    simp only [Call.given] at hg
    split at hg
    · split at hg
      · exact hpage (fun _ => rfl) hg
      · cases hg
    · cases hg
  | ipc_try_send envid value srcva perm =>
    simp only [Call.given] at hg
    split at hg
    · split at hg
      · exact hpage (fun _ => rfl) hg
      · cases hg
    · cases hg
  | _ => cases hg

theorem Call.given_permOk {k : Kernel} {cur : EnvIx} {call : Call} {place : EnvIx × Word × Nat}
    (hg : call.given k cur = some place) (hok : call.permOk = true) : jos.permOk call.perm = true := by
  cases call with
  | page_alloc | page_map => exact hok
  | ipc_try_send envid value srcva perm =>
    simp only [Call.given] at hg
    split at hg
    · split at hg
      · rename_i hva
        have hperm : jos.permOk perm = true := by simpa [Call.permOk, hva.1] using hok
        exact hperm
      · cases hg
    · cases hg
  | _ => cases hg

/-- A call on pages needs no CPU. -/
theorem page_call_ends {k : Kernel} {c : Nat} {cur : EnvIx} {call : Call}
    (h : call.onPages = true) : Ends k c cur call (call.run k c cur) := by
  cases call with
  | page_alloc envid va perm => exact sys_page_alloc_ends envid va perm
  | page_map srcenvid srcva dstenvid dstva perm =>
    exact sys_page_map_ends srcenvid srcva dstenvid dstva perm
  | page_unmap envid va => exact sys_page_unmap_ends envid va
  | ipc_try_send envid value srcva perm => exact sys_ipc_try_send_ends envid value srcva perm
  | _ => cases h

theorem Tracked.congr {k : Kernel} (h : Tracked t) (hs : SamePtes t.k k) : Tracked ⟨k, t.given⟩ where
  named e i j hi hj := by rw [hs e i j hi]; exact h.named e i j hi hj
  confined e i j hi hj := by rw [hs e i j hi]; exact h.confined e i j hi hj

/-- One entry changes, and the history of its place with it. -/
theorem Tracked.set {k : Kernel} {e : EnvIx} {va : Word} {page : Option Nat} (h : Tracked t)
    (hpage : pageOf (k.pte e (PDX va) (PTX va)) = page)
    (hconf : Confined (k.pte e (PDX va) (PTX va)))
    (hrest : ∀ e' i j, i < NPDU → ¬ (e' = e ∧ i = PDX va ∧ j = PTX va) →
      k.pte e' i j = t.k.pte e' i j) : Tracked ⟨k, t.given.set e va page⟩ := by
  refine ⟨fun e' i j hi hj => ?_, fun e' i j hi hj => ?_⟩
  all_goals by_cases hx : e' = e ∧ i = PDX va ∧ j = PTX va
  · obtain ⟨rfl, rfl, rfl⟩ := hx
    simpa [History.set] using hpage
  · rw [hrest e' i j hi hx, h.named e' i j hi hj]
    exact (if_neg hx).symm
  · obtain ⟨rfl, rfl, rfl⟩ := hx
    exact hconf
  · rw [hrest e' i j hi hx]
    exact h.confined e' i j hi hj

theorem Tracked.call {cur : EnvIx} {call : Call} {r : Int} {k : Kernel}
    (hm : Memory kept t.k) (h : Tracked t) (hpages : call.onPages = true)
    (hok : call.permOk = true) (hr : Remaps t.k cur call r k) :
    Tracked ⟨k, call.record t.k cur r t.given⟩ := by
  cases hr with
  | same hno hsame =>
    have hrec : call.record t.k cur r t.given = t.given := by
      unfold Call.record
      rcases hno with hr | ⟨hgiven, hcleared⟩
      · rw [if_pos hr]
      · rw [hgiven, hcleared]
        split <;> rfl
    rw [hrec]
    exact h.congr hsame
  | @set e va p hr hva hgiven horigin hset =>
    have hi := PDX_lt_NPDU hva
    have hperm := Call.given_permOk hgiven hok
    have hp := Call.given_lt hm hgiven
    have hpte : k.pte e (PDX va) (PTX va) = pteFor p call.perm := by
      rw [hset e _ _ hi, if_pos ⟨rfl, rfl, rfl⟩]
    have hrec : call.record t.k cur r t.given = t.given.set e va (some p) := by
      unfold Call.record
      rw [if_neg (not_not.mpr hr), hgiven]
    rw [hrec]
    refine h.set ?_ ?_ fun e' i j hi hne => by rw [hset e' i j hi, if_neg hne]
    · rw [hpte]; exact pageOf_pteFor hp (permOk_lt hperm)
    · rw [hpte]; exact confined_pteFor hp hperm
  | @clear e va hr hva hcleared hgone hrest =>
    have hgiven : call.given t.k cur = none := by
      cases call <;> first | rfl | cases hcleared
    have hrec : call.record t.k cur r t.given = t.given.set e va none := by
      unfold Call.record
      rw [if_neg (not_not.mpr hr), hgiven, hcleared]
    rw [hrec]
    refine h.set hgone (fun hp => ?_) hrest
    rw [pageOf_eq_none.mp hgone] at hp
    cases hp
  | drop hcall => rw [hpages] at hcall; cases hcall

theorem tracked_step {ev : PageEvent} (h : Memory kept t.k ∧ Tracked t) (hord : Orderly t ev)
    (hs : pageStep t ev = some t') : Memory kept t'.k ∧ Tracked t' := by
  obtain ⟨hm, ht⟩ := h
  cases ev with
  | call c cur call =>
    obtain ⟨hok, hfit⟩ := hord
    simp only [pageStep] at hs
    split at hs
    · rename_i hcall
      obtain ⟨hpages, hlive⟩ := hcall
      split at hs
      · rename_i r k hrun
        cases hs
        have heff : Effect t.k c cur call r k := by
          have hends : Ends t.k c cur call (call.run t.k c cur) := page_call_ends hpages
          rwa [hrun] at hends
        have hno : call.onPages = false → FreeListed t.k := fun h => by rw [hpages] at h; cases h
        exact ⟨hm.effect hno hlive hfit heff, ht.call hm hpages hok (hm.remaps hno hfit.lowPerm heff)⟩
      · cases hs
    · cases hs
  | touch e va dirty =>
    simp only [pageStep] at hs
    split at hs
    · rename_i hva
      obtain ⟨d, hd, rfl⟩ := Option.map_eq_some_iff.mp hs
      refine ⟨hm.touch hd hva, ?_⟩
      rcases hm.touch_ptes dirty hd hva with hsame | hset
      · exact ht.congr hsame
      · -- the page is the same, so the history need not change
        have hi := PDX_lt_NPDU hva
        have hpte := hset e (PDX va) (PTX va) hi
        rw [if_pos ⟨rfl, rfl, rfl⟩] at hpte
        have hnew : Tracked ⟨t.k.withPm (touchEntry t.k.pm d va dirty),
            t.given.set e va (t.given e (PDX va) (PTX va))⟩ := ht.set
          (by rw [hpte, pageOf_touch]; exact ht.named e _ _ hi (PTX_lt va))
          (by rw [hpte]; exact confined_touch dirty (ht.confined e _ _ hi (PTX_lt va)))
          fun e' i j hi hne => by rw [hset e' i j hi, if_neg hne]
        have hg : t.given.set e va (t.given e (PDX va) (PTX va)) = t.given := by
          funext e' i j
          unfold History.set
          split
          · rename_i hx; rw [hx.1, hx.2.1, hx.2.2]
          · rfl
        rwa [hg] at hnew
    · cases hs

end tracked

/-- In every run of calls on pages, each with permissions that it may ask for
and a page that has room for a reference: a present entry below `UTOP` is
for the user, has no other bits than it may have, and names the page that
`page_insert` was given for its place, which counts it. -/
theorem mappings_are_confined {kept : Nat → Prop} {t₀ t : Traced} {evs : List PageEvent}
    (hmem : Memory kept t₀.k) (h₀ : Tracked t₀) (hr : runs.runFrom pageStep t₀ evs = some t)
    (hord : runs.Along pageStep Orderly t₀ evs) (e : EnvIx) (va : Word) (hva : va < UTOP)
    (hp : present (t.k.pte e (PDX va) (PTX va)) = true) :
    t.k.pte e (PDX va) (PTX va) &&& PTE_U ≠ 0 ∧ t.k.pte e (PDX va) (PTX va) &&& PTE_P ≠ 0 ∧
    permOf (t.k.pte e (PDX va) (PTX va)) &&& ~~~(PTE_SYSCALL ||| PTE_A ||| PTE_D) = 0 ∧
    ∃ p, t.given e (PDX va) (PTX va) = some p ∧
      PTE_ADDR (t.k.pte e (PDX va) (PTX va)) = page2pa p ∧
      (t.k.pm.ref p).toNat = refs t.k.pm t.k.dir p ∧ 0 < refs t.k.pm t.k.dir p := by
  obtain ⟨hm, ht⟩ : Memory kept t.k ∧ Tracked t :=
    runs.runFrom_keeps (fun _ _ _ => tracked_step) ⟨hmem, h₀⟩ hr hord
  have hi := PDX_lt_NPDU hva
  obtain ⟨hu, hpp, hlow⟩ := ht.confined e _ _ hi (PTX_lt va) hp
  rcases hpage : pageOf (t.k.pte e (PDX va) (PTX va)) with _ | p
  · rw [pageOf_eq_none.mp hpage] at hp
    cases hp
  · have hat : t.k.pageAt e va = some p := by rw [pageAt_eq, hpage]
    have hcount := hm.count_pageAt hva hat
    refine ⟨hu, hpp, hlow, p, ?_, ?_, hcount, ?_⟩
    · rw [← ht.named e _ _ hi (PTX_lt va), hpage]
    · obtain ⟨free, ha⟩ := hm.accounts
      obtain ⟨d, hd, hpd⟩ := Option.bind_eq_some_iff.mp hat
      have hlt := ha.kept_lt p (ha.named (slot_of_pte hd hva hpd))
      exact (PTE_ADDR_eq_page2pa hpage hlt).mpr rfl
    · obtain ⟨free, ha⟩ := hm.accounts
      obtain ⟨d, hd, hpd⟩ := Option.bind_eq_some_iff.mp hat
      rw [← hcount]
      exact ha.ref_pos (slot_of_pte hd hva hpd)

/-- A machine of 64 pages with one environment, which has nothing mapped. -/
def oneEnv : Traced where
  k :=
    let k := env_init (zeroKernel 64 (by decide) 1)
    k.enlist 0 0 2 (k.pm.newDir k.kern_pgdir 2)
  given := fun _ _ _ => none

theorem oneEnv_tracked : Memory (fun p => 2 ≤ p ∧ p < 64) oneEnv.k ∧ Tracked oneEnv := by
  have hboot := @zeroKernel_bootable 64 1 (by decide) (by decide)
  have hsound := hboot.sound
  obtain ⟨hpm, hdir, hkern⟩ := env_init_rest (zeroKernel 64 (by decide) 1)
  generalize hk : env_init (zeroKernel 64 (by decide) 1) = k at hsound hpm hdir hkern
  have hfree : k.dir 0 = none := by rw [hdir]; rfl
  have hvm : env_setup_vm k.pm k.kern_pgdir = .ok (some 2, k.pm.newDir k.kern_pgdir 2) :=
    env_setup_vm_some (by rw [hpm]; rfl) (by rw [hpm]; decide)
  have hone : oneEnv.k = k.enlist 0 0 2 (k.pm.newDir k.kern_pgdir 2) := by
    rw [← hk]; rfl
  have hpte : ∀ e i j, i < NPDU → oneEnv.k.pte e i j = 0 := by
    intro e i j hi
    have hsame : SamePtes k (k.enlist 0 0 2 (k.pm.newDir k.kern_pgdir 2)) :=
      hsound.memory.same_newDir hvm hfree rfl (Kernel.enlist_dir ..)
    rw [hone, hsame e i j hi]
    exact Kernel.pte_none (by rw [hdir]; rfl)
  refine ⟨by rw [hone]; exact hsound.memory.enlist hvm ((hsound.memory.live 0).mp hfree), ?_, ?_⟩
  · intro e i j hi _
    rw [hpte e i j hi]
    rfl
  · intro e i j hi _ hp
    rw [hpte e i j hi] at hp
    cases hp

/-- What `Orderly` asks for, with the counts of the pages. -/
def orderly (t : Traced) : PageEvent → Bool
  | .call _ cur call => call.permOk && fits t.k cur call
  | .touch .. => true

/-- A page is allocated and written to, and mapped again for reading. -/
def mapTwice : List PageEvent :=
  [.call 0 0 (.page_alloc 0 0x800000 7), .touch 0 0x800000 true,
    .call 0 0 (.page_map 0 0x800000 0 0x801000 5)]

theorem mapTwice_orderly : runs.Along pageStep Orderly oneEnv mapTwice := by
  have hcheck : runs.Along pageStep (fun t ev => orderly t ev = true) oneEnv mapTwice := by
    decide +kernel
  refine runs.Along.imp (fun t ev h hev => ?_) (fun _ _ _ => tracked_step) oneEnv_tracked hcheck
  cases ev with
  | call c cur call =>
    obtain ⟨hperm, hfits⟩ := Bool.and_eq_true_iff.mp hev
    exact ⟨hperm, h.1.fitting_of_fits hfits⟩
  | touch => trivial

theorem mappings_are_confined_twice : ∃ t, runs.runFrom pageStep oneEnv mapTwice = some t ∧
    present (t.k.pte 0 (PDX 0x801000) (PTX 0x801000)) = true ∧
    ∃ p, t.given 0 (PDX 0x801000) (PTX 0x801000) = some p ∧
      PTE_ADDR (t.k.pte 0 (PDX 0x801000) (PTX 0x801000)) = page2pa p := by
  have hrun : (runs.runFrom pageStep oneEnv mapTwice).map
      (fun t => present (t.k.pte 0 (PDX 0x801000) (PTX 0x801000))) = some true := by
    decide +kernel
  obtain ⟨t, hr, hp⟩ := Option.map_eq_some_iff.mp hrun
  obtain ⟨-, -, -, p, hgiven, haddr, -⟩ := mappings_are_confined oneEnv_tracked.1 oneEnv_tracked.2
    hr mapTwice_orderly 0 0x801000 (by decide) hp
  exact ⟨t, hr, hp, p, hgiven, haddr⟩

/-- The calls refuse `perm` only if it fails all three of their tests. With the
bit `0x4000` in it, the entry for page 3 names page 7, which is free; and
without `PTE_U` the entry is not for the user. -/
theorem bad_permissions_are_taken :
    (Memory (fun p => 2 ≤ p ∧ p < 64) oneEnv.k ∧ Tracked oneEnv) ∧ ∃ t,
    runs.runFrom pageStep oneEnv [.call 0 0 (.page_alloc 0 0x800000 0x4007),
      .call 0 0 (.page_alloc 0 0x801000 1)] = some t ∧
    present (t.k.pte 0 (PDX 0x800000) (PTX 0x800000)) = true ∧
    t.given 0 (PDX 0x800000) (PTX 0x800000) = some 3 ∧
    PTE_ADDR (t.k.pte 0 (PDX 0x800000) (PTX 0x800000)) = page2pa 7 ∧ t.k.pm.ref 7 = 0 ∧
    present (t.k.pte 0 (PDX 0x801000) (PTX 0x801000)) = true ∧
    t.k.pte 0 (PDX 0x801000) (PTX 0x801000) &&& PTE_U = 0 := by
  have hrun : (runs.runFrom pageStep oneEnv [.call 0 0 (.page_alloc 0 0x800000 0x4007),
      .call 0 0 (.page_alloc 0 0x801000 1)]).map (fun t =>
        (t.k.pte 0 (PDX 0x800000) (PTX 0x800000), t.given 0 (PDX 0x800000) (PTX 0x800000),
          t.k.pm.ref 7, t.k.pte 0 (PDX 0x801000) (PTX 0x801000))) =
      some (0x7007, some 3, 0, 0x5001) := by decide +kernel
  obtain ⟨t, hr, hfacts⟩ := Option.map_eq_some_iff.mp hrun
  simp only [Prod.mk.injEq] at hfacts
  obtain ⟨hpte, hgiven, href, hpte'⟩ := hfacts
  refine ⟨oneEnv_tracked, t, hr, ?_, hgiven, ?_, href, ?_, ?_⟩
  · rw [hpte]; decide
  · rw [hpte]; decide
  · rw [hpte']; decide
  · rw [hpte']; decide

end jos
