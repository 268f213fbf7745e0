-- The first free list (`boot_alloc` and `page_init` of `kern/pmap.c`). Two loops link the
-- pages through `prev`, `pages[i-1]` and `track`. They leave out the page that the other
-- processors start in, the hole for devices and the kernel.
import Mathlib
import Jos.UserMem
import Jos.Lib.LinkedList
import Jos.Lib.Loop

namespace jos.boot

open linked_list loop

def IOPHYSMEM : Nat := 0x0A0000
def MPENTRY_PADDR : Nat := 0x7000

/-! ## The code -/

/-- The globals that `page_init` uses, with the static `nextfree` of `boot_alloc`, which
is 0 before its first call, and the linker's `end`. -/
structure Boot where
  npages : Nat
  npages_basemem : Nat
  pages : Nat → PageInfo
  page_free_list : Option Nat
  nextfree : Word
  kernel_end : Word

def PADDR (kva : Word) : Except Panic Word :=
  if kva < KERNBASE then .error .paddr else .ok (kva - KERNBASE)

/-- `nextfree` is set if this is the first call. -/
def set_nextfree (m : Boot) : Boot :=
  if m.nextfree = 0 then { m with nextfree := ROUNDUP m.kernel_end 0x1000 } else m

def boot_alloc (m : Boot) (n : Word) : Except Panic (Word × Boot) :=
  let m := set_nextfree m
  if n = 0 then .ok (m.nextfree, m)
  else do
    let result := m.nextfree
    let m := { m with nextfree := m.nextfree + ROUNDUP n 0x1000 }
    let pa ← PADDR m.nextfree
    if BitVec.ofNat 32 (m.npages * PGSIZE) < pa then return (0, m) else return (result, m)

/-- `pages[p].pp_link = l` -/
def setLink (pages : Nat → PageInfo) (p : Nat) (l : Option Nat) : Nat → PageInfo :=
  Function.update pages p { pages p with pp_link := l }

/-- First mark all pages as used, from page 1 on. -/
def mark_used (i : Nat) (pages : Nat → PageInfo) : Except Panic (Nat → PageInfo) :=
  .ok (Function.update pages (1 + i) ⟨none, 1⟩)

/-- The pages with `page_free_list` and the variable `prev`. -/
structure Base where
  pages : Nat → PageInfo
  page_free_list : Option Nat
  prev : Option Nat

/-- A turn of the loop over base memory. -/
def base_page (i : Nat) (b : Base) : Except Panic Base :=
  if i = MPENTRY_PADDR / PGSIZE then .ok b
  else
    let pages := Function.update b.pages i ⟨none, 0⟩
    match b.page_free_list, b.prev with
    | none, _ => .ok ⟨pages, some i, some i⟩
    | some _, none => .error .null
    | some head, some prev =>
      .ok ⟨setLink (setLink pages prev (some i)) (i - 1) (some i), some head, some i⟩

/-- The pages with the variable `track`. -/
structure Ext where
  pages : Nat → PageInfo
  track : Nat

/-- A turn of the loop over the memory behind the kernel. -/
def ext_page (i : Nat) (x : Ext) : Except Panic Ext :=
  .ok ⟨setLink (Function.update x.pages i ⟨none, 0⟩) x.track (some i), i⟩

def page_init (m : Boot) : Except Panic Boot := do
  let pages ← forUpto mark_used (m.npages - 1) m.pages
  let b ← forUpto (fun k => base_page (1 + k)) (m.npages_basemem - 1) ⟨pages, none, none⟩
  -- `track = &pages[i-1]`, with the `i` at which the loop ended
  let track := max 1 m.npages_basemem - 1
  let (kva, m) ← boot_alloc m 0
  let pa ← PADDR kva
  let first := (ROUNDUP pa 0x1000).toNat / PGSIZE
  let x ← forUpto (fun k => ext_page (first + k)) (m.npages - first) ⟨b.pages, track⟩
  return { m with pages := x.pages, page_free_list := b.page_free_list }

/-! ## What it is to build -/

def Boot.link (m : Boot) (p : Nat) : Option Nat := (m.pages p).pp_link

/-- The free pages below `n` of base memory, in their order. -/
def basePages (n : Nat) : List Nat :=
  (List.range' 1 (n - 1)).filter (· ≠ MPENTRY_PADDR / PGSIZE)

/-- The free pages, in their order, when page `first` is the first behind the kernel. -/
def freePages (basemem first npages : Nat) : List Nat :=
  basePages basemem ++ List.range' first (npages - first)

/-! ## The loops -/

section

variable {n i : Nat}

theorem mem_basePages {p : Nat} : p ∈ basePages n ↔ 1 ≤ p ∧ p < n ∧ p ≠ 7 := by
  rw [basePages, List.mem_filter, List.mem_range'_1, decide_eq_true_eq]
  show _ ∧ p ≠ 7 ↔ _
  omega

theorem basePages_succ (hi : 1 ≤ i) :
    basePages (i + 1) = basePages i ++ if i = 7 then [] else [i] := by
  have hrange : List.range' 1 (i + 1 - 1) = List.range' 1 (i - 1) ++ [i] := by
    rw [show i + 1 - 1 = i - 1 + 1 by omega, List.range'_concat]
    congr 2
    omega
  rw [basePages, hrange, List.filter_append, ← basePages, List.filter_singleton]
  by_cases h : i = 7
  · rw [if_pos h, h]
    rfl
  · have hkeep : decide (i ≠ MPENTRY_PADDR / PGSIZE) = true := decide_eq_true h
    rw [if_neg h, hkeep]
    rfl

theorem basePages_nodup : (basePages n).Nodup := (List.nodup_range').filter _

/-- The page before a number is the last of those below it, unless it is left out. -/
theorem getLast_basePages (hi : 1 ≤ i) (h : i ≠ 7) : (basePages (i + 1)).getLast? = some i := by
  rw [basePages_succ hi, if_neg h, List.getLast?_concat]

theorem mark_used_spec (npages : Nat) (pages : Nat → PageInfo) :
    ∃ pages', forUpto mark_used (npages - 1) pages = .ok pages' ∧
      ∀ p, 1 ≤ p → p < npages → pages' p = ⟨none, 1⟩ := by
  obtain ⟨pages', hrun, hmark⟩ := forUpto_total (f := mark_used) (n := npages - 1) (s := pages)
    (fun k pages' => ∀ p, 1 ≤ p → p < 1 + k → pages' p = ⟨none, 1⟩)
    (fun p h₁ h₂ => by omega) (by
      intro k _ pages₁ h
      refine ⟨_, rfl, fun p h₁ h₂ => ?_⟩
      by_cases hp : p = 1 + k
      · rw [hp, Function.update_self]
      · rw [Function.update_of_ne hp]
        exact h p h₁ (by omega))
  exact ⟨pages', hrun, fun p h₁ h₂ => hmark p h₁ (by omega)⟩

/-- The pages of a list are free and the others, apart from page 0, are in use. -/
def Marked (pages : Nat → PageInfo) (npages : Nat) (l : List Nat) : Prop :=
  ∀ p, 1 ≤ p → p < npages → (pages p).pp_ref = if p ∈ l then 0 else 1

/-- The loop over base memory has come to page `i`. -/
structure BaseInv (npages i : Nat) (b : Base) : Prop where
  chain : Chain (fun p => (b.pages p).pp_link) b.page_free_list (basePages i)
  prev : b.prev = (basePages i).getLast?
  marked : Marked b.pages npages (basePages i)

variable {npages p q : Nat} {pages : Nat → PageInfo} {b : Base} {l : List Nat}

theorem setLink_ref (o : Option Nat) : (setLink pages p o q).pp_ref = (pages q).pp_ref := by
  by_cases h : q = p
  · rw [setLink, h, Function.update_self]
  · rw [setLink, Function.update_of_ne h]

theorem setLink_self (o : Option Nat) : (setLink pages p o p).pp_link = o := by
  rw [setLink, Function.update_self]

theorem setLink_ne (o : Option Nat) (h : q ≠ p) :
    (setLink pages p o q).pp_link = (pages q).pp_link := by
  rw [setLink, Function.update_of_ne h]

theorem Marked.snoc (h : Marked pages npages l) {pages' : Nat → PageInfo}
    (href : ∀ q, (pages' q).pp_ref = (Function.update pages p ⟨none, 0⟩ q).pp_ref) :
    Marked pages' npages (l ++ [p]) := by
  intro q h₁ h₂
  rw [href q]
  by_cases hq : q = p
  · rw [hq, Function.update_self, if_pos (by simp)]
  · have hmem : q ∈ l ++ [p] ↔ q ∈ l := by simp [hq]
    rw [Function.update_of_ne hq, h q h₁ h₂]
    simp only [hmem]

/-- The first page of base memory is the head of the list. -/
theorem BaseInv.first (h : BaseInv npages i b) (hi : 1 ≤ i) (h7 : i ≠ 7)
    (hnone : b.page_free_list = none) :
    ∃ b', base_page i b = .ok b' ∧ BaseInv npages (i + 1) b' := by
  have hempty : basePages i = [] := by
    have hchain := h.chain
    rwa [hnone, chain_none] at hchain
  have hlist : basePages (i + 1) = [i] := by rw [basePages_succ hi, if_neg h7, hempty]; rfl
  refine ⟨⟨Function.update b.pages i ⟨none, 0⟩, some i, some i⟩, ?_, ?_, ?_, ?_⟩
  · refine (if_neg h7).trans ?_
    rw [hnone]
  · rw [hlist]
    refine ⟨rfl, ?_⟩
    show (Function.update b.pages i ⟨none, 0⟩ i).pp_link = none
    rw [Function.update_self]
  · rw [hlist]
    rfl
  · rw [basePages_succ hi, if_neg h7]
    exact h.marked.snoc fun _ => rfl

/-- Every other page goes behind the last one. Its left neighbour gets the same link:
it is the last one, or the page that is left out. -/
theorem BaseInv.next (h : BaseInv npages i b) (hi : 1 ≤ i) (h7 : i ≠ 7) {head : Nat}
    (hsome : b.page_free_list = some head) :
    ∃ b', base_page i b = .ok b' ∧ BaseInv npages (i + 1) b' := by
  have hchain := h.chain
  obtain ⟨a, ha⟩ : ∃ a, (basePages i).getLast? = some a := by
    rcases hlast : (basePages i).getLast? with _ | a
    · rw [List.getLast?_eq_none_iff] at hlast
      rw [hlast, hsome] at hchain
      cases hchain
    · exact ⟨a, rfl⟩
  have hai : a < i := (mem_basePages.mp (List.mem_of_getLast? ha)).2.1
  have hprev : b.prev = some a := h.prev.trans ha
  refine ⟨⟨setLink (setLink (Function.update b.pages i ⟨none, 0⟩) a (some i)) (i - 1) (some i),
    some head, some i⟩, ?_, ?_, ?_, ?_⟩
  · refine (if_neg h7).trans ?_
    rw [hsome, hprev]
  · rw [hsome] at hchain
    rw [basePages_succ hi, if_neg h7]
    have hseg : Seg (fun p => (setLink (setLink (Function.update b.pages i ⟨none, 0⟩) a (some i))
        (i - 1) (some i) p).pp_link) (some head) (basePages i ++ [i]) _ :=
      (seg_none.mpr hchain).snoc basePages_nodup ha
      (by
        intro x hx hxa
        have hxi := mem_basePages.mp hx
        have hne : x ≠ i - 1 := by
          rintro rfl
          have hlast := getLast_basePages hxi.1 hxi.2.2
          rw [show i - 1 + 1 = i by omega, ha] at hlast
          exact hxa (Option.some.inj hlast).symm
        rw [setLink_ne _ hne, setLink_ne _ hxa, Function.update_of_ne (by omega)])
      (by
        by_cases hai' : a = i - 1
        · rw [← hai', setLink_self]
        · rw [setLink_ne _ hai', setLink_self])
    have hend : (setLink (setLink (Function.update b.pages i ⟨none, 0⟩) a (some i)) (i - 1)
        (some i) i).pp_link = none := by
      rw [setLink_ne _ (by omega), setLink_ne _ (by omega), Function.update_self]
    rw [hend] at hseg
    exact seg_none.mp hseg
  · exact (getLast_basePages hi h7).symm
  · rw [basePages_succ hi, if_neg h7]
    exact h.marked.snoc fun q => by rw [setLink_ref, setLink_ref]

theorem BaseInv.step (h : BaseInv npages i b) (hi : 1 ≤ i) :
    ∃ b', base_page i b = .ok b' ∧ BaseInv npages (i + 1) b' := by
  by_cases h7 : i = 7
  · have hlist : basePages (i + 1) = basePages i := by
      rw [basePages_succ hi, if_pos h7, List.append_nil]
    obtain ⟨hchain, hprev, hmarked⟩ := h
    rw [← hlist] at hchain hprev hmarked
    exact ⟨b, if_pos h7, hchain, hprev, hmarked⟩
  · rcases hfree : b.page_free_list with _ | head
    · exact h.first hi h7 hfree
    · exact h.next hi h7 hfree

/-- The loop behind the kernel has linked a list with its last page in `track`. -/
structure ExtInv (npages : Nat) (head : Option Nat) (l : List Nat) (x : Ext) : Prop where
  chain : Chain (fun p => (x.pages p).pp_link) head l
  track : l.getLast? = some x.track
  marked : Marked x.pages npages l

theorem ExtInv.step {head : Option Nat} {x : Ext} (h : ExtInv npages head l x) (hi : i ∉ l) :
    ∃ x', ext_page i x = .ok x' ∧ ExtInv npages head (l ++ [i]) x' := by
  have hti : i ≠ x.track := by
    rintro rfl
    exact hi (List.mem_of_getLast? h.track)
  refine ⟨_, rfl, ?_, List.getLast?_concat, h.marked.snoc fun q => by rw [setLink_ref]⟩
  have hseg : Seg (fun p => (setLink (Function.update x.pages i ⟨none, 0⟩) x.track
      (some i) p).pp_link) head (l ++ [i]) _ := (seg_none.mpr h.chain).snoc h.chain.nodup h.track
    (by
      intro y hy hyt
      have hyi : y ≠ i := by
        rintro rfl
        exact hi hy
      rw [setLink_ne _ hyt, Function.update_of_ne hyi])
    (by rw [setLink_self])
  have hend : (setLink (Function.update x.pages i ⟨none, 0⟩) x.track (some i) i).pp_link = none := by
    rw [setLink_ne _ hti, Function.update_self]
  rw [hend] at hseg
  exact seg_none.mp hseg

end

/-! ## The list -/

theorem ROUNDUP_page {pa : Word} {e : Nat} (h : pa.toNat = e * PGSIZE) :
    (ROUNDUP pa 0x1000).toNat / PGSIZE = e := by
  rw [PGSIZE] at h ⊢
  have hlt := pa.isLt
  rw [ROUNDUP_toNat (by omega), h]
  omega

theorem set_nextfree_npages (m : Boot) : (set_nextfree m).npages = m.npages := by
  rw [set_nextfree]
  split <;> rfl

theorem boot_alloc_npages {m m' : Boot} {kva : Word} (h : boot_alloc m 0 = .ok (kva, m')) :
    m'.npages = m.npages := by
  have heq : boot_alloc m 0 = .ok ((set_nextfree m).nextfree, set_nextfree m) := by
    rw [boot_alloc]
    exact if_pos rfl
  rw [heq] at h
  injection h with h
  rw [← (Prod.mk.inj h).2]
  exact set_nextfree_npages m

theorem base_spec {npages n : Nat} {pages : Nat → PageInfo} (hn : 1 ≤ n)
    (hused : ∀ p, 1 ≤ p → p < npages → pages p = ⟨none, 1⟩) :
    ∃ b, forUpto (fun k => base_page (1 + k)) (n - 1) ⟨pages, none, none⟩ = .ok b ∧
      BaseInv npages n b := by
  have h₀ : BaseInv npages (1 + 0) ⟨pages, none, none⟩ := by
    refine ⟨rfl, rfl, fun p h₁ h₂ => ?_⟩
    show (pages p).pp_ref = _
    rw [hused p h₁ h₂]
    rfl
  obtain ⟨b, hrun, hb⟩ := forUpto_total (fun k b => BaseInv npages (1 + k) b) h₀
    fun k (_ : k < n - 1) b hb => hb.step (by omega)
  rw [show 1 + (n - 1) = n by omega] at hb
  exact ⟨b, hrun, hb⟩

theorem ext_spec {npages e n : Nat} {head : Option Nat} {l : List Nat} {x : Ext}
    (h : ExtInv npages head l x) (hl : ∀ p ∈ l, p < e) :
    ∃ x', forUpto (fun k => ext_page (e + k)) n x = .ok x' ∧
      ExtInv npages head (l ++ List.range' e n) x' := by
  have h₀ : ExtInv npages head (l ++ List.range' e 0) x := by
    rwa [List.range'_zero, List.append_nil]
  refine forUpto_total (fun k x => ExtInv npages head (l ++ List.range' e k) x) h₀
    fun k _ x hx => ?_
  have hnew : e + k ∉ l ++ List.range' e k := by
    intro hmem
    rcases List.mem_append.mp hmem with hmem | hmem
    · have := hl _ hmem
      omega
    · rw [List.mem_range'_1] at hmem
      omega
  obtain ⟨x', hstep, hx'⟩ := hx.step hnew
  refine ⟨x', hstep, ?_⟩
  rwa [List.range'_1_concat, ← List.append_assoc]

/-- The list begins at `page_free_list`, holds the free pages in their order, and ends.
They have no references, and every other page but page 0 has one. -/
theorem page_init_builds_the_free_list (m : Boot) (e : Nat)
    (hfirst : ∃ kva m' pa, boot_alloc m 0 = .ok (kva, m') ∧ PADDR kva = .ok pa ∧
      pa.toNat = e * PGSIZE)
    (hbase : MPENTRY_PADDR / PGSIZE + 1 < m.npages_basemem)
    (hio : m.npages_basemem ≤ IOPHYSMEM / PGSIZE) (he : IOPHYSMEM / PGSIZE < e)
    (hn : e ≤ m.npages) :
    ∃ m', page_init m = .ok m' ∧
      Chain m'.link m'.page_free_list (freePages m.npages_basemem e m.npages) ∧
      (∀ p ∈ freePages m.npages_basemem e m.npages, (m'.pages p).pp_ref = 0) ∧
      ∀ p, p ≠ 0 → p < m.npages → p ∉ freePages m.npages_basemem e m.npages →
        (m'.pages p).pp_ref = 1 := by
  obtain ⟨kva, m₁, pa, halloc, hpaddr, hpa⟩ := hfirst
  have hlow : 8 < m.npages_basemem := hbase
  have hhole : m.npages_basemem ≤ 160 := hio
  have hkernel : 160 < e := he
  obtain ⟨pages, hmark, hused⟩ := mark_used_spec m.npages m.pages
  obtain ⟨b, hbase, hb⟩ := base_spec (by omega : 1 ≤ m.npages_basemem) hused
  have hlast : (basePages m.npages_basemem).getLast? = some (max 1 m.npages_basemem - 1) := by
    obtain ⟨n, hn⟩ : ∃ n, m.npages_basemem = n + 1 := ⟨m.npages_basemem - 1, by omega⟩
    rw [hn, getLast_basePages (by omega) (by omega), show max 1 (n + 1) - 1 = n by omega]
  have hext : ExtInv m.npages b.page_free_list (basePages m.npages_basemem)
      ⟨b.pages, max 1 m.npages_basemem - 1⟩ := ⟨hb.chain, hlast, hb.marked⟩
  obtain ⟨x, hlink, hx⟩ := ext_spec (e := e) (n := m.npages - e) hext fun p hp => by
    have := (mem_basePages.mp hp).2.1
    omega
  have hrun : page_init m = .ok { m₁ with pages := x.pages, page_free_list := b.page_free_list } := by
    simp only [page_init, hmark, hbase, halloc, hpaddr, ROUNDUP_page hpa,
      boot_alloc_npages halloc, hlink, bind, Except.bind, pure, Except.pure]
  refine ⟨_, hrun, hx.chain, fun p hp => ?_, fun p h₀ h₁ hp => ?_⟩
  · have hrange : 1 ≤ p ∧ p < m.npages := by
      rcases List.mem_append.mp hp with hp | hp
      · have := mem_basePages.mp hp
        omega
      · rw [List.mem_range'_1] at hp
        omega
    exact (hx.marked p hrange.1 hrange.2).trans (if_pos hp)
  · exact (hx.marked p (by omega) h₁).trans (if_neg hp)

/-- 1024 pages, of which the kernel takes those up to page 300. -/
def smallMachine : Boot where
  npages := 1024
  npages_basemem := 160
  pages := fun _ => ⟨none, 0⟩
  page_free_list := none
  nextfree := 0
  kernel_end := KERNBASE + 0x12B234

theorem page_init_builds_the_free_list_small :
    ∃ m', page_init smallMachine = .ok m' ∧
      Chain m'.link m'.page_free_list (freePages 160 300 1024) := by
  have hfirst : ∃ kva m' pa, boot_alloc smallMachine 0 = .ok (kva, m') ∧ PADDR kva = .ok pa ∧
      pa.toNat = 300 * PGSIZE := ⟨_, _, 300 * 0x1000, rfl, by decide, by decide⟩
  obtain ⟨m', hrun, hchain, -⟩ := page_init_builds_the_free_list smallMachine 300 hfirst
    (by decide) (by decide) (by decide) (by decide)
  exact ⟨m', hrun, hchain⟩

end jos.boot
