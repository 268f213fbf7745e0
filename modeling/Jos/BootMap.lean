-- The static mappings of the kernel (`boot_map_region` of `kern/pmap.c`). A page directory
-- may hold itself at one entry, as the kernel's does at `UVPT`: the window of that entry
-- shows the page tables, and everything below is about the other entries.
import Mathlib
import Jos.PageMap
import Jos.UserMem
import Jos.Lib.Loop

namespace jos.region

open linked_list (Chain)
open loop

/-! ## The code -/

/-- The variables of `boot_map_region`. -/
structure Region where
  s : Phys
  vaBegin : Word
  paBegin : Word
  size : Word

/-- `while(size)` -/
def Region.more (r : Region) : Bool := r.size != 0

def Region.turn (pgdir : Nat) (perm : Word) (r : Region) : Except Panic Region :=
  match pgdir_walk r.s pgdir r.vaBegin true with
  | .error p => .error p
  | .ok (none, _) => .error .boot_map_region
  | .ok (some pgTbEnt, s) =>
    .ok ⟨s.write pgTbEnt.page pgTbEnt.idx (r.paBegin ||| perm ||| PTE_P), r.vaBegin + 0x1000,
      r.paBegin + 0x1000, r.size - 0x1000⟩

/-- The loop at its start. -/
def Region.start (s : Phys) (va size pa : Word) : Region :=
  ⟨s, ROUNDDOWN va 0x1000, ROUNDDOWN pa 0x1000, ROUNDUP size 0x1000⟩

/-- The number of turns is a bound that no size reaches. -/
def boot_map_region (s : Phys) (pgdir : Nat) (va size pa perm : Word) : Except Panic Phys :=
  (whileUpto Region.more (Region.turn pgdir perm) (2 ^ 20) (.start s va size pa)).map Region.s

/-! ## Page directories -/

/-- The entries of the directory name different tables in memory, one of which may be
the directory itself, and none of them is free. -/
structure WellFormed (s : Phys) (d : Nat) (free : List Nat) : Prop where
  table_lt : ∀ i < 1024, ∀ t, table s d i = some t → t < s.npages
  table_inj : ∀ i < 1024, ∀ i' < 1024, ∀ t, table s d i = some t → table s d i' = some t → i = i'
  chain : Chain s.link s.page_free_list free
  free_lt : ∀ p ∈ free, p < s.npages
  free_dir : d ∉ free
  free_table : ∀ p ∈ free, ∀ i < 1024, table s d i ≠ some p

/-- Entry `i` is not the directory itself. -/
def Own (s : Phys) (d i : Nat) : Prop := table s d i ≠ some d

section

variable {s : Phys} {d i i' j j' t p : Nat} {w : Word} {free : List Nat}

/-! ## The stores -/

theorem table_write_own (ht : t ≠ d) : table (s.write t j w) d i = table s d i := by
  simp only [table, Phys.write_mem, ht.symm, false_and, if_false]

theorem WellFormed.pteAt_write (h : WellFormed s d free) (hi : i < 1024)
    (ht : table s d i = some t) (hown : t ≠ d) (hi' : i' < 1024) :
    pteAt (s.write t j w) d i' j' = if i' = i ∧ j' = j then w else pteAt s d i' j' := by
  rw [pteAt, entry, table_write_own hown, pteAt, entry]
  rcases ht' : table s d i' with _ | t'
  · have hne : i' ≠ i := by
      rintro rfl
      rw [ht] at ht'
      cases ht'
    rw [if_neg fun h => hne h.1]
    rfl
  · simp only [Option.map_some, Option.getD_some, Phys.write_mem]
    by_cases hii : i' = i
    · subst hii
      rw [ht] at ht'
      cases ht'
      simp only [true_and]
    · have hne : t' ≠ t := fun he => hii (h.table_inj i' hi' i hi t (he ▸ ht') ht)
      rw [if_neg fun h => hne h.1, if_neg fun h => hii h.1]

theorem WellFormed.write (h : WellFormed s d free) (hown : t ≠ d) :
    WellFormed (s.write t j w) d free := by
  have htab : ∀ i, table (s.write t j w) d i = table s d i := fun i => table_write_own hown
  refine ⟨?_, ?_, h.chain, h.free_lt, h.free_dir, ?_⟩
  · intro i hi t'
    rw [htab]
    exact h.table_lt i hi t'
  · intro i hi i' hi' t'
    rw [htab, htab]
    exact h.table_inj i hi i' hi' t'
  · intro q hq i hi
    rw [htab]
    exact h.free_table q hq i hi

theorem WellFormed.table_newTable (h : WellFormed s d (p :: free)) :
    table (s.newTable d i p) d i' = if i' = i then some p else table s d i' := by
  have hp : p ∈ p :: free := List.mem_cons_self ..
  have hne : d ≠ p := fun he => h.free_dir (he ▸ hp)
  by_cases hii : i' = i
  · rw [if_pos hii, table, Phys.newTable_mem, if_pos ⟨rfl, hii⟩]
    exact pageOf_pde (h.free_lt p hp)
  · rw [if_neg hii, table, Phys.newTable_mem, if_neg fun h => hii h.2, if_neg hne]
    rfl

theorem WellFormed.pteAt_newTable (h : WellFormed s d (p :: free)) (hnone : table s d i = none)
    (hi' : i' < 1024) (hown : Own s d i') :
    pteAt (s.newTable d i p) d i' j' = pteAt s d i' j' := by
  have hp : p ∈ p :: free := List.mem_cons_self ..
  have hne : p ≠ d := fun he => h.free_dir (he ▸ hp)
  rw [pteAt, entry, h.table_newTable, pteAt, entry]
  by_cases hii : i' = i
  · subst hii
    rw [if_pos rfl, hnone]
    simp only [Option.map_some, Option.getD_some, Phys.newTable_mem, hne, false_and, if_false,
      if_true, Option.map_none, Option.getD_none]
  · rw [if_neg hii]
    rcases ht' : table s d i' with _ | t'
    · rfl
    · have hd : t' ≠ d := fun he => hown (he ▸ ht')
      have hp' : t' ≠ p := fun he => h.free_table p hp i' hi' (he ▸ ht')
      simp only [Option.map_some, Option.getD_some, Phys.newTable_mem, hd, hp', false_and,
        if_false]

theorem WellFormed.newTable (h : WellFormed s d (p :: free)) :
    WellFormed (s.newTable d i p) d free := by
  have hp : p ∈ p :: free := List.mem_cons_self ..
  have hpfree := (List.nodup_cons.mp h.chain.nodup).1
  refine ⟨?_, ?_, ?_, ?_, ?_, ?_⟩
  · intro i₁ hi₁ t' ht'
    rw [h.table_newTable] at ht'
    rw [Phys.newTable_npages]
    split at ht'
    · cases ht'
      exact h.free_lt p hp
    · exact h.table_lt i₁ hi₁ t' ht'
  · intro i₁ hi₁ i₂ hi₂ t' h₁ h₂
    rw [h.table_newTable] at h₁ h₂
    split at h₁ <;> split at h₂
    · rename_i he₁ he₂
      rw [he₁, he₂]
    · cases h₁
      exact absurd h₂ (h.free_table p hp i₂ hi₂)
    · cases h₂
      exact absurd h₁ (h.free_table p hp i₁ hi₁)
    · exact h.table_inj i₁ hi₁ i₂ hi₂ t' h₁ h₂
  · rw [Phys.newTable_link, Phys.newTable_free]
    exact h.chain.pop
  · intro q hq
    rw [Phys.newTable_npages]
    exact h.free_lt q (List.mem_cons_of_mem _ hq)
  · exact fun hd => h.free_dir (List.mem_cons_of_mem _ hd)
  · intro q hq i₁ hi₁
    rw [h.table_newTable]
    split
    · rintro ⟨⟩
      exact hpfree hq
    · exact h.free_table q (List.mem_cons_of_mem _ hq) i₁ hi₁

/-! ## One turn -/

/-- What one turn does to the page tables: it sets entry `j` of the table of entry `i`,
and takes the pages `taken` for tables. -/
structure Sets (s s' : Phys) (d i j : Nat) (w : Word) (taken free' : List Nat) : Prop where
  wf : WellFormed s' d free'
  pte : ∀ i' < 1024, Own s d i' → ∀ j', pteAt s' d i' j' =
    if i' = i ∧ j' = j then w else pteAt s d i' j'
  own : ∀ i', Own s' d i' ↔ Own s d i'
  dir : ∀ i', i' ≠ i ∨ table s d i' ≠ none → s'.mem d i' = s.mem d i'
  tables : ∀ i' < 1024, ∀ t, table s d i' = some t → table s' d i' = some t
  taken_table : ∀ q ∈ taken, table s' d i = some q
  ref : ∀ q, s'.ref q = if q ∈ taken then 1 else s.ref q

theorem Sets.old (h : WellFormed s d free) (hi : i < 1024) (hown : Own s d i)
    (ht : table s d i = some t) : Sets s (s.write t j w) d i j w [] free := by
  have hd : t ≠ d := fun he => hown (he ▸ ht)
  refine ⟨h.write hd, fun i' hi' _ j' => h.pteAt_write hi ht hd hi', fun i' => ?_, ?_, ?_, ?_, ?_⟩
  · rw [Own, table_write_own hd, Own]
  · intro i' _
    rw [Phys.write_mem, if_neg fun he => hd he.1.symm]
  · intro i' _ t' ht'
    rwa [table_write_own hd]
  · exact fun q hq => absurd hq List.not_mem_nil
  · exact fun q => (if_neg List.not_mem_nil).symm

theorem Sets.new (h : WellFormed s d (p :: free)) (hi : i < 1024) (hnone : table s d i = none) :
    Sets s ((s.newTable d i p).write p j w) d i j w [p] free := by
  have hp : p ∈ p :: free := List.mem_cons_self ..
  have hd : p ≠ d := fun he => h.free_dir (he ▸ hp)
  have hnew : table (s.newTable d i p) d i = some p := h.table_newTable.trans (if_pos rfl)
  have hownIff : ∀ i', Own ((s.newTable d i p).write p j w) d i' ↔ Own s d i' := by
    intro i'
    rw [Own, table_write_own hd, h.table_newTable, Own]
    by_cases hii : i' = i
    · rw [if_pos hii, hii, hnone]
      exact iff_of_true (fun he => hd (Option.some.inj he)) fun he => Option.some_ne_none d he.symm
    · rw [if_neg hii]
  refine ⟨h.newTable.write hd, ?_, hownIff, ?_, ?_, ?_, ?_⟩
  · intro i' hi' hown j'
    rw [h.newTable.pteAt_write hi hnew hd hi', h.pteAt_newTable hnone hi' hown]
  · intro i' hi'
    have hii : i' ≠ i := by
      rintro rfl
      exact hi'.elim (fun he => he rfl) fun he => he hnone
    rw [Phys.write_mem, if_neg (fun he => hd he.1.symm), Phys.newTable_mem,
      if_neg (fun he => hii he.2), if_neg hd.symm]
  · intro i' _ t' ht'
    rw [table_write_own hd, h.table_newTable, if_neg, ht']
    rintro rfl
    rw [hnone] at ht'
    cases ht'
  · intro q hq
    rw [table_write_own hd, List.mem_singleton.mp hq]
    exact hnew
  · intro q
    rw [Phys.write_ref, Phys.newTable_ref, Function.update_apply]
    simp only [List.mem_singleton]

theorem turn_cases {r : Region} (perm : Word) (h : WellFormed r.s d free)
    (hown : Own r.s d (PDX r.vaBegin)) :
    r.turn d perm = .error .boot_map_region ∨
    ∃ s' taken free', free = taken ++ free' ∧
      Sets r.s s' d (PDX r.vaBegin) (PTX r.vaBegin) (r.paBegin ||| perm ||| PTE_P) taken free' ∧
      r.turn d perm = .ok ⟨s', r.vaBegin + 0x1000, r.paBegin + 0x1000, r.size - 0x1000⟩ := by
  have hi := PDX_lt r.vaBegin
  rcases ht : table r.s d (PDX r.vaBegin) with _ | t
  · rcases free with _ | ⟨q, rest⟩
    · refine .inl ?_
      rw [Region.turn, walk_no_mem ht h.chain]
    · refine .inr ⟨_, [q], rest, rfl, Sets.new h hi ht, ?_⟩
      rw [Region.turn, walk_new ht h.chain.1 (h.free_lt q (List.mem_cons_self ..))]
  · refine .inr ⟨_, [], free, rfl, Sets.old h hi hown ht, ?_⟩
    rw [Region.turn, walk_present ht (h.table_lt _ hi t ht)]

/-! ## The loop -/

/-- The entry that maps a page, as it is read. -/
theorem readPte_region {pa perm : Word} (hpa : pa.toNat % 4096 = 0) (hperm : perm < 0x1000) :
    readPte (pa ||| perm ||| PTE_P) = some (PGNUM pa, perm ||| PTE_P) := by
  have hpage : page2pa (PGNUM pa) = pa := by
    rw [← BitVec.toNat_inj, page2pa_toNat (PGNUM_lt pa), PGNUM_eq]
    omega
  have hw : pa ||| perm ||| PTE_P = pteFor (PGNUM pa) perm := by
    rw [pteFor, hpage, BitVec.or_assoc, BitVec.or_assoc, BitVec.or_comm perm PTE_P]
  rw [hw, readPte_pteFor (PGNUM_lt pa) hperm]

/-- A call of `boot_map_region`. -/
structure Call where
  s : Phys
  d : Nat
  va : Word
  size : Word
  pa : Word
  perm : Word

/-- Page `n` is in the range of the call. -/
def Call.Covers (c : Call) (n : Nat) : Prop :=
  c.va.toNat / 4096 ≤ n ∧ n < c.va.toNat / 4096 + c.size.toNat / 4096

/-- Entry `i` of the directory has a table, or the call does not need one there. -/
def Call.Spares (c : Call) (i : Nat) : Prop :=
  (∀ n, c.Covers n → n / 1024 ≠ i) ∨ table c.s c.d i ≠ none

/-- What the call is to map at page `n`. -/
def Call.mapping (c : Call) (n : Nat) : Option (Nat × Word) :=
  some (PGNUM (c.pa + BitVec.ofNat 32 ((n - c.va.toNat / 4096) * 4096)), c.perm ||| PTE_P)

/-- The range is made of whole pages and does not wrap, the permissions are 12 bits, and
no page of it is in the window in which the directory shows its tables. -/
structure Call.Fits (c : Call) : Prop where
  va : c.va.toNat % 4096 = 0
  pa : c.pa.toNat % 4096 = 0
  size : c.size.toNat % 4096 = 0
  below : c.va.toNat + c.size.toNat ≤ 2 ^ 32
  perm : c.perm < 0x1000
  own : ∀ n, c.Covers n → Own c.s c.d (n / 1024)

/-- The first `k` pages are mapped. -/
structure Inv (c : Call) (free : List Nat) (k : Nat) (r : Region) : Prop where
  le : k * 4096 ≤ c.size.toNat
  va : r.vaBegin = c.va + BitVec.ofNat 32 (k * 4096)
  pa : r.paBegin = c.pa + BitVec.ofNat 32 (k * 4096)
  size : r.size.toNat = c.size.toNat - k * 4096
  own : ∀ i, Own r.s c.d i ↔ Own c.s c.d i
  dir : ∀ i, c.Spares i → r.s.mem c.d i = c.s.mem c.d i
  maps : ∀ n < 2 ^ 20, Own c.s c.d (n / 1024) → pageMap r.s c.d n =
    if c.va.toNat / 4096 ≤ n ∧ n < c.va.toNat / 4096 + k then c.mapping n
    else pageMap c.s c.d n
  owned : ∃ taken free', free = taken ++ free' ∧ WellFormed r.s c.d free' ∧
    (∀ p, r.s.ref p = if p ∈ taken then 1 else c.s.ref p) ∧
    ∀ p ∈ taken, ∃ i < 1024, table r.s c.d i = some p

variable {c : Call} {k : Nat} {r : Region}

theorem Call.Fits.start (hc : c.Fits) (hwf : WellFormed c.s c.d free) :
    Inv c free 0 (.start c.s c.va c.size c.pa) := by
  have hdown : ∀ a : Word, a.toNat % 4096 = 0 → ROUNDDOWN a 0x1000 = a := by
    intro a ha
    rw [← BitVec.toNat_inj, ROUNDDOWN_toNat, ha]
    rfl
  refine ⟨by omega, ?_, ?_, ?_, fun _ => Iff.rfl, fun _ _ => rfl, ?_, ?_⟩
  · rw [Region.start, hdown _ hc.va, Nat.zero_mul]
    exact (BitVec.add_zero _).symm
  · rw [Region.start, hdown _ hc.pa, Nat.zero_mul]
    exact (BitVec.add_zero _).symm
  · have hsize := hc.size
    have hlt := c.size.isLt
    show (ROUNDUP c.size 0x1000).toNat = _
    rw [ROUNDUP_toNat (by omega)]
    omega
  · intro n _ _
    rw [if_neg (by omega)]
    rfl
  · exact ⟨[], free, rfl, hwf, fun p => (if_neg List.not_mem_nil).symm,
      fun p hp => absurd hp List.not_mem_nil⟩

/-- The page that the loop has come to. -/
theorem Inv.page (h : Inv c free k r) (hc : c.Fits) (hmore : r.more = true) :
    (k + 1) * 4096 ≤ c.size.toNat ∧ r.vaBegin.toNat / 4096 = c.va.toNat / 4096 + k ∧
      r.paBegin.toNat % 4096 = 0 := by
  have hne : r.size.toNat ≠ 0 := by
    intro hz
    rw [Region.more, bne_iff_ne] at hmore
    exact hmore (BitVec.eq_of_toNat_eq hz)
  have hva := hc.va
  have hpa := hc.pa
  have hsz := hc.size
  have hbelow := hc.below
  have hle := h.le
  have hsize := h.size
  have hlt : k * 4096 < c.size.toNat := by
    rw [hsize] at hne
    exact Nat.sub_ne_zero_iff_lt.mp hne
  have hlast : (k + 1) * 4096 ≤ c.size.toNat := by
    clear hne hle hsize hbelow
    omega
  refine ⟨hlast, ?_, ?_⟩
  · rw [h.va, BitVec.toNat_add, BitVec.toNat_ofNat]
    omega
  · rw [h.pa, BitVec.toNat_add, BitVec.toNat_ofNat]
    omega

theorem Inv.turn (h : Inv c free k r) (hc : c.Fits) (hmore : r.more = true) :
    r.turn c.d c.perm = .error .boot_map_region ∨
    ∃ r', r.turn c.d c.perm = .ok r' ∧ Inv c free (k + 1) r' := by
  obtain ⟨hlast, hpage, hpa⟩ := h.page hc hmore
  obtain ⟨taken, free', hfree, hwf, href, htab⟩ := h.owned
  have hbelow := hc.below
  have hcover : c.Covers (c.va.toNat / 4096 + k) := ⟨by omega, by omega⟩
  have hdiv : (c.va.toNat / 4096 + k) / 1024 = PDX r.vaBegin := by rw [PDX_eq, ← hpage]; omega
  have hmod : (c.va.toNat / 4096 + k) % 1024 = PTX r.vaBegin := by rw [PTX_eq, ← hpage]
  have hown : Own r.s c.d (PDX r.vaBegin) := by
    rw [h.own, ← hdiv]
    exact hc.own _ hcover
  rcases turn_cases c.perm hwf hown with herr | ⟨s', taken', free'', hsplit, hset, hturn⟩
  · exact .inl herr
  refine .inr ⟨_, hturn, by omega, ?_, ?_, ?_, ?_, ?_, ?_, ?_⟩
  · show r.vaBegin + 0x1000 = _
    rw [h.va, BitVec.add_assoc, Nat.add_mul, BitVec.ofNat_add]
    rfl
  · show r.paBegin + 0x1000 = _
    rw [h.pa, BitVec.add_assoc, Nat.add_mul, BitVec.ofNat_add]
    rfl
  · have hsize := h.size
    show (r.size - 0x1000).toNat = _
    rw [BitVec.toNat_sub]
    have hpage : (0x1000 : Word).toNat = 4096 := by decide
    rw [hpage]
    omega
  · exact fun i => (hset.own i).trans (h.own i)
  · intro i hi
    refine (hset.dir i ?_).trans (h.dir i hi)
    rcases id hi with hout | htab
    · refine .inl fun he => hout _ hcover ?_
      rw [hdiv, he]
    · refine .inr ?_
      rw [table, h.dir i hi]
      exact htab
  · intro n hn hown'
    have hi : n / 1024 < 1024 := by omega
    have hsame : n / 1024 = PDX r.vaBegin ∧ n % 1024 = PTX r.vaBegin ↔
        n = c.va.toNat / 4096 + k := by
      rw [← hdiv, ← hmod]
      omega
    have hold := h.maps n hn hown'
    show readPte (pteAt s' c.d (n / 1024) (n % 1024)) = _
    rw [hset.pte _ hi ((h.own _).mpr hown')]
    by_cases hnew : n = c.va.toNat / 4096 + k
    · rw [if_pos (hsame.mpr hnew), if_pos (by omega), readPte_region hpa hc.perm, Call.mapping,
        h.pa, hnew, Nat.add_sub_cancel_left]
    · rw [if_neg (fun he => hnew (hsame.mp he))]
      refine hold.trans ?_
      by_cases hin : c.va.toNat / 4096 ≤ n ∧ n < c.va.toNat / 4096 + k
      · rw [if_pos hin, if_pos (by omega)]
      · rw [if_neg hin, if_neg (by omega)]
  · refine ⟨taken ++ taken', free'', ?_, hset.wf, ?_, ?_⟩
    · rw [hfree, hsplit, List.append_assoc]
    · intro p
      rw [hset.ref p, href p]
      by_cases hp : p ∈ taken' <;> by_cases hp' : p ∈ taken <;> simp [hp, hp']
    · intro p hp
      rcases List.mem_append.mp hp with hp | hp
      · obtain ⟨i, hi, hti⟩ := htab p hp
        exact ⟨i, hi, hset.tables i hi p hti⟩
      · exact ⟨_, PDX_lt _, hset.taken_table p hp⟩

/-! ## The whole region -/

/-- The call has mapped its pages, and no others. Only the pages that became page tables
have a new count. -/
structure Done (c : Call) (free : List Nat) (s' : Phys) : Prop where
  mapped : ∀ n, c.Covers n → pageMap s' c.d n = c.mapping n
  others : ∀ n < 2 ^ 20, ¬ c.Covers n → Own c.s c.d (n / 1024) → pageMap s' c.d n = pageMap c.s c.d n
  own : ∀ i, Own s' c.d i ↔ Own c.s c.d i
  dir : ∀ i, c.Spares i → s'.mem c.d i = c.s.mem c.d i
  owned : ∃ taken free', free = taken ++ free' ∧ WellFormed s' c.d free' ∧
    (∀ p, s'.ref p = if p ∈ taken then 1 else c.s.ref p) ∧
    ∀ p ∈ taken, ∃ i < 1024, table s' c.d i = some p

theorem Inv.done (h : Inv c free k r) (hc : c.Fits) (hstop : r.more = false) :
    Done c free r.s := by
  have hz : r.size = 0 := by
    rw [Region.more, bne_eq_false_iff_eq] at hstop
    exact hstop
  have hsize := h.size
  have hle := h.le
  have hbelow := hc.below
  have hk : c.size.toNat / 4096 = k := by
    rw [hz] at hsize
    change 0 = _ at hsize
    omega
  refine ⟨fun n hn => ?_, fun n hn hnot hown => ?_, h.own, h.dir, h.owned⟩
  · have hlt : n < 2 ^ 20 := by
      have := hn.2
      omega
    rw [h.maps n hlt (hc.own n hn), if_pos]
    rw [← hk]
    exact hn
  · rw [h.maps n hn hown, if_neg]
    rw [← hk]
    exact hnot

/-- The loop comes to its end, unless there is no page for a table. -/
theorem boot_map_region_spec (hc : c.Fits) (hwf : WellFormed c.s c.d free) :
    boot_map_region c.s c.d c.va c.size c.pa c.perm = .error .boot_map_region ∨
    ∃ r, Ends Region.more (Region.turn c.d c.perm) (.start c.s c.va c.size c.pa) r ∧
      boot_map_region c.s c.d c.va c.size c.pa c.perm = .ok r.s ∧ Done c free r.s := by
  have hfuel : (Region.start c.s c.va c.size c.pa).size.toNat / 4096 < 2 ^ 20 := by
    have := (Region.start c.s c.va c.size c.pa).size.isLt
    omega
  rcases whileUpto_stops (fun r => ∃ k, Inv c free k r) (fun e => e = Panic.boot_map_region)
      (fun r => r.size.toNat / 4096) ⟨0, hc.start hwf⟩ hfuel (by
        rintro r ⟨k, hk⟩ hmore
        have hlast := (hk.page hc hmore).1
        rcases hk.turn hc hmore with herr | ⟨r', hr', hk'⟩
        · exact .inl ⟨_, herr, rfl⟩
        · refine .inr ⟨r', hr', ⟨k + 1, hk'⟩, ?_⟩
          have hs := hk.size
          have hs' := hk'.size
          omega) with ⟨e, he, rfl⟩ | ⟨r, hr, hends, k, hk⟩
  · refine .inl ?_
    rw [boot_map_region, he]
    rfl
  · refine .inr ⟨r, hends, ?_, hk.done hc hends.guard_eq⟩
    rw [boot_map_region, hr]
    rfl

end

theorem fourPages_le : 4 ≤ 0x10000 := by decide

/-- Four pages. The directory, page 1, holds itself at `UVPT`, and the last two pages
are free. -/
def fourPages : Phys where
  npages := 4
  npages_le := fourPages_le
  pages := fun p => ⟨if p = 2 then some 3 else none, if p = 1 then 1 else 0⟩
  page_free_list := some 2
  mem := fun p i => if p = 1 ∧ i = PDX UVPT then page2pa 1 ||| PTE_U ||| PTE_P else 0

theorem table_fourPages (i : Nat) : table fourPages 1 i = if i = 957 then some 1 else none := by
  by_cases h : i = 957
  · subst h
    decide
  · have hmem : fourPages.mem 1 i = 0 := if_neg fun he => h he.2
    rw [if_neg h, table, hmem]
    decide

theorem wellFormed_fourPages : WellFormed fourPages 1 [2, 3] := by
  refine ⟨?_, ?_, by decide, by decide, by decide, ?_⟩
  · intro i _ t ht
    rw [table_fourPages] at ht
    split at ht
    · cases ht
      decide
    · cases ht
  · intro i _ i' _ t ht ht'
    rw [table_fourPages] at ht ht'
    split at ht <;> split at ht'
    · rename_i h h'
      rw [h, h']
    · cases ht'
    · cases ht
    · cases ht
  · intro p hp i _ ht
    rw [table_fourPages] at ht
    split at ht
    · cases ht
      revert hp
      decide
    · cases ht

theorem own_fourPages {i : Nat} (h : i ≠ 957) : Own fourPages 1 i := by
  rw [Own, table_fourPages, if_neg h]
  exact fun he => Option.some_ne_none 1 he.symm

theorem boot_map_region_fourPages :
    (boot_map_region fourPages 1 MMIOBASE 0x1000 0 PTE_W).isOk = true := by decide +kernel

end jos.region
