-- What `user_mem_check` says about a range of addresses: when it passes and
-- when it does not, which address it reports, and for which ranges that is
-- what the range deserves.
import Jos.UserView

namespace jos

variable {s : Phys} {d : Nat} {perm va len : Word} {k : Kernel} {e : EnvIx}

/-! ## Pages and addresses -/

/-- Page `n` of the address space has a present entry with all bits of `perm`. -/
def pageAllows (s : Phys) (pgdir : Nat) (perm : Word) (n : Nat) : Prop :=
  present (s.mem pgdir (n / 1024)) = true ∧
    s.mem (PGNUM (PTE_ADDR (s.mem pgdir (n / 1024)))) (n % 1024) &&& perm = perm

/-- An address that a user program can access: it is below `ULIM`, and the
page table gives it permission. -/
def Accessible (s : Phys) (pgdir : Nat) (perm : Word) (a : Nat) : Prop :=
  a < ULIM.toNat ∧ pageAllows s pgdir perm (a / 4096)

/-- The page table of page `n` is in memory, where there is one. -/
def tableInMemory (s : Phys) (pgdir n : Nat) : Prop :=
  present (s.mem pgdir (n / 1024)) = true →
    PGNUM (PTE_ADDR (s.mem pgdir (n / 1024))) < s.npages

/-- The page passes the walk. -/
def PageOk (s : Phys) (pgdir : Nat) (perm : Word) (n : Nat) : Prop :=
  pageAllows s pgdir perm n ∧ tableInMemory s pgdir n

/-! ## The walk -/

theorem PDX_page {q : Word} {j : Nat} (h : q.toNat = 4096 * j) : PDX q = j / 1024 := by
  rw [PDX_eq]
  omega

theorem PTX_page {q : Word} {j : Nat} (h : q.toNat = 4096 * j) : PTX q = j % 1024 := by
  rw [PTX_eq]
  omega

section walk

variable {va_beg va_end2 q : Word} {j n : Nat} (hq : q.toNat = 4096 * j) (hlt : q < va_end2)

include hq hlt

/-- One turn, for a page that passes. -/
theorem user_mem_check_pages_ok (h : PageOk s d perm j) :
    user_mem_check_pages s d va_beg va_end2 perm (n + 1) q =
      user_mem_check_pages s d va_beg va_end2 perm n (q + 0x1000) := by
  obtain ⟨⟨hpde, hpte⟩, hmem⟩ := h
  have hkaddr : KADDR s (PTE_ADDR (s.mem d (j / 1024))) =
      .ok (PGNUM (PTE_ADDR (s.mem d (j / 1024)))) := if_neg (by have := hmem hpde; omega)
  rw [user_mem_check_pages, if_pos hlt, PDX_page hq, PTX_page hq]
  simp only [hpde, hkaddr, hpte, Bool.not_true, Bool.false_eq_true, if_false, ne_eq,
    not_true_eq_false]

/-- One turn, for a page that does not. -/
theorem user_mem_check_pages_bad (h : ¬ pageAllows s d perm j) (hmem : tableInMemory s d j) :
    user_mem_check_pages s d va_beg va_end2 perm (n + 1) q =
      .ok (some (if q > va_beg then q else va_beg)) := by
  rw [user_mem_check_pages, if_pos hlt, PDX_page hq, PTX_page hq]
  by_cases hpde : present (s.mem d (j / 1024)) = true
  · have hkaddr : KADDR s (PTE_ADDR (s.mem d (j / 1024))) =
        .ok (PGNUM (PTE_ADDR (s.mem d (j / 1024)))) := if_neg (by have := hmem hpde; omega)
    have hpte : ¬ s.mem (PGNUM (PTE_ADDR (s.mem d (j / 1024)))) (j % 1024) &&& perm = perm :=
      fun hc => h ⟨hpde, hc⟩
    simp only [hpde, hkaddr, hpte, Bool.not_true, Bool.false_eq_true, if_false, ne_eq,
      not_false_eq_true, if_true]
  · rw [Bool.not_eq_true] at hpde
    simp only [hpde, Bool.not_false, if_true]

/-- One turn, for a page whose table is not in memory. -/
theorem user_mem_check_pages_panic (hmem : ¬ tableInMemory s d j) :
    ∃ p, user_mem_check_pages s d va_beg va_end2 perm (n + 1) q = .error p := by
  obtain ⟨hpde, hout⟩ := Classical.not_imp.mp hmem
  have hkaddr : KADDR s (PTE_ADDR (s.mem d (j / 1024))) =
      .error (.kaddr (PTE_ADDR (s.mem d (j / 1024)))) := if_pos (by omega)
  rw [user_mem_check_pages, if_pos hlt, PDX_page hq, PTX_page hq]
  simp only [hpde, hkaddr, Bool.not_true, Bool.false_eq_true, if_false]
  exact ⟨_, rfl⟩

end walk

/-- How the walk of a range ends. It passes if all pages do. Otherwise it stops
at the first page that does not: it reports the page, or where the range
starts in it, or the kernel panics on a table that is not in memory. -/
def WalkEnds (s : Phys) (d : Nat) (perm va_beg : Word) (j stop : Nat)
    (r : Except Panic (Option Word)) : Prop :=
  (r = .ok none ∧ ∀ i, j ≤ i → i < stop → PageOk s d perm i) ∨
  ∃ i, j ≤ i ∧ i < stop ∧ ¬ PageOk s d perm i ∧ (∀ i', j ≤ i' → i' < i → PageOk s d perm i') ∧
    ((tableInMemory s d i ∧ ∃ bad : Word, bad.toNat = max (4096 * i) va_beg.toNat ∧
        r = .ok (some bad)) ∨
      (¬ tableInMemory s d i ∧ ∃ p, r = .error p))

theorem user_mem_check_pages_ends {va_beg va_end2 : Word} {stop : Nat}
    (hstop : va_end2.toNat = 4096 * stop) (n j : Nat) (q : Word) (hq : q.toNat = 4096 * j)
    (hn : stop - j ≤ n) :
    WalkEnds s d perm va_beg j stop (user_mem_check_pages s d va_beg va_end2 perm n q) := by
  have hend := va_end2.isLt
  induction n generalizing j q with
  | zero => exact .inl ⟨rfl, fun i _ _ => by omega⟩
  | succ n ih =>
    by_cases hlt : q < va_end2
    · have hj : j < stop := by
        rw [BitVec.lt_def] at hlt
        omega
      by_cases hpage : PageOk s d perm j
      · have hnext : (q + 0x1000).toNat = 4096 * (j + 1) := by
          rw [BitVec.toNat_add, hq]
          simp
          omega
        rw [user_mem_check_pages_ok hq hlt hpage]
        -- page `j` joins those that pass
        rcases ih (j + 1) (q + 0x1000) hnext (by omega) with ⟨hr, hall⟩ | ⟨i, hi, his, hno, hall, hr⟩
        · refine .inl ⟨hr, fun i hi his => ?_⟩
          rcases Nat.eq_or_lt_of_le hi with rfl | hi
          · exact hpage
          · exact hall i hi his
        · refine .inr ⟨i, by omega, his, hno, fun i' hi' hlt => ?_, hr⟩
          rcases Nat.eq_or_lt_of_le hi' with rfl | hi'
          · exact hpage
          · exact hall i' hi' hlt
      · refine .inr ⟨j, le_rfl, hj, hpage, fun i' _ _ => by omega, ?_⟩
        by_cases hmem : tableInMemory s d j
        · refine .inl ⟨hmem, _, ?_, user_mem_check_pages_bad hq hlt (fun hc => hpage ⟨hc, hmem⟩) hmem⟩
          simp only [gt_iff_lt, BitVec.lt_def, hq]
          split
          · omega
          · omega
        · exact .inr ⟨hmem, user_mem_check_pages_panic hq hlt hmem⟩
    · rw [user_mem_check_pages, if_neg hlt]
      refine .inl ⟨rfl, fun i hi his => ?_⟩
      rw [BitVec.lt_def] at hlt
      omega

/-! ## The check -/

/-- What the check does with a range that starts below `ULIM` and whose end,
as a word, is below `ULIM`. -/
theorem user_mem_check_bad_ends (s : Phys) (d : Nat) (perm : Word) {va len : Word}
    (hva : va.toNat < ULIM.toNat) (hend : (va + len).toNat < ULIM.toNat) :
    WalkEnds s d perm va (va.toNat / 4096) (((va + len).toNat + 4095) / 4096)
      (user_mem_check_bad s d va len perm) := by
  rw [ULIM_toNat] at hva hend
  have hdown : (ROUNDDOWN va 0x1000).toNat = 4096 * (va.toNat / 4096) := by
    rw [ROUNDDOWN_toNat]
    omega
  have hup : (ROUNDUP (va + len) 0x1000).toNat = 4096 * (((va + len).toNat + 4095) / 4096) := by
    rw [ROUNDUP_toNat (by omega)]
    omega
  rw [user_mem_check_bad, if_neg]
  · exact user_mem_check_pages_ends hup (2 ^ 20) _ _ hdown (by omega)
  · simp only [ge_iff_le, BitVec.le_def, ULIM_toNat]
    omega

theorem user_mem_check_zero_iff (hd : (k.envs e).env_pgdir = some d) :
    (∃ k', user_mem_check k e va len perm = .ok (0, k')) ↔
      va.toNat < ULIM.toNat ∧ (va + len).toNat < ULIM.toNat ∧
        ∀ i, va.toNat / 4096 ≤ i → 4096 * i < (va + len).toNat → PageOk k.pm d perm i := by
  have hzero : (∃ k', user_mem_check k e va len perm = .ok (0, k')) ↔
      user_mem_check_bad k.pm d va len perm = .ok none := by
    rw [user_mem_check, hd]
    dsimp only
    rcases user_mem_check_bad k.pm d va len perm with p | _ | bad
    · simp
    · simp
    · simp [E_FAULT]
  rw [hzero]
  by_cases hva : va.toNat < ULIM.toNat ∧ (va + len).toNat < ULIM.toNat
  · rcases user_mem_check_bad_ends k.pm d perm hva.1 hva.2 with
      ⟨hr, hall⟩ | ⟨i, hi, his, hno, -, hr⟩
    · exact ⟨fun _ => ⟨hva.1, hva.2, fun i hi his => hall i hi (by omega)⟩, fun _ => hr⟩
    · refine ⟨fun h => ?_, fun h => absurd (h.2.2 i hi (by omega)) hno⟩
      rcases hr with ⟨-, bad, -, hr⟩ | ⟨-, p, hr⟩ <;> rw [hr] at h <;> cases h
  · refine ⟨fun h => ?_, fun h => absurd ⟨h.1, h.2.1⟩ hva⟩
    rw [user_mem_check_bad, if_pos] at h
    · cases h
    · simp only [ge_iff_le, BitVec.le_def]
      omega

/-- Environment 0 with an empty page directory. -/
def emptyEnvKernel : Kernel :=
  (zeroKernel 64 pages_64 1).setEnv 0 fun env => { env with env_pgdir := some 1 }

theorem not_present_zero : ¬ present 0#32 = true := by decide

theorem emptyEnv_not_allowed (n : Nat) : ¬ pageAllows emptyEnvKernel.pm 1 perm n :=
  fun h => not_present_zero h.1

theorem emptyEnv_in_memory (n : Nat) : tableInMemory emptyEnvKernel.pm 1 n :=
  fun h => absurd h not_present_zero

/-- The addresses of a range that a user program cannot access. -/
def badIn (s : Phys) (d : Nat) (perm va len : Word) : Set Nat :=
  {a | va.toNat ≤ a ∧ a < va.toNat + len.toNat ∧ ¬ Accessible s d perm a}

/-- The check of a range fails exactly if an address of it is bad, and then
reports the first. -/
def CheckExact (k : Kernel) (e : EnvIx) (d : Nat) (va len perm : Word) : Prop :=
  ((∃ k', user_mem_check k e va len perm = .ok (-E_FAULT, k')) ↔
    (badIn k.pm d perm va len).Nonempty) ∧
  ∀ k', user_mem_check k e va len perm = .ok (-E_FAULT, k') →
    IsLeast (badIn k.pm d perm va len) k'.user_mem_check_addr.toNat

theorem checkExact_of_none (hd : (k.envs e).env_pgdir = some d)
    (h : user_mem_check_bad k.pm d va len perm = .ok none) :
    CheckExact k e d va len perm ↔ badIn k.pm d perm va len = ∅ := by
  have hno : ∀ k', user_mem_check k e va len perm ≠ .ok (-E_FAULT, k') := by
    intro k' hc
    rw [user_mem_check, hd] at hc
    simp only [h] at hc
    cases hc
  have hiff : (∃ k', user_mem_check k e va len perm = .ok (-E_FAULT, k')) ↔ False :=
    ⟨fun h => h.elim hno, False.elim⟩
  rw [CheckExact, hiff, Set.nonempty_iff_ne_empty]
  constructor
  · intro hex
    by_contra hne
    exact hex.1.mpr hne
  · exact fun hempty => ⟨⟨False.elim, fun hne => hne hempty⟩, fun k' hc => absurd hc (hno k')⟩

theorem checkExact_of_some {bad : Word} (hd : (k.envs e).env_pgdir = some d)
    (h : user_mem_check_bad k.pm d va len perm = .ok (some bad)) :
    CheckExact k e d va len perm ↔ IsLeast (badIn k.pm d perm va len) bad.toNat := by
  have hrun : user_mem_check k e va len perm =
      .ok (-E_FAULT, { k with user_mem_check_addr := bad }) := by
    rw [user_mem_check, hd]
    simp only [h]
  rw [CheckExact, hrun]
  constructor
  · exact fun hex => hex.2 _ rfl
  · intro hleast
    refine ⟨⟨fun _ => ⟨_, hleast.1⟩, fun _ => ⟨_, rfl⟩⟩, fun k' hk' => ?_⟩
    cases hk'
    exact hleast

/-- A range that starts at or above `ULIM`. -/
theorem checkExact_above (hd : (k.envs e).env_pgdir = some d) (hva : ULIM.toNat ≤ va.toNat) :
    CheckExact k e d va len perm ↔ 0 < len.toNat := by
  have hbad : user_mem_check_bad k.pm d va len perm = .ok (some va) := by
    have hge : va ≥ ULIM := hva
    rw [user_mem_check_bad, if_pos (.inl hge), if_pos hge]
  rw [checkExact_of_some hd hbad]
  constructor
  · intro hleast
    have := hleast.1.2.1
    omega
  · intro hlen
    refine ⟨⟨le_rfl, by omega, fun hacc => ?_⟩, fun a ha => ha.1⟩
    have := hacc.1
    omega

/-- A range across `ULIM`, or up to it. -/
theorem checkExact_across (hd : (k.envs e).env_pgdir = some d) (hva : va.toNat < ULIM.toNat)
    (hend : ULIM.toNat ≤ va.toNat + len.toNat) (hwrap : va.toNat + len.toNat < 2 ^ 32) :
    CheckExact k e d va len perm ↔ ULIM.toNat < va.toNat + len.toNat ∧
      ∀ a, va.toNat ≤ a → a < ULIM.toNat → pageAllows k.pm d perm (a / 4096) := by
  have hge : va + len ≥ ULIM := by
    rw [ge_iff_le, BitVec.le_def, BitVec.toNat_add]
    omega
  have hbad : user_mem_check_bad k.pm d va len perm = .ok (some ULIM) := by
    rw [user_mem_check_bad, if_pos (.inr hge), if_neg]
    rw [ge_iff_le, BitVec.le_def]
    omega
  rw [checkExact_of_some hd hbad]
  constructor
  · intro hleast
    refine ⟨hleast.1.2.1, fun a ha hlt => ?_⟩
    by_contra hno
    have := hleast.2 ⟨ha, by omega, fun hacc => hno hacc.2⟩
    omega
  · rintro ⟨hlt, hall⟩
    refine ⟨⟨by omega, hlt, fun hacc => lt_irrefl _ hacc.1⟩, fun a ha => ?_⟩
    by_contra hno
    exact ha.2.2 ⟨by omega, hall a ha.1 (by omega)⟩

/-- A range below `ULIM`, for which the walk decides. -/
theorem checkExact_below (hd : (k.envs e).env_pgdir = some d)
    (hmem : ∀ n < ULIM.toNat / 4096, tableInMemory k.pm d n) (hend : va.toNat + len.toNat < ULIM.toNat) :
    CheckExact k e d va len perm ↔
      0 < len.toNat ∨ va.toNat % 4096 = 0 ∨ pageAllows k.pm d perm (va.toNat / 4096) := by
  have hulim := ULIM_toNat
  have hsum : (va + len).toNat = va.toNat + len.toNat := by
    rw [BitVec.toNat_add]
    omega
  rcases user_mem_check_bad_ends k.pm d perm (by omega : va.toNat < ULIM.toNat)
    (by omega : (va + len).toNat < ULIM.toNat) with ⟨hr, hall⟩ | ⟨i, hi, his, hno, hall, hr⟩
  · rw [hsum] at hall
    rw [checkExact_of_none hd hr]
    refine ⟨fun _ => ?_, fun _ => ?_⟩
    · by_cases hz : 0 < len.toNat ∨ va.toNat % 4096 = 0
      · exact hz.imp_right .inl
      · exact .inr (.inr (hall _ le_rfl (by omega)).1)
    · rw [Set.eq_empty_iff_forall_notMem]
      rintro a ⟨hle, hlt, hno⟩
      exact hno ⟨by omega, (hall (a / 4096) (by omega) (by omega)).1⟩
  · rw [hsum] at his
    have hin := hmem i (by omega)
    have hno : ¬ pageAllows k.pm d perm i := fun h => hno ⟨h, hin⟩
    rcases hr with ⟨-, bad, hbad, hr⟩ | ⟨hout, -⟩
    · rw [checkExact_of_some hd hr, hbad]
      constructor
      · intro hleast
        have hlt := hleast.1.2.1
        exact .inl (by omega)
      · intro hcase
        by_cases hlen : 0 < len.toNat
        · have hpage : max (4096 * i) va.toNat / 4096 = i := by omega
          refine ⟨⟨by omega, by omega, fun hacc => hno (hpage ▸ hacc.2)⟩, ?_⟩
          -- an address before the page is on a page that passes
          rintro a ⟨hle, hlt, hbad⟩
          by_contra hbefore
          exact hbad ⟨by omega, (hall (a / 4096) (by omega) (by omega)).1⟩
        · -- the page of an empty range is looked at
          rcases hcase with h | h | h
          · exact absurd h hlen
          · omega
          · obtain rfl : i = va.toNat / 4096 := by omega
            exact absurd h hno
    · exact absurd hin hout

/-- A range up to the end of the address space: its end is cut to 0, and no page
is looked at. -/
theorem not_checkExact_to_end (hd : (k.envs e).env_pgdir = some d) (hva : va.toNat < ULIM.toNat)
    (hend : va.toNat + len.toNat = 2 ^ 32) : ¬ CheckExact k e d va len perm := by
  have hulim := ULIM_toNat
  have hzero : (va + len).toNat = 0 := by
    rw [BitVec.toNat_add, hend, Nat.mod_self]
  have hnone : user_mem_check_bad k.pm d va len perm = .ok none := by
    rcases user_mem_check_bad_ends k.pm d perm hva
      (by omega : (va + len).toNat < ULIM.toNat) with ⟨hr, -⟩ | ⟨i, hi, his, -⟩
    · exact hr
    · omega
  rw [checkExact_of_none hd hnone]
  intro hempty
  have hin : ULIM.toNat ∈ badIn k.pm d perm va len :=
    ⟨by omega, by omega, fun hacc => lt_irrefl _ hacc.1⟩
  rw [hempty] at hin
  exact hin.elim

/-- For which ranges the check fails exactly on a bad address and reports the
first: those from `ULIM` on that are not empty, those across `ULIM` whose part
below it is allowed, and those that end below it, where an empty range in the
middle of a page needs that page. -/
theorem user_mem_check_exact_iff (hd : (k.envs e).env_pgdir = some d)
    (hmem : ∀ n < ULIM.toNat / 4096, tableInMemory k.pm d n) (hrange : va.toNat + len.toNat ≤ 2 ^ 32) :
    CheckExact k e d va len perm ↔
      (ULIM.toNat ≤ va.toNat ∧ 0 < len.toNat) ∨
      (va.toNat < ULIM.toNat ∧ ULIM.toNat < va.toNat + len.toNat ∧
        va.toNat + len.toNat < 2 ^ 32 ∧
        ∀ a, va.toNat ≤ a → a < ULIM.toNat → pageAllows k.pm d perm (a / 4096)) ∨
      (va.toNat + len.toNat < ULIM.toNat ∧ (0 < len.toNat ∨ va.toNat % 4096 = 0 ∨
        pageAllows k.pm d perm (va.toNat / 4096))) := by
  have hulim := ULIM_toNat
  by_cases hva : ULIM.toNat ≤ va.toNat
  · rw [checkExact_above hd hva]
    exact ⟨fun h => .inl ⟨hva, h⟩, by omega⟩
  by_cases hbelow : va.toNat + len.toNat < ULIM.toNat
  · rw [checkExact_below hd hmem hbelow]
    refine ⟨fun h => .inr (.inr ⟨hbelow, h⟩), ?_⟩
    rintro (h | h | h)
    · omega
    · omega
    · exact h.2
  by_cases hwrap : va.toNat + len.toNat < 2 ^ 32
  · rw [checkExact_across hd (by omega) (by omega) hwrap]
    refine ⟨fun h => .inr (.inl ⟨by omega, h.1, hwrap, h.2⟩), ?_⟩
    rintro (h | h | h)
    · omega
    · exact ⟨h.2.1, h.2.2.2⟩
    · omega
  · refine ⟨fun h => absurd h (not_checkExact_to_end hd (by omega) (by omega)), ?_⟩
    rintro (h | h | h) <;> omega

theorem user_mem_check_exact_iff_page :
    CheckExact emptyEnvKernel 0 1 0x1000 1 PTE_P :=
  (user_mem_check_exact_iff rfl (fun n _ => emptyEnv_in_memory n) (by decide)).mpr
    (.inr (.inr ⟨by decide, .inl (by decide)⟩))

/-- Three ranges of an empty address space. An empty range at `ULIM` is refused.
A range across `ULIM` is reported at `ULIM`, though it is bad from its first
address on. A range up to the end of the address space passes. -/
theorem user_mem_check_not_exact :
    ¬ CheckExact emptyEnvKernel 0 1 ULIM 0 PTE_P ∧
    (¬ CheckExact emptyEnvKernel 0 1 (ULIM - 1) 2 PTE_P ∧
      user_mem_check emptyEnvKernel 0 (ULIM - 1) 2 PTE_P =
        .ok (-E_FAULT, { emptyEnvKernel with user_mem_check_addr := ULIM })) ∧
    ¬ CheckExact emptyEnvKernel 0 1 0x1000 0xFFFFF000 PTE_P := by
  refine ⟨?_, ⟨?_, rfl⟩, not_checkExact_to_end rfl (by decide) (by decide)⟩
  · rw [checkExact_above rfl (by decide)]
    decide
  · rw [checkExact_across rfl (by decide) (by decide) (by decide)]
    exact fun h => emptyEnv_not_allowed _ (h.2 (ULIM - 1).toNat le_rfl (by decide))

end jos
