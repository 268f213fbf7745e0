-- Memory below `UTOP` as the user of a page directory sees it: what the kernel
-- stores through the page tables is what the user finds.
import Jos.Machine
import Jos.Upcall

namespace jos

open ia32 (Space)

/-! ## The address space of a page directory -/

section view

variable {s : Phys} {d p : Nat} {va perm perm' : Word}

theorem and_subset {w a b : Word} (h : w &&& (a ||| b) = a ||| b) : w &&& a = a := by
  ext i hi
  have hbit := congrArg (fun x : Word => x[i]) h
  simp only [BitVec.getElem_and, BitVec.getElem_or] at hbit ⊢
  cases ha : a[i] <;> simp_all

/-- A user who may write may read, and the kernel may write too. -/
theorem allowed_of_or (h : allowed s d va (perm ||| perm') = true) :
    allowed s d va perm = true := by
  simp only [allowed, Bool.and_eq_true, beq_iff_eq] at h ⊢
  have hshuffle : perm ||| perm' ||| PTE_P = (perm ||| PTE_P) ||| (perm' ||| PTE_P) := by
    have hbits : ∀ a b c : Bool, (a || b || c) = (a || c || (b || c)) := by decide
    ext i hi
    simp only [BitVec.getElem_or]
    exact hbits ..
  rw [hshuffle] at h
  exact ⟨and_subset h.1, and_subset h.2⟩

theorem present_of_and {w : Word} (h : w &&& (perm ||| PTE_P) = perm ||| PTE_P) :
    present w = true := by
  rw [BitVec.or_comm] at h
  have hp := and_subset h
  rw [present, hp]
  decide

/-- Both entries are present. -/
theorem allowed_present (h : allowed s d va perm = true) :
    present (s.mem d (PDX va)) = true ∧
      present (s.mem (PGNUM (PTE_ADDR (s.mem d (PDX va)))) (PTX va)) = true := by
  simp only [allowed, Bool.and_eq_true, beq_iff_eq] at h
  exact ⟨present_of_and h.1, present_of_and h.2⟩

theorem translate_of_allowed (h : allowed s d va perm = true) :
    ∃ p, translate s d va = some p := by
  obtain ⟨hpde, hpte⟩ := allowed_present h
  rw [translate, pageOf, if_pos hpde, Option.bind_some, pageOf, if_pos hpte]
  exact ⟨_, rfl⟩

theorem cell_readable (h : (decide (va < UTOP) && allowed s d va (PTE_U ||| PTE_W)) = true) :
    (if va < UTOP ∧ allowed s d va PTE_U then
      (translate s d va).map fun p => p * PGSIZE + PGOFF va else none).isSome := by
  rw [Bool.and_eq_true, decide_eq_true_eq] at h
  have hread := allowed_of_or h.2
  obtain ⟨p, hp⟩ := translate_of_allowed hread
  rw [if_pos ⟨h.1, hread⟩, hp]
  rfl

theorem cell_offset {c : Nat} (h : (if va < UTOP ∧ allowed s d va PTE_U then
      (translate s d va).map fun p => p * PGSIZE + PGOFF va else none) = some c) :
    c % 4096 = va.toNat % 4096 := by
  split at h
  · obtain ⟨p, -, rfl⟩ := Option.map_eq_some_iff.mp h
    rw [PGOFF_eq, PGSIZE]
    omega
  · cases h

/-- What the user of the page directory `d` finds below `UTOP`. -/
def userSpace (s : Phys) (d : Nat) : Space where
  cell va :=
    if va < UTOP ∧ allowed s d va PTE_U then
      (translate s d va).map fun p => p * PGSIZE + PGOFF va
    else none
  writable va := va < UTOP && allowed s d va (PTE_U ||| PTE_W)
  contents c := byteOf (s.mem (c / PGSIZE) (c % PGSIZE / 4)) (c % 4)
  readable _ h := cell_readable h
  offset _ _ h := cell_offset h

theorem getLsbD_0xFF (i : Nat) : (0xFF : Word).getLsbD i = decide (i < 8) := by
  by_cases hi : i < 32
  · have hall : ∀ i < 32, (0xFF : Word).getLsbD i = decide (i < 8) := by decide
    exact hall i hi
  · rw [BitVec.getLsbD_of_ge _ _ (by omega), decide_eq_false (by omega)]

theorem byteOf_setByte {n i : Nat} (hn : n < 4) (hi : i < 4) (w : Word) (b : Byte) :
    byteOf (setByte w n b) i = if i = n then b else byteOf w i := by
  apply BitVec.eq_of_getLsbD_eq
  intro j hj
  have hbit : (byteOf (setByte w n b) i).getLsbD j =
      (w.getLsbD (8 * i + j) && !(!decide (8 * i + j < 8 * n) && decide (8 * i + j - 8 * n < 8)) ||
        !decide (8 * i + j < 8 * n) && b.getLsbD (8 * i + j - 8 * n)) := by
    simp only [byteOf, setByte, BitVec.getLsbD_setWidth, BitVec.getLsbD_ushiftRight,
      BitVec.getLsbD_or, BitVec.getLsbD_and, BitVec.getLsbD_not, BitVec.getLsbD_shiftLeft,
      getLsbD_0xFF, show 8 * i + j < 32 by omega, show 8 * i + j - 8 * n < 32 by omega, hj,
      decide_true, Bool.true_and]
  rw [hbit]
  split
  · rename_i heq
    subst heq
    simp [hj, show ¬ 8 * i + j < 8 * i by omega]
  · rename_i hne
    -- the bit lies in another byte
    rcases Nat.lt_or_gt_of_ne hne with hlt | hgt
    · have hin : 8 * i + j < 8 * n := by omega
      simp [hin, byteOf, hj]
    · have hout : ¬ 8 * i + j < 8 * n := by omega
      have hfar : ¬ 8 * i + j - 8 * n < 8 := by omega
      simp [hout, hfar, byteOf, hj, BitVec.getLsbD_of_ge b _ (by omega : 8 ≤ 8 * i + j - 8 * n)]

/-- A page that is none of the tables of the directory. -/
def Data (s : Phys) (d p : Nat) : Prop := p ≠ d ∧ ∀ i < NPDU, table s d i ≠ some p

/-- A word of such a page leaves the map as it is. -/
theorem userSpace_map {j : Nat} {w : Word} (hp : Data s d p) :
    Space.SameMap (userSpace s d) (userSpace (s.write p j w) d) := by
  have hdir : ∀ i, (s.write p j w).mem d i = s.mem d i := fun i => by
    simp [Phys.write_mem, hp.1.symm]
  -- a table is read only where the directory has one
  have htable : ∀ va, va < UTOP → present (s.mem d (PDX va)) = true →
      (s.write p j w).mem (PGNUM (PTE_ADDR (s.mem d (PDX va)))) =
        s.mem (PGNUM (PTE_ADDR (s.mem d (PDX va)))) := by
    intro va hva hpde
    have hne : PGNUM (PTE_ADDR (s.mem d (PDX va))) ≠ p := fun he =>
      hp.2 _ (PDX_lt_NPDU hva) (by rw [table, pageOf, if_pos hpde, he])
    funext i
    rw [Phys.write_mem, if_neg fun h => hne h.1]
  have htrans : ∀ va, va < UTOP → translate (s.write p j w) d va = translate s d va := by
    intro va hva
    rw [translate, translate, hdir, pageOf]
    split
    · rename_i hpde
      rw [Option.bind_some, Option.bind_some, htable va hva hpde]
    · rfl
  have hallow : ∀ va perm, va < UTOP →
      allowed (s.write p j w) d va perm = allowed s d va perm := by
    intro va perm hva
    by_cases hpde : present (s.mem d (PDX va)) = true
    · simp only [allowed, hdir, htable va hva hpde]
    · have hno : ∀ s' : Phys, s'.mem d (PDX va) = s.mem d (PDX va) →
          allowed s' d va perm = false := by
        intro s' hs'
        by_contra hne
        exact hpde (hs' ▸ (allowed_present (Bool.eq_true_of_not_eq_false hne)).1)
      rw [hno s rfl, hno _ (hdir _)]
  constructor
  · funext va
    by_cases hva : va < UTOP
    · simp only [userSpace, hva, true_and, hallow va _ hva, htrans va hva]
    · simp only [userSpace, hva, false_and, if_false]
  · funext va
    by_cases hva : va < UTOP
    · simp only [userSpace, hallow va _ hva]
    · simp only [userSpace, hva, decide_false, Bool.false_and]

/-- A byte of such a page. -/
theorem userSpace_put {o : Nat} {b : Byte} (hp : Data s d p) (ho : o < PGSIZE) :
    userSpace (s.write p (o / 4) (setByte (s.mem p (o / 4)) (o % 4) b)) d =
      (userSpace s d).put (p * PGSIZE + o) b := by
  obtain ⟨hcell, hwritable⟩ := @userSpace_map s d p (o / 4) (setByte (s.mem p (o / 4)) (o % 4) b) hp
  have hcontents : (userSpace (s.write p (o / 4) (setByte (s.mem p (o / 4)) (o % 4) b)) d).contents =
      Function.update (userSpace s d).contents (p * PGSIZE + o) b := by
    funext c
    simp only [PGSIZE] at ho
    have hbyte := @byteOf_setByte (o % 4) (c % 4) (by omega) (by omega) (s.mem p (o / 4)) b
    simp only [userSpace, Phys.write_mem, PGSIZE]
    by_cases hc : c = p * 4096 + o
    · subst hc
      rw [Function.update_self, if_pos (by omega), hbyte, if_pos (by omega)]
    · rw [Function.update_of_ne hc]
      split
      · rename_i hin
        rw [hbyte, if_neg (by omega), hin.1, hin.2]
      · rfl
  rw [Space.put]
  exact Space.ext hcell hwritable hcontents

end view

/-! ## Stores of the kernel -/

section stores

variable {kept : Nat → Prop} {k : Kernel} {e : EnvIx} {d : Nat} {va : Word}

theorem Memory.data {p : Nat} (h : Memory kept k) (hd : k.dir e = some d) (hva : va < UTOP)
    (hp : translate k.pm d va = some p) : Data k.pm d p := by
  obtain ⟨free, ha⟩ := h.accounts
  have hshared := ha.mapped_shared (slot_of_pte hd hva ((translate_eq k.pm d va).symm.trans hp))
  refine ⟨fun heq => hshared (.own e) (heq ▸ hd), fun i hi ht => ?_⟩
  exact hshared (.pde e ⟨i, hi⟩) (by rw [slots_pde hi hd, ht])

/-- Where the user may write, the kernel may, and the user finds the byte. -/
theorem Memory.view_store (h : Memory kept k) (hd : k.dir e = some d) {m : Space} {b : Byte}
    (hs : (userSpace k.pm d).store va b = some m) :
    va < UTOP ∧ ∃ pm, k.pm.store d va PTE_W b = some pm ∧ userSpace pm d = m := by
  unfold Space.store at hs
  split at hs
  case isFalse => cases hs
  rename_i hw
  simp only [userSpace, Bool.and_eq_true, decide_eq_true_eq] at hw
  obtain ⟨hva, hallow⟩ := hw
  obtain ⟨c, hc, rfl⟩ := Option.map_eq_some_iff.mp hs
  obtain ⟨p, hp⟩ := translate_of_allowed hallow
  have hcell : p * PGSIZE + PGOFF va = c := by
    simp only [userSpace, hva, allowed_of_or hallow, true_and, if_true, hp, Option.map_some] at hc
    exact Option.some.inj hc
  have hkernel : allowed k.pm d va PTE_W = true := by
    rw [BitVec.or_comm] at hallow
    exact allowed_of_or hallow
  refine ⟨hva, k.pm.write p (PGOFF va / 4)
    (setByte (k.pm.mem p (PGOFF va / 4)) (PGOFF va % 4) b), ?_, ?_⟩
  · rw [Phys.store, if_pos hkernel, hp]
    rfl
  · rw [← hcell]
    refine userSpace_put (h.data hd hva hp) ?_
    rw [PGOFF_eq, PGSIZE]
    omega

theorem Memory.view_storeBytes (h : Memory kept k) (hd : k.dir e = some d) {m : Space}
    {bs : List Byte} (hs : (userSpace k.pm d).storeBytes va bs = some m) :
    ∃ pm, k.pm.storeBytes d va bs = .ok pm ∧ userSpace pm d = m := by
  induction bs generalizing k va with
  | nil => cases hs; exact ⟨k.pm, rfl, rfl⟩
  | cons b bs ih =>
    obtain ⟨m₁, hs₁, hs⟩ := Option.bind_eq_some_iff.mp hs
    obtain ⟨hva, pm₁, hstore, rfl⟩ := h.view_store hd hs₁
    obtain ⟨pm, hrest, heq⟩ := @ih (k.withPm pm₁) (va + 1) (h.store hd hva hstore) hd hs
    refine ⟨pm, ?_, heq⟩
    rw [Phys.storeBytes, hstore]
    exact hrest

end stores

end jos
