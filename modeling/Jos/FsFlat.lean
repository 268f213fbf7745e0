-- The small functions of fs/fs.c over plain memory: the bitmap, the
-- allocation of a block, and the slots of a file.
import Mathlib
import Jos.Fs

namespace jos.fs

open blockstore ia32
open blockstore.Prog (loadByte loadBytes loadWord storeBytes storeWord flushAt flat)

variable {m : Mem} {β : Type}

/-- `super->s_nblocks`. -/
def numBlocks (m : Mem) : Nat := (m.word (super + 4)).toNat

@[simp] theorem flat_s_nblocks_bind (k : Word → Io β) :
    flat (s_nblocks >>= k) m = flat (k (m.word (super + 4))) m := rfl

theorem flat_diskaddr (b : Word) : flat (diskaddr b) m =
    if b = 0 ∨ numBlocks m ≤ b.toNat then .error .badBlockNumber
    else .ok (4096 * b.toNat, m) := by
  unfold diskaddr
  by_cases hb : b = 0
  · rw [if_pos hb, if_pos (.inl hb)]
    rfl
  · rw [if_neg hb, flat_s_nblocks_bind]
    by_cases hn : numBlocks m ≤ b.toNat
    · rw [if_pos (BitVec.le_def.mpr hn), if_pos (.inr hn)]
      rfl
    · rw [if_neg (fun h => hn (BitVec.le_def.mp h)), if_neg (not_or.mpr ⟨hb, hn⟩)]
      rfl

/-- A block number that `diskaddr` takes. -/
theorem flat_diskaddr_ok {b : Word} (hb : b ≠ 0) (hn : b.toNat < numBlocks m) :
    flat (diskaddr b) m = .ok (4096 * b.toNat, m) := by
  rw [flat_diskaddr, if_neg (by simp only [hb, false_or]; omega)]

theorem flat_diskaddr_bind {b : Word} (hb : b ≠ 0) (hn : b.toNat < numBlocks m)
    (k : Nat → Io β) : flat (diskaddr b >>= k) m = flat (k (4096 * b.toNat)) m :=
  Prog.flat_bind_ok (flat_diskaddr_ok hb hn)

theorem flat_flush_block {va : Nat} (h : va < DISKSIZE) :
    flat (flush_block va) m = .ok ((), m) := by
  rw [flush_block, if_neg (by omega)]
  rfl

theorem flat_flush_block_bind {va : Nat} (h : va < DISKSIZE) (k : Unit → Io β) :
    flat (flush_block va >>= k) m = flat (k ()) m :=
  Prog.flat_bind_ok (flat_flush_block h)

/-! ## The bitmap -/

/-- The bit of a block in the bitmap. -/
def isFree (m : Mem) (b : Nat) : Bool := (m.word (bitmap + 4 * (b / 32))).getLsbD (b % 32)

/-- The memory with the bit of a block set. -/
def freed (m : Mem) (b : Nat) : Mem :=
  m.setWord (bitmap + 4 * (b / 32)) (m.word (bitmap + 4 * (b / 32)) ||| 1#32 <<< (b % 32))

/-- The memory with the bit of a block cleared. -/
def taken (m : Mem) (b : Nat) : Mem :=
  m.setWord (bitmap + 4 * (b / 32)) (m.word (bitmap + 4 * (b / 32)) &&& ~~~(1#32 <<< (b % 32)))

theorem getLsbD_bit (k i : Nat) (hk : k < 32) : (1#32 <<< k).getLsbD i = decide (i = k) := by
  rw [← BitVec.twoPow_eq, BitVec.getLsbD_twoPow]
  by_cases h : i = k
  · simp [h, hk]
  · simp [h, Ne.symm h]

theorem and_bit_ne_zero (w : Word) (k : Nat) (hk : k < 32) :
    decide (w &&& 1#32 <<< k ≠ 0) = w.getLsbD k := by
  have hbits : ∀ i, (w &&& 1#32 <<< k).getLsbD i = (w.getLsbD i && decide (i = k)) := fun i => by
    rw [BitVec.getLsbD_and, getLsbD_bit k i hk]
  cases hw : w.getLsbD k with
  | false =>
    rw [decide_eq_false_iff_not, not_not]
    apply BitVec.eq_of_getLsbD_eq
    intro i hi
    rw [hbits i]
    by_cases h : i = k
    · simp [h, hw]
    · simp [h]
  | true =>
    rw [decide_eq_true_iff]
    intro hz
    have := hbits k
    rw [hz, hw] at this
    simp at this

theorem isFree_setWord (w : Word) (b b' : Nat) :
    isFree (m.setWord (bitmap + 4 * (b / 32)) w) b' =
      if b' / 32 = b / 32 then w.getLsbD (b' % 32) else isFree m b' := by
  unfold isFree
  split
  · rename_i h
    rw [h, Mem.word_setWord]
  · rw [Mem.word_setWord_out (by omega)]

theorem isFree_freed (b b' : Nat) : isFree (freed m b) b' = (isFree m b' || decide (b' = b)) := by
  unfold freed
  rw [isFree_setWord, BitVec.getLsbD_or, getLsbD_bit _ _ (by omega)]
  split
  · rename_i h
    unfold isFree
    rw [h]
    congr 1
    exact decide_eq_decide.mpr (by omega)
  · rename_i h
    rw [decide_eq_false (by rintro rfl; exact h rfl), Bool.or_false]

theorem isFree_taken (b b' : Nat) :
    isFree (taken m b) b' = (isFree m b' && decide (b' ≠ b)) := by
  unfold taken
  rw [isFree_setWord, BitVec.getLsbD_and, BitVec.getLsbD_not, getLsbD_bit _ _ (by omega)]
  split
  · rename_i h
    unfold isFree
    rw [h]
    congr 1
    have : (b' % 32 = b % 32) ↔ b' = b := by omega
    simp [this, show b' % 32 < 32 by omega]
  · rename_i h
    rw [decide_eq_true (by rintro rfl; exact h rfl), Bool.and_true]

theorem freed_out {b x : Nat} (h : x < bitmap + 4 * (b / 32) ∨ bitmap + 4 * (b / 32) + 4 ≤ x) :
    freed m b x = m x := Mem.setWord_out h

theorem taken_out {b x : Nat} (h : x < bitmap + 4 * (b / 32) ∨ bitmap + 4 * (b / 32) + 4 ≤ x) :
    taken m b x = m x := Mem.setWord_out h

theorem flat_block_is_free (b : Nat) (hb : b < 2 ^ 32) :
    flat (block_is_free (BitVec.ofNat 32 b)) m =
      .ok (decide (b < numBlocks m) && isFree m b, m) := by
  have hv : (BitVec.ofNat 32 b).toNat = b := BitVec.toNat_ofNat .. |>.trans (Nat.mod_eq_of_lt hb)
  unfold block_is_free
  rw [flat_s_nblocks_bind]
  by_cases hn : numBlocks m ≤ b
  · rw [if_pos (BitVec.le_def.mpr (by rw [hv]; exact hn)), decide_eq_false (by omega)]
    rfl
  · rw [if_neg (fun h => hn (by rw [← hv]; exact BitVec.le_def.mp h)), decide_eq_true (by omega),
      Bool.true_and, Prog.flat_loadWord_bind]
    simp only [bitmapWord, bitmapBit, hv, and_bit_ne_zero _ _ (Nat.mod_lt b (by omega : 0 < 32))]
    rfl

theorem flat_free_block {b : Nat} (h₀ : b ≠ 0) (hb : b < 2 ^ 32) :
    flat (free_block (BitVec.ofNat 32 b)) m = .ok ((), freed m b) := by
  have hv : (BitVec.ofNat 32 b).toNat = b := BitVec.toNat_ofNat .. |>.trans (Nat.mod_eq_of_lt hb)
  have hne : BitVec.ofNat 32 b ≠ 0 := fun h => h₀ (by rw [← hv, h]; rfl)
  rw [free_block, if_neg hne, Prog.flat_loadWord_bind, Prog.flat_storeWord]
  simp only [bitmapWord, bitmapBit, hv, freed]

theorem numBlocks_taken (b : Nat) : numBlocks (taken m b) = numBlocks m := by
  unfold numBlocks taken
  rw [Mem.word_setWord_out (.inl (by simp only [super, bitmap]; omega))]

theorem numBlocks_freed (b : Nat) : numBlocks (freed m b) = numBlocks m := by
  unfold numBlocks freed
  rw [Mem.word_setWord_out (.inl (by simp only [super, bitmap]; omega))]

/-! ## Allocation -/

section Alloc

variable (hn : numBlocks m ≤ 0xC0000)

include hn

theorem flat_alloc_block_from_none {left i : Nat}
    (h : ∀ j < numBlocks m, isFree m j = false) :
    flat (alloc_block_from left i) m = .ok (BitVec.ofInt 32 (-E_NO_DISK), m) := by
  induction left generalizing i with
  | zero => rfl
  | succ left ih =>
    rw [alloc_block_from, flat_s_nblocks_bind]
    split
    · rfl
    · rename_i hi
      have hi : i < numBlocks m := by
        unfold numBlocks
        omega
      rw [Prog.flat_bind_ok (flat_block_is_free i (by omega)), h i hi, Bool.and_false]
      exact ih

theorem flat_alloc_block_from_some {left i b : Nat} (hb : b < numBlocks m) (h₀ : b ≠ 0)
    (hfree : isFree m b = true) (hmin : ∀ j < b, isFree m j = false) (hi : i ≤ b)
    (hleft : b < i + left) :
    flat (alloc_block_from left i) m = .ok (BitVec.ofNat 32 b, taken m b) := by
  have hv : (BitVec.ofNat 32 b).toNat = b :=
    BitVec.toNat_ofNat .. |>.trans (Nat.mod_eq_of_lt (by omega))
  have hne : BitVec.ofNat 32 b ≠ 0 := fun h => h₀ (by rw [← hv, h]; rfl)
  induction left generalizing i with
  | zero => omega
  | succ left ih =>
    rw [alloc_block_from, flat_s_nblocks_bind]
    rw [if_neg (show ¬ (m.word (super + 4)).toNat ≤ i by unfold numBlocks at hb; omega),
      Prog.flat_bind_ok (flat_block_is_free i (by omega))]
    rcases Nat.lt_or_eq_of_le hi with hi | rfl
    · simp only [hmin i hi, Bool.and_false]
      exact ih (by omega) (by omega)
    · simp only [hfree, hb, decide_true, Bool.and_true, if_true, Prog.flat_loadWord_bind,
        Prog.flat_storeWord_bind, bitmapWord, bitmapBit, hv]
      change flat (diskaddr _ >>= _) (taken m i) = _
      rw [flat_diskaddr_bind hne (by rw [numBlocks_taken, hv]; exact hb),
        flat_flush_block_bind (by rw [hv]; simp only [DISKSIZE]; omega)]
      rfl

theorem flat_alloc_block (h₀ : 0 < numBlocks m → isFree m 0 = false) :
    (∃ b, 0 < b ∧ b < numBlocks m ∧ isFree m b = true ∧ (∀ j < b, isFree m j = false) ∧
      flat alloc_block m = .ok (BitVec.ofNat 32 b, taken m b)) ∨
    ((∀ b < numBlocks m, isFree m b = false) ∧
      flat alloc_block m = .ok (BitVec.ofInt 32 (-E_NO_DISK), m)) := by
  by_cases h : ∃ b, b < numBlocks m ∧ isFree m b = true
  · left
    obtain ⟨hlt, hfree⟩ := Nat.find_spec h
    have hmin : ∀ j < Nat.find h, isFree m j = false := fun j hj => by
      have := Nat.find_min h hj
      rw [not_and, Bool.not_eq_true] at this
      exact this (by omega)
    have hpos : Nat.find h ≠ 0 := fun hz => by
      rw [hz, h₀ (by omega)] at hfree
      cases hfree
    refine ⟨Nat.find h, by omega, hlt, hfree, hmin, ?_⟩
    rw [alloc_block, flat_s_nblocks_bind]
    exact flat_alloc_block_from_some hn hlt hpos hfree hmin (by omega)
      (show Nat.find h < 0 + numBlocks m by omega)
  · right
    have hall : ∀ b < numBlocks m, isFree m b = false := fun b hb => by
      rw [← Bool.not_eq_true]
      exact fun hf => h ⟨b, hb, hf⟩
    exact ⟨hall, by rw [alloc_block, flat_s_nblocks_bind]; exact flat_alloc_block_from_none hn hall⟩

end Alloc

/-! ## Sizes and positions that are not negative -/

theorem sdiv_block {w : Word} (h : w.toNat < 2 ^ 31) :
    (w.sdiv 4096#32).toNat = w.toNat / 4096 := by
  have hm : w.msb = false := by
    rw [BitVec.msb_eq_false_iff_two_mul_lt]
    omega
  rw [BitVec.sdiv_eq, hm, show (4096#32).msb = false from rfl]
  simp

theorem srem_block {w : Word} (h : w.toNat < 2 ^ 31) :
    w.srem 4096#32 = BitVec.ofNat 32 (w.toNat % 4096) := by
  have hm : w.msb = false := by
    rw [BitVec.msb_eq_false_iff_two_mul_lt]
    omega
  apply BitVec.eq_of_toNat_eq
  rw [BitVec.srem_eq, hm, show (4096#32).msb = false from rfl]
  simp only [BitVec.toNat_umod, BitVec.toNat_ofNat, Nat.reducePow, Nat.reduceMod]
  omega

theorem perBlock_eq {w : Word} (h : w.toNat < 2 ^ 31) : perBlock w = w.toNat / 4096 :=
  sdiv_block h

theorem toNat_of_toInt_nonneg {w : Word} (h : 0 ≤ w.toInt) :
    w.toNat < 2 ^ 31 ∧ w.toInt = w.toNat := by
  have := BitVec.toInt_eq_toNat_cond w
  omega

theorem toInt_of_lt {w : Word} (h : w.toNat < 2 ^ 31) : w.toInt = w.toNat :=
  BitVec.toInt_eq_toNat_of_lt (by omega)

theorem nblocks_eq {w : Word} (h : w.toNat + 4095 < 2 ^ 31) :
    nblocks w = (w.toNat + 4095) / 4096 := by
  have hv : (w + 4095#32).toNat = w.toNat + 4095 := by
    rw [BitVec.toNat_add, BitVec.toNat_ofNat]
    omega
  rw [nblocks, perBlock_eq (by omega), hv]

/-! ## The slots of a file -/

/-- The block number in the indirect pointer of a file. -/
def ind (m : Mem) (f : Nat) : Nat := (m.word (f_indirect f)).toNat

/-- The block number in slot `i` of a file; 0 if there is no such slot. -/
def blk (m : Mem) (f i : Nat) : Nat :=
  if i < 10 then (m.word (f_direct f i)).toNat
  else if i < 1034 ∧ ind m f ≠ 0 then (m.word (4096 * ind m f + 4 * (i - 10))).toNat
  else 0

theorem blk_direct {f i : Nat} (h : i < 10) : blk m f i = (m.word (f_direct f i)).toNat :=
  if_pos h

theorem blk_entry {f i : Nat} (h : 10 ≤ i) (h' : i < 1034) (hind : ind m f ≠ 0) :
    blk m f i = (m.word (4096 * ind m f + 4 * (i - 10))).toNat := by
  rw [blk, if_neg (by omega), if_pos ⟨h', hind⟩]

theorem blk_entry_none {f i : Nat} (h : 10 ≤ i) (hind : ind m f = 0) : blk m f i = 0 := by
  rw [blk, if_neg (by omega), if_neg (fun h => h.2 hind)]

theorem blk_large {f i : Nat} (h : 1034 ≤ i) : blk m f i = 0 := by
  rw [blk, if_neg (by omega), if_neg (by omega)]

theorem word_ne_zero {w : Word} : w ≠ 0 ↔ w.toNat ≠ 0 :=
  not_congr ⟨fun h => by rw [h]; rfl, fun h => BitVec.eq_of_toNat_eq h⟩

theorem flat_file_block_walk (f i : Nat) : flat (file_block_walk f i false) m =
    if 1034 ≤ i then .ok (.error (-E_INVAL), m)
    else if i < 10 then .ok (.ok (f_direct f i), m)
    else if ind m f = 0 then .ok (.error (-E_NOT_FOUND), m)
    else if numBlocks m ≤ ind m f then .error .badBlockNumber
    else .ok (.ok (4096 * ind m f + 4 * (i - 10)), m) := by
  unfold file_block_walk
  by_cases hl : 1034 ≤ i
  · rw [if_pos (show NDIRECT + NINDIRECT ≤ i from hl), if_pos hl]
    rfl
  rw [if_neg (show ¬ NDIRECT + NINDIRECT ≤ i from hl), if_neg hl]
  by_cases hd : i < 10
  · rw [if_pos (show i < NDIRECT from hd), if_pos hd]
    rfl
  rw [if_neg (show ¬ i < NDIRECT from hd), if_neg hd, Prog.flat_loadWord_bind]
  by_cases h : ind m f = 0
  · have h' : m.word (f_indirect f) = 0 := by
      by_contra hne
      exact word_ne_zero.mp hne h
    rw [if_neg (not_not.mpr h'), if_pos h]
    rfl
  · have h' : m.word (f_indirect f) ≠ 0 := word_ne_zero.mpr h
    rw [if_pos h', if_neg h, Prog.flat_bind, flat_diskaddr]
    by_cases hb : numBlocks m ≤ ind m f
    · rw [if_pos (.inr hb), if_pos hb]
      rfl
    · have hok : ¬ (m.word (f_indirect f) = 0 ∨ numBlocks m ≤ (m.word (f_indirect f)).toNat) :=
        not_or.mpr ⟨h', hb⟩
      rw [if_neg hok, if_neg hb]
      rfl

/-- The walk without `alloc`: there is no slot, or its address is found. -/
theorem flat_file_block_walk_cases {m' : Mem} {f i : Nat} {p : Except Int Nat}
    (h : flat (file_block_walk f i false) m = .ok (p, m')) :
    m' = m ∧ ((∃ r, p = .error r ∧ blk m f i = 0) ∨
      ∃ a, p = .ok a ∧ blk m f i = (m.word a).toNat) := by
  rw [flat_file_block_walk] at h
  split at h
  · cases h
    exact ⟨rfl, .inl ⟨_, rfl, blk_large (by assumption)⟩⟩
  split at h
  · cases h
    exact ⟨rfl, .inr ⟨_, rfl, blk_direct (by assumption)⟩⟩
  split at h
  · cases h
    exact ⟨rfl, .inl ⟨_, rfl, blk_entry_none (by omega) (by assumption)⟩⟩
  split at h
  · cases h
  · cases h
    exact ⟨rfl, .inr ⟨_, rfl, blk_entry (by omega) (by omega) (by assumption)⟩⟩

end jos.fs
