-- One file of the file system over plain memory: its pointers, and what each
-- way to change them keeps. A change stays within the bitmap, the inode of
-- the file, its own blocks and the free blocks.
import Mathlib
import Jos.FsFlat

namespace jos.fs

open blockstore ia32
open blockstore.Prog (loadByte loadBytes loadWord storeBytes storeWord flushAt flat)

variable {m m' m'' : Mem} {f i b : Nat}

/-! ## Pointers -/

/-- The first block after the bitmap. -/
def firstBlock (m : Mem) : Nat := 2 + (numBlocks m + 32767) / 32768

/-- The pointers of a file: its 10 direct slots, the 1024 entries of its
indirect block, and the pointer to that block. -/
def ptr (m : Mem) (f k : Nat) : Nat := if k = 1034 then ind m f else blk m f k

theorem ptr_ind : ptr m f 1034 = ind m f := if_pos rfl

theorem ptr_blk {k : Nat} (h : k ≠ 1034) : ptr m f k = blk m f k := if_neg h

theorem ptr_lt {k : Nat} (h : ptr m f k ≠ 0) : k ≤ 1034 := by
  by_contra hk
  rw [ptr_blk (by omega), blk_large (by omega)] at h
  exact h rfl

/-- The blocks that a file has, or could get. -/
def Mine (m : Mem) (f b : Nat) : Prop :=
  firstBlock m ≤ b ∧ b < numBlocks m ∧ (isFree m b = true ∨ ∃ k, ptr m f k = b)

def InBitmap (m : Mem) (x : Nat) : Prop := 8192 ≤ x ∧ x < 4096 * firstBlock m

/-- The bytes of the size and of the pointers. -/
def InInode (f x : Nat) : Prop := (f + 128 ≤ x ∧ x < f + 132) ∨ (f + 136 ≤ x ∧ x < f + 180)

/-- A file whose pointers are in order, at a place that it does not own. -/
structure FileOk (m : Mem) (f : Nat) : Prop where
  small : numBlocks m ≤ 0xC0000
  reserved : ∀ b < firstBlock m, b < numBlocks m → isFree m b = false
  low : 4104 ≤ f
  fits : f % 4096 + 256 ≤ 4096
  home : f / 4096 = 1 ∨ (firstBlock m ≤ f / 4096 ∧ f / 4096 < numBlocks m)
  foreign : ¬ Mine m f (f / 4096)
  range : ∀ k, ptr m f k ≠ 0 → firstBlock m ≤ ptr m f k ∧ ptr m f k < numBlocks m ∧
    isFree m (ptr m f k) = false
  inj : ∀ k k', ptr m f k ≠ 0 → ptr m f k = ptr m f k' → k = k'

/-- A change that stays within what a file has, or could get. -/
structure Local (f : Nat) (m m' : Mem) : Prop where
  out : ∀ x, ¬ InBitmap m x → ¬ InInode f x → ¬ Mine m f (x / 4096) → m' x = m x
  blocks : numBlocks m' = numBlocks m
  bits : ∀ b < numBlocks m, ¬ Mine m f b → isFree m' b = isFree m b
  mine : ∀ b, Mine m' f b → Mine m f b

theorem firstBlock_congr (h : numBlocks m' = numBlocks m) : firstBlock m' = firstBlock m := by
  rw [firstBlock, h, firstBlock]

theorem Local.refl (f : Nat) (m : Mem) : Local f m m :=
  ⟨fun _ _ _ _ => rfl, rfl, fun _ _ _ => rfl, fun _ h => h⟩

theorem Local.trans (h : Local f m m') (h' : Local f m' m'') : Local f m m'' := by
  have hfirst := firstBlock_congr h.blocks
  refine ⟨fun x hb hi hm => ?_, h'.blocks.trans h.blocks, fun b hb hm => ?_,
    fun b hm => h.mine b (h'.mine b hm)⟩
  · rw [h'.out x (by unfold InBitmap at hb ⊢; rwa [hfirst]) hi fun hc => hm (h.mine _ hc)]
    exact h.out x hb hi hm
  · rw [h'.bits b (by rwa [h.blocks]) fun hc => hm (h.mine _ hc)]
    exact h.bits b hb hm

/-! ## What a change of memory leaves alone -/

theorem ind_congr (h : ∀ x, f + 176 ≤ x → x < f + 180 → m' x = m x) : ind m' f = ind m f := by
  have hw : m'.word (f_indirect f) = m.word (f_indirect f) := Mem.word_congr h
  rw [ind, ind, hw]

theorem blk_direct_congr {k : Nat} (hk : k < 10)
    (h : ∀ x, f + 136 ≤ x → x < f + 176 → m' x = m x) : blk m' f k = blk m f k := by
  rw [blk_direct hk, blk_direct hk, Mem.word_congr fun x hx hx' => h x ?_ ?_]
  · simp only [f_direct] at hx hx'
    omega
  · simp only [f_direct] at hx hx'
    omega

theorem ptr_congr (hp : ∀ x, f + 136 ≤ x → x < f + 180 → m' x = m x)
    (he : ind m f ≠ 0 → ∀ x, x / 4096 = ind m f → m' x = m x) (k : Nat) :
    ptr m' f k = ptr m f k := by
  have hind : ind m' f = ind m f := ind_congr fun x hx hx' => hp x (by omega) hx'
  by_cases hk : k = 1034
  · rw [hk, ptr_ind, ptr_ind, hind]
  rw [ptr_blk hk, ptr_blk hk]
  by_cases hd : k < 10
  · exact blk_direct_congr hd fun x hx hx' => hp x hx (by omega)
  by_cases hz : ind m f = 0
  · rw [blk_entry_none (by omega) hz, blk_entry_none (by omega) (hind.trans hz)]
  by_cases hl : k < 1034
  · rw [blk_entry (by omega) hl hz, blk_entry (by omega) hl (by rwa [hind]), hind]
    exact congrArg _ (Mem.word_congr fun x hx hx' => he hz x (by omega))
  · rw [blk_large (by omega), blk_large (by omega)]

/-- The word of the bitmap with the bit of a block lies in the bitmap. -/
theorem bitmap_word_lt (hb : b < numBlocks m) :
    bitmap + 4 * (b / 32) + 4 ≤ 4096 * firstBlock m := by
  simp only [bitmap, firstBlock]
  omega

theorem isFree_congr (hb : b < numBlocks m) (h : ∀ x, InBitmap m x → m' x = m x) :
    isFree m' b = isFree m b := by
  have := bitmap_word_lt hb
  rw [isFree, isFree, Mem.word_congr fun x hx hx' => h x ?_]
  simp only [InBitmap, bitmap] at *
  omega

theorem numBlocks_congr (h : ∀ x, 4100 ≤ x → x < 4104 → m' x = m x) :
    numBlocks m' = numBlocks m := by
  exact congrArg BitVec.toNat (Mem.word_congr (a := super + 4) h)

namespace FileOk

theorem ind_range (h : FileOk m f) (hi : ind m f ≠ 0) :
    firstBlock m ≤ ind m f ∧ ind m f < numBlocks m ∧ isFree m (ind m f) = false := by
  have := h.range 1034
  rw [ptr_ind] at this
  exact this hi

/-- The block of the inode is not one of the file's blocks. -/
theorem ptr_ne_home (h : FileOk m f) {k : Nat} (hk : ptr m f k ≠ 0) : ptr m f k ≠ f / 4096 :=
  fun he => h.foreign (he ▸ ⟨(h.range k hk).1, (h.range k hk).2.1, .inr ⟨k, rfl⟩⟩)

theorem ind_ne_home (h : FileOk m f) (hi : ind m f ≠ 0) : ind m f ≠ f / 4096 := by
  have := h.ptr_ne_home (k := 1034)
  rw [ptr_ind] at this
  exact this hi

/-- What is outside the bitmap stays, so the pointers do. -/
theorem ptr_bitmap (h : FileOk m f) (hout : ∀ x, ¬ InBitmap m x → m' x = m x) (k : Nat) :
    ptr m' f k = ptr m f k := by
  have hfits := h.fits
  refine ptr_congr (fun x hx hx' => hout x ?_) (fun hi x hx => hout x ?_) k
  · have hlt : f / 4096 = 1 ∨ firstBlock m ≤ f / 4096 := h.home.imp_right And.left
    unfold InBitmap
    omega
  · have := h.ind_range hi
    unfold InBitmap
    omega

/-- The super block is outside of what is the file's. -/
theorem blocks_of_out (h : FileOk m f)
    (hout : ∀ x, ¬ InBitmap m x → ¬ InInode f x → ¬ Mine m f (x / 4096) → m' x = m x) :
    numBlocks m' = numBlocks m := by
  have hlow := h.low
  refine numBlocks_congr fun x hx hx' => hout x ?_ ?_ ?_
  · unfold InBitmap
    omega
  · unfold InInode
    omega
  · rintro ⟨hle, -, -⟩
    unfold firstBlock at hle
    omega

/-- A change within what is the file's is in order, if the pointers after it
are to different blocks of the file's that are marked in use. -/
theorem change (h : FileOk m f)
    (hout : ∀ x, ¬ InBitmap m x → ¬ InInode f x → ¬ Mine m f (x / 4096) → m' x = m x)
    (hbits : ∀ b < numBlocks m, ¬ Mine m f b → isFree m' b = isFree m b)
    (hrange : ∀ k, ptr m' f k ≠ 0 → Mine m f (ptr m' f k) ∧ isFree m' (ptr m' f k) = false)
    (hinj : ∀ k k', ptr m' f k ≠ 0 → ptr m' f k = ptr m' f k' → k = k') :
    FileOk m' f ∧ Local f m m' := by
  have hblocks := h.blocks_of_out hout
  have hfirst := firstBlock_congr hblocks
  have hmine : ∀ b, Mine m' f b → Mine m f b := by
    rintro b ⟨h₁, h₂, h₃⟩
    rw [hfirst] at h₁
    rw [hblocks] at h₂
    rcases h₃ with hfree | ⟨k, rfl⟩
    · by_contra hc
      rw [hbits b h₂ hc] at hfree
      exact hc ⟨h₁, h₂, .inl hfree⟩
    · exact (hrange k (by unfold firstBlock at h₁; omega)).1
  refine ⟨⟨by rw [hblocks]; exact h.small, fun b hb hn => ?_, h.low, h.fits, ?_,
    fun hc => h.foreign (hmine _ hc), fun k hk => ?_, hinj⟩, hout, hblocks, hbits, hmine⟩
  · rw [hfirst] at hb
    rw [hblocks] at hn
    rw [hbits b hn fun hc => absurd hc.1 (by omega)]
    exact h.reserved b hb hn
  · rw [hfirst, hblocks]
    exact h.home
  · obtain ⟨⟨h₁, h₂, -⟩, h₃⟩ := hrange k hk
    rw [hfirst, hblocks]
    exact ⟨h₁, h₂, h₃⟩

end FileOk

/-- The address of slot `i`. -/
def slotAddr (m : Mem) (f i : Nat) : Nat :=
  if i < 10 then f_direct f i else 4096 * ind m f + 4 * (i - 10)

/-- There is a slot `i`: a direct one, or one in the indirect block. -/
def HasSlot (m : Mem) (f i : Nat) : Prop := i < 10 ∨ (i < 1034 ∧ ind m f ≠ 0)

theorem ptr_eq_slot (h : HasSlot m f i) : ptr m f i = (m.word (slotAddr m f i)).toNat := by
  unfold slotAddr
  rcases h with h | ⟨h, hi⟩
  · rw [if_pos h, ptr_blk (by omega), blk_direct h]
  · rw [ptr_blk (by omega)]
    split
    · rw [blk_direct (by assumption)]
    · rw [blk_entry (by omega) h hi]

theorem ptr_setSlot (hfits : f % 4096 + 256 ≤ 4096) (hne : ind m f ≠ f / 4096)
    (h : HasSlot m f i) (v : Word) (k : Nat) :
    ptr (m.setWord (slotAddr m f i) v) f k = if k = i then v.toNat else ptr m f k := by
  unfold HasSlot at h
  have hout : ∀ a, (slotAddr m f i + 4 ≤ a ∨ a + 4 ≤ slotAddr m f i) →
      (m.setWord (slotAddr m f i) v).word a = m.word a :=
    fun a ha => Mem.word_setWord_out (by omega)
  have hind : ind (m.setWord (slotAddr m f i) v) f = ind m f := by
    refine congrArg BitVec.toNat (hout (f_indirect f) ?_)
    simp only [slotAddr, f_direct, f_indirect]
    split <;> omega
  have hslot : HasSlot (m.setWord (slotAddr m f i) v) f i := by
    unfold HasSlot
    rwa [hind]
  have haddr : slotAddr (m.setWord (slotAddr m f i) v) f i = slotAddr m f i := by
    rw [slotAddr, hind, slotAddr]
  by_cases hk : k = i
  · rw [if_pos hk, hk, ptr_eq_slot hslot, haddr, Mem.word_setWord]
  rw [if_neg hk]
  by_cases hk' : k = 1034
  · rw [hk', ptr_ind, ptr_ind, hind]
  rw [ptr_blk hk', ptr_blk hk']
  by_cases hd : k < 10
  · rw [blk_direct hd, blk_direct hd, hout _ (by simp only [slotAddr, f_direct]; split <;> omega)]
  by_cases hz : ind m f = 0
  · rw [blk_entry_none (by omega) hz, blk_entry_none (by omega) (hind.trans hz)]
  by_cases hl : k < 1034
  · rw [blk_entry (by omega) hl hz, blk_entry (by omega) hl (by rwa [hind]), hind,
      hout _ (by simp only [slotAddr, f_direct]; split <;> omega)]
  · rw [blk_large (by omega), blk_large (by omega)]

/-- The indirect pointer is set: the direct slots stay, and the entries are
those of the new block. -/
theorem ptr_setInd (v : Word) (k : Nat) :
    ptr (m.setWord (f_indirect f) v) f k =
      if k = 1034 then v.toNat else if k < 10 then ptr m f k
      else if k < 1034 ∧ v ≠ 0 then ((m.setWord (f_indirect f) v).word
        (4096 * v.toNat + 4 * (k - 10))).toNat else 0 := by
  have hind : ind (m.setWord (f_indirect f) v) f = v.toNat := by
    rw [ind, Mem.word_setWord]
  by_cases hk : k = 1034
  · rw [if_pos hk, hk, ptr_ind, hind]
  rw [if_neg hk, ptr_blk hk, ptr_blk hk]
  by_cases hd : k < 10
  · rw [if_pos hd, blk_direct hd, blk_direct hd, Mem.word_setWord_out (by
      simp only [f_direct, f_indirect]
      omega)]
  rw [if_neg hd]
  by_cases hc : k < 1034 ∧ v ≠ 0
  · rw [if_pos hc, blk_entry (by omega) hc.1 (by rw [hind]; exact word_ne_zero.mp hc.2), hind]
  · rw [if_neg hc, blk, if_neg hd, if_neg]
    rw [hind, ← word_ne_zero]
    exact hc

/-! ## Free blocks -/

/-- The number of free blocks. -/
def numFree (m : Mem) : Nat := ((Finset.range (numBlocks m)).filter fun b => isFree m b).card

theorem numFree_congr (hblocks : numBlocks m' = numBlocks m)
    (h : ∀ b < numBlocks m, isFree m' b = isFree m b) : numFree m' = numFree m := by
  rw [numFree, numFree, hblocks]
  refine congrArg _ (Finset.filter_congr fun b hb => ?_)
  rw [h b (Finset.mem_range.mp hb)]

theorem numFree_take (hblocks : numBlocks m' = numBlocks m) (hb : b < numBlocks m)
    (hfree : isFree m b = true)
    (h : ∀ b' < numBlocks m, isFree m' b' = (isFree m b' && decide (b' ≠ b))) :
    numFree m' + 1 = numFree m := by
  have hset : ((Finset.range (numBlocks m')).filter fun b => isFree m' b) =
      ((Finset.range (numBlocks m)).filter fun b => isFree m b).erase b := by
    ext b'
    simp only [Finset.mem_filter, Finset.mem_range, Finset.mem_erase, hblocks]
    constructor
    · rintro ⟨hlt, hf⟩
      rw [h b' hlt, Bool.and_eq_true, decide_eq_true_eq] at hf
      exact ⟨hf.2, hlt, hf.1⟩
    · rintro ⟨hne, hlt, hf⟩
      exact ⟨hlt, by rw [h b' hlt, hf, decide_eq_true hne]; rfl⟩
  have hmem : b ∈ (Finset.range (numBlocks m)).filter fun b => isFree m b :=
    Finset.mem_filter.mpr ⟨Finset.mem_range.mpr hb, hfree⟩
  rw [numFree, numFree, hset, Finset.card_erase_add_one hmem]

theorem numFree_eq_zero (h : ∀ b < numBlocks m, isFree m b = false) : numFree m = 0 := by
  rw [numFree, Finset.card_eq_zero, Finset.filter_eq_empty_iff]
  intro b hb
  rw [h b (Finset.mem_range.mp hb)]
  exact Bool.false_ne_true

/-- The free blocks, in the order in which they are taken. -/
def freeList (m : Mem) : List Nat := (List.range (numBlocks m)).filter fun b => isFree m b

theorem freeList_congr (hblocks : numBlocks m' = numBlocks m)
    (h : ∀ b < numBlocks m, isFree m' b = isFree m b) : freeList m' = freeList m := by
  rw [freeList, freeList, hblocks]
  exact List.filter_congr fun b hb => h b (List.mem_range.mp hb)

theorem freeList_take (hblocks : numBlocks m' = numBlocks m) (hb : b < numBlocks m)
    (hfree : isFree m b = true) (hmin : ∀ j < b, isFree m j = false)
    (h : ∀ b' < numBlocks m, isFree m' b' = (isFree m b' && decide (b' ≠ b))) :
    freeList m = b :: freeList m' := by
  have hsplit : List.range (numBlocks m) =
      List.range b ++ b :: List.range' (b + 1) (numBlocks m - b - 1) := by
    obtain ⟨k, hk⟩ : ∃ k, numBlocks m = b + (k + 1) := ⟨numBlocks m - b - 1, by omega⟩
    rw [hk, List.range_eq_range', List.range_eq_range', ← List.range'_append_1, Nat.zero_add,
      List.range'_succ]
    congr 3
    omega
  have hnil : ∀ q : Nat → Bool, (∀ j < b, q j = false) → (List.range b).filter q = [] :=
    fun q hq => List.filter_eq_nil_iff.mpr fun j hj => by
      rw [hq j (List.mem_range.mp hj)]
      exact Bool.false_ne_true
  rw [freeList, freeList, hblocks, hsplit, List.filter_append, List.filter_append, hnil _ hmin,
    hnil _ fun j hj => by rw [h j (by omega), hmin j hj, Bool.false_and], List.nil_append,
    List.nil_append, List.filter_cons_of_pos hfree, List.filter_cons_of_neg (by
      rw [h b hb, decide_eq_false (fun hc => hc rfl), Bool.and_false]
      exact Bool.false_ne_true)]
  refine congrArg _ (List.filter_congr fun j hj => ?_)
  rw [List.mem_range'] at hj
  obtain ⟨i, hi, rfl⟩ := hj
  rw [h _ (by omega), decide_eq_true (by omega), Bool.and_true]

/-! ## A file gets a block -/

/-- A file that got blocks: no pointer was lost, and what is in its blocks
stays. -/
structure Grown (f : Nat) (m m' : Mem) : Prop where
  ok : FileOk m' f
  loc : Local f m m'
  kept : ∀ k, ptr m f k ≠ 0 → ptr m' f k = ptr m f k
  data : ∀ k x, k < 1034 → ptr m f k ≠ 0 → x / 4096 = ptr m f k → m' x = m x
  size : m'.word (f_size f) = m.word (f_size f)

theorem Grown.refl (h : FileOk m f) : Grown f m m :=
  ⟨h, .refl f m, fun _ _ => rfl, fun _ _ _ _ _ => rfl, rfl⟩

theorem Grown.trans (h : Grown f m m') (h' : Grown f m' m'') : Grown f m m'' := by
  refine ⟨h'.ok, h.loc.trans h'.loc, fun k hk => ?_, fun k x hk hp hx => ?_,
    h'.size.trans h.size⟩
  · rw [h'.kept k (by rwa [h.kept k hk]), h.kept k hk]
  · rw [h'.data k x hk (by rwa [h.kept k hp]) (by rwa [h.kept k hp]), h.data k x hk hp hx]

theorem FileOk.first_le (h : FileOk m f) (hb : b < numBlocks m) (hfree : isFree m b = true) :
    firstBlock m ≤ b := by
  by_contra hc
  rw [h.reserved b (by omega) hb] at hfree
  cases hfree

theorem FileOk.free_mine (h : FileOk m f) (hb : b < numBlocks m) (hfree : isFree m b = true) :
    Mine m f b :=
  ⟨h.first_le hb hfree, hb, .inl hfree⟩

/-- A slot lies in the inode or in the indirect block. -/
theorem slot_place (hs : HasSlot m f i) {x : Nat}
    (hx : slotAddr m f i ≤ x) (hx' : x < slotAddr m f i + 4) :
    (f + 136 ≤ x ∧ x < f + 180) ∨ (ind m f ≠ 0 ∧ x / 4096 = ind m f) := by
  unfold slotAddr at hx hx'
  unfold HasSlot at hs
  split at hx
  · rename_i hd
    rw [if_pos hd] at hx'
    simp only [f_direct] at hx hx'
    omega
  · rename_i hd
    rw [if_neg hd] at hx'
    exact .inr ⟨(hs.resolve_left hd).2, by omega⟩

theorem FileOk.inode_out (h : FileOk m f) {x : Nat} (hx : x / 4096 = f / 4096) :
    ¬ InBitmap m x := by
  have hlt : f / 4096 = 1 ∨ firstBlock m ≤ f / 4096 := h.home.imp_right And.left
  unfold InBitmap
  omega

theorem FileOk.inode_div (h : FileOk m f) {x : Nat} (hx : f ≤ x) (hx' : x < f + 256) :
    x / 4096 = f / 4096 := by
  have hfits := h.fits
  omega

theorem not_inBitmap_of_le {x : Nat} (h : firstBlock m ≤ x / 4096) : ¬ InBitmap m x := by
  unfold InBitmap
  omega

/-- A change of pointers: outside the bitmap, the pointers of the inode, the
indirect block and the free blocks nothing changes. -/
def Repointed (f : Nat) (m m' : Mem) : Prop :=
  ∀ x, ¬ InBitmap m x → ¬ (f + 136 ≤ x ∧ x < f + 180) → (ind m f ≠ 0 → x / 4096 ≠ ind m f) →
    ¬ (x / 4096 < numBlocks m ∧ isFree m (x / 4096) = true) → m' x = m x

/-- A change of pointers that leaves them in order. -/
theorem FileOk.repoint (h : FileOk m f) (hchg : Repointed f m m')
    (hbits : ∀ b < numBlocks m, ¬ Mine m f b → isFree m' b = isFree m b)
    (hrange : ∀ k, ptr m' f k ≠ 0 → Mine m f (ptr m' f k) ∧ isFree m' (ptr m' f k) = false)
    (hinj : ∀ k k', ptr m' f k ≠ 0 → ptr m' f k = ptr m' f k' → k = k') :
    FileOk m' f ∧ Local f m m' ∧
    (∀ k x, k < 1034 → ptr m f k ≠ 0 → x / 4096 = ptr m f k → m' x = m x) ∧
    m'.word (f_size f) = m.word (f_size f) := by
  have hout : ∀ x, ¬ InBitmap m x → ¬ InInode f x → ¬ Mine m f (x / 4096) → m' x = m x := by
    intro x hb hi hm
    refine hchg x hb (fun hc => hi (.inr hc)) (fun hz he => hm ?_) fun hc => hm ?_
    · have := h.ind_range hz
      exact ⟨by omega, by omega, .inr ⟨1034, by rw [ptr_ind, he]⟩⟩
    · exact h.free_mine hc.1 hc.2
  obtain ⟨hok, hloc⟩ := h.change hout hbits hrange hinj
  refine ⟨hok, hloc, fun k x hk hp hx => ?_, Mem.word_congr fun x hx hx' => ?_⟩
  · obtain ⟨hlo, -, hused⟩ := h.range k hp
    refine hchg x (not_inBitmap_of_le (by omega)) (fun hc => ?_) (fun hz he => ?_) fun hc => ?_
    · exact h.ptr_ne_home hp (by rw [← hx]; exact h.inode_div (by omega) (by omega))
    · have := h.inj k 1034 hp (by rw [ptr_ind, ← hx, he])
      omega
    · rw [hx, hused] at hc
      exact Bool.false_ne_true hc.2
  · simp only [f_size] at hx hx'
    have hdiv := h.inode_div (x := x) (by omega) (by omega)
    refine hchg x (h.inode_out hdiv) (by omega) (fun hz he => ?_) fun hc => ?_
    · exact h.ind_ne_home hz (by rw [← he, hdiv])
    · rw [hdiv] at hc
      exact h.foreign (h.free_mine hc.1 hc.2)

/-- A bit of the bitmap is outside of everything else. -/
theorem taken_out_bitmap (hb : b < numBlocks m) {x : Nat} (hx : ¬ InBitmap m x) :
    taken m b x = m x := by
  have hword := bitmap_word_lt hb
  exact taken_out (by simp only [InBitmap, bitmap] at *; omega)

theorem freed_out_bitmap (hb : b < numBlocks m) {x : Nat} (hx : ¬ InBitmap m x) :
    freed m b x = m x := by
  have hword := bitmap_word_lt hb
  exact freed_out (by simp only [InBitmap, bitmap] at *; omega)

theorem FileOk.take (h : FileOk m f) {j : Nat} (hz : ptr m f j = 0) (hb : b < numBlocks m)
    (hfree : isFree m b = true) (hchg : Repointed f m m')
    (hbits : ∀ b' < numBlocks m, isFree m' b' = (isFree m b' && decide (b' ≠ b)))
    (hptr : ∀ k, ptr m' f k = if k = j then b else ptr m f k) :
    Grown f m m' ∧ numFree m' + 1 = numFree m := by
  have hle := h.first_le hb hfree
  have hpos : 0 < firstBlock m := by unfold firstBlock; omega
  have hnew : ∀ k, ptr m f k ≠ b := fun k hk => by
    have := (h.range k (by omega)).2.2
    rw [hk, hfree] at this
    cases this
  have hother : ∀ b' < numBlocks m, ¬ Mine m f b' → isFree m' b' = isFree m b' := by
    intro b' hb' hmine
    have hne : b' ≠ b := fun he => hmine (he ▸ h.free_mine hb hfree)
    rw [hbits b' hb', decide_eq_true hne, Bool.and_true]
  have hrange : ∀ k, ptr m' f k ≠ 0 → Mine m f (ptr m' f k) ∧ isFree m' (ptr m' f k) = false := by
    intro k hk
    rw [hptr] at hk ⊢
    split at hk
    · rename_i hki
      rw [if_pos hki, hbits b hb, decide_eq_false (fun hc => hc rfl), Bool.and_false]
      exact ⟨h.free_mine hb hfree, rfl⟩
    · rename_i hki
      obtain ⟨h₁, h₂, h₃⟩ := h.range k hk
      rw [if_neg hki, hbits _ h₂, h₃, Bool.false_and]
      exact ⟨⟨h₁, h₂, .inr ⟨k, rfl⟩⟩, rfl⟩
  have hinj : ∀ k k', ptr m' f k ≠ 0 → ptr m' f k = ptr m' f k' → k = k' := by
    intro k k' hk he
    rw [hptr] at hk
    rw [hptr, hptr] at he
    have h₁ := hnew k
    have h₂ := hnew k'
    have h₃ := h.inj k k'
    grind
  obtain ⟨hok, hloc, hdata, hsize⟩ := h.repoint hchg hother hrange hinj
  refine ⟨⟨hok, hloc, fun k hk => ?_, hdata, hsize⟩, numFree_take hloc.blocks hb hfree hbits⟩
  rw [hptr, if_neg fun hki => hk (by rw [hki, hz])]

/-- Outside the bitmap, the pointers of the inode and the indirect block that the
file has afterwards nothing changed. -/
def Pointed (f : Nat) (m m' : Mem) : Prop :=
  ∀ x, ¬ InBitmap m x → ¬ (f + 136 ≤ x ∧ x < f + 180) → (ind m' f ≠ 0 → x / 4096 ≠ ind m' f) →
    m' x = m x

theorem Pointed.refl (f : Nat) (m : Mem) : Pointed f m m := fun _ _ _ _ => rfl

theorem Pointed.trans (h : Pointed f m m') (h' : Pointed f m' m'')
    (hblocks : numBlocks m' = numBlocks m) (hind : ind m' f ≠ 0 → ind m'' f = ind m' f) :
    Pointed f m m'' := by
  intro x hb hp hi
  have hb' : ¬ InBitmap m' x := by
    unfold InBitmap at hb ⊢
    rwa [firstBlock_congr hblocks]
  rw [h' x hb' hp hi]
  refine h x hb hp fun hz => ?_
  rw [← hind hz]
  exact hi (by rwa [hind hz])

/-- Pointer `j` got the free block `b`. -/
structure Took (f j b : Nat) (m m' : Mem) : Prop where
  grown : Grown f m m'
  ptr : ∀ k, ptr m' f k = if k = j then b else ptr m f k
  free : numFree m' + 1 = numFree m
  bits : ∀ b' < numBlocks m, isFree m' b' = (isFree m b' && decide (b' ≠ b))
  raw : Pointed f m m'

theorem FileOk.take_slot (h : FileOk m f) (hs : HasSlot m f i) (hz : ptr m f i = 0)
    (hb : b < numBlocks m) (hfree : isFree m b = true)
    (hm' : m' = (taken m b).setWord (slotAddr m f i) (BitVec.ofNat 32 b)) :
    Took f i b m m' := by
  have hsmall := h.small
  have hle := h.first_le hb hfree
  have hpos : 0 < firstBlock m := by unfold firstBlock; omega
  have hbit : ∀ x, ¬ InBitmap m x → taken m b x = m x := fun x hx => taken_out_bitmap hb hx
  -- no pointer sees the bit
  have hptr₁ : ∀ k, ptr (taken m b) f k = ptr m f k := h.ptr_bitmap hbit
  have hind₁ : ind (taken m b) f = ind m f := by rw [← ptr_ind, hptr₁, ptr_ind]
  have haddr : slotAddr m f i = slotAddr (taken m b) f i := by rw [slotAddr, slotAddr, hind₁]
  have hne : ind (taken m b) f ≠ f / 4096 := by
    have := h.ind_ne_home
    have := h.low
    rw [hind₁]
    omega
  have hptr : ∀ k, ptr m' f k = if k = i then b else ptr m f k := fun k => by
    rw [hm', haddr, ptr_setSlot h.fits hne (by unfold HasSlot; rw [hind₁]; exact hs), hptr₁,
      BitVec.toNat_ofNat, Nat.mod_eq_of_lt (by omega)]
  have hslot : ∀ x, ¬ (slotAddr m f i ≤ x ∧ x < slotAddr m f i + 4) → m' x = taken m b x :=
    fun x hx => by rw [hm']; exact Mem.setWord_out (by omega)
  -- no bit sees the slot
  have hfree' : ∀ b' < numBlocks m, isFree m' b' = (isFree m b' && decide (b' ≠ b)) := by
    intro b' hb'
    rw [← isFree_taken]
    refine isFree_congr (m := taken m b) (by rw [numBlocks_taken]; exact hb') fun x hx => ?_
    refine hslot x fun hc => ?_
    have hx : InBitmap m x := by
      unfold InBitmap firstBlock at hx ⊢
      rwa [numBlocks_taken] at hx
    rcases slot_place hs hc.1 hc.2 with hp | ⟨hz', hp⟩
    · exact h.inode_out (h.inode_div (by omega) (by omega)) hx
    · exact not_inBitmap_of_le (by have := h.ind_range hz'; omega) hx
  have hchg : Repointed f m m' := by
    intro x hbm hin hi _
    rw [hslot x fun hc => ?_, hbit x hbm]
    rcases slot_place hs hc.1 hc.2 with hp | ⟨hz', hp⟩
    · exact hin hp
    · exact hi hz' hp
  obtain ⟨hg, hn⟩ := h.take hz hb hfree hchg hfree' hptr
  refine ⟨hg, hptr, hn, hfree', fun x hbm hin hi => ?_⟩
  have hind : ind m' f = ind m f := by
    unfold HasSlot at hs
    rw [← ptr_ind, hptr, if_neg (by omega), ptr_ind]
  rw [hslot x fun hc => ?_, hbit x hbm]
  rcases slot_place hs hc.1 hc.2 with hp | ⟨hz', hp⟩
  · exact hin hp
  · exact hi (by rwa [hind]) (hp.trans hind.symm)

/-- A free block becomes the indirect block, with no entries. -/
theorem FileOk.take_ind (h : FileOk m f) (hz : ind m f = 0) (hb : b < numBlocks m)
    (hfree : isFree m b = true)
    (hm' : m' = ((taken m b).setWord (f_indirect f) (BitVec.ofNat 32 b)).store (4096 * b)
      (List.replicate 4096 0)) :
    Took f 1034 b m m' := by
  have hsmall := h.small
  have hle := h.first_le hb hfree
  have hpos : 0 < firstBlock m := by unfold firstBlock; omega
  have hlow := h.low
  have hv : (BitVec.ofNat 32 b).toNat = b := by rw [BitVec.toNat_ofNat]; omega
  have hbne : b ≠ f / 4096 := fun he => h.foreign (he ▸ h.free_mine hb hfree)
  have hbit : ∀ x, ¬ InBitmap m x → taken m b x = m x := fun x hx => taken_out_bitmap hb hx
  have hptr₁ : ∀ k, ptr (taken m b) f k = ptr m f k := h.ptr_bitmap hbit
  -- the new block is zero, and the rest is as after the two words
  have hin : ∀ x, x / 4096 = b → m' x = 0 := fun x hx => by
    rw [hm', Mem.store_in (by omega) (by rw [List.length_replicate]; omega), List.getD_replicate]
    omega
  have hout : ∀ x, x / 4096 ≠ b → m' x = ((taken m b).setWord (f_indirect f)
      (BitVec.ofNat 32 b)) x := fun x hx => by
    rw [hm', Mem.store_out (by rw [List.length_replicate]; omega)]
  have hrest : ∀ x, x / 4096 ≠ b → ¬ (f + 176 ≤ x ∧ x < f + 180) → m' x = taken m b x :=
    fun x hx hx' => by
      rw [hout x hx]
      exact Mem.setWord_out (by simp only [f_indirect]; omega)
  have hhome : ∀ x, f ≤ x → x < f + 256 → x / 4096 ≠ b := fun x hx hx' => by
    rw [h.inode_div hx hx']
    exact hbne.symm
  have hind : ind m' f = b := by
    have hw : m'.word (f_indirect f) = BitVec.ofNat 32 b := by
      rw [← Mem.word_setWord (m := taken m b) (a := f_indirect f) (w := BitVec.ofNat 32 b)]
      refine Mem.word_congr fun x hx hx' => hout x (hhome x ?_ ?_) <;>
        simp only [f_indirect] at hx hx' <;> omega
    rw [ind, hw, hv]
  have hptr : ∀ k, ptr m' f k = if k = 1034 then b else ptr m f k := by
    intro k
    by_cases hk : k = 1034
    · rw [if_pos hk, hk, ptr_ind, hind]
    rw [if_neg hk, ptr_blk hk, ← hptr₁, ptr_blk hk]
    by_cases hd : k < 10
    · exact blk_direct_congr hd fun x hx hx' =>
        hrest x (hhome x (by omega) (by omega)) (by omega)
    · have hzero : blk (taken m b) f k = 0 := by
        refine blk_entry_none (by omega) ?_
        rw [← ptr_ind, hptr₁, ptr_ind, hz]
      rw [hzero]
      by_cases hl : k < 1034
      · rw [blk_entry (by omega) hl (by omega), hind, Mem.word_eq_zero fun x hx hx' =>
          hin x (by omega)]
        rfl
      · exact blk_large (by omega)
  have hfree' : ∀ b' < numBlocks m, isFree m' b' = (isFree m b' && decide (b' ≠ b)) := by
    intro b' hb'
    rw [← isFree_taken]
    refine isFree_congr (m := taken m b) (by rw [numBlocks_taken]; exact hb') fun x hx => ?_
    have hx : InBitmap m x := by
      unfold InBitmap firstBlock at hx ⊢
      rwa [numBlocks_taken] at hx
    refine hrest x (fun hc => not_inBitmap_of_le (by omega) hx) fun hc => ?_
    exact h.inode_out (h.inode_div (by omega) (by omega)) hx
  have hchg : Repointed f m m' := by
    intro x hbm hin hi hfr
    rw [hrest x (fun hc => hfr (by rw [hc]; exact ⟨hb, hfree⟩)) (by omega), hbit x hbm]
  obtain ⟨hg, hn⟩ := h.take (by rw [ptr_ind, hz]) hb hfree hchg hfree' hptr
  refine ⟨hg, hptr, hn, hfree', fun x hbm hin hi => ?_⟩
  rw [hind] at hi
  rw [hrest x (hi (by omega)) (by omega), hbit x hbm]

/-! ## A file gives a block back -/

/-- A file that gave blocks back, and got none. -/
structure Shrunk (f : Nat) (m m' : Mem) : Prop where
  ok : FileOk m' f
  loc : Local f m m'
  kept : ∀ k, ptr m' f k ≠ 0 → ptr m' f k = ptr m f k
  data : ∀ k x, k < 1034 → ptr m' f k ≠ 0 → x / 4096 = ptr m' f k → m' x = m x
  size : m'.word (f_size f) = m.word (f_size f)
  free : numFree m ≤ numFree m'

theorem Shrunk.refl (h : FileOk m f) : Shrunk f m m :=
  ⟨h, .refl f m, fun _ _ => rfl, fun _ _ _ _ _ => rfl, rfl, le_rfl⟩

theorem Shrunk.trans (h : Shrunk f m m') (h' : Shrunk f m' m'') : Shrunk f m m'' := by
  have hkept : ∀ k, ptr m'' f k ≠ 0 → ptr m'' f k = ptr m' f k ∧ ptr m' f k ≠ 0 := fun k hk =>
    ⟨h'.kept k hk, by rw [← h'.kept k hk]; exact hk⟩
  refine ⟨h'.ok, h.loc.trans h'.loc, fun k hk => ?_, fun k x hk hp hx => ?_,
    h'.size.trans h.size, h.free.trans h'.free⟩
  · rw [(hkept k hk).1, h.kept k (hkept k hk).2]
  · rw [h'.data k x hk hp hx, h.data k x hk (hkept k hp).2 (by rw [← (hkept k hp).1]; exact hx)]

theorem numFree_mono (hblocks : numBlocks m' = numBlocks m)
    (h : ∀ b < numBlocks m, isFree m b = true → isFree m' b = true) :
    numFree m ≤ numFree m' := by
  rw [numFree, numFree, hblocks]
  refine Finset.card_le_card fun b hb => ?_
  rw [Finset.mem_filter, Finset.mem_range] at hb ⊢
  exact ⟨hb.1, h b hb.1 hb.2⟩

/-- The blocks of the pointers in `K` were marked free, and no other bit changed. -/
def Released (f : Nat) (K : Nat → Prop) (m m' : Mem) : Prop :=
  ∀ b < numBlocks m, isFree m' b = true ↔
    isFree m b = true ∨ ∃ k, K k ∧ ptr m f k ≠ 0 ∧ ptr m f k = b

variable {K K' : Nat → Prop}

/-- Nothing is marked free if the pointers are to no block. -/
theorem Released.refl (h : ∀ k, K k → ptr m f k = 0) : Released f K m m := fun _ _ =>
  ⟨.inl, fun hc => hc.resolve_right (by rintro ⟨k, hk, hne, -⟩; exact hne (h k hk))⟩

theorem Released.trans (h : Released f K m m') (h' : Released f K' m' m'')
    (hblocks : numBlocks m' = numBlocks m) (hptr : ∀ k, K' k → ptr m' f k = ptr m f k) :
    Released f (fun k => K k ∨ K' k) m m'' := by
  intro b hb
  rw [h' b (by rwa [hblocks]), h b hb]
  constructor
  · rintro ((hfree | ⟨k, hk, hkb⟩) | ⟨k, hk, hkb⟩)
    · exact .inl hfree
    · exact .inr ⟨k, .inl hk, hkb⟩
    · rw [hptr k hk] at hkb
      exact .inr ⟨k, .inr hk, hkb⟩
  · rintro (hfree | ⟨k, hk | hk, hkb⟩)
    · exact .inl (.inl hfree)
    · exact .inl (.inr ⟨k, hk, hkb⟩)
    · rw [← hptr k hk] at hkb
      exact .inr ⟨k, hk, hkb⟩

theorem Released.congr (h : Released f K m m') (hK : ∀ k, ptr m f k ≠ 0 → (K k ↔ K' k)) :
    Released f K' m m' := fun b hb => (h b hb).trans <| or_congr_right <| exists_congr fun k =>
  ⟨fun hk => ⟨(hK k hk.2.1).mp hk.1, hk.2⟩, fun hk => ⟨(hK k hk.2.1).mpr hk.1, hk.2⟩⟩

/-- One bit is set. -/
theorem released_one {j : Nat} (hne : ptr m f j ≠ 0)
    (hbits : ∀ b < numBlocks m, isFree m' b = (isFree m b || decide (b = ptr m f j))) :
    Released f (· = j) m m' := by
  intro b hb
  rw [hbits b hb, Bool.or_eq_true, decide_eq_true_eq]
  refine or_congr_right ⟨fun hc => ⟨j, rfl, hne, hc.symm⟩, ?_⟩
  rintro ⟨k, rfl, -, hk⟩
  exact hk.symm

theorem FileOk.drop (h : FileOk m f) {j : Nat} (hne : ptr m f j ≠ 0)
    (hchg : Repointed f m m')
    (hbits : ∀ b < numBlocks m, isFree m' b = (isFree m b || decide (b = ptr m f j)))
    (hptr : ∀ k, ptr m' f k = 0 ∨ (k ≠ j ∧ ptr m' f k = ptr m f k)) : Shrunk f m m' := by
  have hold : ∀ k, ptr m' f k ≠ 0 → k ≠ j ∧ ptr m' f k = ptr m f k := fun k hk =>
    (hptr k).resolve_left hk
  have hother : ∀ b < numBlocks m, ¬ Mine m f b → isFree m' b = isFree m b := by
    intro b hb hmine
    have hne' : b ≠ ptr m f j := fun he =>
      hmine ⟨by rw [he]; exact (h.range j hne).1, hb, .inr ⟨j, he.symm⟩⟩
    rw [hbits b hb, decide_eq_false hne', Bool.or_false]
  have hrange : ∀ k, ptr m' f k ≠ 0 → Mine m f (ptr m' f k) ∧ isFree m' (ptr m' f k) = false := by
    intro k hk
    obtain ⟨hkj, he⟩ := hold k hk
    rw [he] at hk ⊢
    obtain ⟨h₁, h₂, h₃⟩ := h.range k hk
    refine ⟨⟨h₁, h₂, .inr ⟨k, rfl⟩⟩, ?_⟩
    rw [hbits _ h₂, h₃, Bool.false_or, decide_eq_false fun hc => hkj (h.inj k j hk hc)]
  have hinj : ∀ k k', ptr m' f k ≠ 0 → ptr m' f k = ptr m' f k' → k = k' := by
    intro k k' hk he
    have h₁ := (hold k hk).2
    have h₂ := (hold k' (by rw [← he]; exact hk)).2
    exact h.inj k k' (by rw [← h₁]; exact hk) (by rw [← h₁, ← h₂, he])
  obtain ⟨hok, hloc, hdata, hsize⟩ := h.repoint hchg hother hrange hinj
  refine ⟨hok, hloc, fun k hk => (hold k hk).2, fun k x hk hp hx => ?_, hsize, ?_⟩
  · have he := (hold k hp).2
    exact hdata k x hk (by rw [← he]; exact hp) (by rw [← he]; exact hx)
  · refine numFree_mono hloc.blocks fun b hb hf => ?_
    rw [hbits b hb, hf, Bool.true_or]

theorem FileOk.drop_slot (h : FileOk m f) (hs : HasSlot m f i) (hne : ptr m f i ≠ 0)
    (hm' : m' = (freed m (ptr m f i)).setWord (slotAddr m f i) 0) :
    Shrunk f m m' ∧ (∀ k, ptr m' f k = if k = i then 0 else ptr m f k) ∧
    Released f (· = i) m m' := by
  have hb := (h.range i hne).2.1
  have hbit : ∀ x, ¬ InBitmap m x → freed m (ptr m f i) x = m x :=
    fun x hx => freed_out_bitmap hb hx
  have hptr₁ : ∀ k, ptr (freed m (ptr m f i)) f k = ptr m f k := h.ptr_bitmap hbit
  have hind₁ : ind (freed m (ptr m f i)) f = ind m f := by rw [← ptr_ind, hptr₁, ptr_ind]
  have haddr : slotAddr m f i = slotAddr (freed m (ptr m f i)) f i := by
    rw [slotAddr, slotAddr, hind₁]
  have hne' : ind (freed m (ptr m f i)) f ≠ f / 4096 := by
    have := h.ind_ne_home
    have := h.low
    rw [hind₁]
    omega
  have hptr : ∀ k, ptr m' f k = if k = i then 0 else ptr m f k := fun k => by
    rw [hm', haddr, ptr_setSlot h.fits hne' (by unfold HasSlot; rw [hind₁]; exact hs), hptr₁]
    rfl
  have hslot : ∀ x, ¬ (slotAddr m f i ≤ x ∧ x < slotAddr m f i + 4) →
      m' x = freed m (ptr m f i) x :=
    fun x hx => by rw [hm']; exact Mem.setWord_out (by omega)
  have hfree' : ∀ b < numBlocks m, isFree m' b = (isFree m b || decide (b = ptr m f i)) := by
    intro b' hb'
    rw [← isFree_freed]
    refine isFree_congr (m := freed m (ptr m f i)) (by rw [numBlocks_freed]; exact hb')
      fun x hx => ?_
    refine hslot x fun hc => ?_
    have hx : InBitmap m x := by
      unfold InBitmap firstBlock at hx ⊢
      rwa [numBlocks_freed] at hx
    rcases slot_place hs hc.1 hc.2 with hp | ⟨hz', hp⟩
    · exact h.inode_out (h.inode_div (by omega) (by omega)) hx
    · exact not_inBitmap_of_le (by have := h.ind_range hz'; omega) hx
  have hchg : Repointed f m m' := by
    intro x hbm hin hi _
    rw [hslot x fun hc => ?_, hbit x hbm]
    rcases slot_place hs hc.1 hc.2 with hp | ⟨hz', hp⟩
    · exact hin hp
    · exact hi hz' hp
  refine ⟨h.drop hne hchg hfree' fun k => ?_, hptr, released_one hne hfree'⟩
  rw [hptr]
  split
  · exact .inl rfl
  · rename_i hk
    exact .inr ⟨hk, rfl⟩

/-- The indirect pointer is cleared, and its block is marked free. -/
theorem FileOk.drop_ind (h : FileOk m f) (hne : ind m f ≠ 0)
    (hm' : m' = (freed m (ind m f)).setWord (f_indirect f) 0) :
    Shrunk f m m' ∧ (∀ k, ptr m' f k = if k < 10 then ptr m f k else 0) ∧
    Released f (· = 1034) m m' := by
  have hne' : ptr m f 1034 ≠ 0 := by rwa [ptr_ind]
  have hb := (h.ind_range hne).2.1
  have hbit : ∀ x, ¬ InBitmap m x → freed m (ind m f) x = m x :=
    fun x hx => freed_out_bitmap hb hx
  have hptr₁ : ∀ k, ptr (freed m (ind m f)) f k = ptr m f k := h.ptr_bitmap hbit
  have hptr : ∀ k, ptr m' f k = if k < 10 then ptr m f k else 0 := fun k => by
    rw [hm', ptr_setInd, hptr₁]
    split
    · rename_i hk
      rw [if_neg (by omega)]
      rfl
    · split
      · rfl
      · exact if_neg fun hc => hc.2 rfl
  have hslot : ∀ x, ¬ (f + 176 ≤ x ∧ x < f + 180) → m' x = freed m (ind m f) x :=
    fun x hx => by rw [hm']; exact Mem.setWord_out (by simp only [f_indirect]; omega)
  have hfree' : ∀ b < numBlocks m, isFree m' b = (isFree m b || decide (b = ptr m f 1034)) := by
    intro b' hb'
    rw [ptr_ind, ← isFree_freed]
    refine isFree_congr (m := freed m (ind m f)) (by rw [numBlocks_freed]; exact hb')
      fun x hx => ?_
    refine hslot x fun hc => ?_
    have hx : InBitmap m x := by
      unfold InBitmap firstBlock at hx ⊢
      rwa [numBlocks_freed] at hx
    exact h.inode_out (h.inode_div (by omega) (by omega)) hx
  have hchg : Repointed f m m' := by
    intro x hbm hin hi _
    rw [hslot x (by omega), hbit x hbm]
  refine ⟨h.drop hne' hchg hfree' fun k => ?_, hptr, released_one hne' hfree'⟩
  rw [hptr]
  split
  · rename_i hk
    exact .inr ⟨by omega, rfl⟩
  · exact .inl rfl

/-! ## Size and data -/

/-- No bit sees the size. -/
theorem FileOk.isFree_resize (h : FileOk m f) (w : Word) (hb : b < numBlocks m) :
    isFree (m.setWord (f_size f) w) b = isFree m b := by
  refine isFree_congr hb fun x hx => Mem.setWord_out ?_
  by_contra hc
  simp only [f_size] at hc
  exact h.inode_out (h.inode_div (by omega) (by omega)) hx

theorem FileOk.resize (h : FileOk m f) (w : Word) (hm' : m' = m.setWord (f_size f) w) :
    FileOk m' f ∧ Local f m m' ∧ (∀ k, ptr m' f k = ptr m f k) ∧
    (∀ k x, k < 1034 → ptr m f k ≠ 0 → x / 4096 = ptr m f k → m' x = m x) ∧
    numFree m' = numFree m ∧ m'.word (f_size f) = w := by
  have hout : ∀ x, ¬ (f + 128 ≤ x ∧ x < f + 132) → m' x = m x := fun x hx => by
    rw [hm']
    exact Mem.setWord_out (by simp only [f_size]; omega)
  have hhome : ∀ x, x / 4096 ≠ f / 4096 → m' x = m x := fun x hx =>
    hout x fun hc => hx (h.inode_div (by omega) (by omega))
  have hptr : ∀ k, ptr m' f k = ptr m f k := ptr_congr (fun x hx hx' => hout x (by omega))
    fun hi x hx => hhome x (by rw [hx]; exact h.ind_ne_home hi)
  have hbits : ∀ b < numBlocks m, isFree m' b = isFree m b := fun b hb => by
    rw [hm']
    exact h.isFree_resize w hb
  obtain ⟨hok, hloc⟩ := h.change (fun x _ hi _ => hout x fun hc => hi (.inl hc))
    (fun b hb _ => hbits b hb)
    (fun k hk => by
      rw [hptr] at hk ⊢
      obtain ⟨h₁, h₂, h₃⟩ := h.range k hk
      exact ⟨⟨h₁, h₂, .inr ⟨k, rfl⟩⟩, by rw [hbits _ h₂, h₃]⟩)
    (fun k k' hk he => h.inj k k' (by rw [← hptr]; exact hk) (by rw [← hptr, he, hptr]))
  refine ⟨hok, hloc, hptr, fun k x hk hp hx => ?_, numFree_congr hloc.blocks hbits, ?_⟩
  · exact hhome x (by rw [hx]; exact h.ptr_ne_home hp)
  · rw [hm', Mem.word_setWord]

theorem FileOk.write (h : FileOk m f) {k : Nat} (hk : k < 1034) (hne : ptr m f k ≠ 0)
    {a : Nat} {bs : List Byte} (hlo : 4096 * ptr m f k ≤ a)
    (hhi : a + bs.length ≤ 4096 * ptr m f k + 4096) (hm' : m' = m.store a bs) :
    FileOk m' f ∧ Local f m m' ∧ (∀ k, ptr m' f k = ptr m f k) ∧ numFree m' = numFree m ∧
    m'.word (f_size f) = m.word (f_size f) := by
  obtain ⟨hlow, hlt, hused⟩ := h.range k hne
  have hout : ∀ x, x / 4096 ≠ ptr m f k → m' x = m x := fun x hx => by
    rw [hm']
    exact Mem.store_out (by omega)
  have hhome : ∀ x, f ≤ x → x < f + 256 → m' x = m x := fun x hx hx' =>
    hout x (by rw [h.inode_div hx hx']; exact (h.ptr_ne_home hne).symm)
  have hptr : ∀ j, ptr m' f j = ptr m f j := ptr_congr (fun x hx hx' => hhome x (by omega) (by omega))
    fun hi x hx => hout x (by
      rw [hx, ← ptr_ind]
      intro he
      have := h.inj k 1034 hne he.symm
      omega)
  have hbits : ∀ b < numBlocks m, isFree m' b = isFree m b := fun b hb =>
    isFree_congr hb fun x hx => hout x fun hc => not_inBitmap_of_le (by omega) hx
  obtain ⟨hok, hloc⟩ := h.change
    (fun x _ _ hm => hout x fun hc => hm (by rw [hc]; exact ⟨hlow, hlt, .inr ⟨k, rfl⟩⟩))
    (fun b hb _ => hbits b hb)
    (fun k hk => by
      rw [hptr] at hk ⊢
      obtain ⟨h₁, h₂, h₃⟩ := h.range k hk
      exact ⟨⟨h₁, h₂, .inr ⟨k, rfl⟩⟩, by rw [hbits _ h₂, h₃]⟩)
    (fun k k' hk he => h.inj k k' (by rw [← hptr]; exact hk) (by rw [← hptr, he, hptr]))
  exact ⟨hok, hloc, hptr, numFree_congr hloc.blocks hbits,
    Mem.word_congr fun x hx hx' => hhome x (by simp only [f_size] at *; omega)
      (by simp only [f_size] at *; omega)⟩

end jos.fs
