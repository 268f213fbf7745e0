-- Truncation (file_set_size of fs/fs.c): a file gives back the blocks behind
-- its new end and no others, and none of them twice.
import Mathlib
import Jos.FsCache
import Jos.ServSizes

namespace jos.fs

open blockstore ia32
open blockstore.Prog (loadByte loadBytes loadWord storeBytes storeWord flushAt flat Stores)

variable {m m' : Mem} {f i b : Nat}

/-! ## Every block is freed once -/

/-- A store into the bitmap marks a block free that was in use. -/
def FreesInUse (m : Mem) (a : Nat) (bs : List Byte) : Prop :=
  (∃ x, a ≤ x ∧ x < a + bs.length ∧ InBitmap m x) → ∃ b, isFree m b = false ∧ m.store a bs = freed m b

theorem freesInUse_of_out {a : Nat} {w : Word} (h : ∀ x, a ≤ x → x < a + 4 → ¬ InBitmap m x) :
    FreesInUse m a (bytes w) := by
  rintro ⟨x, hx, hx', hin⟩
  exact absurd hin (h x hx hx')

theorem stores_free_block (h₀ : b ≠ 0) (hb : b < 2 ^ 32) (hused : isFree m b = false) :
    Stores FreesInUse (free_block (BitVec.ofNat 32 b)) m := by
  have hv : (BitVec.ofNat 32 b).toNat = b := BitVec.toNat_ofNat .. |>.trans (Nat.mod_eq_of_lt hb)
  have hne : BitVec.ofNat 32 b ≠ 0 := fun h => h₀ (by rw [← hv, h]; rfl)
  rw [free_block, if_neg hne, Prog.stores_loadWord_bind]
  refine ⟨fun _ => ⟨b, hused, ?_⟩, trivial⟩
  simp only [bitmapWord, bitmapBit, hv]
  rfl

theorem FileOk.slot_out (h : FileOk m f) (hs : HasSlot m f i) {x : Nat} (hx : slotAddr m f i ≤ x)
    (hx' : x < slotAddr m f i + 4) : ¬ InBitmap m x := by
  rcases slot_place hs hx hx' with hp | ⟨hz, hp⟩
  · exact h.inode_out (h.inode_div (by omega) (by omega))
  · exact not_inBitmap_of_le (by have := h.ind_range hz; omega)

theorem inBitmap_freed {x : Nat} : InBitmap (freed m b) x ↔ InBitmap m x := by
  unfold InBitmap firstBlock
  rw [numBlocks_freed]

theorem stores_file_free_block (h : FileOk m f) (i : Nat) :
    Stores FreesInUse (file_free_block f i) m := by
  have hsmall := h.small
  refine (reads_file_block_walk f i).stores.bind fun r m' hwalk => ?_
  by_cases hs : HasSlot m f i
  · rw [flat_walk_slot h hs] at hwalk
    cases hwalk
    simp only [Prog.stores_loadWord_bind]
    split
    · rename_i hw
      have hslot := ptr_eq_slot hs
      have hne : ptr m f i ≠ 0 := by rw [hslot]; exact word_ne_zero.mp hw
      obtain ⟨-, hlt, hused⟩ := h.range i hne
      have hword : m.word (slotAddr m f i) = BitVec.ofNat 32 (ptr m f i) := by
        rw [hslot, BitVec.ofNat_toNat, BitVec.setWidth_eq]
      rw [hword]
      refine (stores_free_block hne (by omega) hused).bind fun u m₁ hfree => ?_
      rw [flat_free_block hne (by omega)] at hfree
      cases hfree
      refine (Prog.stores_storeWord_bind ..).mpr ⟨freesInUse_of_out fun x hx hx' => ?_, trivial⟩
      rw [inBitmap_freed]
      exact h.slot_out hs hx hx'
    · trivial
  · obtain ⟨e, he⟩ := flat_walk_none hs
    rw [he] at hwalk
    cases hwalk
    trivial

theorem stores_free_blocks_from (h : FileOk m f) (left bno : Nat) :
    Stores FreesInUse (free_blocks_from f left bno) m := by
  induction left generalizing m bno with
  | zero => trivial
  | succ left ih =>
    refine (stores_file_free_block h bno).bind fun r m₁ hfree => ?_
    obtain ⟨r', m₂, h₂, hs, -⟩ := file_free_block_spec h bno
    rw [h₂] at hfree
    cases hfree
    exact ih hs.ok (bno + 1)

theorem FileOk.ind_out (h : FileOk m f) {x : Nat} (hx : f_indirect f ≤ x)
    (hx' : x < f_indirect f + 4) : ¬ InBitmap m x := by
  simp only [f_indirect] at hx hx'
  exact h.inode_out (h.inode_div (by omega) (by omega))

theorem stores_file_truncate_blocks (h : FileOk m f) (newsize : Word) :
    Stores FreesInUse (file_truncate_blocks f newsize) m := by
  unfold file_truncate_blocks
  rw [Prog.stores_loadWord_bind]
  refine (stores_free_blocks_from h _ _).bind fun u m₁ hfree => ?_
  obtain ⟨m₂, h₂, hs, -⟩ := free_blocks_from_spec h
    (nblocks (m.word (f_size f)) - nblocks newsize) (nblocks newsize)
  rw [h₂] at hfree
  cases hfree
  split
  · rw [Prog.stores_loadWord_bind]
    split
    · rename_i hw
      have hne : ind m₁ f ≠ 0 := word_ne_zero.mp hw
      have hsmall := hs.ok.small
      obtain ⟨-, hlt, hused⟩ := hs.ok.ind_range hne
      have hword : m₁.word (f_indirect f) = BitVec.ofNat 32 (ind m₁ f) := by
        rw [ind, BitVec.ofNat_toNat, BitVec.setWidth_eq]
      rw [hword]
      refine (stores_free_block hne (by omega) hused).bind fun u m₂ hfree => ?_
      rw [flat_free_block hne (by omega)] at hfree
      cases hfree
      refine ⟨freesInUse_of_out fun x hx hx' => ?_, trivial⟩
      rw [inBitmap_freed]
      exact hs.ok.ind_out hx hx'
    · trivial
  · trivial

theorem stores_file_set_size (h : FileOk m f) (newsize : Word) :
    Stores FreesInUse (file_set_size f newsize) m := by
  -- what is left once the blocks are given back: the size is stored
  have hrest : ∀ m₁, FileOk m₁ f → Stores FreesInUse (do
      storeWord (f_size f) newsize
      flush_block f
      pure (0 : Int)) m₁ := fun m₁ h₁ => by
    refine (Prog.stores_storeWord_bind ..).mpr ⟨freesInUse_of_out fun x hx hx' => ?_, ?_⟩
    · simp only [f_size] at hx hx'
      exact h₁.inode_out (h₁.inode_div (by omega) (by omega))
    · unfold flush_block
      split <;> trivial
  unfold file_set_size
  rw [Prog.stores_loadWord_bind]
  split
  · refine (stores_file_truncate_blocks h newsize).bind fun u m₁ htrunc => ?_
    obtain ⟨m₂, h₂, hs, -⟩ := file_truncate_blocks_spec h newsize
    rw [h₂] at htrunc
    cases htrunc
    exact hrest m₁ hs.ok
  · exact hrest m h

/-! ## What truncation leaves -/

/-- What `file_set_size` to a smaller size, or to the same, does to a file. -/
structure Truncated (f : Nat) (newsize : Word) (m m' : Mem) : Prop where
  size : m'.word (f_size f) = newsize
  slots : ∀ k < NDIRECT + NINDIRECT, (newsize.toNat + 4095) / 4096 ≤ k → blk m' f k = 0
  kept : ∀ k < (newsize.toNat + 4095) / 4096, blk m' f k = blk m f k
  bytes : ∀ q < newsize.toNat, content m' f q = content m f q
  indirect : newsize.toInt < (m.word (f_size f)).toInt →
    (newsize.toNat + 4095) / 4096 ≤ NDIRECT → ind m' f = 0
  indirect_kept : NDIRECT < (newsize.toNat + 4095) / 4096 ∨ newsize = m.word (f_size f) →
    ind m' f = ind m f
  /-- The bits that changed are those of the blocks that the file has no more. -/
  bits : ∀ b < numBlocks m, isFree m' b ≠ isFree m b ↔
    ∃ k, ptr m f k = b ∧ b ≠ 0 ∧ ptr m' f k = 0
  freed : ∀ b < numBlocks m, isFree m' b ≠ isFree m b → isFree m' b = true

section Surplus

variable {newsize : Word} (hmax : fileSize m f ≤ 1034 * 4096)
  (hslots : ∀ k < 1034, fileBlocks m f ≤ k → ptr m f k = 0)
  (hle : newsize.toNat ≤ fileSize m f) (hr : Resized f newsize m m')

include hmax hle hr

/-- Which pointers are cleared, over the numbers of blocks. -/
theorem resized_cut (k : Nat) : ptr m' f k =
    if newsize.toNat < fileSize m f ∧ Cut (fileBlocks m f) ((newsize.toNat + 4095) / 4096) k
    then 0 else ptr m f k := by
  unfold fileBlocks fileSize at *
  rw [hr.ptr, nblocks_eq (by omega), nblocks_eq (by omega), toInt_of_lt (by omega),
    toInt_of_lt (by omega)]
  exact if_congr (and_congr_left' Nat.cast_lt) rfl rfl

theorem resized_kept {k : Nat} (hk : k < (newsize.toNat + 4095) / 4096) :
    ptr m' f k = ptr m f k := by
  rw [resized_cut hmax hle hr, if_neg]
  unfold Cut
  omega

include hslots

theorem resized_cleared {k : Nat} (hk : k < 1034) (hk' : (newsize.toNat + 4095) / 4096 ≤ k) :
    ptr m' f k = 0 := by
  rw [resized_cut hmax hle hr]
  split
  · rfl
  · rename_i hcut
    refine hslots k hk ?_
    unfold Cut fileBlocks at hcut
    unfold fileBlocks
    omega

/-- A pointer that is cleared is one whose block is given back. -/
theorem resized_cleared_iff {k : Nat} (hk : ptr m f k ≠ 0) : ptr m' f k = 0 ↔
    newsize.toNat < fileSize m f ∧
      Surplus (fileBlocks m f) ((newsize.toNat + 4095) / 4096) k := by
  have hlt := ptr_lt hk
  have hin : k ≠ 1034 → k < fileBlocks m f := fun hne => by
    by_contra hc
    exact hk (hslots k (by omega) (by omega))
  rw [resized_cut hmax hle hr]
  unfold Cut Surplus
  split
  · rename_i hcut
    simp only [true_iff]
    omega
  · rename_i hcut
    simp only [hk, false_iff]
    omega

end Surplus

theorem tinyWritten_owned : Owned tinyWritten := by
  have hop : (FileOp.write 12288 [1, 2, 3] 3 4095).Allowed tinyImage :=
    ⟨tinyImage_isFile, by decide +kernel, by decide, by decide, by decide⟩
  exact tinyImage_owned.step hop tinyWritten_step

theorem tinyWritten_isFile : IsFile tinyWritten 12288 :=
  .child .root ⟨by decide +kernel, ⟨0, 0, by decide +kernel, by decide +kernel, by omega,
    by decide +kernel⟩, by decide +kernel⟩

/-- A file of exactly ten blocks, all of them holes, that has an indirect block
without entries. The image builder gives a file of ten blocks such a block. -/
def tenBlocks : Mem :=
  ((tinyImage.setWord bitmap 0xE0).setWord (f_size 12288) 40960).setWord (f_indirect 12288) 4

/-- Nothing is stored from block 4 on. -/
theorem tenBlocks_word {a : Nat} (h : 16384 ≤ a) : tenBlocks.word a = 0 := by
  have hlow : super + 8 < 16384 ∧ bitmap + 4 < 16384 ∧ f_size s_root + 4 < 16384 ∧
      f_type s_root + 4 < 16384 ∧ f_direct s_root 0 + 4 < 16384 ∧ f_size 12288 + 4 < 16384 ∧
      f_indirect 12288 + 4 < 16384 := by decide
  simp (disch := omega) only [tenBlocks, tinyImage, Mem.word_setWord_out]
  exact Mem.word_eq_zero fun _ _ _ => rfl

theorem tenBlocks_file (k : Nat) : ptr tenBlocks 12288 k = if k = 1034 then 4 else 0 := by
  have hind : ind tenBlocks 12288 = 4 := by decide +kernel
  have hdirect : ∀ k < 10, blk tenBlocks 12288 k = 0 := by decide +kernel
  by_cases hk : k = 1034
  · rw [if_pos hk, hk, ptr_ind, hind]
  rw [if_neg hk, ptr_blk hk]
  by_cases hd : k < 10
  · exact hdirect k hd
  by_cases hlt : k < 1034
  · rw [blk_entry (by omega) hlt (by omega), hind, tenBlocks_word (by omega)]
    rfl
  · exact blk_large (by omega)

theorem tenBlocks_owned : Owned tenBlocks := by
  have hdirect : ∀ k < 10, blk tenBlocks s_root k = if k = 0 then 3 else 0 := by decide +kernel
  refine owned_of_one_entry (by decide +kernel) (by decide +kernel) (fun k => ?_) tenBlocks_file
    (fun _ => by decide +kernel) (by decide +kernel) (by decide +kernel)
  rw [ptr_of_ind (by decide +kernel)]
  by_cases hd : k < 10
  · rw [if_pos hd, hdirect k hd]
  · rw [if_neg hd, if_neg (by omega)]

end jos.fs
