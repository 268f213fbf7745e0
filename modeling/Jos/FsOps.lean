-- The operations of fs/fs.c on one file over plain memory: which blocks they
-- take and give back, what they store, and when they fail.
import Mathlib
import Jos.FsFile

namespace jos.fs

open blockstore ia32
open blockstore.Prog (loadByte loadBytes loadWord storeBytes storeWord flushAt flat)

variable {m m' m'' : Mem} {f i b : Nat}

/-! ## Getting a block -/

theorem noDisk_toInt : (BitVec.ofInt 32 (-E_NO_DISK)).toInt = -E_NO_DISK := by decide

theorem ofNat_toInt (hb : b < 0xC0000) : (BitVec.ofNat 32 b).toInt = b := by
  rw [toInt_of_lt] <;> rw [BitVec.toNat_ofNat] <;> omega

/-- The walk finds the slot, and takes a block for the indirect one if it has to. -/
theorem file_block_walk_spec (h : FileOk m f) (hi : i < 1034) :
    (∃ m', flat (file_block_walk f i true) m = .ok (.ok (slotAddr m' f i), m') ∧
      Grown f m m' ∧ HasSlot m' f i ∧ (∀ k, k ≠ 1034 → ptr m' f k = ptr m f k) ∧
      (¬ (10 ≤ i ∧ ind m f = 0) → m' = m) ∧
      (10 ≤ i ∧ ind m f = 0 → freeList m = ind m' f :: freeList m') ∧ Pointed f m m' ∧
      numFree m' + (if 10 ≤ i ∧ ind m f = 0 then 1 else 0) = numFree m) ∨
    (10 ≤ i ∧ ind m f = 0 ∧ numFree m = 0 ∧
      flat (file_block_walk f i true) m = .ok (.error (-E_NO_DISK), m)) := by
  have hsmall := h.small
  unfold file_block_walk
  rw [if_neg (show ¬ NDIRECT + NINDIRECT ≤ i by simp only [NDIRECT, NINDIRECT]; omega)]
  by_cases hd : i < 10
  · rw [if_pos (show i < NDIRECT from hd)]
    refine .inl ⟨m, ?_, .refl h, .inl hd, fun _ _ => rfl, fun _ => rfl, fun hc => by omega,
      .refl f m, ?_⟩
    · rw [slotAddr, if_pos hd]
      rfl
    · rw [if_neg (by omega), Nat.add_zero]
  rw [if_neg (show ¬ i < NDIRECT from hd), Prog.flat_loadWord_bind]
  by_cases hz : ind m f = 0
  · have hw : m.word (f_indirect f) = 0 := by
      by_contra hne
      exact word_ne_zero.mp hne hz
    rw [if_neg (not_not.mpr hw), if_neg (by decide)]
    rcases flat_alloc_block hsmall (fun hpos => h.reserved 0 (by unfold firstBlock; omega) hpos)
      with ⟨b, hb₀, hb, hfree, hmin, halloc⟩ | ⟨hall, halloc⟩
    · left
      have hv : (BitVec.ofNat 32 b).toNat = b := by rw [BitVec.toNat_ofNat]; omega
      have hne : BitVec.ofNat 32 b ≠ 0 := word_ne_zero.mpr (by omega)
      obtain ⟨m₂, hm₂⟩ : ∃ m₂, m₂ = ((taken m b).setWord (f_indirect f) (BitVec.ofNat 32 b)).store
        (4096 * b) (List.replicate 4096 0) := ⟨_, rfl⟩
      obtain ⟨hg, hptr, hfr, hbits, hraw⟩ := h.take_ind hz hb hfree hm₂
      have hn₁ : numBlocks ((taken m b).setWord (f_indirect f) (BitVec.ofNat 32 b)) =
          numBlocks m := by
        have hlow := h.low
        rw [← numBlocks_taken (m := m) b]
        exact congrArg BitVec.toNat (Mem.word_setWord_out (by
          simp only [super, f_indirect]
          omega))
      have hn₂ : b < numBlocks m₂ := by rw [hg.loc.blocks]; exact hb
      have hind : ind m₂ f = b := by rw [← ptr_ind, hptr, if_pos rfl]
      have hD : 4096 * b < DISKSIZE := by
        simp only [DISKSIZE]
        omega
      refine ⟨m₂, ?_, hg, .inr ⟨hi, by omega⟩, fun k hk => by rw [hptr, if_neg hk],
        fun hc => absurd ⟨by omega, hz⟩ hc, fun _ => ?_, hraw,
        by rw [if_pos ⟨by omega, hz⟩]; exact hfr⟩
      swap
      · rw [hind]
        exact freeList_take hg.loc.blocks hb hfree hmin hbits
      rw [Prog.flat_bind_ok halloc, if_neg (by rw [ofNat_toInt (by omega)]; omega),
        Prog.flat_storeWord_bind, flat_diskaddr_bind hne (by rw [hn₁, hv]; exact hb),
        Prog.flat_storeBytes_bind, hv, show BLKSIZE = 4096 from rfl, ← hm₂,
        flat_diskaddr_bind hne (by rw [hv]; exact hn₂), hv, flat_flush_block_bind hD,
        flat_diskaddr_bind hne (by rw [hv]; exact hn₂), hv, slotAddr, if_neg hd, hind]
      rfl
    · right
      refine ⟨by omega, hz, numFree_eq_zero hall, ?_⟩
      rw [Prog.flat_bind_ok halloc, if_pos (by decide), noDisk_toInt]
      rfl
  · have hw : m.word (f_indirect f) ≠ 0 := word_ne_zero.mpr hz
    refine .inl ⟨m, ?_, .refl h, .inr ⟨hi, hz⟩, fun _ _ => rfl, fun _ => rfl,
      fun hc => absurd hc.2 hz, .refl f m, ?_⟩
    · rw [if_pos hw, flat_diskaddr_bind hw (h.ind_range hz).2.1, slotAddr, if_neg hd]
      rfl
    · rw [if_neg fun hc => hz hc.2, Nat.add_zero]

/-- The free blocks that block `i` of a file still needs. -/
def cost (m : Mem) (f i : Nat) : Nat :=
  (if ptr m f i = 0 then 1 else 0) + if 10 ≤ i ∧ ind m f = 0 then 1 else 0

/-- A file that has block `i`, and otherwise the blocks that it had. -/
structure Got (f i : Nat) (m m' : Mem) : Prop where
  grown : Grown f m m'
  here : ptr m' f i ≠ 0
  others : ∀ k, k ≠ i → k ≠ 1034 → ptr m' f k = ptr m f k
  direct : i < 10 → ind m' f = ind m f
  free : numFree m' + cost m f i = numFree m
  same : cost m f i = 0 → m' = m
  raw : Pointed f m m'
  list : freeList m' = (freeList m).drop (cost m f i)
  first : ptr m f i = 0 → (freeList m)[cost m f i - 1]? = some (ptr m' f i)

/-- The blocks that are taken are the first free ones: one for the indirect block
if it is missing, and then `b`. -/
theorem getBlock_list {m₁ : Mem} (hdir : ¬ (10 ≤ i ∧ ind m f = 0) → m₁ = m)
    (hlist : 10 ≤ i ∧ ind m f = 0 → freeList m = ind m₁ f :: freeList m₁)
    (h : freeList m₁ = b :: freeList m') :
    freeList m' = (freeList m).drop ((if 10 ≤ i ∧ ind m f = 0 then 1 else 0) + 1) ∧
    (freeList m)[if 10 ≤ i ∧ ind m f = 0 then 1 else 0]? = some b := by
  by_cases hc : 10 ≤ i ∧ ind m f = 0
  · rw [if_pos hc, hlist hc, h]
    exact ⟨rfl, rfl⟩
  · rw [hdir hc] at h
    rw [if_neg hc, h]
    exact ⟨rfl, rfl⟩

/-- The block is there, or it is taken, or there are not enough free blocks:
then either the indirect block is missing, and nothing happens, or
`diskaddr` panics on the result of `alloc_block`. -/
theorem file_get_block_spec (h : FileOk m f) (hi : i < 1034) :
    (∃ m', flat (file_get_block f i) m = .ok (.ok (4096 * ptr m' f i), m') ∧ Got f i m m') ∨
    (numFree m < cost m f i ∧
      ((10 ≤ i ∧ ind m f = 0 ∧ numFree m = 0 ∧
          flat (file_get_block f i) m = .ok (.error (-E_NO_DISK), m)) ∨
        (¬ (10 ≤ i ∧ ind m f = 0 ∧ numFree m = 0) ∧
          flat (file_get_block f i) m = .error .badBlockNumber))) := by
  have hsmall := h.small
  rcases file_block_walk_spec h hi with
    ⟨m₁, hwalk, hg, hs, hptr, hdir, hlist, hraw, hfr⟩ | ⟨h10, hz, hno, hwalk⟩
  · have hok := hg.ok
    have hrun : flat (file_get_block f i) m = flat (do
        let b ← loadWord (slotAddr m₁ f i)
        if b = 0 then
          let r ← alloc_block
          storeWord (slotAddr m₁ f i) r
          let va ← diskaddr r
          pure (.ok va)
        else
          let va ← diskaddr b
          pure (.ok va)) m₁ := Prog.flat_bind_ok hwalk
    have hslot := ptr_eq_slot hs
    rw [hrun, Prog.flat_loadWord_bind]
    by_cases hw : m₁.word (slotAddr m₁ f i) = 0
    · have hz₁ : ptr m₁ f i = 0 := by rw [hslot, hw]; rfl
      have hz : ptr m f i = 0 := by rw [← hptr i (by omega), hz₁]
      rw [if_pos hw]
      rcases flat_alloc_block (m := m₁) hok.small
        (fun hpos => hok.reserved 0 (by unfold firstBlock; omega) hpos)
        with ⟨b, hb₀, hb, hfree, hmin, halloc⟩ | ⟨hall, halloc⟩
      · left
        have hsmall₁ := hok.small
        have hv : (BitVec.ofNat 32 b).toNat = b := by rw [BitVec.toNat_ofNat]; omega
        have hne : BitVec.ofNat 32 b ≠ 0 := word_ne_zero.mpr (by omega)
        obtain ⟨hg₂, hptr₂, hfr₂, hbits₂, hraw₂⟩ := hok.take_slot hs hz₁ hb hfree rfl
        have hlist₂ := freeList_take hg₂.loc.blocks hb hfree hmin hbits₂
        have hall := getBlock_list hdir hlist hlist₂
        have hn₂ := hg₂.loc.blocks
        refine ⟨_, ?_, hg.trans hg₂, ?_, fun k hk hk' => ?_, fun hlt => ?_, ?_, ?_,
          hraw.trans hraw₂ hg.loc.blocks fun _ => ?_, ?_, fun _ => ?_⟩
        · rw [Prog.flat_bind_ok halloc, Prog.flat_storeWord_bind,
            flat_diskaddr_bind hne (by rw [hv]; exact hn₂ ▸ hb), hv, hptr₂, if_pos rfl]
          rfl
        · rw [hptr₂, if_pos rfl]
          omega
        · rw [hptr₂, if_neg hk, hptr k hk']
        · rw [← ptr_ind, hptr₂, if_neg (by omega), ptr_ind, hdir (by omega)]
        · rw [cost, if_pos hz]
          omega
        · intro hc
          rw [cost, if_pos hz] at hc
          omega
        · rw [← ptr_ind, hptr₂, if_neg (by omega), ptr_ind]
        · rw [cost, if_pos hz, Nat.add_comm]
          exact hall.1
        · rw [cost, if_pos hz, Nat.add_comm, Nat.add_sub_cancel, hptr₂, if_pos rfl]
          exact hall.2
      · right
        have hno := numFree_eq_zero hall
        refine ⟨?_, .inr ⟨fun hc => ?_, ?_⟩⟩
        · rw [cost, if_pos hz]
          omega
        · rw [if_pos ⟨hc.1, hc.2.1⟩] at hfr
          omega
        · rw [Prog.flat_bind_ok halloc, Prog.flat_storeWord_bind]
          refine Prog.flat_bind_error ?_
          rw [flat_diskaddr, if_pos]
          right
          rw [show (BitVec.ofInt 32 (-E_NO_DISK)).toNat = 4294967287 from rfl]
          have hb : numBlocks (m₁.setWord (slotAddr m₁ f i) (BitVec.ofInt 32 (-E_NO_DISK))) =
              numBlocks m₁ := by
            refine numBlocks_congr fun x hx hx' => Mem.setWord_out ?_
            by_contra hc
            have hlow := hok.low
            rcases slot_place hs (x := x) (by omega) (by omega) with hp | ⟨hz', hp⟩
            · omega
            · have := hok.ind_range hz'
              unfold firstBlock at this
              omega
          rw [hb]
          have := hok.small
          omega
    · left
      have hne₁ : ptr m₁ f i ≠ 0 := by rw [hslot]; exact word_ne_zero.mp hw
      have hne : ptr m f i ≠ 0 := by rw [← hptr i (by omega)]; exact hne₁
      refine ⟨m₁, ?_, hg, hne₁, fun k _ hk' => hptr k hk', fun hlt => by rw [hdir (by omega)], ?_,
        fun hc => hdir fun hc' => ?_, hraw, ?_, fun hz => absurd hz hne⟩
      · rw [if_neg hw, flat_diskaddr_bind hw (by rw [← hslot]; exact (hok.range i hne₁).2.1),
          hslot]
        rfl
      · rw [cost, if_neg hne, Nat.zero_add]
        exact hfr
      · rw [cost, if_pos hc'] at hc
        omega
      · rw [cost, if_neg hne, Nat.zero_add]
        by_cases hc : 10 ≤ i ∧ ind m f = 0
        · rw [if_pos hc, hlist hc]
          rfl
        · rw [if_neg hc, hdir hc]
          rfl
  · right
    refine ⟨?_, .inl ⟨h10, hz, hno, Prog.flat_bind_ok hwalk⟩⟩
    rw [cost, if_pos (show 10 ≤ i ∧ ind m f = 0 from ⟨h10, hz⟩)]
    omega

/-- Past the last block. -/
theorem file_get_block_large (hi : 1034 ≤ i) :
    flat (file_get_block f i) m = .ok (.error (-E_INVAL), m) := by
  have hwalk : flat (file_block_walk f i true) m = .ok (.error (-E_INVAL), m) := by
    rw [file_block_walk, if_pos (show NDIRECT + NINDIRECT ≤ i from hi)]
    rfl
  exact Prog.flat_bind_ok hwalk

/-! ## Giving blocks back -/

/-- The address that a walk without `alloc` finds. -/
theorem flat_walk_slot (h : FileOk m f) (hs : HasSlot m f i) :
    flat (file_block_walk f i false) m = .ok (.ok (slotAddr m f i), m) := by
  have hi : i < 1034 := by unfold HasSlot at hs; omega
  rw [flat_file_block_walk, if_neg (by omega), slotAddr]
  by_cases hd : i < 10
  · rw [if_pos hd, if_pos hd]
  · have hz := (hs.resolve_left hd).2
    have := (h.ind_range hz).2.1
    rw [if_neg hd, if_neg hd, if_neg hz, if_neg (by omega)]

theorem flat_walk_none (hs : ¬ HasSlot m f i) :
    ∃ e, flat (file_block_walk f i false) m = .ok (.error e, m) := by
  unfold HasSlot at hs
  rw [flat_file_block_walk]
  by_cases hl : 1034 ≤ i
  · exact ⟨_, if_pos hl⟩
  · rw [if_neg hl, if_neg (by omega), if_pos (by omega)]
    exact ⟨_, rfl⟩

theorem file_free_block_spec (h : FileOk m f) (i : Nat) :
    ∃ r m', flat (file_free_block f i) m = .ok (r, m') ∧ Shrunk f m m' ∧
      (∀ k, ptr m' f k = if k = i ∧ k < 1034 then 0 else ptr m f k) ∧
      Released f (fun k => k = i ∧ k < 1034) m m' := by
  have hsmall := h.small
  by_cases hs : HasSlot m f i
  · have hi : i < 1034 := by unfold HasSlot at hs; omega
    have hrun : flat (file_free_block f i) m = flat (do
        let b ← loadWord (slotAddr m f i)
        if b ≠ 0 then
          free_block b
          storeWord (slotAddr m f i) 0
          pure (.ok ())
        else pure (.ok ())) m := Prog.flat_bind_ok (flat_walk_slot h hs)
    rw [hrun, Prog.flat_loadWord_bind]
    have hslot := ptr_eq_slot hs
    by_cases hw : m.word (slotAddr m f i) = 0
    · have hz : ptr m f i = 0 := by rw [hslot, hw]; rfl
      refine ⟨_, m, by rw [if_neg (not_not.mpr hw)]; rfl, .refl h, fun k => ?_, .refl fun k hk => ?_⟩
      · split
        · rename_i hk
          rw [hk.1, hz]
        · rfl
      · rw [hk.1, hz]
    · have hne : ptr m f i ≠ 0 := by rw [hslot]; exact word_ne_zero.mp hw
      have hlt := (h.range i hne).2.1
      have hword : m.word (slotAddr m f i) = BitVec.ofNat 32 (ptr m f i) := by
        rw [hslot, BitVec.ofNat_toNat, BitVec.setWidth_eq]
      obtain ⟨hsh, hptr, hrel⟩ := h.drop_slot hs hne rfl
      refine ⟨.ok (), _, ?_, hsh, fun k => ?_,
        hrel.congr fun k _ => ⟨fun hk => ⟨hk, by omega⟩, And.left⟩⟩
      · rw [if_pos hw, hword, Prog.flat_bind_ok (flat_free_block hne (by omega)),
          Prog.flat_storeWord_bind]
        rfl
      · rw [hptr]
        by_cases hk : k = i
        · rw [if_pos hk, if_pos ⟨hk, by omega⟩]
        · rw [if_neg hk, if_neg fun hc => hk hc.1]
  · obtain ⟨e, he⟩ := flat_walk_none hs
    unfold HasSlot at hs
    have hz : ∀ k, k = i ∧ k < 1034 → ptr m f k = 0 := fun k hk => by
      rw [ptr_blk (by omega), hk.1, blk_entry_none (by omega) (by omega)]
    refine ⟨_, m, Prog.flat_bind_ok he, .refl h, fun k => ?_, .refl hz⟩
    split
    · rename_i hk
      exact hz k hk
    · rfl

theorem free_blocks_from_spec (h : FileOk m f) (left bno : Nat) :
    ∃ m', flat (free_blocks_from f left bno) m = .ok ((), m') ∧ Shrunk f m m' ∧
      (∀ k, ptr m' f k = if bno ≤ k ∧ k < bno + left ∧ k < 1034 then 0 else ptr m f k) ∧
      Released f (fun k => bno ≤ k ∧ k < bno + left ∧ k < 1034) m m' := by
  induction left generalizing m bno with
  | zero =>
    exact ⟨m, rfl, .refl h, fun k => by rw [if_neg (by omega)], .refl fun k hk => by omega⟩
  | succ left ih =>
    obtain ⟨r, m₁, h₁, hs₁, hp₁, hr₁⟩ := file_free_block_spec h bno
    obtain ⟨m₂, h₂, hs₂, hp₂, hr₂⟩ := ih hs₁.ok (bno + 1)
    refine ⟨m₂, ?_, hs₁.trans hs₂, fun k => ?_,
      (hr₁.trans hr₂ hs₁.loc.blocks fun k hk => ?_).congr fun k _ => by omega⟩
    · rw [free_blocks_from, Prog.flat_bind_ok h₁, h₂]
    · rw [hp₂, hp₁]
      by_cases hk : k = bno ∧ k < 1034
      · rw [if_neg (by omega), if_pos hk, if_pos (by omega)]
      · rw [if_neg hk]
        exact if_congr (by omega) rfl rfl
    · rw [hp₁, if_neg (by omega)]

/-- The pointers that truncation from `old` to `new` blocks clears. -/
def Cut (old new k : Nat) : Prop := (new ≤ k ∧ k < old ∧ k < 1034) ∨ (new ≤ 10 ∧ 10 ≤ k)

instance (old new k : Nat) : Decidable (Cut old new k) := by unfold Cut; infer_instance

/-- The pointers whose blocks truncation gives back: an entry that is cut off
with the indirect block is not among them. -/
def Surplus (old new k : Nat) : Prop := (new ≤ k ∧ k < old ∧ k < 1034) ∨ (new ≤ 10 ∧ k = 1034)

theorem file_truncate_blocks_spec (h : FileOk m f) (newsize : Word) :
    ∃ m', flat (file_truncate_blocks f newsize) m = .ok ((), m') ∧ Shrunk f m m' ∧
      (∀ k, ptr m' f k =
        if Cut (nblocks (m.word (f_size f))) (nblocks newsize) k then 0 else ptr m f k) ∧
      Released f (Surplus (nblocks (m.word (f_size f))) (nblocks newsize)) m m' := by
  obtain ⟨m₁, h₁, hs₁, hp₁, hr₁⟩ := free_blocks_from_spec h
    (nblocks (m.word (f_size f)) - nblocks newsize) (nblocks newsize)
  have hrun : flat (file_truncate_blocks f newsize) m = flat (do
      if nblocks newsize ≤ NDIRECT then
        let ind ← loadWord (f_indirect f)
        if ind ≠ 0 then
          free_block ind
          storeWord (f_indirect f) 0
        else pure ()
      else pure ()) m₁ := by
    rw [file_truncate_blocks, Prog.flat_loadWord_bind]
    exact Prog.flat_bind_ok h₁
  rw [hrun]
  by_cases hn : nblocks newsize ≤ 10
  · rw [if_pos (show nblocks newsize ≤ NDIRECT from hn), Prog.flat_loadWord_bind]
    by_cases hw : m₁.word (f_indirect f) = 0
    · have hz : ind m₁ f = 0 := by rw [ind, hw]; rfl
      have hz' : ptr m f 1034 = 0 := by
        rw [← ptr_ind, hp₁, if_neg (by omega)] at hz
        exact hz
      refine ⟨m₁, by rw [if_neg (not_not.mpr hw)]; rfl, hs₁, fun k => ?_,
        hr₁.congr fun k hk => ?_⟩
      rotate_left
      · have : k ≠ 1034 := fun hc => hk (hc ▸ hz')
        unfold Surplus
        omega
      by_cases hk : 10 ≤ k
      · have hzero : ptr m₁ f k = 0 := by
          by_cases hk' : k = 1034
          · rw [hk', ptr_ind, hz]
          · rw [ptr_blk hk', blk_entry_none hk hz]
        rw [hzero, if_pos (.inr ⟨hn, hk⟩)]
      · rw [hp₁]
        exact if_congr (by unfold Cut; omega) rfl rfl
    · have hz : ind m₁ f ≠ 0 := word_ne_zero.mp hw
      have hlt := (hs₁.ok.ind_range hz).2.1
      have hsmall := hs₁.ok.small
      have hword : m₁.word (f_indirect f) = BitVec.ofNat 32 (ind m₁ f) := by
        rw [ind, BitVec.ofNat_toNat, BitVec.setWidth_eq]
      obtain ⟨hs₂, hp₂, hr₂⟩ := hs₁.ok.drop_ind hz rfl
      refine ⟨_, ?_, hs₁.trans hs₂, fun k => ?_,
        (hr₁.trans hr₂ hs₁.loc.blocks fun k hk => ?_).congr fun k _ => by unfold Surplus; omega⟩
      rotate_right
      · rw [hp₁, if_neg (by omega)]
      · rw [if_pos hw, hword, Prog.flat_bind_ok (flat_free_block hz (by omega))]
        rfl
      · rw [hp₂]
        by_cases hk : k < 10
        · rw [if_pos hk, hp₁]
          exact if_congr (by unfold Cut; omega) rfl rfl
        · rw [if_neg hk, if_pos (.inr ⟨hn, by omega⟩)]
  · rw [if_neg (show ¬ nblocks newsize ≤ NDIRECT from hn)]
    refine ⟨m₁, rfl, hs₁, fun k => ?_, hr₁.congr fun k _ => by unfold Surplus; omega⟩
    rw [hp₁]
    exact if_congr (by unfold Cut; omega) rfl rfl

/-- What `file_set_size` does to a file. -/
structure Resized (f : Nat) (newsize : Word) (m m' : Mem) : Prop where
  ok : FileOk m' f
  loc : Local f m m'
  size : m'.word (f_size f) = newsize
  ptr : ∀ k, ptr m' f k =
    if newsize.toInt < (m.word (f_size f)).toInt ∧
      Cut (nblocks (m.word (f_size f))) (nblocks newsize) k then 0 else ptr m f k
  data : ∀ k x, k < 1034 → jos.fs.ptr m' f k ≠ 0 → x / 4096 = jos.fs.ptr m' f k → m' x = m x
  free : numFree m ≤ numFree m'

theorem FileOk.lt_disk (h : FileOk m f) : f < DISKSIZE := by
  have hsmall := h.small
  have hhome := h.home
  simp only [DISKSIZE]
  omega

theorem flat_file_set_size_up {newsize : Word} (hf : f < DISKSIZE)
    (hle : ¬ newsize.toInt < (m.word (f_size f)).toInt) :
    flat (file_set_size f newsize) m = .ok (0, m.setWord (f_size f) newsize) := by
  rw [file_set_size, Prog.flat_loadWord_bind, if_neg hle]
  beta_reduce
  rw [Prog.flat_storeWord_bind, flat_flush_block_bind hf]
  rfl

theorem file_set_size_spec (h : FileOk m f) (newsize : Word) :
    ∃ m', flat (file_set_size f newsize) m = .ok (0, m') ∧ Resized f newsize m m' ∧
      Released f (fun k => newsize.toInt < (m.word (f_size f)).toInt ∧
        Surplus (nblocks (m.word (f_size f))) (nblocks newsize) k) m m' := by
  by_cases hlt : newsize.toInt < (m.word (f_size f)).toInt
  · obtain ⟨m₁, h₁, hs, hp, hrel⟩ := file_truncate_blocks_spec h newsize
    obtain ⟨m₂, hm₂⟩ : ∃ m₂, m₂ = m₁.setWord (f_size f) newsize := ⟨_, rfl⟩
    have hset : flat (file_set_size f newsize) m = .ok (0, m₂) := by
      rw [file_set_size, Prog.flat_loadWord_bind, if_pos hlt, Prog.flat_bind_ok h₁,
        Prog.flat_storeWord_bind, flat_flush_block_bind hs.ok.lt_disk, hm₂]
      rfl
    obtain ⟨hok, hloc, hptr, hdata, hfree, hsize⟩ := hs.ok.resize newsize hm₂
    refine ⟨m₂, hset, ⟨hok, hs.loc.trans hloc, hsize,
      fun k => ?_, fun k x hk hne hx => ?_, hs.free.trans hfree.ge⟩, fun b hb => ?_⟩
    · rw [hptr, hp]
      exact if_congr (by rw [and_iff_right hlt]) rfl rfl
    · rw [hptr] at hne hx
      rw [hdata k x hk hne hx, hs.data k x hk hne hx]
    · rw [hm₂, hs.ok.isFree_resize _ (by rw [hs.loc.blocks]; exact hb), hrel b hb]
      simp only [hlt, true_and]
  · obtain ⟨hok, hloc, hptr, hdata, hfree, hsize⟩ := h.resize newsize rfl
    refine ⟨_, flat_file_set_size_up h.lt_disk hlt, ⟨hok, hloc, hsize, fun k => ?_,
      fun k x hk hne hx => ?_, hfree.ge⟩, fun b hb => ?_⟩
    · rw [hptr, if_neg fun hc => hlt hc.1]
    · rw [hptr] at hne hx
      exact hdata k x hk hne hx
    · rw [h.isFree_resize _ hb]
      simp only [hlt, false_and, exists_false, or_false]

/-! ## Reading and writing -/

section Positions

variable {p e : Nat} (hp : p < 2 ^ 31) (he : e < 2 ^ 31)

include hp in
theorem toNat_pos : (BitVec.ofNat 32 p).toNat = p := by rw [BitVec.toNat_ofNat]; omega

include hp in
theorem perBlock_pos : perBlock (BitVec.ofNat 32 p) = p / 4096 := by
  rw [perBlock_eq (by rw [toNat_pos hp]; exact hp), toNat_pos hp]

include hp in
theorem within_pos (blk : Nat) : within blk (BitVec.ofNat 32 p) = blk + p % 4096 := by
  rw [within, srem_block (by rw [toNat_pos hp]; exact hp), toNat_pos hp,
    toInt_of_lt (by rw [BitVec.toNat_ofNat]; omega), BitVec.toNat_ofNat]
  omega

include hp he in
theorem stop_le_pos : BitVec.ofNat 32 e ≤ BitVec.ofNat 32 p ↔ e ≤ p := by
  rw [BitVec.le_def, toNat_pos hp, toNat_pos he]

include hp he in
/-- The piece of a block that is moved in one turn. -/
theorem chunk_pos (hlt : p < e) : chunk (BitVec.ofNat 32 p) (BitVec.ofNat 32 e) =
    BitVec.ofNat 32 (min (4096 - p % 4096) (e - p)) := by
  have hroom : (4096#32 - (BitVec.ofNat 32 p).srem 4096#32).toNat = 4096 - p % 4096 := by
    rw [srem_block (by rw [toNat_pos hp]; exact hp), toNat_pos hp, BitVec.toNat_sub,
      BitVec.toNat_ofNat, BitVec.toNat_ofNat]
    omega
  have hleft : (BitVec.ofNat 32 e - BitVec.ofNat 32 p).toNat = e - p := by
    rw [BitVec.toNat_sub, toNat_pos hp, toNat_pos he]
    omega
  apply BitVec.eq_of_toNat_eq
  unfold chunk
  simp only [BitVec.le_def, hroom, hleft]
  split
  · rw [hroom, BitVec.toNat_ofNat]
    omega
  · rw [hleft, BitVec.toNat_ofNat]
    omega

end Positions

/-- A file that got blocks from `lo` up to `hi`, and new bytes at the
positions in `W`. -/
structure Ext (f lo hi : Nat) (W : Nat → Prop) (m m' : Mem) : Prop where
  ok : FileOk m' f
  loc : Local f m m'
  kept : ∀ k, ptr m f k ≠ 0 → ptr m' f k = ptr m f k
  others : ∀ k, k ≠ 1034 → ¬ (lo ≤ k ∧ k < hi) → ptr m' f k = ptr m f k
  direct : hi ≤ 10 → ind m' f = ind m f
  data : ∀ q, q / 4096 < 1034 → ptr m f (q / 4096) ≠ 0 → ¬ W q →
    m' (4096 * ptr m f (q / 4096) + q % 4096) = m (4096 * ptr m f (q / 4096) + q % 4096)
  size : m'.word (f_size f) = m.word (f_size f)

variable {lo hi lo' hi' : Nat} {W W' : Nat → Prop}

theorem Ext.refl (h : FileOk m f) : Ext f lo hi W m m :=
  ⟨h, .refl f m, fun _ _ => rfl, fun _ _ _ => rfl, fun _ => rfl, fun _ _ _ _ => rfl, rfl⟩

theorem Ext.trans (h : Ext f lo hi W m m') (h' : Ext f lo hi W m' m'') : Ext f lo hi W m m'' := by
  refine ⟨h'.ok, h.loc.trans h'.loc, fun k hk => ?_, fun k hk hr => ?_, fun hd => ?_,
    fun q hq hne hW => ?_, h'.size.trans h.size⟩
  · rw [h'.kept k (by rwa [h.kept k hk]), h.kept k hk]
  · rw [h'.others k hk hr, h.others k hk hr]
  · rw [h'.direct hd, h.direct hd]
  · have hk := h.kept _ hne
    have := h'.data q hq (by rwa [hk]) hW
    rw [hk] at this
    rw [this, h.data q hq hne hW]

theorem Ext.mono (h : Ext f lo hi W m m') (hlo : lo' ≤ lo) (hhi : hi ≤ hi')
    (hW : ∀ q, W q → W' q) : Ext f lo' hi' W' m m' :=
  ⟨h.ok, h.loc, h.kept, fun k hk hr => h.others k hk (by omega), fun hd => h.direct (by omega),
    fun q hq hne hq' => h.data q hq hne fun hc => hq' (hW q hc), h.size⟩

theorem Got.ext (h : Got f i m m') : Ext f i (i + 1) W m m' :=
  ⟨h.grown.ok, h.grown.loc, h.grown.kept, fun k hk hr => h.others k (by omega) hk,
    fun hd => h.direct (by omega),
    fun q hq hne _ => h.grown.data _ _ hq hne (by omega), h.grown.size⟩

/-- The free blocks that a file needs for its blocks from `lo` up to `hi`. -/
def need (m : Mem) (f lo hi : Nat) : Nat :=
  ((Finset.Ico lo hi).filter fun k => ptr m f k = 0).card +
    if 10 < hi ∧ lo < hi ∧ ind m f = 0 then 1 else 0

theorem need_of_le (h : hi ≤ lo) : need m f lo hi = 0 := by
  rw [need, Finset.Ico_eq_empty (by omega), if_neg (by omega)]
  rfl

theorem cost_le_need (hlt : lo < hi) : cost m f lo ≤ need m f lo hi := by
  have hcard : (if ptr m f lo = 0 then 1 else 0) ≤
      ((Finset.Ico lo hi).filter fun k => ptr m f k = 0).card := by
    split
    · rename_i hz
      exact Finset.card_pos.mpr ⟨lo, Finset.mem_filter.mpr
        ⟨Finset.mem_Ico.mpr ⟨le_rfl, hlt⟩, hz⟩⟩
    · exact Nat.zero_le _
  refine Nat.add_le_add hcard ?_
  by_cases hc : 10 ≤ lo ∧ ind m f = 0
  · rw [if_pos hc, if_pos ⟨by omega, hlt, hc.2⟩]
  · rw [if_neg hc]
    exact Nat.zero_le _

/-- The blocks are needed one after the other. -/
theorem Got.need (h : Got f lo m m') (hi : Nat) (hlt : lo < hi) (hhi : hi ≤ 1034) :
    fs.need m f lo hi = cost m f lo + fs.need m' f (lo + 1) hi := by
  have hcard : ((Finset.Ico lo hi).filter fun k => ptr m f k = 0).card =
      (if ptr m f lo = 0 then 1 else 0) +
        ((Finset.Ico (lo + 1) hi).filter fun k => ptr m' f k = 0).card := by
    have hcongr : ((Finset.Ico (lo + 1) hi).filter fun k => ptr m' f k = 0) =
        (Finset.Ico (lo + 1) hi).filter fun k => ptr m f k = 0 := by
      refine Finset.filter_congr fun k hk => ?_
      rw [Finset.mem_Ico] at hk
      rw [h.others k (by omega) (by omega)]
    rw [hcongr, ← Finset.insert_Ico_add_one_left_eq_Ico hlt, Finset.filter_insert]
    split
    · rw [Finset.card_insert_of_notMem (by simp), Nat.add_comm]
    · rw [Nat.zero_add]
  rw [fs.need, fs.need, cost, hcard]
  -- the indirect block is needed once, with the first entry
  by_cases hd : lo < 10
  · rw [h.direct hd, if_neg (show ¬ (10 ≤ lo ∧ ind m f = 0) by omega), Nat.add_zero,
      Nat.add_assoc]
    congr 2
    exact if_congr (by omega) rfl rfl
  · have hne : ind m' f ≠ 0 := by
      intro hz
      have := h.here
      rw [ptr_blk (by omega), blk_entry_none (by omega) hz] at this
      exact this rfl
    rw [if_neg (show ¬ (10 < hi ∧ lo + 1 < hi ∧ ind m' f = 0) from fun hc => hne hc.2.2),
      if_congr (show (10 < hi ∧ lo < hi ∧ ind m f = 0) ↔ (10 ≤ lo ∧ ind m f = 0) by omega) rfl rfl]
    omega

/-- The block of a position, and the byte in it. -/
def byteAt (m : Mem) (f q : Nat) : Byte := m (4096 * ptr m f (q / 4096) + q % 4096)

section Loops

variable {p e left : Nat} {count : Word} {buf : List Byte}

theorem file_read_from_end (he : e < 2 ^ 31) :
    flat (file_read_from f count (BitVec.ofNat 32 e) left (BitVec.ofNat 32 e) buf) m =
      .ok ((count.toInt, buf), m) := by
  cases left with
  | zero => rfl
  | succ left =>
    rw [file_read_from, if_pos ((stop_le_pos he he).mpr le_rfl)]
    rfl

theorem file_write_from_end (he : e < 2 ^ 31) :
    flat (file_write_from f count (BitVec.ofNat 32 e) left (BitVec.ofNat 32 e) buf) m =
      .ok (count.toInt, m) := by
  cases left with
  | zero => rfl
  | succ left =>
    rw [file_write_from, if_pos ((stop_le_pos he he).mpr le_rfl)]
    rfl

/-- What the loop of `file_read` did: all the blocks were there or were
taken, or there were not enough free blocks. -/
structure ReadTo (f p e : Nat) (m m' : Mem) (bs : List Byte) : Prop where
  ext : Ext f (p / 4096) ((e + 4095) / 4096) (fun _ => False) m m'
  length : bs.length = e - p
  there : ∀ q, p ≤ q → q < e → ptr m' f (q / 4096) ≠ 0
  bytes : ∀ q, p ≤ q → q < e → bs[q - p]? = some (byteAt m' f q)
  free : numFree m' + need m f (p / 4096) ((e + 4095) / 4096) = numFree m

theorem file_read_from_spec (count : Word) (left : Nat) (buf : List Byte) (h : FileOk m f)
    (hpe : p < e) (he : e ≤ 1034 * 4096) (hleft : e - p ≤ left) :
    (∃ m' bs, flat (file_read_from f count (BitVec.ofNat 32 e) left (BitVec.ofNat 32 p) buf) m =
        .ok ((count.toInt, buf ++ bs), m') ∧ ReadTo f p e m m' bs) ∨
    (numFree m < need m f (p / 4096) ((e + 4095) / 4096) ∧
      ((∃ buf' m', flat (file_read_from f count (BitVec.ofNat 32 e) left (BitVec.ofNat 32 p) buf)
          m = .ok ((-E_NO_DISK, buf'), m') ∧
          Ext f (p / 4096) ((e + 4095) / 4096) (fun _ => False) m m') ∨
        flat (file_read_from f count (BitVec.ofNat 32 e) left (BitVec.ofNat 32 p) buf) m =
          .error .badBlockNumber)) := by
  have hp31 : p < 2 ^ 31 := by omega
  have he31 : e < 2 ^ 31 := by omega
  induction left generalizing m p buf with
  | zero => omega
  | succ left ih =>
    rw [file_read_from, if_neg (fun hc => by rw [stop_le_pos hp31 he31] at hc; omega),
      perBlock_pos hp31]
    rcases file_get_block_spec h (i := p / 4096) (by omega) with ⟨m₁, hget, hg⟩ | ⟨hfew, hget⟩
    · -- the rest of the loop starts at the next block, or at the end
      obtain ⟨n, hn⟩ : ∃ n, n = min (4096 - p % 4096) (e - p) := ⟨_, rfl⟩
      have hneed := hg.need ((e + 4095) / 4096) (by omega) (by omega)
      have hext : Ext f (p / 4096) ((e + 4095) / 4096) (fun _ => False) m m₁ :=
        hg.ext.mono le_rfl (by omega) fun _ hq => hq
      have hadd : BitVec.ofNat 32 p + BitVec.ofNat 32 n = BitVec.ofNat 32 (p + n) :=
        (BitVec.ofNat_add ..).symm
      have hbytes : ∀ q, p ≤ q → q < p + n →
          (m₁.load (4096 * ptr m₁ f (p / 4096) + p % 4096) n)[q - p]? = some (byteAt m₁ f q) := by
        intro q hq hq'
        rw [Mem.getElem?_load _ (by omega), byteAt, show q / 4096 = p / 4096 by omega,
          show 4096 * ptr m₁ f (p / 4096) + p % 4096 + (q - p) =
            4096 * ptr m₁ f (p / 4096) + q % 4096 by omega]
      rw [Prog.flat_bind_ok hget]
      simp only [Prog.flat_loadBytes_bind, within_pos hp31, chunk_pos hp31 he31 hpe, ← hn, hadd,
        toNat_pos (p := n) (by omega)]
      by_cases hend : p + n = e
      · left
        refine ⟨m₁, _, by rw [hend]; exact file_read_from_end he31, hext, ?_, ?_, ?_, ?_⟩
        · rw [Mem.length_load]
          omega
        · intro q hq hq'
          rw [show q / 4096 = p / 4096 by omega]
          exact hg.here
        · exact fun q hq hq' => hbytes q hq (by omega)
        · rw [hneed, need_of_le (by omega)]
          exact hg.free
      · rw [show (p / 4096 + 1) = (p + n) / 4096 by omega] at hneed
        have hfree := hg.free
        rcases ih (p := p + n) (buf ++ m₁.load (4096 * ptr m₁ f (p / 4096) + p % 4096) n)
          hg.grown.ok (by omega) (by omega) (by omega) with ⟨m₂, bs, hrun, hr⟩ | ⟨hfew, hrun⟩
        · left
          refine ⟨m₂, _, by rw [hrun, List.append_assoc], ?_, ?_, ?_, ?_, ?_⟩
          · exact hext.trans (hr.ext.mono (by omega) le_rfl fun _ hq => hq)
          · rw [List.length_append, Mem.length_load, hr.length]
            omega
          · intro q hq hq'
            by_cases hqn : q < p + n
            · rw [show q / 4096 = p / 4096 by omega, hr.ext.kept _ hg.here]
              exact hg.here
            · exact hr.there q (by omega) hq'
          · intro q hq hq'
            by_cases hqn : q < p + n
            · rw [List.getElem?_append_left (by rw [Mem.length_load]; omega), hbytes q hq hqn]
              have hhere : ptr m₁ f (q / 4096) ≠ 0 := by
                rw [show q / 4096 = p / 4096 by omega]
                exact hg.here
              rw [byteAt, byteAt, hr.ext.kept _ hhere,
                hr.ext.data q (by omega) hhere fun hc => hc]
            · rw [List.getElem?_append_right (by rw [Mem.length_load]; omega), Mem.length_load,
                show q - p - n = q - (p + n) by omega]
              exact hr.bytes q (by omega) hq'
          · have := hr.free
            omega
        · right
          refine ⟨by omega, hrun.imp ?_ id⟩
          rintro ⟨buf', m₂, hrun, hx⟩
          exact ⟨buf', m₂, hrun, hext.trans (hx.mono (by omega) le_rfl fun _ hq => hq)⟩
    · right
      refine ⟨?_, ?_⟩
      · have hle := cost_le_need (m := m) (f := f) (show p / 4096 < (e + 4095) / 4096 by omega)
        omega
      · rcases hget with ⟨-, -, -, hget⟩ | ⟨-, hget⟩
        · exact .inl ⟨buf, m, by rw [Prog.flat_bind_ok hget]; rfl, .refl h⟩
        · exact .inr (Prog.flat_bind_error hget)

/-- What the loop of `file_write` did, if there were enough free blocks. -/
structure WroteTo (f p e : Nat) (buf : List Byte) (m m' : Mem) : Prop where
  ext : Ext f (p / 4096) ((e + 4095) / 4096) (fun q => p ≤ q ∧ q < e) m m'
  there : ∀ q, p ≤ q → q < e → ptr m' f (q / 4096) ≠ 0
  bytes : ∀ q, p ≤ q → q < e → some (byteAt m' f q) = buf[q - p]?
  free : numFree m' + need m f (p / 4096) ((e + 4095) / 4096) = numFree m

/-- One piece of a write: the block has it, and the other bytes stay. -/
theorem FileOk.write_piece (h : FileOk m f) (lo hi : Nat) {n : Nat} (hp : p / 4096 < 1034)
    (hne : ptr m f (p / 4096) ≠ 0) (hn : p % 4096 + n ≤ 4096) (hbuf : n ≤ buf.length)
    (hm' : m' = m.store (4096 * ptr m f (p / 4096) + p % 4096) (buf.take n)) :
    Ext f lo hi (fun q => p ≤ q ∧ q < p + n) m m' ∧ (∀ k, ptr m' f k = ptr m f k) ∧
    numFree m' = numFree m ∧ ∀ q, p ≤ q → q < p + n → some (byteAt m' f q) = buf[q - p]? := by
  have hlen : (buf.take n).length = n := by rw [List.length_take]; omega
  obtain ⟨hok, hloc, hptr, hfree, hsize⟩ := h.write hp hne (by omega) (by omega) hm'
  refine ⟨⟨hok, hloc, fun k _ => hptr k, fun k _ _ => hptr k, fun _ => ?_,
    fun q hq hne' hW => ?_, hsize⟩, hptr, hfree, fun q hq hq' => ?_⟩
  · rw [← ptr_ind, hptr, ptr_ind]
  · -- another block, or another place in this one
    rw [hm']
    refine Mem.store_out ?_
    by_cases hk : q / 4096 = p / 4096
    · rw [hk, hlen]
      omega
    · have : ptr m f (q / 4096) ≠ ptr m f (p / 4096) := fun hc => hk (h.inj _ _ hne' hc)
      omega
  · rw [byteAt, hptr, show q / 4096 = p / 4096 by omega, hm',
      Mem.store_in (by omega) (by omega), List.getD_eq_getElem?_getD,
      show 4096 * ptr m f (p / 4096) + q % 4096 - (4096 * ptr m f (p / 4096) + p % 4096) = q - p
        by omega, List.getElem?_take_of_lt (by omega), List.getElem?_eq_getElem (by omega)]
    rfl

/-- How much of a block one turn of a loop moves. -/
def piece (p e : Nat) : Nat := min (4096 - p % 4096) (e - p)

theorem need_congr (h : ∀ k, ptr m' f k = ptr m f k) : need m' f lo hi = need m f lo hi := by
  rw [need, need]
  simp only [h, ← ptr_ind]

/-- One turn of the loop of `file_write`: the block is there or is taken and gets
its piece of the buffer, or there are not enough free blocks. -/
theorem file_write_from_turn (count : Word) (left : Nat) (buf : List Byte) (h : FileOk m f)
    (hpe : p < e) (he : e < 2 ^ 31) (hp : p / 4096 < 1034) :
    (∃ m₁, Got f (p / 4096) m m₁ ∧
      flat (file_write_from f count (BitVec.ofNat 32 e) (left + 1) (BitVec.ofNat 32 p) buf) m =
        flat (file_write_from f count (BitVec.ofNat 32 e) left (BitVec.ofNat 32 (p + piece p e))
          (buf.drop (piece p e)))
          (m₁.store (4096 * ptr m₁ f (p / 4096) + p % 4096) (buf.take (piece p e)))) ∨
    (numFree m < cost m f (p / 4096) ∧
      ((10 ≤ p / 4096 ∧ ind m f = 0 ∧ numFree m = 0 ∧
        flat (file_write_from f count (BitVec.ofNat 32 e) (left + 1) (BitVec.ofNat 32 p) buf) m =
          .ok (-E_NO_DISK, m)) ∨
        (¬ (10 ≤ p / 4096 ∧ ind m f = 0 ∧ numFree m = 0) ∧
          flat (file_write_from f count (BitVec.ofNat 32 e) (left + 1) (BitVec.ofNat 32 p) buf) m =
            .error .badBlockNumber))) := by
  have hp31 : p < 2 ^ 31 := by omega
  rw [file_write_from, if_neg (fun hc => by rw [stop_le_pos hp31 he] at hc; omega),
    perBlock_pos hp31]
  rcases file_get_block_spec h hp with ⟨m₁, hget, hg⟩ | ⟨hfew, hget⟩
  · refine .inl ⟨m₁, hg, ?_⟩
    have hadd : BitVec.ofNat 32 p + BitVec.ofNat 32 (piece p e) = BitVec.ofNat 32 (p + piece p e) :=
      (BitVec.ofNat_add ..).symm
    have hpiece : piece p e < 2 ^ 31 := by unfold piece; omega
    have hchunk : chunk (BitVec.ofNat 32 p) (BitVec.ofNat 32 e) = BitVec.ofNat 32 (piece p e) :=
      chunk_pos hp31 he hpe
    rw [Prog.flat_bind_ok hget]
    simp only [Prog.flat_storeBytes_bind, within_pos hp31, hchunk, hadd, toNat_pos hpiece]
  · refine .inr ⟨hfew, ?_⟩
    rcases hget with ⟨h10, hz, hno, hget⟩ | ⟨hsome, hget⟩
    · exact .inl ⟨h10, hz, hno, by rw [Prog.flat_bind_ok hget]; rfl⟩
    · exact .inr ⟨hsome, Prog.flat_bind_error hget⟩

/-- Behind the last slot there is nothing to write to. -/
theorem file_write_from_beyond (hpe : p < e) (he : e < 2 ^ 31) (hp : 1034 ≤ p / 4096) :
    flat (file_write_from f count (BitVec.ofNat 32 e) (left + 1) (BitVec.ofNat 32 p) buf) m =
      .ok (-E_INVAL, m) := by
  have hp31 : p < 2 ^ 31 := by omega
  rw [file_write_from, if_neg (fun hc => by rw [stop_le_pos hp31 he] at hc; omega),
    perBlock_pos hp31]
  rw [Prog.flat_bind_ok (file_get_block_large hp)]
  rfl

/-- The loop writes up to the end, or up to the last slot of a file. -/
theorem file_write_from_spec (count : Word) (left : Nat) (buf : List Byte) (h : FileOk m f)
    (hpe : p < min e (1034 * 4096)) (he : e < 2 ^ 31) (hleft : e - p ≤ left)
    (hbuf : e - p ≤ buf.length) :
    (∃ m', flat (file_write_from f count (BitVec.ofNat 32 e) left (BitVec.ofNat 32 p) buf) m =
        .ok (if e ≤ 1034 * 4096 then count.toInt else -E_INVAL, m') ∧
        WroteTo f p (min e (1034 * 4096)) buf m m') ∨
    (numFree m < need m f (p / 4096) ((min e (1034 * 4096) + 4095) / 4096) ∧
      ((∃ m', flat (file_write_from f count (BitVec.ofNat 32 e) left (BitVec.ofNat 32 p) buf)
          m = .ok (-E_NO_DISK, m') ∧
          Ext f (p / 4096) ((min e (1034 * 4096) + 4095) / 4096)
            (fun q => p ≤ q ∧ q < min e (1034 * 4096)) m m') ∨
        flat (file_write_from f count (BitVec.ofNat 32 e) left (BitVec.ofNat 32 p) buf) m =
          .error .badBlockNumber)) := by
  obtain ⟨e', he'⟩ : ∃ e', e' = min e (1034 * 4096) := ⟨_, rfl⟩
  rw [← he'] at hpe ⊢
  induction left generalizing m p buf with
  | zero => omega
  | succ left ih =>
    rcases file_write_from_turn count left buf h (show p < e by omega) he (by omega) with
      ⟨m₁, hg, hturn⟩ | ⟨hfew, hturn⟩
    · obtain ⟨n, hn⟩ : ∃ n, n = piece p e := ⟨_, rfl⟩
      have hn' : n = min (4096 - p % 4096) (e - p) := hn
      rw [← hn] at hturn
      have hneed := hg.need ((e' + 4095) / 4096) (by omega) (by omega)
      obtain ⟨m₂, hm₂⟩ : ∃ m₂, m₂ = m₁.store (4096 * ptr m₁ f (p / 4096) + p % 4096)
        (buf.take n) := ⟨_, rfl⟩
      obtain ⟨hw, hptr, hfr, hbytes⟩ := hg.grown.ok.write_piece (p / 4096)
        ((e' + 4095) / 4096) (by omega) hg.here (by omega) (by omega) hm₂
      have hext : Ext f (p / 4096) ((e' + 4095) / 4096) (fun q => p ≤ q ∧ q < e') m m₂ :=
        (hg.ext.mono le_rfl (by omega) fun _ hq => hq).trans
          (hw.mono le_rfl le_rfl fun q hq => ⟨hq.1, by omega⟩)
      have hhere : ∀ q, p ≤ q → q < p + n → ptr m₂ f (q / 4096) ≠ 0 := fun q hq hq' => by
        rw [hptr, show q / 4096 = p / 4096 by omega]
        exact hg.here
      have hfree := hg.free
      rw [hturn, ← hm₂]
      by_cases hend : p + n = e'
      · left
        refine ⟨m₂, ?_, hext, fun q hq hq' => hhere q hq (by omega),
          fun q hq hq' => hbytes q hq (by omega), ?_⟩
        · by_cases hmax : e ≤ 1034 * 4096
          · rw [if_pos hmax, show p + n = e by omega]
            exact file_write_from_end he
          · obtain ⟨left, rfl⟩ : ∃ l, left = l + 1 := ⟨left - 1, by omega⟩
            rw [if_neg hmax]
            exact file_write_from_beyond (by omega) he (by omega)
        · rw [hneed, need_of_le (by omega), hfr]
          exact hfree
      · rw [show (p / 4096 + 1) = (p + n) / 4096 by omega, ← need_congr hptr] at hneed
        rcases ih (p := p + n) (buf.drop n) hw.ok (by omega) (by rw [List.length_drop]; omega)
          (by omega) with ⟨m₃, hrun, hr⟩ | ⟨hfew, hrun⟩
        · left
          refine ⟨m₃, hrun, ?_, ?_, ?_, ?_⟩
          · exact hext.trans (hr.ext.mono (by omega) le_rfl fun q hq => ⟨by omega, hq.2⟩)
          · intro q hq hq'
            by_cases hqn : q < p + n
            · rw [hr.ext.kept _ (hhere q hq hqn)]
              exact hhere q hq hqn
            · exact hr.there q (by omega) hq'
          · intro q hq hq'
            by_cases hqn : q < p + n
            · rw [← hbytes q hq hqn, byteAt, byteAt, hr.ext.kept _ (hhere q hq hqn),
                hr.ext.data q (by omega) (hhere q hq hqn) (by omega)]
            · rw [hr.bytes q (by omega) hq', List.getElem?_drop]
              congr 1
              omega
          · have := hr.free
            omega
        · right
          refine ⟨by omega, hrun.imp ?_ id⟩
          rintro ⟨m₃, hrun, hx⟩
          exact ⟨m₃, hrun, hext.trans (hx.mono (by omega) le_rfl fun q hq => ⟨by omega, hq.2⟩)⟩
    · right
      refine ⟨?_, ?_⟩
      · have hle := cost_le_need (m := m) (f := f) (show p / 4096 < (e' + 4095) / 4096 by omega)
        omega
      · rcases hturn with ⟨-, -, -, hturn⟩ | ⟨-, hturn⟩
        · exact .inl ⟨m, hturn, .refl h⟩
        · exact .inr hturn

end Loops

/-- A write with arguments in range, whatever it returns: first the size is set
if the file is to grow, and then blocks are taken and written. -/
theorem file_write_ext {offset : Word} {r : Int} (h : FileOk m f) (ho : 0 ≤ offset.toInt)
    (hc : offset.toInt + count.toNat ≤ MAXFILESIZE) (hbuf : count.toNat ≤ buf.length)
    (hrun : flat (file_write f buf count offset) m = .ok (r, m')) :
    ∃ m₁, ((m₁ = m ∧ offset.toNat + count.toNat ≤ (m.word (f_size f)).toNat) ∨
        ((m.word (f_size f)).toNat < offset.toNat + count.toNat ∧
          Resized f (offset + count) m m₁)) ∧
      Ext f (offset.toNat / 4096) ((offset.toNat + count.toNat + 4095) / 4096)
        (fun q => offset.toNat ≤ q ∧ q < offset.toNat + count.toNat) m₁ m' := by
  obtain ⟨ho31, hoe⟩ := toNat_of_toInt_nonneg ho
  simp only [MAXFILESIZE, NDIRECT, NINDIRECT, BLKSIZE] at hc
  have hstop : offset + count = BitVec.ofNat 32 (offset.toNat + count.toNat) := by
    apply BitVec.eq_of_toNat_eq
    rw [BitVec.toNat_add, BitVec.toNat_ofNat]
  have hsv : (offset + count).toNat = offset.toNat + count.toNat := by
    rw [hstop]
    exact toNat_pos (by omega)
  rw [file_write, Prog.flat_loadWord_bind] at hrun
  obtain ⟨m₁, hrun, hok₁, hsize⟩ : ∃ m₁, flat (file_write_from f count (offset + count)
      count.toNat offset buf) m₁ = .ok (r, m') ∧ FileOk m₁ f ∧
      ((m₁ = m ∧ offset.toNat + count.toNat ≤ (m.word (f_size f)).toNat) ∨
        ((m.word (f_size f)).toNat < offset.toNat + count.toNat ∧
          Resized f (offset + count) m m₁)) := by
    split at hrun
    · rename_i hlt
      rw [BitVec.lt_def, hsv] at hlt
      obtain ⟨m₂, hset, hr, -⟩ := file_set_size_spec h (offset + count)
      rw [Prog.flat_bind_ok hset, if_neg (by decide)] at hrun
      exact ⟨m₂, hrun, hr.ok, .inr ⟨hlt, hr⟩⟩
    · rename_i hlt
      rw [BitVec.lt_def, hsv] at hlt
      exact ⟨m, hrun, h, .inl ⟨rfl, by omega⟩⟩
  refine ⟨m₁, hsize, ?_⟩
  -- the loop, with positions as numbers
  have hoff : offset = BitVec.ofNat 32 offset.toNat := by simp
  rw [hstop] at hrun
  by_cases hz : count.toNat = 0
  · rw [hz] at hrun
    cases hrun
    exact .refl hok₁
  · rw [hoff, toNat_pos (by omega)] at hrun
    have hspec := file_write_from_spec count count.toNat buf hok₁ (p := offset.toNat)
      (e := offset.toNat + count.toNat) (by omega) (by omega) (by omega) (by omega)
    rw [Nat.min_eq_left (by omega)] at hspec
    rcases hspec with ⟨m₂, hw, hx⟩ | ⟨-, ⟨m₂, hw, hx⟩ | hw⟩
    · rw [hw] at hrun
      cases hrun
      exact hx.ext
    · rw [hw] at hrun
      cases hrun
      exact hx
    · rw [hw] at hrun
      cases hrun

end jos.fs
