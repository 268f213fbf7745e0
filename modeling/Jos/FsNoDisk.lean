-- What happens when the disk is full: file_get_block and file_write of
-- fs/fs.c report it only if there is no block for the indirect block. A
-- slot that gets no block makes diskaddr panic.
import Mathlib
import Jos.FsReads

namespace jos.fs

open blockstore ia32
open blockstore.Prog (loadByte loadBytes loadWord storeBytes storeWord flushAt flat)

variable {m m' : Mem} {f i : Nat}

/-! ## Nothing is stored -/

/-- The slots of all files hold what they held, which are blocks in use, and so
do the bytes apart from the size and the pointers of the file itself. -/
structure Kept (f : Nat) (m m' : Mem) : Prop where
  valid : ∀ g k, IsFile m g → ptr m' g k ≠ 0 →
    firstBlock m ≤ ptr m' g k ∧ ptr m' g k < numBlocks m ∧ isFree m' (ptr m' g k) = false
  slots : ∀ g k, IsFile m g → blk m' g k = blk m g k
  bytes : ∀ g q, IsFile m g → ¬ InInode f (4096 * ptr m g (q / 4096) + q % 4096) →
    content m' g q = content m g q

theorem Kept.refl (hO : Owned m) (f : Nat) : Kept f m m :=
  ⟨fun g k hg hp => hO.range g k hg hp, fun _ _ _ => rfl, fun _ _ _ _ => rfl⟩

theorem FileOk.byte_out (h : FileOk m f) (k : Nat) {r : Nat} (hr : r < 4096) :
    ¬ InInode f (4096 * ptr m f k + r) := by
  intro hin
  have hlow := h.low
  unfold InInode at hin
  have hdiv := h.inode_div (x := 4096 * ptr m f k + r) (by omega) (by omega)
  have := h.ptr_ne_home (k := k)
  omega

theorem Owned.ptr_resize (hO : Owned m) (hf : IsFile m f) {g : Nat} (hg : IsFile m g) (w : Word)
    (k : Nat) : ptr (m.setWord (f_size f) w) g k = ptr m g k := by
  have hout : ∀ x, ¬ (f + 128 ≤ x ∧ x < f + 132) → m.setWord (f_size f) w x = m x := fun x hx =>
    Mem.setWord_out (by simp only [f_size]; omega)
  refine ptr_congr (fun x hx hx' => hout x fun hc => ?_) (fun hi x hx => hout x fun hc => ?_) k
  · -- two inodes do not overlap
    have hpf := hO.place hf
    have hpg := hO.place hg
    unfold firstBlock s_root super at hpf hpg
    omega
  · -- no inode is in an indirect block
    have hdiv : x / 4096 = f / 4096 := (hO.fileOk hf).inode_div (by omega) (by omega)
    have hr := (hO.fileOk hg).ind_range hi
    rcases hf.parent with rfl | ⟨d, -, hd, hc'⟩
    · unfold s_root super at hdiv
      unfold firstBlock at hr
      omega
    · obtain ⟨l, j, hl, -, hp, hj, hfe⟩ := hc'.ptr
      have := (hO.inj d g l 1034 hd hg hp (by rw [ptr_ind]; omega)).2
      omega

theorem Kept.resize (hO : Owned m) (hf : IsFile m f) (w : Word) :
    Kept f m (m.setWord (f_size f) w) := by
  have hptr := fun g k hg => hO.ptr_resize hf (g := g) hg w k
  refine ⟨fun g k hg hp => ?_, fun g k hg => ?_, fun g q hg hq => ?_⟩
  · rw [hptr g k hg] at hp ⊢
    obtain ⟨h₁, h₂, h₃⟩ := hO.range g k hg hp
    exact ⟨h₁, h₂, by rw [(hO.fileOk hf).isFree_resize w h₂, h₃]⟩
  · by_cases hk : k = 1034
    · rw [hk, blk_large le_rfl, blk_large le_rfl]
    · rw [← ptr_blk hk, ← ptr_blk hk, hptr g k hg]
  · rw [content, content, hptr g _ hg]
    refine if_congr Iff.rfl (congrArg some ?_) rfl
    rw [byteAt, byteAt, hptr g _ hg]
    refine Mem.setWord_out ?_
    unfold InInode at hq
    simp only [f_size]
    omega

/-! ## The loop of a write -/

section Loop

variable {p e left : Nat} {count : Word} {buf : List Byte}

/-- On a full disk a write that needs the indirect block stops there, and if all
the bytes before are there already then it has changed nothing. -/
theorem file_write_from_full (h : FileOk m f) (hz : ind m f = 0) (hno : numFree m = 0)
    (hpe : p < e) (he : e < 2 ^ 31) (hp : p < 1034 * 4096) (hfar : 40960 < e)
    (hleft : e - p ≤ left) (hbuf : e - p ≤ buf.length)
    (hbytes : ∀ q, p ≤ q → q < 40960 → content m f q = buf[q - p]?) :
    flat (file_write_from f count (BitVec.ofNat 32 e) left (BitVec.ofNat 32 p) buf) m =
      .ok (-E_NO_DISK, m) := by
  induction left generalizing p buf with
  | zero => omega
  | succ left ih =>
    rcases file_write_from_turn count left buf h hpe he (by omega) with
      ⟨m₁, hg, hturn⟩ | ⟨hfew, ⟨-, -, -, hturn⟩ | ⟨hsome, -⟩⟩
    · obtain ⟨n, hn⟩ : ∃ n, n = piece p e := ⟨_, rfl⟩
      have hn' : n = min (4096 - p % 4096) (e - p) := hn
      have hfree := hg.free
      have hcost : cost m f (p / 4096) = 0 := by omega
      obtain rfl := hg.same hcost
      have hd : p / 4096 < 10 := by
        by_contra hc
        rw [cost, if_pos (show 10 ≤ p / 4096 ∧ ind m₁ f = 0 from ⟨by omega, hz⟩)] at hcost
        omega
      have hsame : m₁.store (4096 * ptr m₁ f (p / 4096) + p % 4096) (buf.take n) = m₁ := by
        refine Mem.store_eq_self fun i hi => ?_
        rw [List.length_take] at hi
        have hq := hbytes (p + i) (by omega) (by omega)
        have hdiv : (p + i) / 4096 = p / 4096 := by omega
        rw [content_of_ptr (by omega) (by rw [hdiv]; exact hg.here), byteAt, hdiv,
          Nat.add_sub_cancel_left] at hq
        rw [List.getElem?_take_of_lt (by omega), ← hq]
        congr 2
        omega
      rw [hturn, ← hn, hsame]
      refine ih (by omega) (by omega) (by omega) (by rw [List.length_drop]; omega) fun q hq hq' => ?_
      rw [hbytes q (by omega) hq', List.getElem?_drop]
      congr 1
      omega
    · exact hturn
    · -- a direct block is missing, but it has a byte
      have hd : p / 4096 < 10 := by
        by_contra hc
        exact hsome ⟨by omega, hz, hno⟩
      have hq := hbytes p le_rfl (by omega)
      rw [Nat.sub_self, List.getElem?_eq_getElem (show 0 < buf.length by omega)] at hq
      rw [cost, if_neg (content_eq_some hq).2.1, if_neg (by omega)] at hfew
      omega

/-- What is left of a write that stopped at the indirect block. -/
structure NoDiskAt (f p e : Nat) (buf : List Byte) (m m' : Mem) : Prop where
  ind : fs.ind m f = 0
  far : 40960 < e
  kept : ∀ k, ptr m f k ≠ 0 → ptr m' f k = ptr m f k
  before : ∀ q x, q < p → content m f q = some x → content m' f q = some x
  bytes : ∀ q, p ≤ q → q < 40960 → content m' f q = buf[q - p]?
  full : (∀ k, k ≠ 1034 → ptr m' f k = ptr m f k) → numFree m = 0

theorem file_write_from_noDisk (h : FileOk m f) (hpe : p < e) (he : e < 2 ^ 31)
    (hcount : 0 ≤ count.toInt) (hleft : e - p ≤ left) (hbuf : e - p ≤ buf.length)
    (hrun : flat (file_write_from f count (BitVec.ofNat 32 e) left (BitVec.ofNat 32 p) buf) m =
      .ok (-E_NO_DISK, m')) : NoDiskAt f p e buf m m' := by
  induction left generalizing m p buf with
  | zero => omega
  | succ left ih =>
    by_cases hp : p / 4096 < 1034
    swap
    · rw [file_write_from_beyond hpe he (by omega)] at hrun
      cases hrun
    rcases file_write_from_turn count left buf h hpe he hp with
      ⟨m₁, hg, hturn⟩ | ⟨-, ⟨h10, hz, hno, hturn⟩ | ⟨-, hturn⟩⟩
    · obtain ⟨n, hn⟩ : ∃ n, n = piece p e := ⟨_, rfl⟩
      have hn' : n = min (4096 - p % 4096) (e - p) := hn
      obtain ⟨m₂, hm₂⟩ : ∃ m₂, m₂ = m₁.store (4096 * ptr m₁ f (p / 4096) + p % 4096)
        (buf.take n) := ⟨_, rfl⟩
      obtain ⟨hw, hptr, hfr, hbytes⟩ := hg.grown.ok.write_piece (p / 4096) (p / 4096 + 1) hp
        hg.here (by omega) (by omega) hm₂
      rw [hturn, ← hn, ← hm₂] at hrun
      have hend : p + n < e := by
        by_contra hc
        rw [show p + n = e by omega, file_write_from_end he] at hrun
        have hr := congrArg Prod.fst (Except.ok.inj hrun)
        simp only [E_NO_DISK] at hr
        omega
      have hN := ih hw.ok hend (by omega) (by rw [List.length_drop]; omega) hrun
      have hhere : ptr m₂ f (p / 4096) ≠ 0 := by rw [hptr]; exact hg.here
      have hind : ind m₁ f = 0 := by rw [← ptr_ind, ← hptr, ptr_ind, hN.ind]
      have hd : p / 4096 < 10 := by
        by_contra hc
        have := hg.here
        rw [ptr_blk (by omega), blk_entry_none (by omega) hind] at this
        exact this rfl
      refine ⟨by rw [← hg.direct hd, hind], hN.far, fun k hk => ?_, fun q x hq hx => ?_,
        fun q hq hq' => ?_, fun hsame => ?_⟩
      · have hk₂ : ptr m₂ f k = ptr m f k := by rw [hptr, hg.grown.kept k hk]
        rw [hN.kept k (by rw [hk₂]; exact hk), hk₂]
      · refine hN.before q x (by omega) (hw.content_kept (by omega) ?_)
        exact (hg.ext (W := fun _ => False)).content_kept (fun hc => hc) hx
      · by_cases hqn : q < p + n
        · have hdiv : q / 4096 = p / 4096 := by omega
          have hx : content m₂ f q = buf[q - p]? := by
            rw [content_of_ptr (by omega) (by rw [hdiv]; exact hhere), hbytes q hq hqn]
          rw [List.getElem?_eq_getElem (by omega)] at hx ⊢
          exact hN.before q _ hqn hx
        · rw [hN.bytes q (by omega) hq', List.getElem?_drop]
          congr 1
          omega
      · -- the slot was not empty, so no block was taken
        have hne : ptr m f (p / 4096) ≠ 0 := by
          rw [← hsame _ (by omega), hN.kept _ hhere]
          exact hhere
        have hcost : cost m f (p / 4096) = 0 := by
          rw [cost, if_neg hne, if_neg (by omega)]
        obtain rfl := hg.same hcost
        rw [← hfr]
        exact hN.full fun k hk => by rw [hsame k hk, hptr]
    · rw [hturn] at hrun
      cases hrun
      exact ⟨hz, by omega, fun _ _ => rfl, fun _ _ _ hx => hx, fun q hq hq' => by omega,
        fun _ => hno⟩
    · rw [hturn] at hrun
      cases hrun

end Loop

/-! ## A full disk -/

end jos.fs
