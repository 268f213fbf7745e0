-- The block cache (fs/bc.c): what is read through it is what was written
-- last, a clean page is as on the disk, and file_flush and fs_sync bring to
-- the disk what they say.
import Mathlib
import Jos.FsFlat
import Jos.Lib.Runs

namespace jos.fs

open blockstore ia32
open blockstore.Prog (loadByte loadBytes loadWord storeBytes storeWord flushAt flat settled)

variable {m : Mem} {β : Type} {c c' : Cache}

/-! ## The handler and the flush are lawful -/

theorem flushPage_flushed {va : Nat} (hc : c.Coherent) (h : flushPage va c = .ok c') :
    Pager.Flushed va c c' := by
  unfold flushPage at h
  simp only at h
  split at h
  · rename_i hm
    cases h
    refine ⟨Cache.written_cleaned_coherent hc, Cache.view_written hm, fun x => ?_, rfl⟩
    by_cases hx : x / 4096 = va / 4096
    · rw [if_pos hx, Cache.view_of_mapped (by rw [hx]; exact hm)]
      exact if_pos hx
    · rw [if_neg hx]
      exact if_neg hx
  · rename_i hm
    split at h
    · cases h
      refine ⟨hc, rfl, fun x => ?_, rfl⟩
      split
      · rename_i hx
        exact (Cache.view_of_not_mapped (by rw [hx]; simpa using hm)).symm
      · rfl
    · cases h

/-- What the handler did, if it returned. -/
theorem bc_pgfault_ok {room a : Nat} (h : bc_pgfault (room + 1) a c = .ok c') :
    a % 4096 = 0 ∧ ∃ n c₁, Pager.run ⟨bc_pgfault room, flushPage⟩ s_nblocks c = .ok (n, c₁) ∧
      Pager.run ⟨bc_pgfault room, flushPage⟩ (block_is_free (BitVec.ofNat 32 (a / 4096)))
        ((c₁.loaded (a / 4096)).cleaned (a / 4096)) = .ok (false, c') := by
  rw [bc_pgfault] at h
  simp only at h
  by_cases hD : DISKSIZE ≤ a
  · rw [if_pos hD] at h
    cases h
  rw [if_neg hD] at h
  obtain ⟨⟨n, c₁⟩, hn, h⟩ := loop.bind_eq_ok.mp h
  by_cases hb : n.toNat ≤ a / 4096
  · rw [if_pos hb] at h
    cases h
  rw [if_neg hb] at h
  by_cases ha : a % 4096 = 0
  · rw [if_neg (not_not.mpr ha)] at h
    obtain ⟨⟨free, c₂⟩, hfree, h⟩ := loop.bind_eq_ok.mp h
    cases free with
    | true => cases h
    | false => cases h; exact ⟨ha, n, c₁, hn, hfree⟩
  · rw [if_pos ha] at h
    cases h

/-- The handler only takes the first byte of a page. -/
theorem bc_pgfault_aligned {room a : Nat} (h : bc_pgfault room a c = .ok c') : a % 4096 = 0 := by
  cases room with
  | zero => cases h
  | succ room => exact (bc_pgfault_ok h).1

/-- The super block cannot be loaded through `s_nblocks`, which is not its
first byte: it is in memory already. -/
theorem run_s_nblocks {P : Pager Panic} (hP : ∀ a c c', P.fault a c = .ok c' → a % 4096 = 0)
    {n : Word} (h : P.run s_nblocks c = .ok (n, c')) :
    c' = c ∧ c.mapped 1 = true ∧ n = c.view.word (super + 4) := by
  obtain ⟨c₁, ht, h⟩ := loop.bind_eq_ok.mp h
  have hm : c.mapped 1 = true := by
    by_contra hm
    obtain ⟨c₂, h₂⟩ := Pager.touchAll_first ht
    unfold Pager.touch at h₂
    rw [if_neg (show ¬ c.mapped ((super + 4) / 4096) = true from hm)] at h₂
    exact absurd (hP _ _ _ h₂) (by decide)
  have hall : ∀ i < 4, c.mapped ((super + 4 + i) / 4096) = true := fun i hi => by
    rw [show (super + 4 + i) / 4096 = 1 by simp only [super]; omega]
    exact hm
  rw [Pager.touchAll_of_mapped hall] at ht
  cases ht
  rw [Pager.load_view hall] at h
  obtain ⟨rfl, rfl⟩ := Prod.mk.inj (Except.ok.inj h)
  exact ⟨rfl, hm, rfl⟩

theorem reads_block_is_free (b : Word) : (block_is_free b).Reads := by
  refine (Prog.reads_loadWord _).bind fun n => ?_
  split
  · exact Prog.reads_pure _
  · exact (Prog.reads_loadWord _).bind fun w => Prog.reads_pure _

theorem lawful_room (room : Nat) : (⟨bc_pgfault room, flushPage⟩ : Pager Panic).Lawful := by
  induction room with
  | zero =>
    refine ⟨fun a c c' hc hm h => ?_, fun a c c' hc h => flushPage_flushed hc h⟩
    cases h
  | succ room ih =>
    refine ⟨fun a c c' hc hm h => ?_, fun a c c' hc h => flushPage_flushed hc h⟩
    obtain ⟨-, n, c₁, hn, hfree⟩ := bc_pgfault_ok h
    obtain ⟨rfl, -, -⟩ := run_s_nblocks (fun a c c' h => bc_pgfault_aligned h) hn
    -- the page is brought in clean, and then the bitmap is read through the cache
    have hco := Cache.loaded_cleaned_coherent (b := a / 4096) hc
    obtain ⟨hflat, hco'⟩ := ih.sim hco hfree
    refine ⟨hco', ?_, ?_, ?_, fun b hb => ?_⟩
    · rw [(reads_block_is_free _).flat hflat, Cache.view_cleaned, Cache.view_loaded hm]
    · have hdisk := ih.run_reads (reads_block_is_free _) hco hfree
      exact hdisk
    · exact ih.run_mapped hco hfree _ (by simp [Cache.loaded, Cache.cleaned])
    · exact ih.run_mapped hco hfree _ (by simp [Cache.loaded, Cache.cleaned, hb])

theorem bc_lawful : bc.Lawful := lawful_room 4

/-! ## What is on the disk after file_flush and fs_sync -/

section Settled

variable {S : Set Nat}

theorem reads_diskaddr (b : Word) : (diskaddr b).Reads := by
  unfold diskaddr
  split
  · exact .panic _
  · refine (Prog.reads_loadWord _).bind fun n => ?_
    split
    · exact .panic _
    · exact Prog.reads_pure _

theorem reads_file_block_walk (f i : Nat) : (file_block_walk f i false).Reads := by
  unfold file_block_walk
  split
  · exact Prog.reads_pure _
  split
  · exact Prog.reads_pure _
  refine (Prog.reads_loadWord _).bind fun w => ?_
  split
  · exact (reads_diskaddr w).bind fun _ => Prog.reads_pure _
  · exact Prog.reads_pure _

theorem settled_diskaddr_bind {b : Word} (hb : b ≠ 0) (hn : b.toNat < numBlocks m)
    (k : Nat → Io β) : settled (diskaddr b >>= k) m S = settled (k (4096 * b.toNat)) m S := by
  rw [Prog.settled_bind (flat_diskaddr_ok hb hn), (reads_diskaddr b).settled]

theorem settled_flush_block_bind {va : Nat} (h : va < DISKSIZE) (k : Unit → Io β) :
    settled (flush_block va >>= k) m S = settled (k ()) m (insert (va / 4096) S) := by
  rw [flush_block, if_neg (by omega)]
  rfl

/-- A block number that a program got past `diskaddr` with. -/
theorem of_flat_diskaddr_bind {b : Word} {k : Nat → Io β} {r : β × Mem}
    (h : flat (diskaddr b >>= k) m = .ok r) :
    b ≠ 0 ∧ b.toNat < numBlocks m ∧ flat (k (4096 * b.toNat)) m = .ok r := by
  rw [Prog.flat_bind, flat_diskaddr] at h
  split at h
  · cases h
  · rename_i hb
    rw [not_or, not_le] at hb
    exact ⟨hb.1, hb.2, h⟩

theorem of_flat_flush_block_bind {va : Nat} {k : Unit → Io β} {r : β × Mem}
    (h : flat (flush_block va >>= k) m = .ok r) : va < DISKSIZE ∧ flat (k ()) m = .ok r := by
  unfold flush_block at h
  split at h
  · cases h
  · exact ⟨by omega, h⟩

/-- One turn of the loop of `file_flush`: what it flushes, and the rest. -/
theorem file_flush_turn {f left i : Nat} {r : Unit × Mem}
    (h : flat (file_flush_from f (left + 1) i) m = .ok r) :
    flat (file_flush_from f left (i + 1)) m = .ok r ∧
    ∃ T, settled (file_flush_from f (left + 1) i) m S =
        settled (file_flush_from f left (i + 1)) m T ∧
      S ⊆ T ∧ (blk m f i ≠ 0 → blk m f i ∈ T) := by
  rw [file_flush_from] at h ⊢
  obtain ⟨p, m', hp, h⟩ := Prog.flat_bind_eq_ok h
  rw [Prog.settled_bind hp, (reads_file_block_walk f i).settled]
  obtain ⟨rfl, ⟨e, rfl, hz⟩ | ⟨a, rfl, ha⟩⟩ := flat_file_block_walk_cases hp
  · exact ⟨h, S, rfl, subset_rfl, fun hne => absurd hz hne⟩
  simp only [Prog.flat_loadWord_bind, Prog.settled_loadWord_bind] at h ⊢
  by_cases hw : m'.word a = 0
  · rw [if_pos hw] at h ⊢
    exact ⟨h, S, rfl, subset_rfl, fun hne => absurd (by rw [ha, hw]; rfl) hne⟩
  · rw [if_neg hw] at h ⊢
    obtain ⟨hne, hlt, h⟩ := of_flat_diskaddr_bind h
    obtain ⟨hD, h⟩ := of_flat_flush_block_bind h
    rw [settled_diskaddr_bind hne hlt, settled_flush_block_bind hD]
    refine ⟨h, _, rfl, Set.subset_insert _ _, fun _ => .inl ?_⟩
    rw [ha, Nat.mul_div_cancel_left _ (by omega)]

theorem settled_file_flush_from {f left i : Nat} {r : Unit × Mem}
    (h : flat (file_flush_from f left i) m = .ok r) :
    r.2 = m ∧ S ⊆ settled (file_flush_from f left i) m S ∧
    ∀ j, i ≤ j → j < i + left → blk m f j ≠ 0 →
      blk m f j ∈ settled (file_flush_from f left i) m S := by
  induction left generalizing i S with
  | zero =>
    cases h
    exact ⟨rfl, subset_rfl, by omega⟩
  | succ left ih =>
    obtain ⟨hrest, T, hT, hST, hb⟩ := file_flush_turn (S := S) h
    obtain ⟨hm, hsub, hall⟩ := ih (S := T) hrest
    rw [hT]
    refine ⟨hm, hST.trans hsub, fun j hij hj hne => ?_⟩
    rcases Nat.eq_or_lt_of_le hij with rfl | hlt
    · exact hsub (hb hne)
    · exact hall j (by omega) (by omega) hne

/-- The number of blocks of a file, if its size does not run over. -/
theorem flush_turns {size : Word} (h : size.toInt + 4095 < 2 ^ 31) (j : Nat)
    (hj : (j : Int) * 4096 < size.toInt) :
    j < ((size + 4095#32).sdiv 4096#32).toInt.toNat := by
  obtain ⟨hlt, hsize⟩ := toNat_of_toInt_nonneg (w := size) (by omega)
  have hv : (size + 4095#32).toNat = size.toNat + 4095 := by
    rw [BitVec.toNat_add, BitVec.toNat_ofNat]
    omega
  have hq := sdiv_block (w := size + 4095#32) (by omega)
  rw [toInt_of_lt (by omega)]
  omega

/-- After `file_flush` the blocks of the file within its size, the block of
its inode and its indirect block are on the disk. -/
theorem settled_file_flush {f : Nat} {r : Unit × Mem} (h : flat (file_flush f) m = .ok r) :
    r.2 = m ∧ S ⊆ settled (file_flush f) m S ∧ f / 4096 ∈ settled (file_flush f) m S ∧
    (ind m f ≠ 0 → ind m f ∈ settled (file_flush f) m S) ∧
    ((m.word (f_size f)).toInt + 4095 < 2 ^ 31 → ∀ j : Nat,
      (j : Int) * 4096 < (m.word (f_size f)).toInt → blk m f j ≠ 0 →
        blk m f j ∈ settled (file_flush f) m S) := by
  rw [file_flush, Prog.flat_loadWord_bind] at h
  obtain ⟨u, m', hloop, hrest⟩ := Prog.flat_bind_eq_ok h
  obtain ⟨hm, hsub, hall⟩ := settled_file_flush_from (S := S) hloop
  obtain rfl : m = m' := hm.symm
  obtain ⟨hD, h⟩ := of_flat_flush_block_bind hrest
  rw [Prog.flat_loadWord_bind] at h
  rw [file_flush, Prog.settled_loadWord_bind, Prog.settled_bind hloop,
    settled_flush_block_bind hD, Prog.settled_loadWord_bind]
  -- the blocks of the loop are settled when the inode is flushed
  have hblocks : (m.word (f_size f)).toInt + 4095 < 2 ^ 31 → ∀ j : Nat,
      (j : Int) * 4096 < (m.word (f_size f)).toInt → blk m f j ≠ 0 →
        blk m f j ∈ settled (file_flush_from f
          ((m.word (f_size f) + 4095#32).sdiv 4096#32).toInt.toNat 0) m S :=
    fun hs j hj hne => hall j (Nat.zero_le j) (by rw [Nat.zero_add]; exact flush_turns hs j hj) hne
  by_cases hw : m.word (f_indirect f) = 0
  · rw [if_neg (not_not.mpr hw)] at h ⊢
    have hr : r.2 = m := (congrArg Prod.snd (Except.ok.inj h)).symm
    refine ⟨hr, hsub.trans (Set.subset_insert _ _), .inl rfl, fun hne => ?_,
      fun hs j hj hne => .inr (hblocks hs j hj hne)⟩
    exact absurd (show (m.word (f_indirect f)).toNat = 0 by rw [hw]; rfl) hne
  · rw [if_pos hw] at h ⊢
    obtain ⟨hne, hlt, h⟩ := of_flat_diskaddr_bind h
    have hD' : 4096 * (m.word (f_indirect f)).toNat < DISKSIZE := by
      unfold flush_block at h
      split at h
      · cases h
      · omega
    rw [flat_flush_block hD'] at h
    have hr : r.2 = m := (congrArg Prod.snd (Except.ok.inj h)).symm
    rw [settled_diskaddr_bind hne hlt, flush_block, if_neg (by omega)]
    refine ⟨hr, fun b hb => .inr (.inr (hsub hb)), .inr (.inl rfl), fun _ => .inl ?_,
      fun hs j hj hne => .inr (.inr (hblocks hs j hj hne))⟩
    rw [Nat.mul_div_cancel_left _ (by omega)]
    rfl

theorem settled_fs_sync_from {left i : Nat} {r : Unit × Mem} (hi : 0 < i)
    (hn : numBlocks m ≤ i + left) (h : flat (fs_sync_from left i) m = .ok r) :
    r.2 = m ∧ S ⊆ settled (fs_sync_from left i) m S ∧
    ∀ b, i ≤ b → b < numBlocks m → b ∈ settled (fs_sync_from left i) m S := by
  induction left generalizing i S with
  | zero =>
    cases h
    exact ⟨rfl, subset_rfl, by omega⟩
  | succ left ih =>
    rw [fs_sync_from, flat_s_nblocks_bind] at h
    rw [fs_sync_from, s_nblocks, Prog.settled_loadWord_bind]
    by_cases hi' : (m.word (super + 4)).toNat ≤ i
    · rw [if_pos hi'] at h ⊢
      cases h
      exact ⟨rfl, subset_rfl, fun b hb hb' => absurd hb' (by unfold numBlocks; omega)⟩
    · rw [if_neg hi'] at h ⊢
      have hv : (BitVec.ofNat 32 i).toNat = i := by
        rw [BitVec.toNat_ofNat]
        omega
      obtain ⟨hne, hlt, h⟩ := of_flat_diskaddr_bind h
      obtain ⟨hD, h⟩ := of_flat_flush_block_bind h
      rw [settled_diskaddr_bind hne hlt, settled_flush_block_bind hD,
        Nat.mul_div_cancel_left _ (by omega), hv]
      obtain ⟨hm, hsub, hall⟩ := ih (S := insert i S) (by omega) (by omega) h
      refine ⟨hm, (Set.subset_insert _ _).trans hsub, fun b hb hb' => ?_⟩
      rcases Nat.eq_or_lt_of_le hb with rfl | hlt
      · exact hsub (.inl rfl)
      · exact hall b hlt hb'

end Settled

/-! ## Runs of the cache -/

/-- What is done through the cache. -/
inductive CacheOp
  | read (blockno : Word) (off n : Nat)
  | write (blockno : Word) (off : Nat) (bs : List Byte)
  | flush_block (va : Nat)
  | file_flush (f : Nat)
  | fs_sync

namespace CacheOp

def prog : CacheOp → Io (List Byte)
  | read blockno off n => do
    let va ← diskaddr blockno
    loadBytes (va + off) n
  | write blockno off bs => do
    let va ← diskaddr blockno
    storeBytes (va + off) bs
    pure []
  | flush_block va => do
    fs.flush_block va
    pure []
  | file_flush f => do
    fs.file_flush f
    pure []
  | fs_sync => do
    fs.fs_sync
    pure []

/-- What an operation does to the contents of the blocks. -/
def effect : CacheOp → Mem → Mem
  | write blockno off bs, m => m.store (4096 * blockno.toNat + off) bs
  | _, m => m

end CacheOp

/-- The cache after an operation that does not panic. -/
def cacheStep (c : Cache) (op : CacheOp) : Option Cache :=
  match bc.run op.prog c with
  | .ok r => some r.2
  | .error _ => none

/-- The contents of the blocks after operations: the value written last, or
the value at the start. -/
def latest (m : Mem) (ops : List CacheOp) : Mem := ops.foldl (fun m op => op.effect m) m

/-- The disk has the contents of a block. -/
def OnDisk (c : Cache) (b : Nat) : Prop := ∀ x, x / 4096 = b → c.disk x = c.view x

/-- The disk has the blocks of a file within its size, the block of its inode
and its indirect block. -/
structure FileOnDisk (c : Cache) (f : Nat) : Prop where
  inode : OnDisk c (f / 4096)
  indirect : ind c.view f ≠ 0 → OnDisk c (ind c.view f)
  data : ∀ j : Nat, (j : Int) * 4096 < (c.view.word (f_size f)).toInt → blk c.view f j ≠ 0 →
    OnDisk c (blk c.view f j)

/-- What an operation promises, with its result and the cache after it. The
size of a file that is flushed is such that `f_size + BLKSIZE - 1` is an
`off_t`. -/
def CacheOp.Promise : CacheOp → List Byte → Cache → Prop
  | read blockno off n, out, c => out = c.view.load (4096 * blockno.toNat + off) n
  | file_flush f, _, c => (c.view.word (f_size f)).toInt + 4095 < 2 ^ 31 → FileOnDisk c f
  | fs_sync, _, c => ∀ b < numBlocks c.view, OnDisk c b
  | _, _, _ => True

theorem flat_prog {op : CacheOp} {out : List Byte} {m' : Mem}
    (h : flat op.prog m = .ok (out, m')) : m' = op.effect m := by
  cases op with
  | read b off n =>
    obtain ⟨-, -, h⟩ := of_flat_diskaddr_bind h
    cases h
    rfl
  | write b off bs =>
    obtain ⟨-, -, h⟩ := of_flat_diskaddr_bind h
    cases h
    rfl
  | flush_block va =>
    obtain ⟨-, h⟩ := of_flat_flush_block_bind h
    cases h
    rfl
  | file_flush f =>
    obtain ⟨u, m₁, h₁, h⟩ := Prog.flat_bind_eq_ok h
    cases h
    exact (settled_file_flush (S := ∅) h₁).1
  | fs_sync =>
    obtain ⟨u, m₁, h₁, h⟩ := Prog.flat_bind_eq_ok h
    cases h
    rw [fs_sync, flat_s_nblocks_bind] at h₁
    exact (settled_fs_sync_from (S := ∅) (by omega) (by unfold numBlocks; omega) h₁).1

/-- No operation makes block 0 dirty. -/
theorem settled_prog {op : CacheOp} {r : List Byte × Mem} (h : flat op.prog m = .ok r) :
    0 ∈ settled op.prog m {0} := by
  cases op with
  | read b off n =>
    obtain ⟨hb, hlt, -⟩ := of_flat_diskaddr_bind h
    rw [CacheOp.prog, settled_diskaddr_bind hb hlt]
    exact rfl
  | write b off bs =>
    obtain ⟨hb, hlt, -⟩ := of_flat_diskaddr_bind h
    rw [CacheOp.prog, settled_diskaddr_bind hb hlt]
    have hb := word_ne_zero.mp hb
    refine ⟨rfl, decide_eq_false ?_⟩
    omega
  | flush_block va =>
    obtain ⟨hD, -⟩ := of_flat_flush_block_bind h
    rw [CacheOp.prog, settled_flush_block_bind hD]
    exact .inr rfl
  | file_flush f =>
    obtain ⟨u, m₁, h₁, -⟩ := Prog.flat_bind_eq_ok h
    rw [CacheOp.prog, Prog.settled_bind h₁]
    exact (settled_file_flush (S := {0}) h₁).2.1 rfl
  | fs_sync =>
    obtain ⟨u, m₁, h₁, -⟩ := Prog.flat_bind_eq_ok h
    rw [CacheOp.prog, Prog.settled_bind h₁]
    rw [fs_sync, flat_s_nblocks_bind] at h₁
    exact (settled_fs_sync_from (S := {0}) (by omega) (by unfold numBlocks; omega) h₁).2.1 rfl

/-- What holds of the cache all along: clean pages are as on the disk, and so
is block 0, which nothing writes to. -/
structure Sound (c : Cache) : Prop where
  coherent : c.Coherent
  boot : OnDisk c 0

theorem Sound.step {op : CacheOp} {out : List Byte} (hs : Sound c)
    (h : bc.run op.prog c = .ok (out, c')) : Sound c' ∧ c'.view = op.effect c.view := by
  obtain ⟨hflat, hco⟩ := bc_lawful.sim hs.coherent h
  refine ⟨⟨hco, fun x hx => ?_⟩, flat_prog hflat⟩
  refine bc_lawful.run_settled (S := {0}) hs.coherent (fun x hx => hs.boot x hx) h x ?_
  rw [hx]
  exact settled_prog hflat

theorem Sound.run {ops : List CacheOp} (hs : Sound c)
    (h : runs.runFrom cacheStep c ops = some c') : Sound c' ∧ c'.view = latest c.view ops := by
  induction ops generalizing c with
  | nil => cases h; exact ⟨hs, rfl⟩
  | cons op ops ih =>
    obtain ⟨c₁, h₁, h⟩ := Option.bind_eq_some_iff.mp h
    unfold cacheStep at h₁
    split at h₁
    · rename_i r hr
      cases h₁
      obtain ⟨hs₁, hv⟩ := hs.step hr
      rw [latest, List.foldl_cons, ← hv]
      exact ih hs₁ h
    · cases h₁

theorem Sound.promise {op : CacheOp} {out : List Byte} (hs : Sound c)
    (h : bc.run op.prog c = .ok (out, c')) : op.Promise out c' := by
  obtain ⟨hflat, -⟩ := bc_lawful.sim hs.coherent h
  have hview := (hs.step h).2
  -- what the program settles is on the disk after it
  have hdisk : ∀ b, b ∈ settled op.prog c.view {0} → OnDisk c' b := by
    rintro b hb x rfl
    exact bc_lawful.run_settled (S := {0}) hs.coherent (fun x hx => hs.boot x hx) h x hb
  cases op with
  | read b off n =>
    obtain ⟨-, -, hflat⟩ := of_flat_diskaddr_bind hflat
    obtain ⟨rfl, hv⟩ := Prod.mk.inj (Except.ok.inj hflat)
    change _ = c'.view.load _ _
    rw [← hv]
  | write b off bs => trivial
  | flush_block va => trivial
  | file_flush f =>
    obtain ⟨u, m₁, h₁, -⟩ := Prog.flat_bind_eq_ok hflat
    have hset : settled (CacheOp.file_flush f).prog c.view {0} =
        settled (file_flush f) c.view {0} := by
      rw [CacheOp.prog, Prog.settled_bind h₁]
      rfl
    obtain ⟨-, -, hf, hi, hb⟩ := settled_file_flush (S := {0}) h₁
    rw [hset] at hdisk
    change c'.view = c.view at hview
    intro hsize
    rw [hview] at hsize
    refine ⟨hdisk _ hf, fun hne => hdisk _ ?_, fun j hj hne => hdisk _ ?_⟩
    · rw [hview] at hne ⊢
      exact hi hne
    · rw [hview] at hj hne ⊢
      exact hb hsize j hj hne
  | fs_sync =>
    obtain ⟨u, m₁, h₁, -⟩ := Prog.flat_bind_eq_ok hflat
    have hset : settled CacheOp.fs_sync.prog c.view {0} = settled fs_sync c.view {0} := by
      rw [CacheOp.prog, Prog.settled_bind h₁]
      rfl
    rw [fs_sync, flat_s_nblocks_bind] at h₁
    obtain ⟨-, hsub, hall⟩ := settled_fs_sync_from (S := {0}) (by omega)
      (by unfold numBlocks; omega) h₁
    rw [hset] at hdisk
    change c'.view = c.view at hview
    intro b hb
    rw [hview] at hb
    rcases Nat.eq_zero_or_pos b with rfl | hpos
    · exact hdisk 0 (hsub rfl)
    · exact hdisk b (hall b hpos hb)

/-- The block cache is coherent and durable: after any operations that do not
panic, a page that is in memory and clean is as on the disk, what is read is
what was written last (or was there at the start), and what a further flush
promises is on the disk. -/
theorem block_cache_is_coherent {c c₁ : Cache} {ops : List CacheOp} (hc : c.Coherent)
    (h₀ : c.mapped 0 = true → c.dirty 0 = false)
    (hrun : runs.runFrom cacheStep c ops = some c₁) :
    c₁.Coherent ∧ c₁.view = latest c.view ops ∧
      ∀ op out c₂, bc.run op.prog c₁ = .ok (out, c₂) →
        c₂.Coherent ∧ c₂.view = latest c.view (ops ++ [op]) ∧ op.Promise out c₂ := by
  have hboot : OnDisk c 0 := by
    intro x hx
    rcases hm : c.mapped 0 with _ | _
    · exact (Cache.view_of_not_mapped (by rw [hx]; exact hm)).symm
    · have hmx : c.mapped (x / 4096) = true := by rw [hx]; exact hm
      rw [Cache.view_of_mapped hmx]
      exact (hc x hmx (by rw [hx]; exact h₀ hm)).symm
  obtain ⟨hs₁, hv₁⟩ := Sound.run ⟨hc, hboot⟩ hrun
  refine ⟨hs₁.coherent, hv₁, fun op out c₂ h => ?_⟩
  obtain ⟨hs₂, hv₂⟩ := hs₁.step h
  refine ⟨hs₂.coherent, ?_, hs₁.promise h⟩
  rw [hv₂, hv₁, latest, latest, List.foldl_append]
  rfl

/-- A disk of 8 blocks with one inode at the start of block 3, and block 4 as
its first block. -/
def smallDisk (size : Word) : Mem :=
  let m : Mem := fun _ => 0
  ((m.setWord (super + 4) 8).setWord (f_size 12288) size).setWord (f_direct 12288 0) 4

/-- Only the super block is in memory, as after `bc_init`. -/
def smallCache (size : Word) : Cache where
  disk := smallDisk size
  mem := smallDisk size
  mapped := fun b => decide (b = 1)
  dirty := fun _ => false
  tables := fun t => decide (t = 0)

theorem block_cache_is_coherent_once :
    ∃ c₁, runs.runFrom cacheStep (smallCache 1) [.read 3 0 1, .write 4 0 [1]] = some c₁ ∧
      c₁.Coherent ∧ c₁.view = latest (smallCache 1).view [.read 3 0 1, .write 4 0 [1]] := by
  have hrun : (runs.runFrom cacheStep (smallCache 1) [.read 3 0 1, .write 4 0 [1]]).isSome := by
    decide +kernel
  obtain ⟨c₁, h₁⟩ := Option.isSome_iff_exists.mp hrun
  have h := block_cache_is_coherent (fun _ _ _ => rfl) (fun _ => rfl) h₁
  exact ⟨c₁, h₁, h.1, h.2.1⟩

/-- A size whose number of blocks runs over: the file is flushed without its
block, which is within its size. -/
theorem file_flush_leaves_a_block :
    (smallCache 0x7FFFFFFF).Coherent ∧
    (runs.runFrom cacheStep (smallCache 0x7FFFFFFF)
      [.read 3 0 1, .write 4 0 [1], .file_flush 12288]).map
      (fun c => (blk c.view 12288 0, (c.view.word (f_size 12288)).toInt, c.view 16384,
        c.disk 16384)) = some (4, 0x7FFFFFFF, 1, 0) :=
  ⟨fun _ _ _ => rfl, by decide +kernel⟩

end jos.fs
