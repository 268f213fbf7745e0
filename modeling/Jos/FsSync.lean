-- Flushing the block cache: which uvpt entries `flush_block` reads, for which
-- blocks it writes to the disk, and when `fs_sync` and `alloc_block` get
-- through all their flushes as the comments of fs/bc.c say.
import Jos.FsCache
import Jos.FsFile
import Jos.Lib.Demand

namespace jos.fs

open blockstore ia32
open blockstore.Prog (loadWord storeWord flushAt flat)

variable {c c' : Cache} {va b n i left : Nat} {P : Pager Panic}

/-! ## flush_block -/

/-- Pages that are in memory have a page table. -/
def Paged (c : Cache) : Prop := ∀ b, c.mapped b = true → c.tables (b / 1024) = true

/-- `(uvpd[PDX(va)] & PTE_P) && (uvpt[PGNUM(va)] & PTE_P)`. -/
def va_is_mapped (va : Nat) (c : Cache) : Bool :=
  c.tables (va / 4096 / 1024) && c.mapped (va / 4096)

/-- `(uvpt[PGNUM(va)] & PTE_D) != 0`: a page fault if there is no page table. The entry of
a page that is not in memory is 0. -/
def va_is_dirty (va : Nat) (c : Cache) : Except Panic Bool :=
  if c.tables (va / 4096 / 1024) then .ok (c.mapped (va / 4096) && c.dirty (va / 4096))
  else .error .pageFault

/-- `va_is_mapped(addr) || va_is_dirty(addr)`: whether `flush_block` writes. -/
def flush_guard (va : Nat) (c : Cache) : Except Panic Bool :=
  if va_is_mapped va c then .ok true else va_is_dirty va c

theorem va_is_mapped_eq (hc : Paged c) : va_is_mapped va c = c.mapped (va / 4096) := by
  unfold va_is_mapped
  rcases hm : c.mapped (va / 4096) with _ | _
  · rw [Bool.and_false]
  · rw [hc _ hm, Bool.and_true]

theorem flush_guard_eq (hc : Paged c) : flush_guard va c =
    if c.mapped (va / 4096) then .ok true
    else if c.tables (va / 4096 / 1024) then .ok false else .error .pageFault := by
  unfold flush_guard va_is_dirty
  rw [va_is_mapped_eq hc]
  rcases hm : c.mapped (va / 4096) with _ | _
  · rfl
  · rfl

/-- A block is written and its page mapped anew, if the guard says so. -/
theorem flushPage_eq (hc : Paged c) : flushPage va c =
    (flush_guard va c).map fun w =>
      if w then (c.written (va / 4096)).cleaned (va / 4096) else c := by
  rw [flush_guard_eq hc]
  unfold flushPage
  dsimp only
  rcases hm : c.mapped (va / 4096) with _ | _
  · rcases ht : c.tables (va / 4096 / 1024) with _ | _
    · rfl
    · rfl
  · rfl

/-- Nothing about a block is changed. -/
structure SameBlock (c c' : Cache) (b : Nat) : Prop where
  mapped : c'.mapped b = c.mapped b
  dirty : c'.dirty b = c.dirty b
  mem : ∀ x, x / 4096 = b → c'.mem x = c.mem x
  disk : ∀ x, x / 4096 = b → c'.disk x = c.disk x

theorem SameBlock.refl (c : Cache) (b : Nat) : SameBlock c c b :=
  ⟨rfl, rfl, fun _ _ => rfl, fun _ _ => rfl⟩

theorem SameBlock.trans {c₁ c₂ : Cache} (h : SameBlock c c₁ b) (h' : SameBlock c₁ c₂ b) :
    SameBlock c c₂ b :=
  ⟨h'.mapped.trans h.mapped, h'.dirty.trans h.dirty,
    fun x hx => (h'.mem x hx).trans (h.mem x hx), fun x hx => (h'.disk x hx).trans (h.disk x hx)⟩

/-- In memory and dirty. -/
def Stale (c : Cache) (b : Nat) : Prop := c.mapped b = true ∧ c.dirty b = true

theorem sameBlock_flushed (hb : b ≠ n) : SameBlock c ((c.written n).cleaned n) b := by
  refine ⟨rfl, ?_, fun x hx => rfl, fun x hx => ?_⟩
  · show (c.dirty b && decide (b ≠ n)) = c.dirty b
    rw [decide_eq_true hb, Bool.and_true]
  · show (if x / 4096 = n then c.mem x else c.disk x) = c.disk x
    rw [if_neg (by omega)]

/-- One call of `flush_block` as its comment has it: no entry of an absent page table is read,
and the block is written exactly if it is in memory and dirty. -/
def FlushWorks (va : Nat) (c : Cache) : Prop :=
  flush_guard va c = .ok (c.mapped (va / 4096) && c.dirty (va / 4096))

/-- A block in memory is dirty, and one that is not has at least its page table. -/
def FlushReady (c : Cache) (b : Nat) : Prop :=
  if c.mapped b then c.dirty b = true else c.tables (b / 1024) = true

instance (c : Cache) (b : Nat) : Decidable (FlushReady c b) :=
  inferInstanceAs (Decidable (if c.mapped b then c.dirty b = true else c.tables (b / 1024) = true))

/-- The block is written and clean, or it was not in memory. -/
theorem flushPage_cases (h : flushPage va c = .ok c') :
    c.mapped (va / 4096) = true ∧ c' = (c.written (va / 4096)).cleaned (va / 4096) ∨
      c.mapped (va / 4096) = false ∧ c' = c := by
  unfold flushPage at h
  dsimp only at h
  split at h
  · rename_i hm
    cases h
    exact .inl ⟨hm, rfl⟩
  · rename_i hm
    split at h
    · cases h
      exact .inr ⟨Bool.not_eq_true _ ▸ hm, rfl⟩
    · cases h

theorem flushPage_clean (h : flushPage va c = .ok c') : ¬ Stale c' (va / 4096) := by
  rintro ⟨hm, hd⟩
  rcases flushPage_cases h with ⟨-, rfl⟩ | ⟨hno, rfl⟩
  · have hd : (c.dirty (va / 4096) && decide (va / 4096 ≠ va / 4096)) = true := hd
    rw [decide_eq_false (not_not.mpr rfl), Bool.and_false] at hd
    cases hd
  · exact absurd (hno.symm.trans hm) (by decide)

theorem flushPage_others (h : flushPage va c = .ok c') (hb : b ≠ va / 4096) :
    SameBlock c c' b := by
  rcases flushPage_cases h with ⟨-, rfl⟩ | ⟨-, rfl⟩
  · exact sameBlock_flushed hb
  · exact .refl _ b

/-- What a flush leaves as it is, all blocks taken together. -/
theorem flushPage_keeps (h : flushPage va c = .ok c') :
    c'.mem = c.mem ∧ c'.mapped = c.mapped ∧ c'.tables = c.tables ∧ c'.view = c.view := by
  rcases flushPage_cases h with ⟨hm, rfl⟩ | ⟨-, rfl⟩
  · exact ⟨rfl, rfl, rfl, Cache.view_written hm⟩
  · exact ⟨rfl, rfl, rfl, rfl⟩

theorem flushWorks_iff (hc : Paged c) : FlushWorks va c ↔ FlushReady c (va / 4096) := by
  unfold FlushWorks FlushReady
  rw [flush_guard_eq hc]
  rcases c.mapped (va / 4096) with _ | _
  · rcases c.tables (va / 4096 / 1024) with _ | _
    · exact ⟨fun h => (by cases h), fun h => (by cases h)⟩
    · exact ⟨fun _ => rfl, fun _ => rfl⟩
  · rcases c.dirty (va / 4096) with _ | _
    · exact ⟨fun h => (by cases h), fun h => (by cases h)⟩
    · exact ⟨fun _ => rfl, fun _ => rfl⟩

/-- A ready block is flushed. -/
theorem flushPage_ready (h : FlushReady c (va / 4096)) : ∃ c', flushPage va c = .ok c' := by
  unfold FlushReady at h
  unfold flushPage
  dsimp only
  rcases hm : c.mapped (va / 4096) with _ | _
  · rw [hm, if_neg Bool.false_ne_true] at h
    rw [h]
    exact ⟨_, rfl⟩
  · exact ⟨_, rfl⟩

theorem FlushReady.congr (hm : c'.mapped b = c.mapped b) (hd : c'.dirty b = c.dirty b)
    (ht : c'.tables (b / 1024) = c.tables (b / 1024)) : FlushReady c' b ↔ FlushReady c b := by
  unfold FlushReady
  rw [hm, hd, ht]

/-! ## Reading the super block and the bitmap -/

variable {R : Nat → Cache → Prop}

theorem cached_s_nblocks (h : c.mapped 1 = true) : s_nblocks.Cached c :=
  cached_loadWord h (by decide)

theorem run_s_nblocks_ok (h : c.mapped 1 = true) :
    P.run s_nblocks c = .ok (c.view.word (super + 4), c) := Pager.run_cached (cached_s_nblocks h)

theorem goes_s_nblocks {Q : Word → Cache → Prop} (h : c.mapped 1 = true) :
    P.Goes R Q s_nblocks c ↔ Q (c.view.word (super + 4)) c :=
  Pager.goes_cached (m := c.view) (cached_s_nblocks h) rfl

theorem goes_diskaddr {Q : Nat → Cache → Prop} (h : c.mapped 1 = true) {w : Word} (hw : w ≠ 0)
    (hn : w.toNat < numBlocks c.view) : P.Goes R Q (diskaddr w) c ↔ Q (4096 * w.toNat) c := by
  refine Pager.goes_cached ?_ (flat_diskaddr_ok hw hn)
  unfold diskaddr
  split
  · trivial
  · refine (cached_s_nblocks h).bind fun r m _ => ?_
    split
    · trivial
    · trivial

theorem bitmapWord_page (hb : b < 2 ^ 32) :
    bitmapWord (BitVec.ofNat 32 b) / 4096 = 2 + b / 32768 ∧
      bitmapWord (BitVec.ofNat 32 b) % 4096 + 4 ≤ 4096 := by
  unfold bitmapWord bitmap
  rw [BitVec.toNat_ofNat, Nat.mod_eq_of_lt hb]
  omega

theorem cached_block_is_free (h : c.mapped 1 = true) (hb : b < 2 ^ 32)
    (hm : c.mapped (2 + b / 32768) = true) : (block_is_free (BitVec.ofNat 32 b)).Cached c := by
  refine (cached_s_nblocks h).bind fun w m hw => ?_
  split
  · trivial
  · obtain ⟨hpage, hfit⟩ := bitmapWord_page hb
    exact (cached_loadWord (by rw [hpage]; exact hm) hfit).bind fun w m _ => trivial

theorem toNat_block (hi : i < 2 ^ 32) : (BitVec.ofNat 32 i).toNat = i := by
  rw [BitVec.toNat_ofNat, Nat.mod_eq_of_lt hi]

/-! ## fs_sync -/

theorem goes_fs_sync_turn {Q : Unit → Cache → Prop} (hm : c.mapped 1 = true) (hi : 0 < i)
    (hin : i < numBlocks c.view) (hsmall : numBlocks c.view ≤ 0xC0000) :
    P.Goes R Q (fs_sync_from (left + 1) i) c ↔ R (4096 * i) c ∧
      ∃ c₁, P.flush (4096 * i) c = .ok c₁ ∧ P.Goes R Q (fs_sync_from left (i + 1)) c₁ := by
  have hv : (BitVec.ofNat 32 i).toNat = i := toNat_block (by omega)
  have hne : BitVec.ofNat 32 i ≠ 0 := word_ne_zero.mpr (by omega)
  rw [fs_sync_from, Pager.goes_bind, goes_s_nblocks hm,
    if_neg (show ¬ (c.view.word (super + 4)).toNat ≤ i by unfold numBlocks at hin; omega),
    Pager.goes_bind, goes_diskaddr hm hne (by omega), hv, flush_block,
    if_neg (by unfold DISKSIZE; omega)]
  exact Iff.rfl

theorem goes_fs_sync_end {Q : Unit → Cache → Prop} (hm : c.mapped 1 = true)
    (hin : numBlocks c.view ≤ i) : P.Goes R Q (fs_sync_from left i) c ↔ Q () c := by
  cases left with
  | zero => exact Iff.rfl
  | succ left =>
    rw [fs_sync_from, Pager.goes_bind, goes_s_nblocks hm,
      if_pos (show (c.view.word (super + 4)).toNat ≤ i from hin)]
    exact Iff.rfl

/-- The loop has been through the blocks from `i` on. -/
structure Synced (i : Nat) (c c' : Cache) : Prop where
  mem : c'.mem = c.mem
  clean : ∀ b, i ≤ b → b < numBlocks c.view → ¬ Stale c' b
  others : ∀ b, b < i ∨ numBlocks c.view ≤ b → SameBlock c c' b

theorem Synced.refl (h : numBlocks c.view ≤ i) : Synced i c c :=
  ⟨rfl, fun b hb hlt => by omega, fun b _ => .refl c b⟩

theorem Paged.flushed (hc : Paged c) (h : flushPage va c = .ok c') : Paged c' := by
  obtain ⟨-, hmapped, htables, -⟩ := flushPage_keeps h
  intro b hb
  rw [htables]
  exact hc b (by rw [← hmapped]; exact hb)

/-- A flush changes nothing for the other blocks. -/
theorem ready_flushed (h : flushPage (4096 * i) c = .ok c') (hb : b ≠ i) :
    FlushReady c' b ↔ FlushReady c b := by
  have hsame := flushPage_others (b := b) h (by omega)
  exact FlushReady.congr hsame.mapped hsame.dirty (by rw [(flushPage_keeps h).2.2.1])

theorem ready_of_goes {Q : Unit → Cache → Prop} (hc : Paged c) (hm : c.mapped 1 = true)
    (hi : 0 < i) (hsmall : numBlocks c.view ≤ 0xC0000) (hleft : numBlocks c.view ≤ i + left)
    (h : bc.Goes FlushWorks Q (fs_sync_from left i) c) (hb : i ≤ b) (hlt : b < numBlocks c.view) :
    FlushReady c b := by
  induction left generalizing i c with
  | zero => omega
  | succ left ih =>
    obtain ⟨hworks, c₁, h₁, hgo⟩ := (goes_fs_sync_turn hm hi (by omega) hsmall).mp h
    rcases Nat.eq_or_lt_of_le hb with rfl | hb
    · rwa [flushWorks_iff hc, Nat.mul_div_cancel_left _ (by omega)] at hworks
    · obtain ⟨-, hmapped, -, hview⟩ := flushPage_keeps h₁
      refine (ready_flushed h₁ (by omega)).mp (ih (hc.flushed h₁) ?_ (by omega) ?_ ?_ hgo hb ?_)
      · rw [hmapped]
        exact hm
      · rw [hview]
        exact hsmall
      · rw [hview]
        omega
      · rw [hview]
        exact hlt

theorem goes_of_ready (hc : Paged c) (hm : c.mapped 1 = true) (hi : 0 < i)
    (hsmall : numBlocks c.view ≤ 0xC0000) (hleft : numBlocks c.view ≤ i + left)
    (h : ∀ b, i ≤ b → b < numBlocks c.view → FlushReady c b) :
    bc.Goes FlushWorks (fun _ c' => Synced i c c') (fs_sync_from left i) c := by
  induction left generalizing i c with
  | zero => exact .refl (by omega)
  | succ left ih =>
    by_cases hin : i < numBlocks c.view
    · have hblock : 4096 * i / 4096 = i := Nat.mul_div_cancel_left _ (by omega)
      have hready : FlushReady c (4096 * i / 4096) := by
        rw [hblock]
        exact h i le_rfl hin
      obtain ⟨c₁, h₁⟩ := flushPage_ready hready
      obtain ⟨hmem, hmapped, -, hview⟩ := flushPage_keeps h₁
      have hrest := ih (c := c₁) (i := i + 1) (hc.flushed h₁) (by rw [hmapped]; exact hm) (by omega)
        (by rw [hview]; exact hsmall) (by rw [hview]; omega) (by
          intro b hb hlt
          rw [hview] at hlt
          exact (ready_flushed h₁ (by omega)).mpr (h b (by omega) hlt))
      refine (goes_fs_sync_turn hm hi hin hsmall).mpr
        ⟨(flushWorks_iff hc).mpr hready, c₁, h₁, hrest.mono fun _ c' hs => ?_⟩
      have hothers := hs.others
      rw [hview] at hothers
      refine ⟨hs.mem.trans hmem, fun b hb hlt => ?_, fun b hb => ?_⟩
      · rcases Nat.eq_or_lt_of_le hb with rfl | hb
        · have hsame := hothers i (.inl (by omega))
          have hstale := flushPage_clean h₁
          rw [hblock] at hstale
          rintro ⟨hm', hd'⟩
          exact hstale ⟨hsame.mapped ▸ hm', hsame.dirty ▸ hd'⟩
        · exact hs.clean b hb (by rw [hview]; exact hlt)
      · exact (flushPage_others h₁ (by omega)).trans (hothers b (by omega))
    · exact (goes_fs_sync_end hm (by omega)).mpr (.refl (by omega))

/-- The super block cannot be brought in through `s_nblocks`, which is not its first byte. -/
theorem mapped_of_goes {β : Type} {Q : β → Cache → Prop} {f : Word → Io β}
    (h : bc.Goes R Q (s_nblocks >>= f) c) : c.mapped 1 = true := by
  obtain ⟨c₁, htouch, -⟩ := h
  obtain ⟨c₂, hfirst⟩ := Pager.touchAll_first htouch
  by_contra hm
  rw [Pager.touch, if_neg (show ¬ c.mapped ((super + 4) / 4096) = true from hm)] at hfirst
  exact absurd (bc_pgfault_aligned hfirst) (by decide)

/-! ## alloc_block -/

/-- The handler brings a block in that exists and is in use, if the word of the bitmap for
it can be read. -/
theorem bc_pgfault_loads {room : Nat} (hm : c.mapped 1 = true) (hb : b < numBlocks c.view)
    (hsmall : numBlocks c.view ≤ 0xC0000) (hno : c.mapped b = false)
    (hbit : c.mapped (2 + b / 32768) = true ∨ 2 + b / 32768 = b)
    (hused : isFree c.view b = false) :
    bc_pgfault (room + 1) (4096 * b) c = .ok ((c.loaded b).cleaned b) := by
  have hblock : 4096 * b / 4096 = b := Nat.mul_div_cancel_left _ (by omega)
  have hview : ((c.loaded b).cleaned b).view = c.view := Cache.view_loaded hno
  have hsuper : ((c.loaded b).cleaned b).mapped 1 = true := by
    show (c.mapped 1 || decide (1 = b)) = true
    rw [hm, Bool.true_or]
  have hword : ((c.loaded b).cleaned b).mapped (2 + b / 32768) = true := by
    show (c.mapped (2 + b / 32768) || decide (2 + b / 32768 = b)) = true
    rcases hbit with h | h
    · rw [h, Bool.true_or]
    · rw [decide_eq_true h, Bool.or_true]
  rw [bc_pgfault]
  dsimp only
  rw [if_neg (by unfold DISKSIZE; omega), run_s_nblocks_ok hm]
  show (if (c.view.word (super + 4)).toNat ≤ 4096 * b / 4096 then _ else _) = _
  rw [hblock, if_neg (show ¬ (c.view.word (super + 4)).toNat ≤ b by unfold numBlocks at hb; omega),
    if_neg (by omega), Pager.run_cached (cached_block_is_free hsuper (by omega) hword),
    flat_block_is_free b (by omega), hview, hused, Bool.and_false]
  rfl

/-- What reading the bitmap from its start may do to the cache: blocks of the bitmap are
brought in. -/
structure Scanned (c c' : Cache) : Prop where
  view : c'.view = c.view
  disk : c'.disk = c.disk
  tables : c'.tables = c.tables
  others : ∀ b, b < 2 ∨ firstBlock c.view ≤ b → SameBlock c c' b
  kept : ∀ b, c.mapped b = true → c'.mapped b = true
  paged : Paged c'

theorem Scanned.refl (hc : Paged c) : Scanned c c :=
  ⟨rfl, rfl, rfl, fun b _ => .refl c b, fun _ h => h, hc⟩

theorem Scanned.trans {c₁ c₂ : Cache} (h : Scanned c c₁) (h' : Scanned c₁ c₂) : Scanned c c₂ where
  view := h'.view.trans h.view
  disk := h'.disk.trans h.disk
  tables := h'.tables.trans h.tables
  others := fun b hb => (h.others b hb).trans (h'.others b (by rw [h.view]; exact hb))
  kept := fun b hb => h'.kept b (h.kept b hb)
  paged := h'.paged

theorem scanned_loaded (hc : Paged c) (hm : c.mapped 1 = true) (hno : c.mapped b = false)
    (h2 : 2 ≤ b) (hb : b < firstBlock c.view) (hsmall : numBlocks c.view ≤ 0xC0000) :
    Scanned c ((c.loaded b).cleaned b) := by
  have htable : b / 1024 = 0 := by
    unfold firstBlock at hb
    omega
  have htables : ((c.loaded b).cleaned b).tables = c.tables := by
    funext t
    show (c.tables t || decide (t = b / 1024)) = c.tables t
    by_cases ht : t = b / 1024
    · rw [ht, htable, hc 1 hm, Bool.true_or]
    · rw [decide_eq_false ht, Bool.or_false]
  refine ⟨Cache.view_loaded hno, rfl, htables,
    fun b' hb' => ⟨?_, ?_, fun x hx => ?_, fun x hx => rfl⟩, fun b' hb' => ?_, fun b' hb' => ?_⟩
  · show (c.mapped b' || decide (b' = b)) = c.mapped b'
    rw [decide_eq_false (by omega), Bool.or_false]
  · show ((c.dirty b' || decide (b' = b)) && decide (b' ≠ b)) = c.dirty b'
    rw [decide_eq_false (by omega), decide_eq_true (by omega), Bool.or_false, Bool.and_true]
  · show (if x / 4096 = b then c.disk x else c.mem x) = c.mem x
    rw [if_neg (by omega)]
  · show (c.mapped b' || decide (b' = b)) = true
    rw [hb', Bool.true_or]
  · rw [htables]
    have hb' : (c.mapped b' || decide (b' = b)) = true := hb'
    rcases Bool.or_eq_true_iff.mp hb' with h | h
    · exact hc b' h
    · rw [of_decide_eq_true h, htable]
      exact hc 1 hm

/-- How far the bitmap is in memory when the loop of `alloc_block` gets to `i`. -/
structure Scanning (i : Nat) (c : Cache) : Prop where
  super : c.mapped 1 = true
  first : i = 0 ∨ c.mapped 2 = true
  page : i % 32768 = 0 ∨ c.mapped (2 + i / 32768) = true

/-- The disk is one that `fs_init` takes: `diskaddr(2)` is a block of it, and `check_super`
and `check_bitmap` pass. -/
structure Mounted (m : Mem) : Prop where
  bitmap : 3 ≤ numBlocks m
  size : numBlocks m ≤ DISKSIZE / BLKSIZE
  reserved : ∀ b < firstBlock m, b < numBlocks m → isFree m b = false

theorem firstBlock_page {m : Mem} (hb : b < numBlocks m) : 2 + b / 32768 < firstBlock m := by
  unfold firstBlock
  omega

theorem Scanning.next (h : Scanning i c) (hm : c.mapped (2 + i / 32768) = true) :
    Scanning (i + 1) c := by
  refine ⟨h.super, .inr ?_, ?_⟩
  · rcases h.first with rfl | h
    · exact hm
    · exact h
  · by_cases hi : (i + 1) % 32768 = 0
    · exact .inl hi
    · rw [show (i + 1) / 32768 = i / 32768 by omega]
      exact .inr hm

/-- One look at the bitmap, whose word is in block `w`. If that block is not in memory, it is
first touched at its first byte. -/
theorem scan_turn {w : Nat} (hw : 2 + i / 32768 = w) (hc : Paged c) (hmount : Mounted c.view)
    (h : Scanning i c) (hi : i < numBlocks c.view) :
    ∃ c₁, (∀ R Q, bc.Goes R Q (block_is_free (BitVec.ofNat 32 i)) c ↔ Q (isFree c.view i) c₁) ∧
      Scanned c c₁ ∧ Scanning (i + 1) c₁ ∧ c₁.mapped w = true := by
  have hsize : numBlocks c.view ≤ 0xC0000 := hmount.size
  have hfree : ∀ c₁, c₁.view = c.view → Scanning (i + 1) c₁ → c₁.mapped w = true →
      ∀ R Q, bc.Goes R Q (block_is_free (BitVec.ofNat 32 i)) c₁ ↔ Q (isFree c.view i) c₁ := by
    intro c₁ hview hnext hm R Q
    rw [Pager.goes_cached (cached_block_is_free hnext.super (by omega) (hw ▸ hm))
      (flat_block_is_free i (by omega)), hview, decide_eq_true hi, Bool.true_and]
  rcases hm : c.mapped w with _ | _
  · have hstart : i % 32768 = 0 :=
      h.page.resolve_right (by rw [hw, hm]; exact Bool.false_ne_true)
    have hb3 := hmount.bitmap
    have hlast : w < firstBlock c.view := hw ▸ firstBlock_page hi
    have hexists : w < numBlocks c.view := by omega
    have hfault : bc.fault (4096 * w) c = .ok ((c.loaded w).cleaned w) := by
      refine bc_pgfault_loads h.super hexists hsize hm ?_ (hmount.reserved _ hlast hexists)
      rw [show 2 + w / 32768 = 2 by omega]
      rcases h.first with rfl | h₂
      · exact .inr hw
      · exact .inl h₂
    have hscan := scanned_loaded hc h.super hm (by omega) hlast hsize
    have hmapped : ((c.loaded w).cleaned w).mapped w = true := by
      show (c.mapped w || decide (w = w)) = true
      rw [decide_eq_true rfl, Bool.or_true]
    have hnext : Scanning (i + 1) ((c.loaded w).cleaned w) :=
      Scanning.next ⟨hscan.kept 1 h.super, h.first.imp_right (hscan.kept 2), .inl hstart⟩
        (hw ▸ hmapped)
    refine ⟨_, fun R Q => ?_, hscan, hnext, hmapped⟩
    -- the load of the word is the first access to its page
    have hv : (BitVec.ofNat 32 i).toNat = i := toNat_block (by omega)
    obtain ⟨hpage, hfit⟩ := bitmapWord_page (b := i) (by omega)
    have haddr : bitmapWord (BitVec.ofNat 32 i) = 4096 * w := by
      unfold bitmapWord bitmap
      rw [hv]
      omega
    rw [← hfree _ hscan.view hnext hmapped R Q]
    unfold block_is_free
    rw [Pager.goes_bind, goes_s_nblocks h.super, Pager.goes_bind, goes_s_nblocks hnext.super,
      hscan.view, if_neg (by rw [BitVec.le_def, hv]; exact not_le.mpr hi), Pager.goes_bind,
      Pager.goes_bind]
    rw [hw] at hpage
    exact Pager.goes_loadWord_fault (by rw [hpage]; exact hm) hfit (by rw [haddr]; exact hfault)
      (by rw [hpage]; exact hmapped)
  · exact ⟨c, hfree c rfl (h.next (hw ▸ hm)) hm, .refl hc, h.next (hw ▸ hm), hm⟩

/-- The first free block. -/
structure NextFree (m : Mem) (b : Nat) : Prop where
  lt : b < numBlocks m
  free : isFree m b = true
  before : ∀ j < b, isFree m j = false

theorem NextFree.unique {m : Mem} {b' : Nat} (h : NextFree m b) (h' : NextFree m b') : b = b' := by
  rcases Nat.lt_trichotomy b b' with hlt | he | hlt
  · exact absurd (h.free.symm.trans (h'.before b hlt)) (by decide)
  · exact he
  · exact absurd (h'.free.symm.trans (h.before b' hlt)) (by decide)

/-- The cache with the bit of a block cleared in the bitmap. -/
def marked (c : Cache) (b : Nat) : Cache :=
  c.wrote (bitmapWord (BitVec.ofNat 32 b))
    (bytes (c.view.word (bitmapWord (BitVec.ofNat 32 b)) &&& ~~~(bitmapBit (BitVec.ofNat 32 b))))

theorem numBlocks_marked (hb : b < 2 ^ 32) (hm : c.mapped (2 + b / 32768) = true) :
    numBlocks (marked c b).view = numBlocks c.view := by
  obtain ⟨hpage, hfit⟩ := bitmapWord_page hb
  unfold marked
  rw [Cache.view_wrote]
  · unfold numBlocks
    rw [Mem.word_store_out (.inl ?_)]
    unfold bitmapWord bitmap super
    omega
  · intro k hk
    have hk : k < 4 := hk
    rw [show (bitmapWord (BitVec.ofNat 32 b) + k) / 4096 = 2 + b / 32768 by omega]
    exact hm

/-- Only a block of the bitmap is written to. -/
theorem marked_same (hb : b < 2 ^ 32) {b' : Nat} (hb' : b' ≠ 2 + b / 32768) :
    SameBlock c (marked c b) b' := by
  obtain ⟨hpage, hfit⟩ := bitmapWord_page hb
  refine ⟨rfl, ?_, fun x hx => ?_, fun x hx => rfl⟩
  · show (c.dirty b' || hit _ 4 b') = c.dirty b'
    have hhit : hit (bitmapWord (BitVec.ofNat 32 b)) 4 b' = false := by
      refine decide_eq_false ?_
      omega
    rw [hhit, Bool.or_false]
  · refine Mem.store_out ?_
    show x < bitmapWord (BitVec.ofNat 32 b) ∨ bitmapWord (BitVec.ofNat 32 b) + 4 ≤ x
    omega

/-- What `alloc_block` does with the free block that it finds. -/
def takeBlock (b : Word) : Io Word := do
  let w ← loadWord (bitmapWord b)
  storeWord (bitmapWord b) (w &&& ~~~(bitmapBit b))
  let va ← diskaddr b
  flush_block va
  pure b

theorem goes_takeBlock {Q : Word → Cache → Prop} (hsuper : c.mapped 1 = true)
    (hm : c.mapped (2 + b / 32768) = true) (hpos : 0 < b) (hb : b < numBlocks c.view)
    (hsmall : numBlocks c.view ≤ 0xC0000) :
    bc.Goes R Q (takeBlock (BitVec.ofNat 32 b)) c ↔ R (4096 * b) (marked c b) ∧
      ∃ c₂, flushPage (4096 * b) (marked c b) = .ok c₂ ∧ Q (BitVec.ofNat 32 b) c₂ := by
  have hlt : b < 2 ^ 32 := by omega
  obtain ⟨hpage, hfit⟩ := bitmapWord_page hlt
  have hv := toNat_block hlt
  have hne : BitVec.ofNat 32 b ≠ 0 := word_ne_zero.mpr (by omega)
  have hword : c.mapped (bitmapWord (BitVec.ofNat 32 b) / 4096) = true := by
    rw [hpage]
    exact hm
  have hsuper' : (marked c b).mapped 1 = true := hsuper
  rw [takeBlock, Pager.goes_bind,
    Pager.goes_cached (m := c.view) (cached_loadWord hword hfit) rfl,
    Pager.goes_bind, Pager.goes_storeWord hword hfit, Pager.goes_bind]
  show bc.Goes R _ (diskaddr _) (marked c b) ↔ _
  rw [goes_diskaddr hsuper' hne (by rw [numBlocks_marked hlt hm, hv]; exact hb), hv, flush_block,
    if_neg (by unfold DISKSIZE; omega)]
  exact Iff.rfl

/-- What the loop of `alloc_block` does after it has read the bitmap: nothing, or it takes
the first free block. -/
inductive Allocates (c c₁ : Cache) (p : Io Word) : Prop
  | none (full : ∀ j < numBlocks c.view, isFree c.view j = false)
      (goes : ∀ R Q, bc.Goes R Q p c ↔ Q (BitVec.ofInt 32 (-E_NO_DISK)) c₁)
  | some (b : Nat) (next : NextFree c.view b)
      (goes : ∀ R Q, bc.Goes R Q p c ↔ R (4096 * b) (marked c₁ b) ∧
        ∃ c₂, flushPage (4096 * b) (marked c₁ b) = .ok c₂ ∧ Q (BitVec.ofNat 32 b) c₂)

/-- Another program that goes as this one does, from a cache that the bitmap was read in. -/
theorem Allocates.of_iff {c₁ c₂ : Cache} {p p' : Io Word} (h : Allocates c₁ c₂ p)
    (hview : c₁.view = c.view) (hgoes : ∀ R Q, bc.Goes R Q p' c ↔ bc.Goes R Q p c₁) :
    Allocates c c₂ p' := by
  rcases h with ⟨hfull, hg⟩ | ⟨b, hb, hg⟩
  · exact .none (hview ▸ hfull) fun R Q => (hgoes R Q).trans (hg R Q)
  · exact .some b (hview ▸ hb) fun R Q => (hgoes R Q).trans (hg R Q)

theorem alloc_scan (hc : Paged c) (hmount : Mounted c.view) (h : Scanning i c)
    (hleft : numBlocks c.view ≤ i + left) (hbefore : ∀ j < i, isFree c.view j = false) :
    ∃ c₁, Scanned c c₁ ∧ Allocates c c₁ (alloc_block_from left i) := by
  induction left generalizing i c with
  | zero => exact ⟨c, .refl hc, .none (fun j hj => hbefore j (by omega)) fun R Q => Iff.rfl⟩
  | succ left ih =>
    have hsize : numBlocks c.view ≤ 0xC0000 := hmount.size
    by_cases hi : i < numBlocks c.view
    · obtain ⟨c₁, hrun, hscan, hnext, hpage⟩ := scan_turn rfl hc hmount h hi
      have hturn : ∀ R Q, bc.Goes R Q (alloc_block_from (left + 1) i) c ↔
          bc.Goes R Q (if isFree c.view i then takeBlock (BitVec.ofNat 32 i)
            else alloc_block_from left (i + 1)) c₁ := by
        intro R Q
        rw [alloc_block_from, Pager.goes_bind, goes_s_nblocks h.super,
          if_neg (show ¬ (c.view.word (super + 4)).toNat ≤ i from not_le.mpr hi), Pager.goes_bind,
          hrun]
        rfl
      rcases hfree : isFree c.view i with _ | _
      · -- the block is in use: the rest of the loop
        rw [hfree] at hturn
        obtain ⟨c₂, hscan₂, hrest⟩ := ih (c := c₁) (i := i + 1) hscan.paged
          (by rw [hscan.view]; exact hmount) hnext (by rw [hscan.view]; omega) (by
            intro j hj
            rw [hscan.view]
            rcases Nat.eq_or_lt_of_le (Nat.lt_succ_iff.mp hj) with rfl | hlt
            · exact hfree
            · exact hbefore j hlt)
        exact ⟨c₂, hscan.trans hscan₂, hrest.of_iff hscan.view hturn⟩
      · rw [hfree] at hturn
        have hpos : 0 < i := by
          rcases Nat.eq_zero_or_pos i with rfl | hpos
          · rw [hmount.reserved 0 (by unfold firstBlock; omega) hi] at hfree
            cases hfree
          · exact hpos
        refine ⟨c₁, hscan, .some i ⟨hi, hfree, hbefore⟩ fun R Q => (hturn R Q).trans ?_⟩
        exact goes_takeBlock hnext.super hpage hpos (by rw [hscan.view]; exact hi)
          (by rw [hscan.view]; exact hsize)
    · refine ⟨c, .refl hc, .none (fun j hj => hbefore j (by omega)) fun R Q => ?_⟩
      rw [alloc_block_from, Pager.goes_bind, goes_s_nblocks h.super,
        if_pos (show (c.view.word (super + 4)).toNat ≤ i from not_lt.mp hi)]
      exact Iff.rfl

theorem alloc_block_cases (hc : Paged c) (hmount : Mounted c.view) (hm : c.mapped 1 = true) :
    ∃ c₁, Scanned c c₁ ∧ Allocates c c₁ alloc_block := by
  obtain ⟨c₁, hscan, hcases⟩ := @alloc_scan c 0 (numBlocks c.view) hc hmount
    ⟨hm, .inl rfl, .inl rfl⟩ (by omega) (fun j hj => absurd hj (by omega))
  refine ⟨c₁, hscan, hcases.of_iff rfl fun R Q => ?_⟩
  rw [alloc_block, Pager.goes_bind, goes_s_nblocks hm]
  exact Iff.rfl

/-! ## When flushing works -/

/-- `fs_sync` gets through, every flush of it works, no block of the disk is dirty after it,
and nothing else is changed. -/
def SyncWorks (c : Cache) : Prop := bc.Goes FlushWorks (fun _ c' => Synced 1 c c') fs_sync c

/-- What `alloc_block` leaves: the block that it returns is not dirty, and apart from the bitmap
in memory nothing else is changed. -/
structure Alloced (c : Cache) (r : Word) (c' : Cache) : Prop where
  clean : 0 ≤ r.toInt → ¬ Stale c' r.toNat
  disk : ∀ x, x / 4096 ≠ r.toNat → c'.disk x = c.disk x
  others : ∀ b, b < 2 ∨ firstBlock c.view ≤ b → b ≠ r.toNat → SameBlock c c' b

/-- `alloc_block` gets through, and its flush works. -/
def AllocWorks (c : Cache) : Prop := bc.Goes FlushWorks (Alloced c) alloc_block c

theorem syncWorks_iff (hc : Paged c) (hsize : numBlocks c.view ≤ 0xC0000) : SyncWorks c ↔
    c.mapped 1 = true ∧ ∀ b, 1 ≤ b → b < numBlocks c.view → FlushReady c b := by
  have hloop : c.mapped 1 = true → (SyncWorks c ↔ bc.Goes FlushWorks (fun _ c' => Synced 1 c c')
      (fs_sync_from (numBlocks c.view) 1) c) := fun hm => by
    unfold SyncWorks
    rw [fs_sync, Pager.goes_bind, goes_s_nblocks hm]
    exact Iff.rfl
  constructor
  · intro h
    have hm : c.mapped 1 = true := mapped_of_goes h
    exact ⟨hm, fun b hb hlt => ready_of_goes hc hm (by omega) hsize (by omega) ((hloop hm).mp h)
      hb hlt⟩
  · rintro ⟨hm, hready⟩
    exact (hloop hm).mpr (goes_of_ready hc hm (by omega) hsize (by omega) hready)

/-- A free block is behind the bitmap. -/
theorem NextFree.bounds {m : Mem} (hmount : Mounted m) (h : NextFree m b) :
    b < 2 ^ 32 ∧ 2 + b / 32768 < firstBlock m ∧ firstBlock m ≤ b := by
  have hsize : numBlocks m ≤ 0xC0000 := hmount.size
  have hlt := h.lt
  refine ⟨by omega, firstBlock_page hlt, ?_⟩
  by_contra hfirst
  have hused := hmount.reserved b (by omega) hlt
  rw [h.free] at hused
  cases hused

/-- The block is as it was, when it gets to be flushed. -/
theorem ready_marked {c₁ : Cache} (hmount : Mounted c.view) (h : NextFree c.view b)
    (hscan : Scanned c c₁) : FlushReady (marked c₁ b) b ↔ FlushReady c b := by
  obtain ⟨hlt, hpage, hfirst⟩ := h.bounds hmount
  have hsame := (hscan.others b (.inr hfirst)).trans (marked_same hlt (by omega))
  refine FlushReady.congr hsame.mapped hsame.dirty ?_
  show c₁.tables (b / 1024) = _
  rw [hscan.tables]

theorem Alloced.of_flush {c₁ : Cache} (hmount : Mounted c.view) (h : NextFree c.view b)
    (hscan : Scanned c c₁) (hflush : flushPage (4096 * b) (marked c₁ b) = .ok c') :
    Alloced c (BitVec.ofNat 32 b) c' := by
  obtain ⟨hlt, hpage, hfirst⟩ := h.bounds hmount
  have hv := toNat_block hlt
  refine ⟨fun _ => ?_, fun x hx => ?_, fun b' hb' hne => ?_⟩
  · have hclean := flushPage_clean hflush
    rwa [Nat.mul_div_cancel_left _ (by omega), ← hv] at hclean
  · rw [hv] at hx
    rw [(flushPage_others (b := x / 4096) hflush (by omega)).disk x rfl]
    show c₁.disk x = c.disk x
    rw [hscan.disk]
  · rw [hv] at hne
    exact ((hscan.others b' hb').trans (marked_same hlt (by omega))).trans
      (flushPage_others hflush (by omega))

theorem allocWorks_iff (hc : Paged c) (hmount : Mounted c.view) : AllocWorks c ↔
    c.mapped 1 = true ∧ ∀ b, NextFree c.view b → FlushReady c b := by
  have hworks : ∀ {c₁}, Scanned c c₁ → ∀ b, NextFree c.view b →
      (FlushWorks (4096 * b) (marked c₁ b) ↔ FlushReady c b) := by
    intro c₁ hscan b hb
    rw [flushWorks_iff (c := marked c₁ b) hscan.paged, Nat.mul_div_cancel_left _ (by omega),
      ready_marked hmount hb hscan]
  constructor
  · intro h
    have hm : c.mapped 1 = true := mapped_of_goes h
    refine ⟨hm, fun b hb => ?_⟩
    obtain ⟨c₁, hscan, ⟨hfull, -⟩ | ⟨b', hb', hg⟩⟩ := alloc_block_cases hc hmount hm
    · exact absurd (hb.free.symm.trans (hfull b hb.lt)) (by decide)
    · obtain rfl := hb.unique hb'
      exact (hworks hscan b hb).mp ((hg _ _).mp h).1
  · rintro ⟨hm, hready⟩
    obtain ⟨c₁, hscan, ⟨hfull, hg⟩ | ⟨b, hb, hg⟩⟩ := alloc_block_cases hc hmount hm
    · exact (hg _ _).mpr ⟨fun hpos => absurd hpos (by decide), fun x _ => by rw [hscan.disk],
        fun b hb _ => hscan.others b hb⟩
    · have hready' : FlushReady (marked c₁ b) (4096 * b / 4096) := by
        rw [Nat.mul_div_cancel_left _ (by omega)]
        exact (ready_marked hmount hb hscan).mpr (hready b hb)
      obtain ⟨c₂, h₂⟩ := flushPage_ready hready'
      exact (hg _ _).mpr ⟨(hworks hscan b hb).mpr (hready b hb), c₂, h₂,
        .of_flush hmount hb hscan h₂⟩

/-- `fs_sync` and `alloc_block` flush as they should exactly if the super block is in memory
and every block that they flush is dirty, or is not in memory but has a page table. -/
theorem flushing_works_iff (c : Cache) (hc : Paged c)
    (hsize : numBlocks c.view ≤ DISKSIZE / BLKSIZE) :
    (SyncWorks c ↔ c.mapped 1 = true ∧ ∀ b, 1 ≤ b → b < numBlocks c.view → FlushReady c b) ∧
    (Mounted c.view →
      (AllocWorks c ↔ c.mapped 1 = true ∧ ∀ b, NextFree c.view b → FlushReady c b)) :=
  ⟨syncWorks_iff hc hsize, fun hmount => allocWorks_iff hc hmount⟩

/-- A disk of which only the super block is in memory. Block 5 is free. -/
def superOnly (dirty : Bool) (nblocks : Word) : Cache where
  disk := ((smallDisk 1).setWord (super + 4) nblocks).setWord bitmap 32
  mem := ((smallDisk 1).setWord (super + 4) nblocks).setWord bitmap 32
  mapped := fun b => decide (b = 1)
  dirty := fun b => decide (b = 1) && dirty
  tables := fun t => decide (t = 0)

theorem paged_superOnly (d : Bool) (n : Word) : Paged (superOnly d n) := by
  intro b hb
  have hb : b = 1 := of_decide_eq_true hb
  rw [hb]
  rfl

theorem numBlocks_superOnly (d : Bool) (n : Word) :
    numBlocks (superOnly d n).view = n.toNat := by
  have hword : (superOnly d n).view.word (super + 4) = (superOnly d n).mem.word (super + 4) := by
    refine Mem.word_congr fun x hx hx' => Cache.view_of_mapped (decide_eq_true ?_)
    simp only [super] at hx hx'
    omega
  have hval : (superOnly d n).mem.word (super + 4) = n := by
    rw [superOnly, Mem.word_setWord_out (.inl (by decide)), Mem.word_setWord]
  rw [numBlocks, hword, hval]

theorem flushing_works_small : SyncWorks (superOnly true 8) ∧ AllocWorks (superOnly true 8) := by
  have hn : numBlocks (superOnly true 8).view = 8 := numBlocks_superOnly true 8
  have hsize : numBlocks (superOnly true 8).view ≤ DISKSIZE / BLKSIZE := by
    rw [hn]
    decide
  obtain ⟨hsync, halloc⟩ := flushing_works_iff (superOnly true 8) (paged_superOnly true 8) hsize
  have hready : ∀ b, b < 8 → FlushReady (superOnly true 8) b := by decide +kernel
  refine ⟨hsync.mpr ⟨rfl, fun b _ hb => hready b (by omega)⟩, (halloc ⟨by omega, hsize, ?_⟩).mpr
    ⟨rfl, fun b hb => hready b (by have := hb.lt; omega)⟩⟩
  have hused : ∀ b < 3, isFree (superOnly true 8).view b = false := by decide +kernel
  intro b hb _
  rw [firstBlock, hn] at hb
  exact hused b (by omega)

/-- A clean block is written, and a block whose page table is absent is not passed over. -/
theorem flushing_does_not_work :
    ¬ SyncWorks (superOnly false 8) ∧ ¬ SyncWorks (superOnly true 1025) := by
  have hn : numBlocks (superOnly false 8).view = 8 := numBlocks_superOnly false 8
  have hn' : numBlocks (superOnly true 1025).view = 1025 := numBlocks_superOnly true 1025
  constructor
  · rw [syncWorks_iff (paged_superOnly false 8) (by omega)]
    rintro ⟨-, hready⟩
    have h := hready 1 (by omega) (by omega)
    simp [FlushReady, superOnly] at h
  · rw [syncWorks_iff (paged_superOnly true 1025) (by omega)]
    rintro ⟨-, hready⟩
    have h := hready 1024 (by omega) (by omega)
    simp [FlushReady, superOnly] at h

end jos.fs
