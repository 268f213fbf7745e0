-- Directories over plain memory (dir_lookup, dir_alloc_file, walk_path and
-- file_create of fs/fs.c): where no block of a directory is missing, each is
-- the value of a pure function over the entries.
import Mathlib
import Jos.FsReads

namespace jos.fs

open blockstore ia32
open blockstore.Prog (loadByte loadBytes loadWord storeBytes storeWord flushAt flat)

variable {m m' : Mem} {f g d e i : Nat} {name c : List Byte} {names : List (List Byte)}

/-! ## The entries of a directory -/

def dirBlocks (m : Mem) (d : Nat) : Nat := perBlock (m.word (f_size d))

/-- The entries of a directory, in the order in which they are searched. -/
def entries (m : Mem) (d : Nat) : List Nat :=
  (List.range (dirBlocks m d)).flatMap fun i => blockEntries (blk m d i)

/-- The first entry with a name. An entry is not in use if its name is empty. -/
def lookup (m : Mem) (d : Nat) (name : List Byte) : Option Nat :=
  (entries m d).find? fun g => NameIs m g name

/-- A directory whose size is that of its blocks, which are all there. -/
structure DirFull (m : Mem) (d : Nat) : Prop where
  size : (m.word (f_size d)).toNat % BLKSIZE = 0
  le : dirBlocks m d ≤ 1034
  there : ∀ i < dirBlocks m d, There m d i

theorem mem_blockEntries {b : Nat} : g ∈ blockEntries b ↔ ∃ j < 16, g = 4096 * b + 256 * j := by
  simp only [blockEntries, List.mem_map, List.mem_range, eq_comm]

theorem mem_entries :
    g ∈ entries m d ↔ ∃ i < dirBlocks m d, ∃ j < 16, g = 4096 * blk m d i + 256 * j := by
  simp only [entries, List.mem_flatMap, List.mem_range, mem_blockEntries]

/-- A negative size would be that of very many blocks. -/
theorem perBlock_negative {w : Word} (h : 2 ^ 31 ≤ w.toNat) (hmod : w.toNat % 4096 = 0) :
    1034 < perBlock w := by
  have hm : w.msb = true := by
    rw [BitVec.msb_eq_true_iff_two_mul_ge]
    omega
  have hlt := w.isLt
  rw [perBlock, BitVec.sdiv_eq, hm, show (4096#32).msb = false from rfl]
  simp only [BitVec.toNat_neg, BitVec.udiv_eq, BitVec.toNat_udiv, BitVec.toNat_ofNat,
    Nat.reducePow, Nat.reduceMod]
  omega

/-- The size of a directory that is not too large. -/
theorem DirFull.toNat_size (h : DirFull m d) :
    (m.word (f_size d)).toNat = 4096 * dirBlocks m d := by
  have hsize : (m.word (f_size d)).toNat % 4096 = 0 := h.size
  have hle := h.le
  have hlt : (m.word (f_size d)).toNat < 2 ^ 31 := by
    by_contra hc
    have := perBlock_negative (by omega) hsize
    rw [dirBlocks] at hle
    omega
  rw [dirBlocks, perBlock_eq hlt]
  omega

theorem DirFull.congr (h : DirFull m d) (hblocks : numBlocks m' = numBlocks m)
    (hsize : m'.word (f_size d) = m.word (f_size d)) (hptr : ∀ k, ptr m' d k = ptr m d k) :
    DirFull m' d ∧ entries m' d = entries m d := by
  have hle := h.le
  have hn : dirBlocks m' d = dirBlocks m d := by rw [dirBlocks, hsize, dirBlocks]
  have hblk : ∀ i < dirBlocks m d, blk m' d i = blk m d i := fun i hi => by
    rw [← ptr_blk (by omega), ← ptr_blk (by omega), hptr]
  refine ⟨⟨by rw [hsize]; exact h.size, by rw [hn]; exact hle, fun i hi => ?_⟩, ?_⟩
  · rw [hn] at hi
    have hthere := h.there i hi
    refine ⟨by rw [hblk i hi]; exact hthere.blk_ne, ?_, fun h10 => ?_⟩
    · rw [hblk i hi, hblocks]
      exact hthere.blk_lt
    · rw [← ptr_ind, hptr, ptr_ind, hblocks]
      exact hthere.ind_lt h10
  · rw [entries, entries, hn]
    exact List.flatMap_congr fun i hi => by rw [hblk i (List.mem_range.mp hi)]

theorem lookupFrom_eq {left : Nat} (h : i + left ≤ 1034) : lookupFrom m d name left i =
    (((List.range' i left).flatMap fun k => blockEntries (blk m d k)).find? fun g =>
      NameIs m g name).elim (.error (-E_NOT_FOUND)) .ok := by
  induction left generalizing i with
  | zero => rfl
  | succ left ih =>
    rw [lookupFrom, if_neg (by omega), ih (by omega), List.range'_succ, List.flatMap_cons,
      List.find?_append]
    rcases (blockEntries (blk m d i)).find? fun g => NameIs m g name with _ | g
    · rfl
    · rfl

theorem DirFull.flat_dir_lookup (h : DirFull m d) (name : List Byte) :
    flat (dir_lookup d name) m = .ok ((lookup m d name).elim (.error (-E_NOT_FOUND)) .ok, m) := by
  have hle := h.le
  rw [dir_lookup, Prog.flat_loadWord_bind, if_neg (not_not.mpr h.size),
    flat_dir_lookup_from fun k _ hk _ => h.there k (by rw [dirBlocks]; omega),
    lookupFrom_eq (by rw [dirBlocks] at hle; omega), lookup, entries, List.range_eq_range', dirBlocks]

/-! ## A free entry -/

theorem flat_findBlank (left g : Nat) : flat (findBlank left g) m = flat (findEntry [] left g) m := by
  induction left generalizing g with
  | zero => rfl
  | succ left ih =>
    rw [findBlank, findEntry, Prog.flat_loadByte_bind, Prog.flat_bind_ok (flat_strcmpEq g [])]
    by_cases h : m g = 0
    · rw [if_pos h, if_pos (by rw [decide_eq_true_eq]; exact h)]
    · rw [if_neg h, if_neg (by rw [decide_eq_true_eq]; exact h), ih]

theorem flat_dir_alloc_file_from {left : Nat} (h : ∀ k, i ≤ k → k < i + left → There m d k) :
    flat (dir_alloc_file_from d left i) m =
      (((List.range' i left).flatMap fun k => blockEntries (blk m d k)).find? fun g =>
        NameIs m g []).elim (flat (file_get_block d (i + left))
          (m.setWord (f_size d) (m.word (f_size d) + 4096#32))) fun e => .ok (.ok e, m) := by
  induction left generalizing i with
  | zero => rfl
  | succ left ih =>
    rw [dir_alloc_file_from, Prog.flat_bind_ok (h i le_rfl (by omega)).get_block]
    simp only
    rw [Prog.flat_bind_ok ((flat_findBlank _ _).trans (flat_findEntry [] BLKFILES _)),
      List.range'_succ, List.flatMap_cons, List.find?_append]
    have hrest := ih (i := i + 1) fun k hk hk' => h k (by omega) (by omega)
    have hblock : ((List.range BLKFILES).map fun j => 4096 * blk m d i + 256 * j) =
        blockEntries (blk m d i) := rfl
    simp only [hblock]
    rcases (blockEntries (blk m d i)).find? fun g => NameIs m g [] with _ | g
    · rw [show i + (left + 1) = i + 1 + left by omega]
      exact hrest
    · rfl

/-- The first free entry is taken, or the directory grows by a block. -/
theorem DirFull.flat_dir_alloc_file (h : DirFull m d) : flat (dir_alloc_file d) m =
    (lookup m d []).elim (flat (file_get_block d (dirBlocks m d))
      (m.setWord (f_size d) (m.word (f_size d) + 4096#32))) fun e => .ok (.ok e, m) := by
  rw [dir_alloc_file, Prog.flat_loadWord_bind, if_neg (not_not.mpr h.size),
    flat_dir_alloc_file_from fun k _ hk => h.there k (by rw [dirBlocks]; omega), lookup, entries,
    List.range_eq_range', dirBlocks]
  rcases ((List.range' 0 (perBlock (m.word (f_size d)))).flatMap fun k =>
    blockEntries (blk m d k)).find? fun g => NameIs m g [] with _ | e
  · rw [Nat.zero_add]
  · rfl

/-! ## Paths -/

/-- A tree of directories, all of them full. -/
structure Tree (m : Mem) : Prop where
  owned : Owned m
  dirs : ∀ d, IsFile m d → m.word (f_type d) = FTYPE_DIR → DirFull m d

/-- Only the last piece of a path is missing, in the directory `d`. -/
inductive Parent (m : Mem) : Nat → List (List Byte) → Nat → List Byte → Prop
  | here {d : Nat} {name : List Byte} : name.length < MAXNAMELEN →
    m.word (f_type d) = FTYPE_DIR → lookup m d name = none → Parent m d [name] d name
  | step {f g d : Nat} {c name : List Byte} {names : List (List Byte)} : c.length < MAXNAMELEN →
    m.word (f_type f) = FTYPE_DIR → lookup m f c = some g → Parent m g names d name →
    Parent m f (c :: names) d name

theorem Parent.last (h : Parent m f names d name) : lookup m d name = none ∧
    name.length < MAXNAMELEN ∧ m.word (f_type d) = FTYPE_DIR ∧ name ∈ names := by
  induction h with
  | here hlen hdir hno => exact ⟨hno, hlen, hdir, List.mem_cons_self⟩
  | step _ _ _ _ ih => exact ⟨ih.1, ih.2.1, ih.2.2.1, List.mem_cons_of_mem _ ih.2.2.2⟩

theorem lookup_some (h : lookup m d name = some g) : g ∈ entries m d ∧ NameIs m g name :=
  ⟨List.mem_of_find?_eq_some h, of_decide_eq_true (List.find?_some h :)⟩

theorem DirFull.child (h : DirFull m d) (hdir : m.word (f_type d) = FTYPE_DIR)
    (hg : g ∈ entries m d) (hname : m g ≠ 0) : Child m d g := by
  obtain ⟨i, hi, j, hj, rfl⟩ := mem_entries.mp hg
  exact ⟨hdir, ⟨i, j, hi, (h.there i hi).blk_ne, hj, rfl⟩, hname⟩

theorem DirFull.child_lookup (h : DirFull m d) (hdir : m.word (f_type d) = FTYPE_DIR)
    (hne : name ≠ []) (hg : lookup m d name = some g) : Child m d g :=
  h.child hdir (lookup_some hg).1 ((lookup_some hg).2.head_ne hne)

/-- What `walk_path` answers in a tree. -/
theorem Tree.walk (hT : Tree m) (dir : Option Nat) (hf : IsFile m f)
    (hne : ∀ name ∈ names, name ≠ []) :
    (∃ g dir', flat (walk_names f dir names) m = .ok (⟨0, dir', some g, []⟩, m)) ∨
    flat (walk_names f dir names) m = .ok (⟨-E_BAD_PATH, none, none, []⟩, m) ∨
    flat (walk_names f dir names) m = .ok (⟨-E_NOT_FOUND, none, none, []⟩, m) ∨
    ∃ d name, flat (walk_names f dir names) m = .ok (⟨-E_NOT_FOUND, some d, none, name⟩, m) ∧
      Parent m f names d name ∧ IsFile m d := by
  induction names generalizing f dir with
  | nil => exact .inl ⟨f, dir, rfl⟩
  | cons c names ih =>
    rw [walk_names]
    by_cases hlen : MAXNAMELEN ≤ c.length
    · rw [if_pos hlen]
      exact .inr (.inl rfl)
    rw [if_neg hlen, Prog.flat_loadWord_bind]
    by_cases hdir : m.word (f_type f) = FTYPE_DIR
    swap
    · rw [if_pos hdir]
      exact .inr (.inr (.inl rfl))
    have hfull := hT.dirs f hf hdir
    rw [if_neg (not_not.mpr hdir), Prog.flat_bind_ok (hfull.flat_dir_lookup c)]
    rcases hlook : lookup m f c with _ | g
    · -- not found: it matters whether this is the last piece
      by_cases hlast : names = []
      · subst hlast
        exact .inr (.inr (.inr ⟨f, c, rfl, .here (by omega) hdir hlook, hf⟩))
      · refine .inr (.inr (.inl ?_))
        simp only [Option.elim]
        rw [if_neg fun hc => hlast hc.2]
        rfl
    · have hchild := hfull.child_lookup hdir (hne c List.mem_cons_self) hlook
      rcases ih (some f) (.child hf hchild) fun n hn => hne n (List.mem_cons_of_mem _ hn) with
        h | h | h | ⟨d, name, h, hp, hd⟩
      · exact .inl h
      · exact .inr (.inl h)
      · exact .inr (.inr (.inl h))
      · exact .inr (.inr (.inr ⟨d, name, h, .step (by omega) hdir hlook hp, hd⟩))

/-- The walk ends in the directory in which only the last piece is missing. -/
theorem Parent.walk (hP : Parent m f names d name) (hT : Tree m) (hf : IsFile m f)
    (hne : ∀ c ∈ names, c ≠ []) (dir : Option Nat) :
    flat (walk_names f dir names) m = .ok (⟨-E_NOT_FOUND, some d, none, name⟩, m) := by
  induction hP generalizing dir with
  | here hlen hdir hno =>
    rw [walk_names, if_neg (by omega), Prog.flat_loadWord_bind, if_neg (not_not.mpr hdir),
      Prog.flat_bind_ok ((hT.dirs _ hf hdir).flat_dir_lookup _), hno]
    simp only [Option.elim]
    rw [if_pos ⟨trivial, trivial⟩]
    rfl
  | @step f g d c name names hlen hdir hlook _ ih =>
    have hfull := hT.dirs f hf hdir
    rw [walk_names, if_neg (by omega), Prog.flat_loadWord_bind, if_neg (not_not.mpr hdir),
      Prog.flat_bind_ok (hfull.flat_dir_lookup c), hlook]
    exact ih (.child hf (hfull.child_lookup hdir (hne c List.mem_cons_self) hlook))
      (fun n hn => hne n (List.mem_cons_of_mem _ hn)) (some f)

theorem Parent.unique {d' : Nat} {name' : List Byte} (hP : Parent m f names d name)
    (hP' : Parent m f names d' name') (hT : Tree m) (hf : IsFile m f)
    (hne : ∀ c ∈ names, c ≠ []) : d = d' ∧ name = name' := by
  have h := hP.walk hT hf hne none
  rw [hP'.walk hT hf hne none] at h
  cases h
  exact ⟨rfl, rfl⟩

/-! ## Names -/

theorem nameIs_congr (h : ∀ x, g ≤ x → x ≤ g + name.length → m' x = m x) :
    NameIs m' g name ↔ NameIs m g name := by
  induction name generalizing g with
  | nil => rw [NameIs, NameIs, h g le_rfl (by omega)]
  | cons a name ih =>
    rw [List.length_cons] at h
    rw [NameIs, NameIs, h g le_rfl (by omega), ih fun x hx hx' => h x (by omega) (by omega)]

theorem NameIs.unique (h : NameIs m g name) (h' : NameIs m g c) : name = c := by
  induction name generalizing g c with
  | nil =>
    cases c with
    | nil => rfl
    | cons b c => exact absurd (h'.2.1.symm.trans h) h'.1
  | cons a name ih =>
    cases c with
    | nil => exact absurd (h.2.1.symm.trans h') h.1
    | cons b c => rw [← h.2.1, ← h'.2.1, ih h.2.2 h'.2.2]

/-- The entry after `strcpy(f->f_name, name)`. -/
theorem nameIs_of_bytes (hname : ∀ a ∈ name, a ≠ 0)
    (h : ∀ k ≤ name.length, m (g + k) = (name ++ [0]).getD k 0) : NameIs m g name := by
  induction name generalizing g with
  | nil => exact h 0 le_rfl
  | cons a name ih =>
    refine ⟨hname a List.mem_cons_self, h 0 (Nat.zero_le _),
      ih (fun b hb => hname b (List.mem_cons_of_mem _ hb)) fun k hk => ?_⟩
    rw [Nat.add_assoc, Nat.add_comm 1]
    exact h (k + 1) (by rw [List.length_cons]; omega)

theorem nameIs_store (hname : ∀ a ∈ name, a ≠ 0) : NameIs (m.store e (name ++ [0])) e name := by
  refine nameIs_of_bytes hname fun k hk => ?_
  rw [Mem.store_in (by omega) (by rw [List.length_append, List.length_singleton]; omega),
    Nat.add_sub_cancel_left]

/-! ## Flushing -/

theorem FileOk.flat_file_flush_from (h : FileOk m f) (left i : Nat) :
    flat (file_flush_from f left i) m = .ok ((), m) := by
  have hsmall := h.small
  induction left generalizing i with
  | zero => rfl
  | succ left ih =>
    rw [file_flush_from]
    by_cases hs : HasSlot m f i
    · rw [Prog.flat_bind_ok (flat_walk_slot h hs)]
      simp only [Prog.flat_loadWord_bind]
      by_cases hz : m.word (slotAddr m f i) = 0
      · rw [if_pos hz]
        exact ih (i + 1)
      · have hp := ptr_eq_slot hs
        have hr := h.range i (by rw [hp]; exact word_ne_zero.mp hz)
        rw [hp] at hr
        rw [if_neg hz, flat_diskaddr_bind hz hr.2.1,
          flat_flush_block_bind (by simp only [DISKSIZE]; omega)]
        exact ih (i + 1)
    · obtain ⟨r, hr⟩ := flat_walk_none hs
      rw [Prog.flat_bind_ok hr]
      exact ih (i + 1)

theorem FileOk.flat_file_flush (h : FileOk m f) : flat (file_flush f) m = .ok ((), m) := by
  have hsmall := h.small
  rw [file_flush, Prog.flat_loadWord_bind, Prog.flat_bind_ok (h.flat_file_flush_from _ 0),
    flat_flush_block_bind h.lt_disk, Prog.flat_loadWord_bind]
  by_cases hz : m.word (f_indirect f) = 0
  · rw [if_neg (not_not.mpr hz)]
    rfl
  · have hr := (h.ind_range (word_ne_zero.mp hz)).2.1
    rw [if_pos hz, flat_diskaddr_bind hz hr]
    refine flat_flush_block ?_
    unfold ind at hr
    simp only [DISKSIZE]
    omega

/-! ## A new entry -/

/-- The entry `e` of the directory got a name: it was free, or it is the first one of a
new block. -/
structure Added (d e : Nat) (name : List Byte) (m m' : Mem) : Prop where
  ok : FileOk m' d
  loc : Local d m m'
  kept : ∀ k, ptr m d k ≠ 0 → ptr m' d k = ptr m d k
  slots : ∀ k, k ≠ 1034 → k ≠ dirBlocks m d → ptr m' d k = ptr m d k
  data : ∀ k x, k < 1034 → ptr m d k ≠ 0 → x / 4096 = ptr m d k →
    ¬ (e ≤ x ∧ x < e + 128) → m' x = m x
  raw : ∀ x, x / 4096 = e / 4096 → ¬ (e ≤ x ∧ x < e + 128) → m' x = m x
  named : NameIs m' e name
  how : (m'.word (f_size d) = m.word (f_size d) ∧ lookup m d [] = some e ∧
      ∀ k, ptr m' d k = ptr m d k) ∨
    (m'.word (f_size d) = m.word (f_size d) + 4096#32 ∧ lookup m d [] = none ∧
      dirBlocks m d < 1034 ∧ ptr m' d (dirBlocks m d) ≠ 0 ∧
      e = 4096 * ptr m' d (dirBlocks m d))
  first : lookup m d [] = none → ptr m d (dirBlocks m d) = 0 →
    (freeList m)[if 10 ≤ dirBlocks m d ∧ ind m d = 0 then 1 else 0]? = some (e / 4096)

/-- A free entry gets a name. -/
theorem added_blank (h : FileOk m d) (hfull : DirFull m d) (he : lookup m d [] = some e)
    (hlen : name.length < MAXNAMELEN) (hname : ∀ a ∈ name, a ≠ 0) :
    Added d e name m (m.store e (name ++ [0])) := by
  obtain ⟨i, hi, j, hj, hej⟩ := mem_entries.mp (lookup_some he).1
  have hlt : i < 1034 := hi.trans_le hfull.le
  have hp : ptr m d i ≠ 0 := by
    rw [ptr_blk (by omega)]
    exact (hfull.there i hi).blk_ne
  rw [← ptr_blk (by omega)] at hej
  have hl : (name ++ [0]).length ≤ 128 := by
    rw [List.length_append, List.length_singleton]
    simp only [MAXNAMELEN] at hlen
    omega
  obtain ⟨m', hm'⟩ : ∃ m', m' = m.store e (name ++ [0]) := ⟨_, rfl⟩
  obtain ⟨hok, hloc, hptr, -, hsize⟩ := h.write hlt hp (by omega) (by omega) hm'
  rw [hm'] at hok hloc hptr hsize
  exact ⟨hok, hloc, fun k _ => hptr k, fun k _ _ => hptr k,
    fun k x _ _ _ hx => Mem.store_out (by omega), fun x _ hx => Mem.store_out (by omega),
    nameIs_store hname, .inl ⟨hsize, he, hptr⟩, fun hno => by rw [hno] at he; cases he⟩

/-- The directory grows by a block, and its first entry gets a name. -/
theorem added_block {m₂ : Mem} (h : FileOk m d) (hlt : dirBlocks m d < 1034)
    (hno : lookup m d [] = none) (hlen : name.length < MAXNAMELEN) (hname : ∀ a ∈ name, a ≠ 0)
    (hg : Got d (dirBlocks m d) (m.setWord (f_size d) (m.word (f_size d) + 4096#32)) m₂)
    (he : e = 4096 * ptr m₂ d (dirBlocks m d)) :
    Added d e name m (m₂.store e (name ++ [0])) := by
  obtain ⟨-, hloc₁, hptr₁, hdata₁, -, hsize₁⟩ := h.resize (m.word (f_size d) + 4096#32) rfl
  have hlist : freeList (m.setWord (f_size d) (m.word (f_size d) + 4096#32)) = freeList m :=
    freeList_congr hloc₁.blocks fun b hb => h.isFree_resize _ hb
  have hrange := hg.grown.ok.range _ hg.here
  have hl : (name ++ [0]).length ≤ 128 := by
    rw [List.length_append, List.length_singleton]
    simp only [MAXNAMELEN] at hlen
    omega
  obtain ⟨m', hm'⟩ : ∃ m', m' = m₂.store e (name ++ [0]) := ⟨_, rfl⟩
  obtain ⟨hok, hloc, hptr, -, hsize⟩ := hg.grown.ok.write hlt hg.here (by omega) (by omega) hm'
  rw [hm'] at hok hloc hptr hsize
  refine ⟨hok, (hloc₁.trans hg.grown.loc).trans hloc, fun k hk => ?_, fun k hk hk' => ?_,
    fun k x hk hp hx hout => ?_, fun x hx hout => ?_, nameIs_store hname, .inr ⟨?_, hno, hlt,
      by rw [hptr]; exact hg.here, by rw [hptr]; exact he⟩, fun _ hz => ?_⟩
  · rw [hptr, hg.grown.kept k (by rw [hptr₁]; exact hk), hptr₁]
  · rw [hptr, hg.others k hk' hk, hptr₁]
  · rw [Mem.store_out (by omega), hg.grown.data k x hk (by rw [hptr₁]; exact hp)
      (by rw [hptr₁]; exact hx), hdata₁ k x hk hp hx]
  · -- nothing is stored in the new block
    have hblock : x / 4096 = ptr m₂ d (dirBlocks m d) := by omega
    have hhome := hg.grown.ok.ptr_ne_home hg.here
    have hin : ∀ y, d ≤ y → y < d + 256 → x ≠ y := fun y hy hy' hxy => by
      have := h.inode_div hy hy'
      omega
    rw [firstBlock_congr hg.grown.loc.blocks] at hrange
    rw [Mem.store_out (by omega), hg.raw x (not_inBitmap_of_le (by omega))
      (fun hc => hin x (by omega) (by omega) rfl) fun _ hi => ?_]
    · exact Mem.setWord_out (by
        simp only [f_size]
        by_contra hc
        exact hin x (by omega) (by omega) rfl)
    · have := hg.grown.ok.inj _ 1034 hg.here (by rw [ptr_ind, ← hi, hblock])
      omega
  · rw [hsize, hg.grown.size, hsize₁]
  · have hfirst := hg.first (by rw [hptr₁]; exact hz)
    rw [hlist, cost, hptr₁, if_pos hz, ← ptr_ind, hptr₁, ptr_ind, Nat.add_sub_cancel_left] at hfirst
    rw [hfirst, he]
    congr 1
    omega

section AddedTo

variable (hO : Owned m) (hd : IsFile m d) (hfull : DirFull m d) (h : Added d e name m m')

include hfull h

theorem Added.dirBlocks_eq :
    (dirBlocks m' d = dirBlocks m d ∧ lookup m d [] = some e ∧ ∀ k, ptr m' d k = ptr m d k) ∨
    (dirBlocks m' d = dirBlocks m d + 1 ∧ lookup m d [] = none ∧ dirBlocks m d < 1034 ∧
      ptr m' d (dirBlocks m d) ≠ 0 ∧ e = 4096 * ptr m' d (dirBlocks m d)) := by
  refine h.how.imp (fun hc => ⟨by rw [dirBlocks, hc.1, dirBlocks], hc.2⟩) fun hc => ⟨?_, hc.2⟩
  have hsize := hfull.toNat_size
  have hlt := hc.2.2.1
  have hv : (m.word (f_size d) + 4096#32).toNat = 4096 * dirBlocks m d + 4096 := by
    rw [BitVec.toNat_add, hsize, BitVec.toNat_ofNat]
    omega
  rw [dirBlocks, hc.1, perBlock_eq (by rw [hv]; omega), hv]
  omega

omit h in
theorem DirFull.ptr_ne {k : Nat} (hk : k < dirBlocks m d) : ptr m d k ≠ 0 := by
  have hle := hfull.le
  rw [ptr_blk (by omega)]
  exact (hfull.there k hk).blk_ne

theorem Added.blk_kept {k : Nat} (hk : k < dirBlocks m d) : blk m' d k = blk m d k := by
  have hle := hfull.le
  rw [← ptr_blk (by omega), ← ptr_blk (by omega), h.kept k (hfull.ptr_ne hk)]

theorem Added.full : DirFull m' d := by
  have hle := hfull.le
  have hold : ∀ k < dirBlocks m d, There m' d k := fun k hk =>
    h.ok.there (by rw [h.blk_kept hfull hk]; exact (hfull.there k hk).blk_ne)
  refine ⟨?_, ?_, fun k hk => ?_⟩
  · rcases h.how with ⟨hs, -⟩ | ⟨hs, -⟩
    · rw [hs]
      exact hfull.size
    · have hsize : (m.word (f_size d)).toNat % 4096 = 0 := hfull.size
      rw [hs, BitVec.toNat_add, BitVec.toNat_ofNat, BLKSIZE]
      omega
  · rcases h.dirBlocks_eq hfull with ⟨hn, -⟩ | ⟨hn, -, hlt, -⟩ <;> omega
  · rcases h.dirBlocks_eq hfull with ⟨hn, -⟩ | ⟨hn, -, hlt, hne, -⟩
    · exact hold k (by omega)
    · by_cases hk' : k = dirBlocks m d
      · rw [hk']
        rw [ptr_blk (by omega)] at hne
        exact h.ok.there hne
      · exact hold k (by omega)

/-- The entries are those from before, and those of a new block. -/
theorem Added.entries_eq : ∃ more, entries m' d = entries m d ++ more ∧
    ((more = [] ∧ e ∈ entries m d ∧ m e = 0) ∨
      (more = blockEntries (e / 4096) ∧ e % 4096 = 0 ∧ e ∉ entries m d)) := by
  have hold : ((List.range (dirBlocks m d)).flatMap fun k => blockEntries (blk m' d k)) =
      entries m d := by
    rw [entries, List.flatMap_congr]
    exact fun k hk => by rw [h.blk_kept hfull (List.mem_range.mp hk)]
  rcases h.dirBlocks_eq hfull with ⟨hn, hblank, -⟩ | ⟨hn, -, hlt, -, he⟩
  · refine ⟨[], ?_, .inl ⟨rfl, (lookup_some hblank).1, (lookup_some hblank).2⟩⟩
    rw [entries, hn, hold, List.append_nil]
  · have hdiv : ptr m' d (dirBlocks m d) = e / 4096 := by omega
    refine ⟨_, ?_, .inr ⟨rfl, by omega, fun hmem => ?_⟩⟩
    · rw [entries, hn, List.range_succ, List.flatMap_append, hold, List.flatMap_singleton, ← hdiv,
        ptr_blk (by omega)]
    · -- the slots of a directory have different blocks
      obtain ⟨i, hi, j, hj, hej⟩ := mem_entries.mp hmem
      have hp := hfull.ptr_ne hi
      rw [← ptr_blk (by omega)] at hej
      have := h.ok.inj i (dirBlocks m d) (by rw [h.kept i hp]; exact hp) (by
        rw [h.kept i hp]
        omega)
      omega

/-- The new entry is at a place of its own. -/
theorem Added.aligned : e % 256 = 0 ∧ ∃ k < 1034, ptr m' d k ≠ 0 ∧ e / 4096 = ptr m' d k := by
  have hle := hfull.le
  rcases h.dirBlocks_eq hfull with ⟨-, hblank, -⟩ | ⟨-, -, hlt, hne, he⟩
  · obtain ⟨i, hi, j, hj, hej⟩ := mem_entries.mp (lookup_some hblank).1
    have hp := hfull.ptr_ne hi
    rw [← ptr_blk (by omega)] at hej
    refine ⟨by omega, i, by omega, ?_, ?_⟩
    · rw [h.kept i hp]
      exact hp
    · rw [h.kept i hp]
      omega
  · exact ⟨by omega, _, hlt, hne, by omega⟩

theorem Added.ne_child (hg : Child m d g) : g ≠ e := by
  rintro rfl
  obtain ⟨i, j, hlt, hi, hp, hj, hge⟩ := hg.ptr
  rcases h.dirBlocks_eq hfull with ⟨-, hblank, -⟩ | ⟨-, -, hlt', hne, he⟩
  · exact hg.name (lookup_some hblank).2
  · have hi' : i < dirBlocks m d := hi
    have := h.ok.inj i (dirBlocks m d) (by rw [h.kept i hp]; exact hp) (by
      rw [h.kept i hp]
      omega)
    omega

theorem Added.kids : KidsKept d m m' := by
  intro g hg x hx hx'
  have hne := h.ne_child hfull hg
  obtain ⟨i, j, hlt, -, hp, hj, hge⟩ := hg.ptr
  have halign := (h.aligned hfull).1
  exact h.data i x hlt hp (by omega) (by omega)

theorem Added.nameIs_old (hlen : c.length < MAXNAMELEN) (hg : g ∈ entries m d) (hne : g ≠ e) :
    NameIs m' g c ↔ NameIs m g c := by
  have hle := hfull.le
  obtain ⟨i, hi, j, hj, hge⟩ := mem_entries.mp hg
  rw [← ptr_blk (by omega)] at hge
  have halign := (h.aligned hfull).1
  refine nameIs_congr fun x hx hx' => h.data i x (by omega) (hfull.ptr_ne hi) ?_ ?_ <;>
    simp only [MAXNAMELEN] at hlen <;> omega

theorem Added.lookup_old (hlen : c.length < MAXNAMELEN) (hc : c ≠ [])
    (hno : lookup m d name = none) (hg : lookup m d c = some g) : lookup m' d c = some g := by
  have hcn : c ≠ name := by
    rintro rfl
    rw [hno] at hg
    cases hg
  obtain ⟨more, hmore, hcase⟩ := h.entries_eq hfull
  have hsame : ∀ x ∈ entries m d, decide (NameIs m' x c) = decide (NameIs m x c) := by
    intro x hx
    by_cases hxe : x = e
    · -- the entry was free, or it was none
      subst hxe
      have hnew : ¬ NameIs m' x c := fun hn => hcn (hn.unique h.named)
      have hold : ¬ NameIs m x c := fun hn => by
        have hname := hn.head_ne hc
        rcases hcase with ⟨-, -, hz⟩ | ⟨-, -, hnot⟩
        · exact hname hz
        · exact hnot hx
      rw [decide_eq_false hnew, decide_eq_false hold]
    · exact decide_eq_decide.mpr (h.nameIs_old hfull hlen hx hxe)
  rw [lookup, hmore, List.find?_append, List.find?_congr hsame]
  rw [lookup] at hg
  rw [hg]
  rfl

theorem Added.lookup_new (hlen : name.length < MAXNAMELEN) (hno : lookup m d name = none) :
    lookup m' d name = some e := by
  obtain ⟨more, hmore, hcase⟩ := h.entries_eq hfull
  have hnone : ∀ x ∈ entries m d, x ≠ e → ¬ NameIs m' x name := fun x hx hxe hn => by
    have := List.find?_eq_none.mp hno x hx
    rw [decide_eq_true ((h.nameIs_old hfull hlen hx hxe).mp hn)] at this
    exact this rfl
  rw [lookup, hmore, List.find?_append]
  rcases hcase with ⟨rfl, hmem, -⟩ | ⟨rfl, hmod, hnot⟩
  · obtain ⟨x, hx⟩ := Option.isSome_iff_exists.mp
      (List.find?_isSome (p := fun x => decide (NameIs m' x name)).mpr
        ⟨e, hmem, decide_eq_true h.named⟩)
    have hxe : x = e := by
      by_contra hne
      exact hnone x (List.mem_of_find?_eq_some hx) hne (of_decide_eq_true (List.find?_some hx :))
    rw [hx, hxe]
    rfl
  · have hold : (entries m d).find? (fun x => NameIs m' x name) = none :=
      List.find?_eq_none.mpr fun x hx => by
        rw [decide_eq_false (hnone x hx fun hxe => hnot (hxe ▸ hx))]
        exact Bool.false_ne_true
    rw [hold, Option.none_or, blockEntries, List.range_succ_eq_map, List.map_cons,
      show 4096 * (e / 4096) + 256 * 0 = e by omega, List.find?_cons, decide_eq_true h.named]

include hO hd

theorem Added.lookup_other {x : Nat} (hx : IsFile m x) (hxfull : DirFull m x) (hne : x ≠ d)
    (hlen : c.length < MAXNAMELEN) : lookup m' x c = lookup m x c ∧ DirFull m' x := by
  have hle := hxfull.le
  have hkids := h.kids hfull
  obtain ⟨hfull', hentries⟩ := hxfull.congr h.loc.blocks (hO.size_kept hd hkids h.loc hx hne)
    (hO.ptr_kept hd hkids h.loc hx hne)
  refine ⟨?_, hfull'⟩
  rw [lookup, lookup, hentries]
  refine List.find?_congr fun g hg => decide_eq_decide.mpr ?_
  obtain ⟨i, hi, j, hj, hge⟩ := mem_entries.mp hg
  rw [← ptr_blk (by omega)] at hge
  refine nameIs_congr fun y hy hy' =>
    hO.name_kept hd h.loc hx hne (hxfull.ptr_ne hi) hj (by omega) ?_
  simp only [MAXNAMELEN] at hlen
  omega

end AddedTo

theorem Added.walk (hT : Tree m) (h : Added d e name m m') (hd : IsFile m d)
    (hdir : m.word (f_type d) = FTYPE_DIR) (hP : Parent m f names d name) (hf : IsFile m f)
    (hne : ∀ c ∈ names, c ≠ []) (dir : Option Nat) :
    flat (walk_names f dir names) m' = .ok (⟨0, some d, some e, []⟩, m') := by
  have hO := hT.owned
  have hfull := hT.dirs d hd hdir
  have htype : ∀ x, IsFile m x → m'.word (f_type x) = m.word (f_type x) := fun x hx =>
    hO.type_kept hd (h.kids hfull) h.loc hx
  have hno := hP.last.1
  induction hP generalizing dir with
  | here hlen hdir' hlast =>
    rw [walk_names, if_neg (by omega), Prog.flat_loadWord_bind, htype _ hf,
      if_neg (not_not.mpr hdir'), Prog.flat_bind_ok ((h.full hfull).flat_dir_lookup _),
      h.lookup_new hfull hlen hno]
    rfl
  | @step f g d c name names hlen hdir' hlook hP ih =>
    have hxfull := hT.dirs f hf hdir'
    have hc := hne c List.mem_cons_self
    have hfound : flat (dir_lookup f c) m' = .ok (.ok g, m') := by
      by_cases hfd : f = d
      · subst hfd
        rw [(h.full hfull).flat_dir_lookup, h.lookup_old hfull hlen hc hno hlook]
        rfl
      · obtain ⟨hsame, hfull'⟩ := h.lookup_other hO hd hfull hf hxfull hfd hlen
        rw [hfull'.flat_dir_lookup, hsame, hlook]
        rfl
    rw [walk_names, if_neg (by omega), Prog.flat_loadWord_bind, htype _ hf,
      if_neg (not_not.mpr hdir'), Prog.flat_bind_ok hfound]
    exact ih h hd hdir (.child hf (hxfull.child_lookup hdir' hc hlook))
      (fun n hn => hne n (List.mem_cons_of_mem _ hn)) (some f) hfull hno

/-! ## Creating a file -/

theorem notFound_ne_zero : -E_NOT_FOUND ≠ 0 := by decide

section Create

variable {path : List Byte} {m₁ : Mem}
  (hwalk : flat (walk_path path) m = .ok (⟨-E_NOT_FOUND, some d, none, name⟩, m))

include hwalk

theorem flat_file_create_ok (halloc : flat (dir_alloc_file d) m = .ok (.ok e, m₁))
    (hok : FileOk (m₁.store e (name ++ [0])) d) :
    flat (file_create path) m = .ok (.ok e, m₁.store e (name ++ [0])) := by
  rw [file_create, Prog.flat_bind_ok hwalk, if_neg notFound_ne_zero,
    if_neg (not_not.mpr rfl)]
  simp only
  rw [Prog.flat_bind_ok halloc]
  simp only
  rw [Prog.flat_storeBytes_bind, Prog.flat_bind_ok hok.flat_file_flush]
  rfl

theorem flat_file_create_error {r : Int}
    (halloc : flat (dir_alloc_file d) m = .ok (.error r, m₁)) :
    flat (file_create path) m = .ok (.error r, m₁) := by
  rw [file_create, Prog.flat_bind_ok hwalk, if_neg notFound_ne_zero,
    if_neg (not_not.mpr rfl)]
  simp only
  rw [Prog.flat_bind_ok halloc]
  rfl

theorem flat_file_create_panic {p : Panic} (halloc : flat (dir_alloc_file d) m = .error p) :
    flat (file_create path) m = .error p := by
  rw [file_create, Prog.flat_bind_ok hwalk, if_neg notFound_ne_zero,
    if_neg (not_not.mpr rfl)]
  exact Prog.flat_bind_error halloc

end Create

/-- What `file_create` does in a tree. If the directory has no free entry then its size is
set before there is a block, and stays if there is none. -/
theorem Tree.create_cases {path : List Byte} (hT : Tree m) (hpath : ∀ a ∈ path, a ≠ 0) :
    ((∃ r, flat (file_create path) m = .ok (.error r, m)) ∧
      ∀ d name, ¬ Parent m s_root (components path) d name) ∨
    ∃ d name, Parent m s_root (components path) d name ∧ IsFile m d ∧ (∀ a ∈ name, a ≠ 0) ∧
      ((∃ e, lookup m d [] = some e ∧
        flat (file_create path) m = .ok (.ok e, m.store e (name ++ [0]))) ∨
      (lookup m d [] = none ∧ dirBlocks m d < 1034 ∧ ∃ m₂,
        Got d (dirBlocks m d) (m.setWord (f_size d) (m.word (f_size d) + 4096#32)) m₂ ∧
        flat (file_create path) m = .ok (.ok (4096 * ptr m₂ d (dirBlocks m d)),
          m₂.store (4096 * ptr m₂ d (dirBlocks m d)) (name ++ [0]))) ∨
      (lookup m d [] = none ∧
        (dirBlocks m d = 1034 ∨ (10 ≤ dirBlocks m d ∧ ind m d = 0 ∧ numFree m = 0)) ∧
        ∃ r, flat (file_create path) m =
          .ok (.error r, m.setWord (f_size d) (m.word (f_size d) + 4096#32))) ∨
      flat (file_create path) m = .error .badBlockNumber) := by
  have hne : ∀ name ∈ components path, name ≠ [] := components_ne_nil
  have hwalk := hT.walk none .root hne
  rw [← walk_path_eq] at hwalk
  have hparent : ∀ d name, Parent m s_root (components path) d name →
      flat (walk_path path) m = .ok (⟨-E_NOT_FOUND, some d, none, name⟩, m) := fun d name hP => by
    rw [walk_path_eq]
    exact hP.walk hT .root components_ne_nil none
  rcases hwalk with ⟨g, dir, hwalk⟩ | hwalk | hwalk | ⟨d, name, hwalk, hP, hd⟩
  · refine .inl ⟨⟨_, Prog.flat_bind_ok hwalk⟩, fun d name hP => ?_⟩
    rw [hparent d name hP] at hwalk
    cases hwalk
  · refine .inl ⟨⟨_, Prog.flat_bind_ok hwalk⟩, fun d name hP => ?_⟩
    rw [hparent d name hP] at hwalk
    cases hwalk
  · refine .inl ⟨⟨_, Prog.flat_bind_ok hwalk⟩, fun d name hP => ?_⟩
    rw [hparent d name hP] at hwalk
    cases hwalk
  right
  obtain ⟨hno, hlen, hdir, hmem⟩ := hP.last
  have hfull := hT.dirs d hd hdir
  have hok := hT.owned.fileOk hd
  have hname : ∀ a ∈ name, a ≠ 0 := fun a ha => hpath a (mem_of_mem_components hmem ha)
  have hle := hfull.le
  have halloc := hfull.flat_dir_alloc_file
  refine ⟨d, name, hP, hd, hname, ?_⟩
  rcases hblank : lookup m d [] with _ | e
  · rw [hblank, Option.elim_none] at halloc
    obtain ⟨hok₁, -, hptr, -, hfree, -⟩ := hok.resize (m.word (f_size d) + 4096#32) rfl
    by_cases hlt : dirBlocks m d < 1034
    · rcases file_get_block_spec hok₁ hlt with
        ⟨m₂, hget, hg⟩ | ⟨-, ⟨h10, hz, hzero, hget⟩ | ⟨-, hget⟩⟩
      · exact .inr (.inl ⟨rfl, hlt, m₂, hg, flat_file_create_ok hwalk (halloc.trans hget)
          (added_block hok hlt hblank hlen hname hg rfl).ok⟩)
      · rw [← ptr_ind, hptr, ptr_ind] at hz
        exact .inr (.inr (.inl ⟨rfl, .inr ⟨h10, hz, hfree ▸ hzero⟩, _,
          flat_file_create_error hwalk (halloc.trans hget)⟩))
      · exact .inr (.inr (.inr (flat_file_create_panic hwalk (halloc.trans hget))))
    · exact .inr (.inr (.inl ⟨rfl, .inl (by omega), _,
        flat_file_create_error hwalk (halloc.trans (file_get_block_large (by omega)))⟩))
  · rw [hblank, Option.elim_some] at halloc
    exact .inl ⟨e, rfl, flat_file_create_ok hwalk halloc
      (added_blank hok hfull hblank hlen hname).ok⟩

/-- A creation in `d` has to add a block, and there is none to be had. -/
def Stuck (m : Mem) (d : Nat) : Prop :=
  lookup m d [] = none ∧
    (dirBlocks m d = 1034 ∨ (10 ≤ dirBlocks m d ∧ ind m d = 0 ∧ numFree m = 0))

theorem Tree.create_ok {path : List Byte} (hT : Tree m) (hpath : ∀ a ∈ path, a ≠ 0)
    (h : flat (file_create path) m = .ok (.ok e, m')) : ∃ d name,
      Parent m s_root (components path) d name ∧ IsFile m d ∧ Added d e name m m' := by
  rcases hT.create_cases hpath with ⟨⟨r, hr⟩, -⟩ | ⟨d, name, hP, hd, hname, hcase⟩
  · rw [hr] at h
    cases h
  obtain ⟨-, hlen, hdir, -⟩ := hP.last
  have hok := hT.owned.fileOk hd
  have hfull := hT.dirs d hd hdir
  refine ⟨d, name, hP, hd, ?_⟩
  rcases hcase with ⟨e', he, hrun⟩ | ⟨hno, hlt, m₂, hg, hrun⟩ | ⟨-, -, r, hrun⟩ | hrun
  · rw [hrun] at h
    cases h
    exact added_blank hok hfull he hlen hname
  · rw [hrun] at h
    cases h
    exact added_block hok hlt hno hlen hname hg rfl
  · rw [hrun] at h
    cases h
  · rw [hrun] at h
    cases h

/-- A creation that fails changes nothing, or leaves a directory too large. -/
theorem Tree.create_error {path : List Byte} {r : Int} (hT : Tree m) (hpath : ∀ a ∈ path, a ≠ 0)
    (h : flat (file_create path) m = .ok (.error r, m')) :
    (m' = m ∧ ∀ d name, ¬ Parent m s_root (components path) d name) ∨
    ∃ d name, Parent m s_root (components path) d name ∧ IsFile m d ∧ Stuck m d ∧
      m' = m.setWord (f_size d) (m.word (f_size d) + 4096#32) := by
  rcases hT.create_cases hpath with ⟨⟨r', hr⟩, hP⟩ | ⟨d, name, hP, hd, -, hcase⟩
  · rw [hr] at h
    cases h
    exact .inl ⟨rfl, hP⟩
  rcases hcase with ⟨e', -, hrun⟩ | ⟨-, -, m₂, -, hrun⟩ | ⟨hno, hstuck, r', hrun⟩ | hrun
  · rw [hrun] at h
    cases h
  · rw [hrun] at h
    cases h
  · rw [hrun] at h
    cases h
    exact .inr ⟨d, name, hP, hd, ⟨hno, hstuck⟩, rfl⟩
  · rw [hrun] at h
    cases h

end jos.fs
