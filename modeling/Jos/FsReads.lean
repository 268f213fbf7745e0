-- Reading (file_read, file_open, serve_stat and file_flush of the file
-- server) over plain memory: as long as no block is missing, each gives the
-- value of a pure function and leaves the memory as it is.
import Mathlib
import Jos.FsCache
import Jos.FsBytes
import Jos.FsPath
import Jos.Serv

namespace jos.fs

open blockstore ia32
open blockstore.Prog (loadByte loadBytes loadWord storeBytes storeWord flushAt flat)

variable {m m' : Mem} {f g d i : Nat} {name : List Byte}

/-! ## Blocks that are there -/

/-- Block `i` of a file is allocated, at a place on the disk. -/
structure There (m : Mem) (f i : Nat) : Prop where
  blk_ne : blk m f i ≠ 0
  blk_lt : blk m f i < numBlocks m
  ind_lt : 10 ≤ i → ind m f < numBlocks m

theorem There.lt (h : There m f i) : i < 1034 := by
  by_contra hc
  exact h.blk_ne (blk_large (by omega))

theorem There.hasSlot (h : There m f i) : HasSlot m f i := by
  by_cases hd : i < 10
  · exact .inl hd
  · refine .inr ⟨h.lt, fun hz => h.blk_ne (blk_entry_none (by omega) hz)⟩

theorem FileOk.there (h : FileOk m f) (hi : blk m f i ≠ 0) : There m f i := by
  have hlt : i < 1034 := by
    by_contra hc
    exact hi (blk_large (by omega))
  refine ⟨hi, ?_, fun h10 => ?_⟩
  · rw [← ptr_blk (by omega)] at hi ⊢
    exact (h.range i hi).2.1
  · exact (h.ind_range fun hz => hi (blk_entry_none h10 hz)).2.1

theorem There.get_block (h : There m f i) :
    flat (file_get_block f i) m = .ok (.ok (4096 * blk m f i), m) := by
  have hslot : (m.word (slotAddr m f i)).toNat = blk m f i := by
    rw [← ptr_eq_slot h.hasSlot, ptr_blk (by have := h.lt; omega)]
  have hwalk : flat (file_block_walk f i true) m = .ok (.ok (slotAddr m f i), m) := by
    have hlt := h.lt
    rw [file_block_walk,
      if_neg (show ¬ NDIRECT + NINDIRECT ≤ i by simp only [NDIRECT, NINDIRECT]; omega), slotAddr]
    by_cases hd : i < 10
    · rw [if_pos (show i < NDIRECT from hd), if_pos hd]
      rfl
    · have hz : m.word (f_indirect f) ≠ 0 :=
        word_ne_zero.mpr fun hz => h.blk_ne (blk_entry_none (by omega) hz)
      rw [if_neg (show ¬ i < NDIRECT from hd), if_neg hd, Prog.flat_loadWord_bind, if_pos hz,
        flat_diskaddr_bind hz (h.ind_lt (by omega))]
      rfl
  have hne : m.word (slotAddr m f i) ≠ 0 := word_ne_zero.mpr (by rw [hslot]; exact h.blk_ne)
  rw [file_get_block, Prog.flat_bind_ok hwalk]
  simp only [Prog.flat_loadWord_bind, if_neg hne]
  rw [flat_diskaddr_bind hne (by rw [hslot]; exact h.blk_lt), hslot]
  rfl

/-! ## Reading a file -/

/-- Every position from `pos` up to `stop` that a file can have lies in a block
that is there. -/
def Dense (m : Mem) (f : Nat) (pos stop : Word) : Prop :=
  ∀ q : Word, pos ≤ q → q < stop → perBlock q < 1034 → There m f (perBlock q)

/-- The next position of the loops is behind this one, and not behind the end. -/
theorem chunk_next {pos stop : Word} (h : pos < stop) :
    pos < pos + chunk pos stop ∧ pos + chunk pos stop ≤ stop := by
  obtain ⟨room, hroom⟩ : ∃ room, room = 4096#32 - pos.srem 4096#32 := ⟨_, rfl⟩
  have hpos : 0 < room.toNat := by
    have habs : pos.srem 4096#32 ≠ 4096#32 := by
      intro hc
      have := congrArg BitVec.toInt hc
      rw [BitVec.toInt_srem] at this
      have hlt := Int.tmod_lt_of_pos pos.toInt (b := (4096#32).toInt) (by decide)
      rw [this] at hlt
      exact lt_irrefl _ hlt
    have hne : room ≠ 0 := by
      rw [hroom]
      intro hc
      exact habs (BitVec.sub_eq_iff_eq_add.mp hc |>.trans (BitVec.zero_add _)).symm
    exact Nat.pos_of_ne_zero (word_ne_zero.mp hne)
  have hsub : (stop - pos).toNat = stop.toNat - pos.toNat := by
    rw [BitVec.toNat_sub]
    rw [BitVec.lt_def] at h
    have := stop.isLt
    omega
  rw [BitVec.lt_def] at h
  have hstop := stop.isLt
  simp only [chunk, ← hroom, BitVec.le_def, BitVec.lt_def, hsub]
  split
  · rw [BitVec.toNat_add]
    omega
  · rw [BitVec.toNat_add, hsub]
    omega

theorem file_read_from_dense {count stop pos : Word} {left : Nat} {buf : List Byte}
    (h : Dense m f pos stop) : ∃ r out,
      flat (file_read_from f count stop left pos buf) m = .ok ((r, out), m) ∧
      (r = count.toInt ∨ r = -E_INVAL) := by
  induction left generalizing pos buf with
  | zero => exact ⟨_, _, rfl, .inl rfl⟩
  | succ left ih =>
    rw [file_read_from]
    by_cases hend : stop ≤ pos
    · rw [if_pos hend]
      exact ⟨_, _, rfl, .inl rfl⟩
    have hlt : pos < stop := BitVec.not_le.mp hend
    rw [if_neg hend]
    by_cases hb : perBlock pos < 1034
    · rw [Prog.flat_bind_ok (h pos (BitVec.le_refl pos) hlt hb).get_block]
      obtain ⟨hnext, -⟩ := chunk_next hlt
      refine ih fun q hq hq' hqb => h q ?_ hq' hqb
      rw [BitVec.le_def] at hq ⊢
      rw [BitVec.lt_def] at hnext
      omega
    · rw [Prog.flat_bind_ok (file_get_block_large (by omega))]
      exact ⟨_, _, rfl, .inr rfl⟩

/-- `MIN(count, f->f_size - offset)`, and 0 behind the end of the file. -/
def readCount (m : Mem) (f : Nat) (count offset : Word) : Word :=
  let size := m.word (f_size f)
  if size.toInt ≤ offset.toInt then 0
  else if count ≤ size - offset then count else size - offset

theorem file_read_dense {count offset : Word}
    (h : Dense m f offset (offset + readCount m f count offset)) : ∃ r out,
      flat (file_read f count offset) m = .ok ((r, out), m) ∧
      (r = (readCount m f count offset).toInt ∨ r = -E_INVAL) := by
  unfold readCount at h ⊢
  rw [file_read, Prog.flat_loadWord_bind]
  simp only at h ⊢
  split
  · exact ⟨_, _, rfl, .inl rfl⟩
  · rename_i hlt
    rw [if_neg hlt] at h
    exact file_read_from_dense h

/-! ## Looking up a name -/

/-- The string at `g` is the name, which has no NUL in it. -/
def NameIs (m : Mem) : Nat → List Byte → Prop
  | g, [] => m g = 0
  | g, c :: cs => c ≠ 0 ∧ m g = c ∧ NameIs m (g + 1) cs

instance decidableNameIs (m : Mem) : ∀ (g : Nat) (name : List Byte), Decidable (NameIs m g name)
  | g, [] => inferInstanceAs (Decidable (m g = 0))
  | g, c :: cs =>
    have := decidableNameIs m (g + 1) cs
    inferInstanceAs (Decidable (c ≠ 0 ∧ m g = c ∧ NameIs m (g + 1) cs))

theorem flat_strcmpEq (p : Nat) (name : List Byte) :
    flat (strcmpEq p name) m = .ok (decide (NameIs m p name), m) := by
  induction name generalizing p with
  | nil => rfl
  | cons c cs ih =>
    rw [strcmpEq, Prog.flat_loadByte_bind]
    by_cases h : m p ≠ 0 ∧ m p = c
    · rw [if_pos h, ih]
      have heq : NameIs m p (c :: cs) ↔ NameIs m (p + 1) cs :=
        ⟨fun hn => hn.2.2, fun hn => ⟨h.2 ▸ h.1, h.2, hn⟩⟩
      simp only [heq]
    · rw [if_neg h, decide_eq_false]
      · rfl
      · exact fun hn => h ⟨hn.2.1 ▸ hn.1, hn.2.1⟩

/-- The entries of a block. -/
def blockEntries (b : Nat) : List Nat := (List.range 16).map fun j => 4096 * b + 256 * j

theorem flat_findEntry (name : List Byte) (left g : Nat) : flat (findEntry name left g) m =
    .ok (((List.range left).map fun j => g + 256 * j).find? fun g => NameIs m g name, m) := by
  induction left generalizing g with
  | zero => rfl
  | succ left ih =>
    rw [findEntry, Prog.flat_bind_ok (flat_strcmpEq g name), List.range_succ_eq_map, List.map_cons,
      List.find?_cons, List.map_map]
    by_cases h : NameIs m g name
    · simp [h]
    · simp only [h, decide_false, Nat.mul_zero, Nat.add_zero]
      have hshift : (List.range left).map ((fun j => g + 256 * j) ∘ Nat.succ) =
          (List.range left).map fun j => g + 256 + 256 * j :=
        List.map_congr_left fun j _ => by simp only [Function.comp, Nat.succ_eq_add_one]; omega
      rw [hshift]
      exact ih (g + 256)

/-- What the loop of `dir_lookup` finds, if no block is missing. -/
def lookupFrom (m : Mem) (d : Nat) (name : List Byte) : Nat → Nat → Except Int Nat
  | 0, _ => .error (-E_NOT_FOUND)
  | left + 1, i =>
    if 1034 ≤ i then .error (-E_INVAL)
    else ((blockEntries (blk m d i)).find? fun g => NameIs m g name).elim
      (lookupFrom m d name left (i + 1)) .ok

theorem flat_dir_lookup_from {left : Nat}
    (h : ∀ k, i ≤ k → k < i + left → k < 1034 → There m d k) :
    flat (dir_lookup_from d name left i) m = .ok (lookupFrom m d name left i, m) := by
  induction left generalizing i with
  | zero => rfl
  | succ left ih =>
    rw [dir_lookup_from, lookupFrom]
    by_cases hi : 1034 ≤ i
    · rw [if_pos hi, Prog.flat_bind_ok (file_get_block_large hi)]
      rfl
    · rw [if_neg hi, Prog.flat_bind_ok (h i le_rfl (by omega) (by omega)).get_block]
      simp only
      rw [Prog.flat_bind_ok (flat_findEntry name BLKFILES _)]
      have hrest := ih (i := i + 1) fun k hk hk' hk'' => h k (by omega) (by omega) hk''
      have hblock : ((List.range BLKFILES).map fun j => 4096 * blk m d i + 256 * j) =
          blockEntries (blk m d i) := rfl
      simp only [hblock]
      rcases (blockEntries (blk m d i)).find? fun g => NameIs m g name with _ | g
      · exact hrest
      · rfl

theorem lookupFrom_ok {left : Nat} (h : lookupFrom m d name left i = .ok g) :
    ∃ k j, i ≤ k ∧ k < i + left ∧ k < 1034 ∧ j < 16 ∧ g = 4096 * blk m d k + 256 * j ∧
      NameIs m g name := by
  induction left generalizing i with
  | zero => cases h
  | succ left ih =>
    rw [lookupFrom] at h
    split at h
    · cases h
    rename_i hi
    rcases hfind : (blockEntries (blk m d i)).find? fun g => NameIs m g name with _ | g'
    · rw [hfind] at h
      obtain ⟨k, j, hk, hk', hrest⟩ := ih h
      exact ⟨k, j, by omega, by omega, hrest⟩
    · rw [hfind] at h
      cases h
      obtain ⟨j, hj, rfl⟩ := List.mem_map.mp (List.mem_of_find?_eq_some hfind)
      exact ⟨i, j, le_rfl, by omega, by omega, List.mem_range.mp hj, rfl,
        of_decide_eq_true (List.find?_some hfind :)⟩

theorem lookupFrom_error {left : Nat} {r : Int} (h : lookupFrom m d name left i = .error r) :
    r = -E_NOT_FOUND ∨ r = -E_INVAL := by
  induction left generalizing i with
  | zero =>
    cases h
    exact .inl rfl
  | succ left ih =>
    rw [lookupFrom] at h
    split at h
    · cases h
      exact .inr rfl
    · rcases hfind : (blockEntries (blk m d i)).find? fun g => NameIs m g name with _ | g'
      · rw [hfind] at h
        exact ih h
      · rw [hfind] at h
        cases h

/-! ## Opening a file -/

/-- No directory of the image has a hole. -/
def DirsDense (m : Mem) : Prop :=
  ∀ d, IsFile m d → m.word (f_type d) = FTYPE_DIR →
    ∀ i < perBlock (m.word (f_size d)), i < 1034 → There m d i

theorem NameIs.head_ne (h : NameIs m g name) (hne : name ≠ []) : m g ≠ 0 := by
  cases name with
  | nil => exact absurd rfl hne
  | cons c cs =>
    rw [h.2.1]
    exact h.1

theorem components_ne_nil {path : List Byte} : ∀ name ∈ components path, name ≠ [] :=
  fun _ h => of_decide_eq_true (List.mem_filter.mp h).2

theorem walk_names_dense (dir : Option Nat) {names : List (List Byte)} (hD : DirsDense m)
    (hf : IsFile m f) (hne : ∀ name ∈ names, name ≠ []) :
    flat (walk_names f dir names) m = .error .dirSize ∨
    ∃ w, flat (walk_names f dir names) m = .ok (w, m) ∧
      (w.pf = none → w.r = -E_BAD_PATH ∨ w.r = -E_NOT_FOUND ∨ w.r = -E_INVAL) := by
  induction names generalizing f dir with
  | nil => exact .inr ⟨_, rfl, fun h => absurd h (Option.some_ne_none f)⟩
  | cons name names ih =>
    rw [walk_names]
    split
    · exact .inr ⟨_, rfl, fun _ => .inl rfl⟩
    rw [Prog.flat_loadWord_bind]
    by_cases hty : m.word (f_type f) ≠ FTYPE_DIR
    · rw [if_pos hty]
      exact .inr ⟨_, rfl, fun _ => .inr (.inl rfl)⟩
    rw [if_neg hty]
    have hdir := not_not.mp hty
    by_cases hsize : (m.word (f_size f)).toNat % BLKSIZE ≠ 0
    · left
      refine Prog.flat_bind_error ?_
      rw [dir_lookup, Prog.flat_loadWord_bind, if_pos hsize]
      rfl
    have hlook : flat (dir_lookup f name) m =
        .ok (lookupFrom m f name (perBlock (m.word (f_size f))) 0, m) := by
      rw [dir_lookup, Prog.flat_loadWord_bind, if_neg hsize]
      exact flat_dir_lookup_from fun k _ hk hk' => hD f hf hdir k (by omega) hk'
    rw [Prog.flat_bind_ok hlook]
    rcases hr : lookupFrom m f name (perBlock (m.word (f_size f))) 0 with r | g
    · refine .inr ?_
      simp only
      rcases lookupFrom_error hr with rfl | rfl
      · split
        · exact ⟨_, rfl, fun _ => .inr (.inl rfl)⟩
        · exact ⟨_, rfl, fun _ => .inr (.inl rfl)⟩
      · rw [if_neg (fun hc => absurd hc.1 (by decide))]
        exact ⟨_, rfl, fun _ => .inr (.inr rfl)⟩
    · -- the entry has a name, so it is a file of the image
      obtain ⟨k, j, -, hk, hlt, hj, rfl, hname⟩ := lookupFrom_ok hr
      have hthere := hD f hf hdir k (by omega) hlt
      have hchild : Child m f (4096 * blk m f k + 256 * j) :=
        ⟨hdir, ⟨k, j, by omega, hthere.blk_ne, hj, rfl⟩,
          hname.head_ne (hne name List.mem_cons_self)⟩
      exact ih _ (.child hf hchild) fun n hn => hne n (List.mem_cons_of_mem _ hn)

theorem file_open_dense {path : List Byte} (hD : DirsDense m) :
    flat (file_open path) m = .error .dirSize ∨
    ∃ r, flat (file_open path) m = .ok (r, m) ∧ r ≠ .error (-E_NO_DISK) := by
  rw [file_open, walk_path_eq]
  rcases walk_names_dense none hD .root components_ne_nil with hwalk | ⟨w, hwalk, hw⟩
  · exact .inl (Prog.flat_bind_error hwalk)
  · right
    rw [Prog.flat_bind_ok hwalk]
    rcases hpf : w.pf with _ | f
    · refine ⟨_, rfl, fun hc => ?_⟩
      have hr := Except.error.inj hc
      rcases hw hpf with h | h | h <;> rw [h] at hr <;> exact absurd hr (by decide)
    · exact ⟨_, rfl, by rintro ⟨⟩⟩

/-! ## Stat and flush -/

theorem reads_loadString (left a : Nat) : (loadString left a).Reads := by
  induction left generalizing a with
  | zero => exact Prog.reads_pure _
  | succ left ih =>
    refine (Prog.Reads.load a 1 _ fun _ => .ret _).bind fun c => ?_
    split
    · exact Prog.reads_pure _
    · exact (ih (a + 1)).bind fun _ => Prog.reads_pure _

theorem reads_page_write (p : Page) (a : Nat) (bs : List Byte) : (p.write a bs).Reads := by
  unfold Page.write
  split
  · exact Prog.reads_pure _
  · exact .panic _

theorem serve_stat_reads {s : Server} {p : Page} {r : Reply}
    (h : flat (serve_stat s p) m = .ok (r, m')) : m' = m ∧ (r.r = 0 ∨ r.r = -E_INVAL) := by
  unfold serve_stat openfile_lookup at h
  simp only at h
  split at h
  · rename_i e he
    split at he
    · cases he
      cases h
      exact ⟨rfl, .inr rfl⟩
    · cases he
  · obtain ⟨name, m₁, h₁, h⟩ := Prog.flat_bind_eq_ok h
    obtain ⟨p₁, m₂, h₂, h⟩ := Prog.flat_bind_eq_ok h
    rw [Prog.flat_loadWord_bind] at h
    obtain ⟨p₂, m₃, h₃, h⟩ := Prog.flat_bind_eq_ok h
    rw [Prog.flat_loadWord_bind] at h
    obtain ⟨p₃, m₄, h₄, h⟩ := Prog.flat_bind_eq_ok h
    cases h
    refine ⟨?_, .inl rfl⟩
    rw [(reads_page_write _ _ _).flat h₄, (reads_page_write _ _ _).flat h₃,
      (reads_page_write _ _ _).flat h₂, (reads_loadString _ _).flat h₁]

/-- Reading changes nothing, as long as no block that it needs is missing:
file_read with all blocks of the range there, file_open with no hole in a
directory, and serve_stat and file_flush always. None of them fails for lack
of disk space. -/
theorem reading_changes_nothing (m : Mem) :
    (∀ f count offset, Dense m f offset (offset + readCount m f count offset) →
      ∃ r out, flat (file_read f count offset) m = .ok ((r, out), m) ∧
        (r = (readCount m f count offset).toInt ∨ r = -E_INVAL)) ∧
    (DirsDense m → ∀ path, flat (file_open path) m = .error .dirSize ∨
      ∃ r, flat (file_open path) m = .ok (r, m) ∧ r ≠ .error (-E_NO_DISK)) ∧
    (∀ s p r m', flat (serve_stat s p) m = .ok (r, m') → m' = m ∧ (r.r = 0 ∨ r.r = -E_INVAL)) ∧
    ∀ f m', flat (file_flush f) m = .ok ((), m') → m' = m :=
  ⟨fun _ _ _ h => file_read_dense h, fun h _ => file_open_dense h,
    fun _ _ _ _ h => serve_stat_reads h, fun _ _ h => (settled_file_flush (S := ∅) h).1⟩

theorem tinyImage_dense : DirsDense tinyImage := by
  intro d hd hdir i hi hlt
  rcases tinyImage_files hd with rfl | rfl
  · have hsize : perBlock (tinyImage.word (f_size s_root)) = 1 := by decide +kernel
    rw [hsize] at hi
    obtain rfl : i = 0 := by omega
    exact (tinyImage_owned.fileOk .root).there (by decide +kernel)
  · have hreg : tinyImage.word (f_type 12288) = FTYPE_REG := by decide +kernel
    rw [hreg] at hdir
    cases hdir

theorem reading_changes_nothing_tiny :
    (∃ r out, flat (file_read s_root 3 0) tinyImage = .ok ((r, out), tinyImage) ∧
      (r = 3 ∨ r = -E_INVAL)) ∧
    (flat (file_open [97]) tinyImage = .error .dirSize ∨
      ∃ r, flat (file_open [97]) tinyImage = .ok (r, tinyImage) ∧ r ≠ .error (-E_NO_DISK)) := by
  obtain ⟨hread, hopen, -⟩ := reading_changes_nothing tinyImage
  have hcount : readCount tinyImage s_root 3 0 = 3 := by decide +kernel
  refine ⟨?_, hopen tinyImage_dense [97]⟩
  have h := hread s_root 3 0 fun q _ hq _ => by
    rw [hcount, BitVec.lt_def] at hq
    have hv : ((0 : Word) + 3).toNat = 3 := rfl
    rw [perBlock_eq (by omega), show q.toNat / 4096 = 0 by omega]
    exact (tinyImage_owned.fileOk .root).there (by decide +kernel)
  rw [hcount] at h
  exact h

/-- The image with no free block. -/
def fullImage : Mem := tinyImage.setWord bitmap 0

theorem fullImage_root (k : Nat) : ptr fullImage s_root k = if k = 0 then 3 else 0 := by
  have hdirect : ∀ k < 10, blk fullImage s_root k = if k = 0 then 3 else 0 := by decide +kernel
  rw [ptr_of_ind (by decide +kernel)]
  by_cases hd : k < 10
  · rw [if_pos hd, hdirect k hd]
  · rw [if_neg hd, if_neg (by omega)]

theorem fullImage_file (k : Nat) : ptr fullImage 12288 k = 0 := by
  have hdirect : ∀ k < 10, blk fullImage 12288 k = 0 := by decide +kernel
  rw [ptr_of_ind (by decide +kernel)]
  by_cases hd : k < 10
  · rw [if_pos hd, hdirect k hd]
  · rw [if_neg hd]

theorem fullImage_owned : Owned fullImage :=
  owned_of_one_entry (i := 0) (b := 0) (by decide +kernel) (by decide +kernel) fullImage_root
    (fun k => by rw [fullImage_file, ite_self]) (fun h => absurd rfl h) (by decide +kernel)
    (by decide +kernel)

theorem fullImage_isFile : IsFile fullImage 12288 :=
  .child .root ⟨by decide +kernel, ⟨0, 0, by decide +kernel, by decide +kernel, by omega,
    by decide +kernel⟩, by decide +kernel⟩

/-- A program that stops. -/
theorem flat_eq_error {α : Type} {x : Except Panic α} {e : Panic}
    (h : x.map (fun _ => ()) = .error e) : x = .error e := by
  cases x with
  | error e' => exact congrArg _ (Except.error.inj h)
  | ok a => cases h

/-- A read of a hole takes a block for it, and stops the server if there is none. -/
theorem reading_fills_holes :
    (Owned (tinyImage.setWord (f_size 12288) 1) ∧
      isFree (tinyImage.setWord (f_size 12288) 1) 4 = true ∧
      blk (tinyImage.setWord (f_size 12288) 1) 12288 0 = 0 ∧
      ∃ m', flat (file_read 12288 1 0) (tinyImage.setWord (f_size 12288) 1) = .ok ((1, [0]), m') ∧
        (isFree m' 4, blk m' 12288 0) = (false, 4)) ∧
    Owned (fullImage.setWord (f_size 12288) 1) ∧
      flat (file_read 12288 1 0) (fullImage.setWord (f_size 12288) 1) = .error .badBlockNumber := by
  have htiny := (tinyImage_owned.fileOk tinyImage_isFile).resize 1 rfl
  have hfull := (fullImage_owned.fileOk fullImage_isFile).resize 1 rfl
  refine ⟨⟨tinyImage_owned.change tinyImage_isFile (by decide +kernel) htiny.2.1 htiny.1,
    by decide +kernel, by decide +kernel, ?_⟩,
    fullImage_owned.change fullImage_isFile (by decide +kernel) hfull.2.1 hfull.1, ?_⟩
  · exact exists_flat_eq (fun m' => (isFree m' 4, blk m' 12288 0)) (by decide +kernel)
  · exact flat_eq_error (by decide +kernel)

end jos.fs
