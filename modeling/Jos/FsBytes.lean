-- A regular file as an array of bytes: file_write and file_read of fs/fs.c
-- over plain memory, for any pieces, in any order and on any files.
import Mathlib
import Jos.FsOwned

namespace jos.fs

open blockstore ia32
open blockstore.Prog (loadByte loadBytes loadWord storeBytes storeWord flushAt flat)

variable {m m' m'' : Mem} {f g p n : Nat}

/-! ## The contents of a file -/

def fileSize (m : Mem) (f : Nat) : Nat := (m.word (f_size f)).toNat

/-- The byte at a position, if it lies in a block that is allocated. -/
def content (m : Mem) (f q : Nat) : Option Byte :=
  if q / 4096 < 1034 ∧ ptr m f (q / 4096) ≠ 0 then some (byteAt m f q) else none

theorem content_of_ptr {q : Nat} (hq : q / 4096 < 1034) (hp : ptr m f (q / 4096) ≠ 0) :
    content m f q = some (byteAt m f q) := if_pos ⟨hq, hp⟩

theorem content_eq_some {q : Nat} {x : Byte} (h : content m f q = some x) :
    q / 4096 < 1034 ∧ ptr m f (q / 4096) ≠ 0 ∧ byteAt m f q = x := by
  unfold content at h
  split at h
  · rename_i hc
    exact ⟨hc.1, hc.2, Option.some.inj h⟩
  · cases h

/-- What a change keeps outside the positions that it writes. -/
theorem Ext.content_kept {lo hi q : Nat} {W : Nat → Prop} {x : Byte} (h : Ext f lo hi W m m')
    (hW : ¬ W q) (hx : content m f q = some x) : content m' f q = some x := by
  obtain ⟨hq, hp, hb⟩ := content_eq_some hx
  have hk := h.kept _ hp
  rw [content_of_ptr hq (by rw [hk]; exact hp), byteAt, hk, h.data q hq hp hW]
  exact congrArg some hb

/-- The blocks that an access from `p` up to `e` needs. -/
def needTo (m : Mem) (f p e : Nat) : Nat :=
  if p < e then need m f (p / 4096) ((e + 4095) / 4096) else 0

/-! ## One write -/

/-- The image in which a write that ends at `e` starts to store: the size is set
if the file is to grow. -/
def sized (m : Mem) (f e : Nat) : Mem :=
  if fileSize m f < e then m.setWord (f_size f) (BitVec.ofNat 32 e) else m

theorem FileOk.sized {e : Nat} (h : FileOk m f) (he : e < 2 ^ 31) :
    FileOk (fs.sized m f e) f ∧ Local f m (fs.sized m f e) ∧
    fileSize (fs.sized m f e) f = max (fileSize m f) e ∧
    (∀ k, ptr (fs.sized m f e) f k = ptr m f k) ∧
    (∀ q, content (fs.sized m f e) f q = content m f q) ∧
    numFree (fs.sized m f e) = numFree m := by
  unfold fs.sized
  split
  · rename_i hlt
    obtain ⟨hok, hloc, hptr, hdata, hfree, hsize⟩ := h.resize (BitVec.ofNat 32 e) rfl
    refine ⟨hok, hloc, ?_, hptr, fun q => ?_, hfree⟩
    · rw [fileSize, hsize, toNat_pos he]
      omega
    · rw [content, content, hptr]
      split
      · rename_i hq
        rw [byteAt, byteAt, hptr, hdata _ _ hq.1 hq.2 (by omega)]
      · rfl
  · exact ⟨h, .refl f m, by omega, fun _ => rfl, fun _ => rfl, rfl⟩

theorem flat_file_write (h : FileOk m f) (hpn : p + n < 2 ^ 31) (buf : List Byte) :
    flat (file_write f buf (BitVec.ofNat 32 n) (BitVec.ofNat 32 p)) m =
      flat (file_write_from f (BitVec.ofNat 32 n) (BitVec.ofNat 32 (p + n)) n
        (BitVec.ofNat 32 p) buf) (sized m f (p + n)) := by
  have hadd : BitVec.ofNat 32 p + BitVec.ofNat 32 n = BitVec.ofNat 32 (p + n) :=
    (BitVec.ofNat_add ..).symm
  have hpv : (BitVec.ofNat 32 (p + n)).toNat = p + n := toNat_pos hpn
  rw [file_write, Prog.flat_loadWord_bind, hadd, toNat_pos (show n < 2 ^ 31 by omega), sized]
  refine (apply_ite (fun x => flat x m) ..).trans ?_
  by_cases hlt : m.word (f_size f) < BitVec.ofNat 32 (p + n)
  · have hlt' : fileSize m f < p + n := by
      rw [BitVec.lt_def, hpv] at hlt
      exact hlt
    rw [if_pos hlt, if_pos hlt',
      Prog.flat_bind_ok (flat_file_set_size_up h.lt_disk (by
        rw [toInt_of_lt (w := BitVec.ofNat 32 (p + n)) (by omega), hpv,
          toInt_of_lt (show fileSize m f < 2 ^ 31 by omega)]
        exact not_lt.mpr (Int.ofNat_le.mpr hlt'.le))), if_neg (by decide)]
  · have hlt' : ¬ fileSize m f < p + n := by
      rw [BitVec.lt_def, hpv] at hlt
      exact hlt
    rw [if_neg hlt, if_neg hlt']

theorem file_write_total {buf : List Byte} (h : FileOk m f)
    (hpn : p + n ≤ 1034 * 4096) (hbuf : n ≤ buf.length)
    (hneed : needTo m f p (p + n) ≤ numFree m) :
    ∃ m', flat (file_write f buf (BitVec.ofNat 32 n) (BitVec.ofNat 32 p)) m = .ok ((n : Int), m') ∧
      FileOk m' f ∧ Local f m m' ∧ fileSize m' f = max (fileSize m f) (p + n) ∧
      (∀ q, p ≤ q → q < p + n → content m' f q = buf[q - p]?) ∧
      ∀ q x, ¬ (p ≤ q ∧ q < p + n) → content m f q = some x → content m' f q = some x := by
  have hni : (BitVec.ofNat 32 n).toInt = n := by
    rw [toInt_of_lt] <;> rw [toNat_pos (show n < 2 ^ 31 by omega)]
    omega
  -- first the size, with all pointers and bytes as they were
  obtain ⟨hok, hloc, hsize, hptr, hkept, hfree⟩ := h.sized (show p + n < 2 ^ 31 by omega)
  rw [flat_file_write h (by omega)]
  by_cases hz : n = 0
  · subst hz
    exact ⟨_, rfl, hok, hloc, hsize, fun q _ _ => by omega,
      fun q x _ hx => (hkept q).trans hx⟩
  · -- then the loop, for which there are enough blocks
    rw [needTo, if_pos (by omega), ← need_congr hptr] at hneed
    have hspec := file_write_from_spec (BitVec.ofNat 32 n) n buf hok (p := p) (e := p + n)
      (by omega) (by omega) (by omega) (by omega)
    rw [Nat.min_eq_left hpn, if_pos hpn] at hspec
    rcases hspec with ⟨m₂, hw, hx⟩ | ⟨hfew, -⟩
    · refine ⟨m₂, by rw [hw, hni], hx.ext.ok, hloc.trans hx.ext.loc, ?_, fun q hq hq' => ?_,
        fun q x hq hc => hx.ext.content_kept hq ((hkept q).trans hc)⟩
      · rw [fileSize, hx.ext.size]
        exact hsize
      · rw [content_of_ptr (by omega) (hx.there q hq hq'), hx.bytes q hq hq']
    · omega

/-! ## One read -/

theorem file_read_total (h : FileOk m f) (hs : fileSize m f ≤ 1034 * 4096) (hp : p < 2 ^ 31)
    (count : Word)
    (hneed : needTo m f p (min (p + count.toNat) (fileSize m f)) ≤ numFree m) :
    ∃ m' out, flat (file_read f count (BitVec.ofNat 32 p)) m =
        .ok ((((min (p + count.toNat) (fileSize m f) - p : Nat) : Int), out), m') ∧
      FileOk m' f ∧ Local f m m' ∧ fileSize m' f = fileSize m f ∧
      (∀ q x, content m f q = some x → content m' f q = some x) ∧
      out.length = min (p + count.toNat) (fileSize m f) - p ∧
      ∀ q x, p ≤ q → q < min (p + count.toNat) (fileSize m f) → content m f q = some x →
        out[q - p]? = some x := by
  obtain ⟨e, he⟩ : ∃ e, e = min (p + count.toNat) (fileSize m f) := ⟨_, rfl⟩
  rw [← he] at hneed ⊢
  have hsv : (m.word (f_size f)).toNat = fileSize m f := rfl
  have hpv : (BitVec.ofNat 32 p).toNat = p := toNat_pos hp
  unfold file_read
  rw [Prog.flat_loadWord_bind, toInt_of_lt (w := m.word (f_size f)) (by omega),
    toInt_of_lt (w := BitVec.ofNat 32 p) (by omega), hsv, hpv]
  by_cases hle : fileSize m f ≤ p
  · rw [if_pos (by omega), show e - p = 0 by omega]
    exact ⟨m, [], rfl, h, .refl f m, rfl, fun _ _ hx => hx, rfl, fun q x hq hq' => by omega⟩
  rw [if_neg (by omega)]
  -- the count that is read, and where it ends
  have hdiff : (m.word (f_size f) - BitVec.ofNat 32 p).toNat = fileSize m f - p := by
    rw [BitVec.toNat_sub, hpv, hsv]
    have := (m.word (f_size f)).isLt
    omega
  have hcount : (if count ≤ m.word (f_size f) - BitVec.ofNat 32 p then count
      else m.word (f_size f) - BitVec.ofNat 32 p) = BitVec.ofNat 32 (e - p) := by
    apply BitVec.eq_of_toNat_eq
    simp only [BitVec.le_def, hdiff]
    split
    · rw [BitVec.toNat_ofNat]
      omega
    · rw [hdiff, BitVec.toNat_ofNat]
      omega
  have hstop : BitVec.ofNat 32 p + BitVec.ofNat 32 (e - p) = BitVec.ofNat 32 e := by
    rw [← BitVec.ofNat_add]
    congr 1
    omega
  have hcv : (BitVec.ofNat 32 (e - p)).toNat = e - p := toNat_pos (by omega)
  have hci : (BitVec.ofNat 32 (e - p)).toInt = ((e - p : Nat) : Int) := by
    rw [toInt_of_lt (by omega), hcv]
  simp only [hcount, hstop, hcv]
  by_cases hpe : p < e
  · rw [needTo, if_pos hpe] at hneed
    rcases file_read_from_spec (BitVec.ofNat 32 (e - p)) (e - p) [] h hpe (by omega)
      le_rfl with ⟨m', bs, hrun, hr⟩ | ⟨hfew, -⟩
    · refine ⟨m', bs, by rw [hrun, hci]; rfl, hr.ext.ok, hr.ext.loc, ?_, fun q x hx => ?_,
        hr.length, fun q x hq hq' hx => ?_⟩
      · rw [fileSize, hr.ext.size]
        rfl
      · exact hr.ext.content_kept (fun hc => hc) hx
      · have hx' := hr.ext.content_kept (fun hc => hc) hx
        rw [content_of_ptr (by omega) (hr.there q hq hq')] at hx'
        rw [hr.bytes q hq hq', hx']
    · omega
  · have hz : e - p = 0 := by omega
    rw [hz]
    exact ⟨m, [], rfl, h, .refl f m, rfl, fun _ _ hx => hx, rfl, fun q x hq hq' => by omega⟩

/-! ## Files as arrays -/

/-- What is known of a file: its size, and bytes that are stored. -/
structure FileBytes where
  size : Nat
  byte : Nat → Option Byte

/-- An array after `n` bytes of `buf` are written at `p`. -/
def FileBytes.write (s : FileBytes) (p n : Nat) (buf : List Byte) : FileBytes where
  size := max s.size (p + n)
  byte := fun q => if p ≤ q ∧ q < p + n then buf[q - p]? else s.byte q

inductive ByteOp
  | read (f : Nat) (count offset : Word)
  | write (f : Nat) (buf : List Byte) (count offset : Word)

namespace ByteOp

def file : ByteOp → Nat
  | read f _ _ => f
  | write f _ _ _ => f

def prog : ByteOp → Io Unit
  | read f count offset => do
    let _ ← file_read f count offset
    pure ()
  | write f buf count offset => do
    let _ ← file_write f buf count offset
    pure ()

/-- The arrays after an operation: a write changes one of them. -/
def effect : ByteOp → (Nat → FileBytes) → Nat → FileBytes
  | read _ _ _, A => A
  | write f buf count offset, A =>
    Function.update A f ((A f).write offset.toNat count.toNat buf)

/-- Where an operation ends: a read stops at the end of the file. -/
def stop (m : Mem) : ByteOp → Nat
  | read f count offset => min (offset.toNat + count.toNat) (fileSize m f)
  | write _ _ count offset => offset.toNat + count.toNat

/-- The offset is not negative, and a write stays in a file of the largest size. -/
def InRange : ByteOp → Prop
  | read _ _ offset => 0 ≤ offset.toInt
  | write _ buf count offset => 0 ≤ offset.toInt ∧
    offset.toInt + count.toNat ≤ MAXFILESIZE ∧ count.toNat ≤ buf.length

def offset : ByteOp → Word
  | read _ _ offset => offset
  | write _ _ _ offset => offset

/-- A regular file, arguments in range and enough free blocks. -/
structure Allowed (m : Mem) (op : ByteOp) : Prop where
  isFile : IsFile m op.file
  regular : m.word (f_type op.file) = FTYPE_REG
  range : op.InRange
  room : needTo m op.file op.offset.toNat (op.stop m) ≤ numFree m

/-- What an operation answers in the image `m`, where the arrays are `A`. -/
def Answer (m : Mem) (A : Nat → FileBytes) : ByteOp → Prop
  | read f count offset => ∃ m' out,
    flat (file_read f count offset) m = .ok
      ((((min (offset.toNat + count.toNat) (fileSize m f) - offset.toNat : Nat) : Int), out), m') ∧
    out.length = min (offset.toNat + count.toNat) (fileSize m f) - offset.toNat ∧
    ∀ q x, offset.toNat ≤ q → q < min (offset.toNat + count.toNat) (fileSize m f) →
      content m f q = some x ∨ (A f).byte q = some x → out[q - offset.toNat]? = some x
  | write f buf count offset => ∃ m',
    flat (file_write f buf count offset) m = .ok ((count.toNat : Int), m') ∧
    fileSize m' f = max (fileSize m f) (offset.toNat + count.toNat) ∧
    (∀ q, offset.toNat ≤ q → q < offset.toNat + count.toNat →
      content m' f q = buf[q - offset.toNat]?) ∧
    (∀ q x, ¬ (offset.toNat ≤ q ∧ q < offset.toNat + count.toNat) → content m f q = some x →
      content m' f q = some x) ∧
    ∀ g, IsFile m g → g ≠ f → fileSize m' g = fileSize m g ∧ (∀ k, ptr m' g k = ptr m g k) ∧
      ∀ q, ¬ InInode f (4096 * ptr m g (q / 4096) + q % 4096) → content m' g q = content m g q

end ByteOp

/-- The image after an operation that does not panic. -/
def byteStep (m : Mem) (op : ByteOp) : Option Mem :=
  match flat op.prog m with
  | .ok r => some r.2
  | .error _ => none

/-- No regular file has a negative size or more blocks than there are slots. -/
def SizesOk (m : Mem) : Prop :=
  ∀ f, IsFile m f → m.word (f_type f) = FTYPE_REG → fileSize m f ≤ 1034 * 4096

/-- The regular files of the image have the sizes and the bytes of the arrays. -/
def Holds (A : Nat → FileBytes) (m : Mem) : Prop :=
  ∀ f, IsFile m f → m.word (f_type f) = FTYPE_REG → fileSize m f = (A f).size ∧
    ∀ q x, (A f).byte q = some x → content m f q = some x

/-- Another file has the same bytes, apart from the inode of the changed file. -/
theorem Owned.content_same (hO : Owned m) (hf : IsFile m f) (hkids : KidsKept f m m')
    (hloc : Local f m m') (hg : IsFile m g) (hne : g ≠ f) {q : Nat}
    (hin : ¬ InInode f (4096 * ptr m g (q / 4096) + q % 4096)) : content m' g q = content m g q := by
  have hptr := hO.ptr_kept hf hkids hloc hg hne (q / 4096)
  by_cases hc : q / 4096 < 1034 ∧ ptr m g (q / 4096) ≠ 0
  · rw [content_of_ptr hc.1 hc.2, content_of_ptr hc.1 (by rw [hptr]; exact hc.2), byteAt, byteAt,
      hptr, hO.block_kept hf hloc hg hne hc.2 (by omega) hin]
  · rw [content, content, if_neg hc, if_neg (by rw [hptr]; exact hc)]

section Frame

variable (hO : Owned m) (hf : IsFile m f) (hreg : m.word (f_type f) = FTYPE_REG)
  (hloc : Local f m m')

include hO hf hreg hloc

/-- Another file has the same bytes, apart from the inode of the changed file. -/
theorem Owned.content_kept (hg : IsFile m g) (hne : g ≠ f) {q : Nat}
    (hin : ¬ InInode f (4096 * ptr m g (q / 4096) + q % 4096)) : content m' g q = content m g q :=
  hO.content_same hf (.of_regular (by rw [hreg]; decide)) hloc hg hne hin

/-- No regular file has an inode in its blocks. -/
theorem Owned.content_regular_kept (hg : IsFile m g) (hne : g ≠ f)
    (hgreg : m.word (f_type g) = FTYPE_REG) (q : Nat) : content m' g q = content m g q := by
  by_cases hc : q / 4096 < 1034 ∧ ptr m g (q / 4096) ≠ 0
  · refine hO.content_kept hf hreg hloc hg hne fun hin => ?_
    have hr := (hO.range g _ hg hc.2).1
    unfold InInode at hin
    rcases hf.parent with rfl | ⟨d, -, hd, hchild⟩
    · unfold s_root super at hin
      unfold firstBlock at hr
      omega
    · obtain ⟨i, j, -, -, hp, hj, hfe⟩ := hchild.ptr
      obtain ⟨rfl, -⟩ := hO.inj d g i (q / 4096) hd hg hp (by omega)
      have := hchild.dir
      rw [hgreg] at this
      cases this
  · have hdir : m.word (f_type f) ≠ FTYPE_DIR := by rw [hreg]; decide
    have hptr := hO.ptr_kept hf (.of_regular hdir) hloc hg hne (q / 4096)
    rw [content, content, if_neg hc, if_neg (by rw [hptr]; exact hc)]

/-- After a change of one file the arrays of all others are as they were. -/
theorem Owned.holds_change {A A' : Nat → FileBytes} (hA : Holds A m)
    (hother : ∀ g, g ≠ f → A' g = A g) (hsize : fileSize m' f = (A' f).size)
    (hbytes : ∀ q x, (A' f).byte q = some x → content m' f q = some x) : Holds A' m' := by
  have hdir : m.word (f_type f) ≠ FTYPE_DIR := by rw [hreg]; decide
  intro g hg hgreg
  have hg := (hO.isFile_iff hf hdir hloc).mp hg
  rw [hO.type_kept hf (.of_regular hdir) hloc hg] at hgreg
  by_cases hne : g = f
  · subst hne
    exact ⟨hsize, hbytes⟩
  · obtain ⟨hs, hb⟩ := hA g hg hgreg
    rw [hother g hne, fileSize, hO.size_kept hf (.of_regular hdir) hloc hg hne]
    refine ⟨hs, fun q x hx => ?_⟩
    rw [hO.content_regular_kept hf hreg hloc hg hne hgreg]
    exact hb q x hx

end Frame

/-- One operation: it answers, and the image then holds the new arrays. -/
theorem Owned.byteOp {op : ByteOp} {A : Nat → FileBytes} (hO : Owned m) (hs : SizesOk m)
    (hA : Holds A m) (hop : op.Allowed m) : op.Answer m A ∧
      ∃ m', byteStep m op = some m' ∧ Owned m' ∧ SizesOk m' ∧ Holds (op.effect A) m' := by
  obtain ⟨hf, hreg, hrange, hroom⟩ := hop
  have hok := hO.fileOk hf
  have hdir : m.word (f_type op.file) ≠ FTYPE_DIR := by rw [hreg]; decide
  -- an image that differs by the file keeps its sizes, if the file has one
  have hsizes : ∀ m', Local op.file m m' → fileSize m' op.file ≤ 1034 * 4096 → SizesOk m' := by
    intro m' hloc hsz g hg hgreg
    have hg := (hO.isFile_iff hf hdir hloc).mp hg
    rw [hO.type_kept hf (.of_regular hdir) hloc hg] at hgreg
    by_cases hne : g = op.file
    · rw [hne]
      exact hsz
    · rw [fileSize, hO.size_kept hf (.of_regular hdir) hloc hg hne]
      exact hs g hg hgreg
  have hsz := hs _ hf hreg
  obtain ⟨hAs, hAb⟩ := hA _ hf hreg
  cases op with
  | read f count offset =>
    obtain ⟨ho31, -⟩ := toNat_of_toInt_nonneg hrange
    obtain ⟨m', out, hrun, hok', hloc, hsize, hkept, hlen, hout⟩ :=
      file_read_total (f := f) hok hsz (p := offset.toNat) ho31 count hroom
    rw [BitVec.ofNat_toNat, BitVec.setWidth_eq] at hrun
    refine ⟨⟨m', out, hrun, hlen, fun q x hq hq' hx => hout q x hq hq' ?_⟩,
      m', ?_, hO.change hf hdir hloc hok', hsizes m' hloc (hsize.trans_le hsz), ?_⟩
    · exact hx.elim id (hAb q x)
    · rw [byteStep, ByteOp.prog, Prog.flat_bind_ok hrun]
      rfl
    · exact hO.holds_change hf hreg hloc hA (fun _ _ => rfl) (hsize.trans hAs)
        fun q x hx => hkept q x (hAb q x hx)
  | write f buf count offset =>
    obtain ⟨hoff, hend, hbuf⟩ := hrange
    obtain ⟨ho31, hoe⟩ := toNat_of_toInt_nonneg hoff
    simp only [MAXFILESIZE, NDIRECT, NINDIRECT, BLKSIZE] at hend
    obtain ⟨m', hrun, hok', hloc, hsize, hnew, hold⟩ :=
      file_write_total (f := f) hok (p := offset.toNat) (n := count.toNat) (by omega) hbuf hroom
    rw [BitVec.ofNat_toNat, BitVec.setWidth_eq, BitVec.ofNat_toNat, BitVec.setWidth_eq] at hrun
    refine ⟨⟨m', hrun, hsize, hnew, hold, fun g hg hne => ⟨?_, hO.ptr_kept hf (.of_regular hdir) hloc hg hne,
        fun q hq => hO.content_kept hf hreg hloc hg hne hq⟩⟩,
      m', ?_, hO.change hf hdir hloc hok', hsizes m' hloc ?_, ?_⟩
    · rw [fileSize, hO.size_kept hf (.of_regular hdir) hloc hg hne]
      rfl
    · rw [byteStep, ByteOp.prog, Prog.flat_bind_ok hrun]
      rfl
    · have hsz' : fileSize m f ≤ 1034 * 4096 := hsz
      show fileSize m' f ≤ _
      omega
    · refine hO.holds_change hf hreg hloc hA (fun g hne => Function.update_of_ne hne ..) ?_ ?_
      · have hAs' : fileSize m f = (A f).size := hAs
        simp only [ByteOp.file, ByteOp.effect, Function.update_self, FileBytes.write, hsize, hAs']
      · intro q x hx
        simp only [ByteOp.file, ByteOp.effect, Function.update_self, FileBytes.write] at hx ⊢
        split at hx
        · rename_i hq
          rw [hnew q hq.1 hq.2, hx]
        · rename_i hq
          exact hold q x hq (hAb q x hx)

/-- Regular files are arrays of bytes: any allowed reads and writes on any
files succeed and leave the image with the arrays that the writes give, and
the next one answers as such an array does. -/
theorem files_are_byte_arrays {ops : List ByteOp} {op : ByteOp} {A : Nat → FileBytes}
    (hO : Owned m) (hs : SizesOk m) (hA : Holds A m)
    (hall : runs.Along byteStep ByteOp.Allowed m (ops ++ [op])) :
    ∃ m', runs.runFrom byteStep m ops = some m' ∧ Owned m' ∧ SizesOk m' ∧
      Holds (ops.foldl (fun A op => op.effect A) A) m' ∧
      op.Answer m' (ops.foldl (fun A op => op.effect A) A) := by
  induction ops generalizing m A with
  | nil => exact ⟨m, rfl, hO, hs, hA, (hO.byteOp hs hA hall.1).1⟩
  | cons o ops ih =>
    obtain ⟨-, m₁, hstep, hO₁, hs₁, hA₁⟩ := hO.byteOp hs hA hall.1
    have hall₁ := hall.2
    rw [hstep] at hall₁
    obtain ⟨m', hrun, hrest⟩ := ih hO₁ hs₁ hA₁ hall₁
    exact ⟨m', by rw [runs.runFrom, hstep]; exact hrun, hrest⟩

/-- Three bytes of the file of `tinyImage`, over the end of its first block. -/
def tinyWrite : ByteOp := .write 12288 [1, 2, 3] 3 4095

def tinyWritten : Mem := (byteStep tinyImage tinyWrite).getD tinyImage

theorem tinyWritten_step : byteStep tinyImage tinyWrite = some tinyWritten := by
  have hsome : (byteStep tinyImage tinyWrite).isSome := by decide +kernel
  obtain ⟨m', hm'⟩ := Option.isSome_iff_exists.mp hsome
  rw [tinyWritten, hm']
  rfl

theorem files_are_byte_arrays_once :
    ∃ m', runs.runFrom byteStep tinyImage [tinyWrite] = some m' ∧ ∃ m'' out,
      flat (file_read 12288 3 4095) m' = .ok ((3, out), m'') ∧ out[1]? = some 2 := by
  have hsizes : SizesOk tinyImage := by
    intro f hf hreg
    rcases tinyImage_files hf with rfl | rfl <;> decide +kernel
  have hA : Holds (fun f => ⟨fileSize tinyImage f, content tinyImage f⟩) tinyImage :=
    fun f _ _ => ⟨rfl, fun _ _ h => h⟩
  have hop : tinyWrite.Allowed tinyImage :=
    ⟨tinyImage_isFile, by decide +kernel, ⟨by decide, by decide, by decide⟩, by decide +kernel⟩
  have hop' : (ByteOp.read 12288 3 4095).Allowed tinyWritten :=
    ⟨.child .root ⟨by decide +kernel, ⟨0, 0, by decide +kernel, by decide +kernel, by omega,
      by decide +kernel⟩, by decide +kernel⟩, by decide +kernel, by show 0 ≤ _; decide, by decide +kernel⟩
  have hall : runs.Along byteStep ByteOp.Allowed tinyImage ([tinyWrite] ++ [.read 12288 3 4095]) := by
    refine ⟨hop, ?_⟩
    rw [tinyWritten_step]
    refine ⟨hop', ?_⟩
    split <;> trivial
  obtain ⟨m', hrun, -, -, -, m'', out, hread, -, hout⟩ :=
    files_are_byte_arrays tinyImage_owned hsizes hA hall
  obtain rfl : m' = tinyWritten := by
    rw [runs.runFrom, tinyWritten_step] at hrun
    exact (Option.some.inj hrun).symm
  have hsize : fileSize tinyWritten 12288 = 4098 := by decide +kernel
  rw [hsize] at hread hout
  exact ⟨tinyWritten, hrun, m'', out, hread, hout 4096 2 (by decide) (by decide) (.inr rfl)⟩

/-- Each block is the pointer of at most one slot. -/
def OneSlot (m : Mem) : Prop :=
  ∀ f g k l, IsFile m f → IsFile m g → ptr m f k ≠ 0 → ptr m f k = ptr m g l → f = g ∧ k = l

/-- The image with a file of one byte, whose block is marked free. -/
def freeImage : Mem := (tinyImage.setWord (f_size 12288) 1).setWord (f_direct 12288 0) 4

theorem freeImage_oneSlot : OneSlot freeImage := by
  have hrootdirect : ∀ k < 10, blk freeImage s_root k = if k = 0 then 3 else 0 := by decide +kernel
  have hfiledirect : ∀ k < 10, blk freeImage 12288 k = if k = 0 then 4 else 0 := by decide +kernel
  have hone : ∀ {f b}, ind freeImage f = 0 →
      (∀ k < 10, blk freeImage f k = if k = 0 then b else 0) →
      ∀ k, ptr freeImage f k = if k = 0 then b else 0 := by
    intro f b hind hdirect k
    rw [ptr_of_ind hind]
    by_cases hd : k < 10
    · rw [if_pos hd, hdirect k hd]
    · rw [if_neg hd, if_neg (by omega)]
  have hroot := hone (by decide +kernel) hrootdirect
  have hfile := hone (by decide +kernel) hfiledirect
  have hfiles : ∀ f, IsFile freeImage f → f = s_root ∨ f = 12288 := fun f hf =>
    files_of_one_entry hroot (by decide +kernel) (by decide +kernel) hf
  intro f g k l hf hg hp he
  rcases hfiles f hf with rfl | rfl <;> rcases hfiles g hg with rfl | rfl <;>
    simp only [hroot, hfile] at hp he <;> grind

/-- The result of a run, and what is in the memory after it. -/
theorem exists_flat_eq {α β : Type} {x : Except Panic (α × Mem)} (g : Mem → β) {r : α} {b : β}
    (h : x.toOption.map (fun y => (y.1, g y.2)) = some (r, b)) : ∃ m', x = .ok (r, m') ∧ g m' = b := by
  obtain ⟨⟨r', m'⟩, hx, he⟩ := Option.map_eq_some_iff.mp h
  cases x with
  | error e => cases hx
  | ok y =>
    cases hx
    cases he
    exact ⟨m', rfl, rfl⟩

/-- Three things that a byte array does not do. A file with a negative size
keeps it. A block that is in a file but marked free is handed out again, so a
write at 4096 changes byte 0. A position behind the largest file cannot be
read, even if the size of the file is larger. -/
theorem files_are_not_byte_arrays :
    (Owned (tinyImage.setWord (f_size 12288) (-1)) ∧
      ∃ m', flat (file_write 12288 [7] 1 0) (tinyImage.setWord (f_size 12288) (-1)) = .ok (1, m') ∧
        m'.word (f_size 12288) = -1) ∧
    (OneSlot freeImage ∧ content freeImage 12288 0 = some 0 ∧
      ∃ m', flat (file_write 12288 [7] 1 4096) freeImage = .ok (1, m') ∧
        content m' 12288 0 = some 7) ∧
    Owned (tinyImage.setWord (f_size 12288) (1034 * 4096 + 1)) ∧
      ∃ m' out, flat (file_read 12288 1 (1034 * 4096))
        (tinyImage.setWord (f_size 12288) (1034 * 4096 + 1)) = .ok ((-3, out), m') := by
  have hresized : ∀ w, Owned (tinyImage.setWord (f_size 12288) w) := fun w => by
    obtain ⟨hok, hloc, -⟩ := (tinyImage_owned.fileOk tinyImage_isFile).resize w rfl
    exact tinyImage_owned.change tinyImage_isFile (by decide +kernel) hloc hok
  refine ⟨⟨hresized _, ?_⟩, ⟨freeImage_oneSlot, by decide +kernel, ?_⟩, hresized _, ?_⟩
  · exact exists_flat_eq (fun m' => m'.word (f_size 12288)) (by decide +kernel)
  · exact exists_flat_eq (fun m' => content m' 12288 0) (by decide +kernel)
  · obtain ⟨m', hm', -⟩ := exists_flat_eq (x := flat (file_read 12288 1 (1034 * 4096))
      (tinyImage.setWord (f_size 12288) (1034 * 4096 + 1))) (r := (-3, [])) (fun m' => m' 0)
      (b := 0) (by decide +kernel)
    exact ⟨m', [], hm'⟩

end jos.fs
