-- The sizes of regular files under requests: a size in range, and no block
-- behind the end of the file.
import Mathlib
import Jos.FsBytes
import Jos.Serv

namespace jos.fs

open blockstore ia32
open blockstore.Prog (loadByte loadBytes loadWord storeBytes storeWord flushAt flat)

variable {m m' : Mem} {f g : Nat} {s : Server} {p : Page}

/-- The number of blocks of a file, `f_size / BLKSIZE` rounded up. -/
def fileBlocks (m : Mem) (f : Nat) : Nat := (fileSize m f + 4095) / 4096

/-- A file with a size in range, and no block behind its end. -/
structure Trim (m : Mem) (f : Nat) : Prop where
  low : 0 ≤ (m.word (f_size f)).toInt
  high : (m.word (f_size f)).toInt ≤ MAXFILESIZE
  slots : ∀ k < NDIRECT + NINDIRECT, fileBlocks m f ≤ k → blk m f k = 0
  indirect : fileBlocks m f ≤ NDIRECT → ind m f = 0

/-- The same over the pointers of the file. -/
theorem trim_iff : Trim m f ↔ fileSize m f ≤ 1034 * 4096 ∧
    ∀ k, fileBlocks m f ≤ k → (k = 1034 → fileBlocks m f ≤ 10) → ptr m f k = 0 := by
  constructor
  · rintro ⟨hlow, hhigh, hslots, hind⟩
    obtain ⟨-, he⟩ := toNat_of_toInt_nonneg hlow
    simp only [MAXFILESIZE, NDIRECT, NINDIRECT, BLKSIZE] at hhigh hslots hind
    refine ⟨by unfold fileSize; omega, fun k hk hk' => ?_⟩
    by_cases hi : k = 1034
    · rw [hi, ptr_ind]
      exact hind (hk' hi)
    · by_cases hlt : k < 1034
      · rw [ptr_blk hi]
        exact hslots k hlt hk
      · rw [ptr_blk hi, blk_large (by omega)]
  · rintro ⟨hsize, hptr⟩
    have he := toInt_of_lt (w := m.word (f_size f)) (by unfold fileSize at hsize; omega)
    have hsv : (m.word (f_size f)).toNat = fileSize m f := rfl
    refine ⟨by omega, ?_, fun k hk hle => ?_, fun hle => ?_⟩
    · simp only [MAXFILESIZE, NDIRECT, NINDIRECT, BLKSIZE]
      omega
    · simp only [NDIRECT, NINDIRECT] at hk
      rw [← ptr_blk (by omega)]
      exact hptr k hle (by omega)
    · rw [← ptr_ind]
      simp only [NDIRECT] at hle
      exact hptr 1034 (by omega) fun _ => hle

/-! ## One file -/

/-- A larger size, with the pointers as they are. -/
theorem Trim.grow (h : Trim m f) (hptr : ∀ k, ptr m' f k = ptr m f k)
    (hle : fileSize m f ≤ fileSize m' f) (hmax : fileSize m' f ≤ 1034 * 4096) : Trim m' f := by
  obtain ⟨-, hz⟩ := trim_iff.mp h
  refine trim_iff.mpr ⟨hmax, fun k hk hk' => ?_⟩
  unfold fileBlocks at hk hk' hz
  rw [hptr]
  exact hz k (by omega) (by omega)

theorem Trim.resized {w : Word} (h : Trim m f) (hr : Resized f w m m')
    (hw : w.toNat ≤ 1034 * 4096) : Trim m' f := by
  obtain ⟨hmax, hz⟩ := trim_iff.mp h
  have hsize : fileSize m' f = w.toNat := by rw [fileSize, hr.size]
  have hsv : (m.word (f_size f)).toNat = fileSize m f := rfl
  refine trim_iff.mpr ⟨hsize.trans_le hw, fun k hk hk' => ?_⟩
  unfold fileBlocks at hk hk' hz
  rw [hr.ptr, nblocks_eq (by omega), nblocks_eq (by omega), toInt_of_lt (by omega),
    toInt_of_lt (by omega)]
  split
  · rfl
  · -- not cut: then it is behind the old end too
    rename_i hcut
    unfold Cut at hcut
    exact hz k (by omega) (by omega)

/-- New blocks below the end of the file. -/
theorem Trim.ext {lo hi : Nat} {W : Nat → Prop} (h : Trim m f) (hx : Ext f lo hi W m m')
    (hhi : hi ≤ fileBlocks m f) : Trim m' f := by
  obtain ⟨hmax, hz⟩ := trim_iff.mp h
  have hsize : fileSize m' f = fileSize m f := by rw [fileSize, hx.size, fileSize]
  refine trim_iff.mpr ⟨hsize.trans_le hmax, fun k hk hk' => ?_⟩
  rw [fileBlocks, hsize, ← fileBlocks] at hk hk'
  by_cases hi : k = 1034
  · have hdirect := hx.direct (by omega)
    rw [← ptr_ind, ← ptr_ind, ← hi] at hdirect
    rw [hdirect]
    exact hz k hk hk'
  · rw [hx.others k hi (by omega)]
    exact hz k hk hk'

theorem Trim.write {buf : List Byte} {count offset : Word} {r : Int} (hT : Trim m f)
    (h : FileOk m f) (ho : 0 ≤ offset.toInt) (hc : offset.toInt + count.toNat ≤ MAXFILESIZE)
    (hbuf : count.toNat ≤ buf.length)
    (hrun : flat (file_write f buf count offset) m = .ok (r, m')) : Trim m' f := by
  obtain ⟨m₁, hsize, hx⟩ := file_write_ext h ho hc hbuf hrun
  obtain ⟨ho31, hoe⟩ := toNat_of_toInt_nonneg ho
  simp only [MAXFILESIZE, NDIRECT, NINDIRECT, BLKSIZE] at hc
  have hsum : (offset + count).toNat = offset.toNat + count.toNat := by
    rw [BitVec.toNat_add]
    omega
  rcases hsize with ⟨rfl, hle⟩ | ⟨hlt, hr⟩
  · refine hT.ext hx ?_
    unfold fileBlocks fileSize
    omega
  · refine (hT.resized hr (by omega)).ext hx ?_
    unfold fileBlocks fileSize
    rw [hr.size, hsum]

/-! ## Requests -/

theorem length_req_buf {n : Nat} {buf : List Byte} (h : flat (req_buf p n) m = .ok (buf, m')) :
    n ≤ buf.length ∧ m' = m := by
  unfold req_buf at h
  split at h
  · cases h
    exact ⟨by rw [Mem.length_load], rfl⟩
  · rw [Prog.flat_loadBytes_bind] at h
    obtain ⟨hb, hm⟩ := Prod.mk.inj (Except.ok.inj h)
    refine ⟨?_, hm.symm⟩
    rw [← hb, List.length_append, Mem.length_load, Mem.length_load]
    omega

/-- A request that sets a size: nothing, or the size of an open file. -/
theorem serve_set_size_cases {r : Reply} (h : flat (serve_set_size s p) m = .ok (r, m')) :
    m' = m ∨ ∃ o r₀, openfile_lookup s (req_fileid p) = .ok o ∧
      flat (file_set_size (s.opentab o).o_file (p.bytes.word 4)) m = .ok (r₀, m') := by
  unfold serve_set_size at h
  split at h
  · cases h
    exact .inl rfl
  · rename_i o ho
    obtain ⟨r₀, m₁, hset, hret⟩ := Prog.flat_bind_eq_ok h
    cases hret
    exact .inr ⟨o, r₀, ho, hset⟩

/-- A request to write: nothing, or the size of an open file is set and then
the file is written. -/
theorem serve_write_cases {r : Reply} (h : flat (serve_write s p) m = .ok (r, m')) :
    m' = m ∨ ∃ o f offset m₁ buf r₀, openfile_lookup s (req_fileid p) = .ok o ∧
      f = (s.opentab o).o_file ∧ offset = (s.fd o).fd_offset ∧
      m₁ = (if (m.word (f_size f)).toInt < (offset + req_n p).toInt
        then m.setWord (f_size f) (offset + req_n p) else m) ∧
      (req_n p).toNat ≤ buf.length ∧
      flat (file_write f buf (req_n p) offset) m₁ = .ok (r₀, m') := by
  unfold serve_write at h
  split at h
  · cases h
    exact .inl rfl
  · rename_i o ho
    obtain ⟨u, m₁, hgrow, h⟩ := Prog.flat_bind_eq_ok h
    obtain ⟨buf, m₂, hbuf, h⟩ := Prog.flat_bind_eq_ok h
    obtain ⟨r₀, m₃, hwrite, hret⟩ := Prog.flat_bind_eq_ok h
    obtain ⟨hlen, rfl⟩ := length_req_buf hbuf
    obtain rfl : m₃ = m' := by
      split at hret <;> cases hret <;> rfl
    refine .inr ⟨o, _, _, m₂, buf, r₀, ho, rfl, rfl, ?_, hlen, hwrite⟩
    unfold grow_to at hgrow
    rw [Prog.flat_loadWord_bind] at hgrow
    split at hgrow
    · rename_i hlt
      cases hgrow
      rw [if_pos hlt]
      rfl
    · rename_i hlt
      cases hgrow
      rw [if_neg hlt]

/-- Requests of two kinds, on regular files, and what clients do with their
Fd pages. -/
def OnRegular (st : Server × Mem) : ServEvent → Prop
  | .request _ _ req p => (req = FSREQ_WRITE ∨ req = FSREQ_SET_SIZE) ∧
    ∀ o, openfile_lookup st.1 (req_fileid p) = .ok o →
      IsFile st.2 (st.1.opentab o).o_file ∧
        st.2.word (f_type (st.1.opentab o).o_file) = FTYPE_REG
  | _ => True

/-- The sizes that the requests ask for are in range. -/
def SizeInRange (st : Server × Mem) : ServEvent → Prop
  | .request _ _ req p => ∀ o, openfile_lookup st.1 (req_fileid p) = .ok o →
    (req = FSREQ_WRITE → 0 ≤ (st.1.fd o).fd_offset.toInt ∧
      (st.1.fd o).fd_offset.toInt + (req_n p).toNat ≤ MAXFILESIZE) ∧
    (req = FSREQ_SET_SIZE → 0 ≤ (p.bytes.word 4).toInt ∧ (p.bytes.word 4).toInt ≤ MAXFILESIZE)
  | _ => True

/-- An owned image with no regular file that is too large or has a block
behind its end. -/
structure Trimmed (m : Mem) : Prop where
  owned : Owned m
  files : ∀ f, IsFile m f → m.word (f_type f) = FTYPE_REG → Trim m f

/-- A change of one regular file that leaves it trimmed. -/
theorem Trimmed.change (h : Trimmed m) (hf : IsFile m f) (hreg : m.word (f_type f) = FTYPE_REG)
    (hok : FileOk m' f) (hloc : Local f m m') (hT : Trim m' f) : Trimmed m' := by
  have hdir : m.word (f_type f) ≠ FTYPE_DIR := by rw [hreg]; decide
  refine ⟨h.owned.change hf hdir hloc hok, fun g hg hgreg => ?_⟩
  have hg := (h.owned.isFile_iff hf hdir hloc).mp hg
  rw [h.owned.type_kept hf (.of_regular hdir) hloc hg] at hgreg
  by_cases hne : g = f
  · rw [hne]
    exact hT
  · have hTg := h.files g hg hgreg
    have hsize : fileSize m' g = fileSize m g := by
      rw [fileSize, h.owned.size_kept hf (.of_regular hdir) hloc hg hne, fileSize]
    exact hTg.grow (h.owned.ptr_kept hf (.of_regular hdir) hloc hg hne) hsize.ge
      (hsize.trans_le (trim_iff.mp hTg).1)

theorem Trimmed.serve_write {r : Reply} (h : Trimmed m)
    (hfile : ∀ o, openfile_lookup s (req_fileid p) = .ok o → IsFile m (s.opentab o).o_file ∧
      m.word (f_type (s.opentab o).o_file) = FTYPE_REG)
    (hrange : ∀ o, openfile_lookup s (req_fileid p) = .ok o → 0 ≤ (s.fd o).fd_offset.toInt ∧
      (s.fd o).fd_offset.toInt + (req_n p).toNat ≤ MAXFILESIZE)
    (hrun : flat (fs.serve_write s p) m = .ok (r, m')) : Trimmed m' := by
  rcases serve_write_cases hrun with rfl | ⟨o, f, off, m₁, buf, r₀, ho, hfo, hoff, hm₁, hbuf, hw⟩
  · exact h
  obtain ⟨hf, hreg⟩ := hfile o ho
  obtain ⟨hlo, hhi⟩ := hrange o ho
  rw [← hfo] at hf hreg
  rw [← hoff] at hlo hhi
  have hok := h.owned.fileOk hf
  have hT := h.files f hf hreg
  obtain ⟨ho31, hoe⟩ := toNat_of_toInt_nonneg hlo
  have hmax : off.toNat + (req_n p).toNat ≤ 1034 * 4096 := by
    simp only [MAXFILESIZE, NDIRECT, NINDIRECT, BLKSIZE] at hhi
    omega
  have hsum : (off + req_n p).toNat = off.toNat + (req_n p).toNat := by
    rw [BitVec.toNat_add]
    omega
  -- the size is set first
  obtain ⟨hok₁, hloc₁, hT₁⟩ : FileOk m₁ f ∧ Local f m m₁ ∧ Trim m₁ f := by
    split at hm₁
    · rename_i hlt
      obtain ⟨hok₁, hloc₁, hptr, -, -, hsz⟩ := hok.resize _ hm₁
      have hsize : (m.word (f_size f)).toNat ≤ 1034 * 4096 := (trim_iff.mp hT).1
      rw [toInt_of_lt (w := off + req_n p) (by omega), toInt_of_lt (by omega)] at hlt
      refine ⟨hok₁, hloc₁, hT.grow hptr ?_ ?_⟩
      · rw [fileSize, fileSize, hsz]
        omega
      · rw [fileSize, hsz]
        omega
    · subst hm₁
      exact ⟨hok, .refl _ _, hT⟩
  obtain ⟨hok', hloc'⟩ := file_write_local hok₁ hlo hhi hbuf hw
  exact h.change hf hreg hok' (hloc₁.trans hloc') (hT₁.write hok₁ hlo hhi hbuf hw)

theorem Trimmed.serve_set_size {r : Reply} (h : Trimmed m)
    (hfile : ∀ o, openfile_lookup s (req_fileid p) = .ok o → IsFile m (s.opentab o).o_file ∧
      m.word (f_type (s.opentab o).o_file) = FTYPE_REG)
    (hlo : ∀ o, openfile_lookup s (req_fileid p) = .ok o → 0 ≤ (p.bytes.word 4).toInt ∧
      (p.bytes.word 4).toInt ≤ MAXFILESIZE)
    (hrun : flat (fs.serve_set_size s p) m = .ok (r, m')) : Trimmed m' := by
  rcases serve_set_size_cases hrun with rfl | ⟨o, r₀, ho, hset⟩
  · exact h
  obtain ⟨hf, hreg⟩ := hfile o ho
  obtain ⟨hlo, hhi⟩ := hlo o ho
  obtain ⟨m₁, hset₁, hr, -⟩ := file_set_size_spec (h.owned.fileOk hf) (p.bytes.word 4)
  rw [hset₁] at hset
  cases hset
  obtain ⟨-, he⟩ := toNat_of_toInt_nonneg hlo
  simp only [MAXFILESIZE, NDIRECT, NINDIRECT, BLKSIZE] at hhi
  exact h.change hf hreg hr.ok hr.loc ((h.files _ hf hreg).resized hr (by omega))

theorem Trimmed.step {st st' : Server × Mem} {ev : ServEvent} (h : Trimmed st.2)
    (hev : OnRegular st ev ∧ SizeInRange st ev) (hstep : servStep st ev = some st') :
    Trimmed st'.2 := by
  obtain ⟨s, m⟩ := st
  cases ev with
  | request room takes req p =>
    obtain ⟨⟨hreq, hfile⟩, hrange⟩ := hev
    obtain ⟨r, m', hrun, rfl⟩ := servStep_request hstep
    rcases hreq with rfl | rfl
    · exact h.serve_write hfile (fun o ho => (hrange o ho).1 rfl) hrun
    · exact h.serve_set_size hfile (fun o ho => (hrange o ho).2 rfl) hrun
  | _ =>
    obtain ⟨s', -, rfl⟩ := servStep_client hstep (by rintro _ _ _ _ ⟨⟩)
    exact h

/-- Requests to write and to set a size, on regular files and with sizes in
range, leave every regular file with a size in range and without a block
behind its end. -/
theorem sizes_stay_in_range {st st' : Server × Mem} {evs : List ServEvent} (h : Trimmed st.2)
    (hall : runs.Along servStep (fun st ev => OnRegular st ev ∧ SizeInRange st ev) st evs)
    (hrun : runs.runFrom servStep st evs = some st') :
    ∀ f, IsFile st'.2 f → st'.2.word (f_type f) = FTYPE_REG → Trim st'.2 f :=
  (runs.runFrom_keeps (I := fun st => Trimmed st.2)
    (fun _ _ _ h hev hstep => h.step hev hstep) h hrun hall).files

/-- A server with the file of `tinyImage` open in slot 0. -/
def tinyServer : Server :=
  let s := ((serve_init.newPage 0).reuse 0).opened 0 12288 2
  { s with clients := Function.update s.clients 0 1 }

/-- The page of a request about slot 0. -/
def tinyPage (w : Word) : Page := ⟨(Mem.setWord (fun _ => 0) 0 1024).setWord 4 w, true⟩

theorem tinyImage_trimmed : Trimmed tinyImage := by
  refine ⟨tinyImage_owned, fun f hf hreg => ?_⟩
  rcases tinyImage_files hf with rfl | rfl
  · have hdir : tinyImage.word (f_type s_root) = FTYPE_DIR := by decide +kernel
    rw [hdir] at hreg
    cases hreg
  · exact trim_iff.mpr ⟨by decide +kernel, fun k _ _ => tinyImage_file k⟩

theorem tiny_lookup (w : Word) : openfile_lookup tinyServer (req_fileid (tinyPage w)) = .ok 0 := by
  have hid : req_fileid (tinyPage w) = 1024 := by
    rw [req_fileid, tinyPage, Mem.word_setWord_out (by omega), Mem.word_setWord]
  rw [hid]
  decide +kernel

theorem tiny_onRegular {req w : Word} (hreq : req = FSREQ_WRITE ∨ req = FSREQ_SET_SIZE) :
    OnRegular (tinyServer, tinyImage) (.request true false req (tinyPage w)) := by
  refine ⟨hreq, fun o ho => ?_⟩
  rw [tiny_lookup] at ho
  cases ho
  exact ⟨tinyImage_isFile, by decide +kernel⟩

/-- The image after three bytes are written. -/
def tinyServed : Server × Mem :=
  (servStep (tinyServer, tinyImage) (.request true false FSREQ_WRITE (tinyPage 3))).getD
    (tinyServer, tinyImage)

theorem sizes_stay_in_range_once :
    runs.runFrom servStep (tinyServer, tinyImage)
      [.request true false FSREQ_WRITE (tinyPage 3)] = some tinyServed ∧ Trim tinyServed.2 12288 := by
  have hsome : (servStep (tinyServer, tinyImage)
      (.request true false FSREQ_WRITE (tinyPage 3))).isSome := by decide +kernel
  have hrun : runs.runFrom servStep (tinyServer, tinyImage)
      [.request true false FSREQ_WRITE (tinyPage 3)] = some tinyServed := by
    obtain ⟨st, hst⟩ := Option.isSome_iff_exists.mp hsome
    rw [runs.runFrom, tinyServed, hst]
    rfl
  have hrange : SizeInRange (tinyServer, tinyImage)
      (.request true false FSREQ_WRITE (tinyPage 3)) := by
    intro o ho
    rw [tiny_lookup] at ho
    cases ho
    exact ⟨fun _ => by decide +kernel, by rintro ⟨⟩⟩
  have hall : runs.Along servStep (fun st ev => OnRegular st ev ∧ SizeInRange st ev)
      (tinyServer, tinyImage) [.request true false FSREQ_WRITE (tinyPage 3)] := by
    refine ⟨⟨tiny_onRegular (.inl rfl), hrange⟩, ?_⟩
    split <;> trivial
  refine ⟨hrun, sizes_stay_in_range tinyImage_trimmed hall hrun 12288 ?_ (by decide +kernel)⟩
  exact .child .root ⟨by decide +kernel, ⟨0, 0, by decide +kernel, by decide +kernel, by omega,
    by decide +kernel⟩, by decide +kernel⟩

/-- The server takes a negative size, and one that no file can have. -/
theorem sizes_go_out_of_range :
    Trimmed tinyImage ∧
    (∀ w, OnRegular (tinyServer, tinyImage) (.request true false FSREQ_SET_SIZE (tinyPage w))) ∧
    (runs.runFrom servStep (tinyServer, tinyImage)
      [.request true false FSREQ_SET_SIZE (tinyPage (-1))]).map
        (fun st => (st.2.word (f_size 12288)).toInt) = some (-1) ∧
    (runs.runFrom servStep (tinyServer, tinyImage)
      [.request true false FSREQ_SET_SIZE (tinyPage (1034 * 4096 + 1))]).map
        (fun st => (st.2.word (f_size 12288)).toInt) = some (1034 * 4096 + 1) :=
  ⟨tinyImage_trimmed, fun _ => tiny_onRegular (.inr rfl), by decide +kernel, by decide +kernel⟩

end jos.fs
