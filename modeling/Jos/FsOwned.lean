-- The files of an image, and the ownership of blocks: every block belongs to
-- one slot of one file and is marked in use. The operations on regular
-- files keep that, whatever they do and in whatever order.
import Mathlib
import Jos.FsOps
import Jos.Lib.Runs

namespace jos.fs

open blockstore ia32
open blockstore.Prog (loadByte loadBytes loadWord storeBytes storeWord flushAt flat)

variable {m m' m'' : Mem} {f g d i j b k : Nat}

/-! ## The files of an image -/

/-- The entry at `g` is in a block of the directory `d`, and has a name. -/
structure Child (m : Mem) (d g : Nat) : Prop where
  dir : m.word (f_type d) = FTYPE_DIR
  entry : ∃ i j, i < perBlock (m.word (f_size d)) ∧ blk m d i ≠ 0 ∧ j < 16 ∧
    g = 4096 * blk m d i + 256 * j
  name : m g ≠ 0

/-- The files that can be reached from the root. -/
inductive IsFile (m : Mem) : Nat → Prop
  | root : IsFile m s_root
  | child {d g : Nat} : IsFile m d → Child m d g → IsFile m g

/-- An image whose blocks are owned: the blocks of the file system itself are
marked in use, and each pointer of a file is to a block of its own, which is
marked in use. `small` is what `check_super` checks. -/
structure Owned (m : Mem) : Prop where
  small : numBlocks m ≤ 0xC0000
  reserved : ∀ b < firstBlock m, b < numBlocks m → isFree m b = false
  range : ∀ f k, IsFile m f → ptr m f k ≠ 0 →
    firstBlock m ≤ ptr m f k ∧ ptr m f k < numBlocks m ∧ isFree m (ptr m f k) = false
  inj : ∀ f g k l, IsFile m f → IsFile m g → ptr m f k ≠ 0 → ptr m f k = ptr m g l →
    f = g ∧ k = l

theorem Child.ptr (h : Child m d g) : ∃ i j, i < 1034 ∧ i < perBlock (m.word (f_size d)) ∧
    ptr m d i ≠ 0 ∧ j < 16 ∧ g = 4096 * ptr m d i + 256 * j := by
  obtain ⟨i, j, hi, hb, hj, hg⟩ := h.entry
  have hlt : i < 1034 := by
    by_contra hc
    exact hb (blk_large (by omega))
  rw [← ptr_blk (by omega)] at hb hg
  exact ⟨i, j, hlt, hi, hb, hj, hg⟩

/-- Files by how far they are from the root. -/
inductive FileAt (m : Mem) : Nat → Nat → Prop
  | root : FileAt m 0 s_root
  | child {n d g : Nat} : FileAt m n d → Child m d g → FileAt m (n + 1) g

theorem IsFile.fileAt (h : IsFile m f) : ∃ n, FileAt m n f := by
  induction h with
  | root => exact ⟨0, .root⟩
  | child _ hc ih =>
    obtain ⟨n, hn⟩ := ih
    exact ⟨n + 1, .child hn hc⟩

theorem FileAt.isFile {n : Nat} (h : FileAt m n f) : IsFile m f := by
  induction h with
  | root => exact .root
  | child _ hc ih => exact .child ih hc

/-- A file is the root, or it is in a directory other than itself. -/
theorem IsFile.parent (h : IsFile m f) : f = s_root ∨ ∃ d ≠ f, IsFile m d ∧ Child m d f := by
  classical
  have hmin : ∀ {n}, n < Nat.find h.fileAt → ¬ FileAt m n f := Nat.find_min h.fileAt
  rcases hn : Nat.find h.fileAt with _ | n
  · have hat := Nat.find_spec h.fileAt
    rw [hn] at hat
    cases hat
    exact .inl rfl
  · have hat := Nat.find_spec h.fileAt
    rw [hn] at hat
    cases hat with
    | @child _ d _ hd hc =>
      refine .inr ⟨d, ?_, hd.isFile, hc⟩
      rintro rfl
      exact hmin (by omega) hd

/-- Where an inode is. -/
theorem Owned.place (hO : Owned m) (hf : IsFile m f) :
    f = s_root ∨ (f % 256 = 0 ∧ firstBlock m ≤ f / 4096 ∧ f / 4096 < numBlocks m ∧
      isFree m (f / 4096) = false) := by
  refine hf.parent.imp_right ?_
  rintro ⟨d, -, hd, hc⟩
  obtain ⟨i, j, -, -, hp, hj, rfl⟩ := hc.ptr
  have hr := hO.range d i hd hp
  rw [show (4096 * ptr m d i + 256 * j) / 4096 = ptr m d i by omega]
  exact ⟨by omega, hr⟩

theorem Owned.fileOk (hO : Owned m) (hf : IsFile m f) : FileOk m f := by
  have hrange := fun k => hO.range f k hf
  have hinj : ∀ k k', ptr m f k ≠ 0 → ptr m f k = ptr m f k' → k = k' :=
    fun k k' hk he => (hO.inj f f k k' hf hf hk he).2
  rcases hf.parent with rfl | ⟨d, hdf, hd, hc⟩
  · refine ⟨hO.small, hO.reserved, by decide, by decide, .inl rfl, ?_, hrange, hinj⟩
    rintro ⟨hle, -⟩
    unfold firstBlock s_root super at hle
    omega
  · obtain ⟨i, j, -, -, hp, hj, hfe⟩ := hc.ptr
    obtain ⟨h₁, h₂, h₃⟩ := hO.range d i hd hp
    have hdiv : f / 4096 = ptr m d i := by omega
    unfold firstBlock at h₁
    refine ⟨hO.small, hO.reserved, by omega, by omega, .inr ?_, ?_, hrange, hinj⟩
    · rw [hdiv]
      exact ⟨h₁, h₂⟩
    · rintro ⟨-, -, hfree | ⟨k, hk⟩⟩
      · rw [hdiv, h₃] at hfree
        cases hfree
      · rw [hdiv] at hk
        exact hdf (hO.inj d f i k hd hf hp hk.symm).1

/-! ## What a change of one file leaves alone -/

/-- The entries of a directory stay; a regular file has none. -/
def KidsKept (f : Nat) (m m' : Mem) : Prop :=
  ∀ g, Child m f g → ∀ x, g ≤ x → x < g + 256 → m' x = m x

theorem KidsKept.of_regular (h : m.word (f_type f) ≠ FTYPE_DIR) : KidsKept f m m' :=
  fun _ hc => absurd hc.dir h

section Frame

variable (hO : Owned m) (hf : IsFile m f) (hkids : KidsKept f m m') (hloc : Local f m m')

include hO hf hkids hloc

theorem Owned.inode_kept (hg : IsFile m g) (hne : g ≠ f) (x : Nat) (hx : g ≤ x)
    (hx' : x < g + 256) : m' x = m x := by
  by_cases hkid : Child m f g
  · exact hkids g hkid x hx hx'
  have hok := hO.fileOk hg
  have hdiv := hok.inode_div hx hx'
  refine hloc.out x (hok.inode_out hdiv) (fun hc => ?_) ?_
  · -- two inodes do not overlap
    have hpf := hO.place hf
    have hpg := hO.place hg
    unfold InInode at hc
    unfold firstBlock s_root super at hpf hpg
    omega
  · rw [hdiv]
    rintro ⟨hle, hlt, hfree | ⟨k, hk⟩⟩
    · rcases hO.place hg with rfl | ⟨-, -, -, hused⟩
      · unfold firstBlock s_root super at hle
        omega
      · rw [hused] at hfree
        cases hfree
    · -- the block of the inode is that of another directory
      rcases hg.parent with rfl | ⟨d, -, hd, hc⟩
      · unfold firstBlock s_root super at hle
        omega
      · obtain ⟨i, j, -, -, hp, hj, hge⟩ := hc.ptr
        rw [show g / 4096 = ptr m d i by omega] at hk
        obtain ⟨rfl, -⟩ := hO.inj d f i k hd hf hp hk.symm
        exact hkid hc

omit hkids in
/-- The blocks of another file stay, apart from the inode of the file if it is
in one of them. -/
theorem Owned.block_kept (hg : IsFile m g) (hne : g ≠ f) (hp : ptr m g k ≠ 0) {x : Nat}
    (hx : x / 4096 = ptr m g k) (hin : ¬ InInode f x) : m' x = m x := by
  obtain ⟨h₁, h₂, h₃⟩ := hO.range g k hg hp
  refine hloc.out x (not_inBitmap_of_le (by omega)) hin ?_
  rw [hx]
  rintro ⟨-, -, hfree | ⟨l, hl⟩⟩
  · rw [h₃] at hfree
    cases hfree
  · exact hne (hO.inj g f k l hg hf hp hl.symm).1

theorem Owned.ptr_kept (hg : IsFile m g) (hne : g ≠ f) (k : Nat) : ptr m' g k = ptr m g k := by
  refine ptr_congr (fun x hx hx' => hO.inode_kept hf hkids hloc hg hne x (by omega) (by omega))
    (fun hi x hx => ?_) k
  refine hO.block_kept hf hloc hg hne (k := 1034) (by rw [ptr_ind]; exact hi)
    (by rw [ptr_ind]; exact hx) fun hc => ?_
  -- no inode is in an indirect block
  have hdiv : x / 4096 = f / 4096 := by
    unfold InInode at hc
    exact (hO.fileOk hf).inode_div (by omega) (by omega)
  have hr := (hO.fileOk hg).ind_range hi
  rcases hf.parent with rfl | ⟨d, -, hd, hc'⟩
  · unfold s_root super at hdiv
    unfold firstBlock at hr
    omega
  · obtain ⟨i, j, hi', -, hp, hj, hfe⟩ := hc'.ptr
    have := (hO.inj d g i 1034 hd hg hp (by rw [ptr_ind]; omega)).2
    omega

omit hkids in
theorem Owned.header_kept {x : Nat} (hx : f ≤ x) (hx' : x < f + 128 ∨ (f + 132 ≤ x ∧ x < f + 136)) :
    m' x = m x := by
  have hok := hO.fileOk hf
  have hdiv := hok.inode_div hx (by omega)
  refine hloc.out x (hok.inode_out hdiv) (by unfold InInode; omega) ?_
  rw [hdiv]
  exact hok.foreign

theorem Owned.type_kept (hg : IsFile m g) : m'.word (f_type g) = m.word (f_type g) := by
  refine Mem.word_congr fun x hx hx' => ?_
  simp only [f_type] at hx hx'
  by_cases hne : g = f
  · subst hne
    exact hO.header_kept hf hloc (by omega) (by omega)
  · exact hO.inode_kept hf hkids hloc hg hne x (by omega) (by omega)

theorem Owned.size_kept (hg : IsFile m g) (hne : g ≠ f) :
    m'.word (f_size g) = m.word (f_size g) := by
  refine Mem.word_congr fun x hx hx' => ?_
  simp only [f_size] at hx hx'
  exact hO.inode_kept hf hkids hloc hg hne x (by omega) (by omega)

omit hkids in
/-- The names in the blocks of another file stay: they are not in the size or
the pointers of an inode. -/
theorem Owned.name_kept (hd : IsFile m d) (hne : d ≠ f) (hp : ptr m d i ≠ 0) (hj : j < 16)
    {x : Nat} (hx : 4096 * ptr m d i + 256 * j ≤ x) (hx' : x < 4096 * ptr m d i + 256 * j + 128) :
    m' x = m x := by
  refine hO.block_kept hf hloc hd hne hp (by omega) fun hc => ?_
  have hplace := hO.place hf
  have hr := (hO.range d i hd hp).1
  unfold InInode at hc
  unfold s_root super at hplace
  unfold firstBlock at hr hplace
  omega

theorem Owned.child_same (hd : IsFile m d) (hne : d ≠ f) : Child m' d g ↔ Child m d g := by
  have htype := hO.type_kept hf hkids hloc hd
  have hsize := hO.size_kept hf hkids hloc hd hne
  have hblk : ∀ i, i < 1034 → blk m' d i = blk m d i := fun i hi => by
    rw [← ptr_blk (by omega), ← ptr_blk (by omega), hO.ptr_kept hf hkids hloc hd hne]
  have hname : ∀ i j, i < 1034 → blk m d i ≠ 0 → j < 16 →
      m' (4096 * blk m d i + 256 * j) = m (4096 * blk m d i + 256 * j) := by
    intro i j hi hb hj
    rw [← ptr_blk (by omega)] at hb ⊢
    exact hO.name_kept hf hloc hd hne hb hj le_rfl (by omega)
  constructor
  · rintro ⟨h₁, ⟨i, j, h₂, h₃, h₄, rfl⟩, h₅⟩
    have hi : i < 1034 := by
      by_contra hc
      exact h₃ (blk_large (by omega))
    rw [hblk i hi] at h₃ h₅ ⊢
    rw [hname i j hi h₃ h₄] at h₅
    exact ⟨htype ▸ h₁, ⟨i, j, hsize ▸ h₂, h₃, h₄, rfl⟩, h₅⟩
  · rintro ⟨h₁, ⟨i, j, h₂, h₃, h₄, rfl⟩, h₅⟩
    have hi : i < 1034 := by
      by_contra hc
      exact h₃ (blk_large (by omega))
    refine ⟨htype.trans h₁, ⟨i, j, hsize.symm ▸ h₂, by rwa [hblk i hi], h₄, by rw [hblk i hi]⟩, ?_⟩
    rwa [hname i j hi h₃ h₄]

/-- A change of one file that leaves it in order leaves the image owned, if the
files that it adds have no blocks. -/
theorem Owned.extend (hok : FileOk m' f)
    (hfiles : ∀ g, IsFile m' g → IsFile m g ∨ ∀ k, ptr m' g k = 0) : Owned m' := by
  have hblocks := hloc.blocks
  have hfirst := firstBlock_congr hblocks
  -- the blocks of another file are not what is the file's
  have hother : ∀ g k, IsFile m g → g ≠ f → ptr m g k ≠ 0 → ¬ Mine m f (ptr m g k) := by
    rintro g k hg hne hp ⟨-, -, hfree | ⟨l, hl⟩⟩
    · rw [(hO.range g k hg hp).2.2] at hfree
      cases hfree
    · exact hne (hO.inj g f k l hg hf hp hl.symm).1
  have hmine : ∀ k, ptr m' f k ≠ 0 → Mine m f (ptr m' f k) := fun k hk =>
    hloc.mine _ ⟨(hok.range k hk).1, (hok.range k hk).2.1, .inr ⟨k, rfl⟩⟩
  have hold : ∀ g k, IsFile m' g → ptr m' g k ≠ 0 → IsFile m g := fun g k hg hp =>
    (hfiles g hg).resolve_right fun hz => hp (hz k)
  refine ⟨hok.small, hok.reserved, fun g k hg hp => ?_, fun g g' k l hg hg' hp he => ?_⟩
  · have hg := hold g k hg hp
    by_cases hne : g = f
    · subst hne
      exact hok.range k hp
    · rw [hO.ptr_kept hf hkids hloc hg hne] at hp ⊢
      obtain ⟨h₁, h₂, h₃⟩ := hO.range g k hg hp
      rw [hfirst, hblocks, hloc.bits _ h₂ (hother g k hg hne hp)]
      exact ⟨h₁, h₂, h₃⟩
  · have hg := hold g k hg hp
    have hg' := hold g' l hg' (he ▸ hp)
    by_cases hgf : g = f
    · by_cases hgf' : g' = f
      · subst hgf hgf'
        exact ⟨rfl, hok.inj k l hp he⟩
      · subst hgf
        have hp' : ptr m g' l ≠ 0 := by
          rw [← hO.ptr_kept hf hkids hloc hg' hgf', ← he]
          exact hp
        rw [hO.ptr_kept hf hkids hloc hg' hgf'] at he
        exact absurd (he ▸ hmine k hp) (hother g' l hg' hgf' hp')
    · rw [hO.ptr_kept hf hkids hloc hg hgf] at hp he
      by_cases hgf' : g' = f
      · subst hgf'
        exact absurd (he ▸ hmine l (he ▸ hp)) (hother g k hg hgf hp)
      · rw [hO.ptr_kept hf hkids hloc hg' hgf'] at he
        exact hO.inj g g' k l hg hg' hp he

end Frame

/-! ## A change of a regular file -/

section Regular

variable (hO : Owned m) (hf : IsFile m f) (hreg : m.word (f_type f) ≠ FTYPE_DIR)
  (hloc : Local f m m')

include hO hf hreg hloc

theorem Owned.child_iff (hd : IsFile m d) : Child m' d g ↔ Child m d g := by
  by_cases hne : d = f
  · subst hne
    have htype := hO.type_kept hf (.of_regular hreg) hloc hd
    exact ⟨fun h => absurd (htype ▸ h.dir) hreg, fun h => absurd h.dir hreg⟩
  · exact hO.child_same hf (.of_regular hreg) hloc hd hne

theorem Owned.isFile_iff : IsFile m' g ↔ IsFile m g := by
  constructor
  · intro h
    induction h with
    | root => exact .root
    | child _ hc ih => exact .child ih ((hO.child_iff hf hreg hloc ih).mp hc)
  · intro h
    induction h with
    | root => exact .root
    | child hd hc ih => exact .child ih ((hO.child_iff hf hreg hloc hd).mpr hc)

/-- A change of a regular file that leaves it in order leaves the image owned. -/
theorem Owned.change (hok : FileOk m' f) : Owned m' :=
  hO.extend hf (.of_regular hreg) hloc hok fun _ hg => .inl ((hO.isFile_iff hf hreg hloc).mp hg)

end Regular

/-! ## Operations on regular files -/

/-- The calls of `fs.c` on one file. -/
inductive FileOp
  | get_block (f filebno : Nat)
  | read (f : Nat) (count offset : Word)
  | write (f : Nat) (buf : List Byte) (count offset : Word)
  | set_size (f : Nat) (newsize : Word)

namespace FileOp

def file : FileOp → Nat
  | get_block f _ => f
  | read f _ _ => f
  | write f _ _ _ => f
  | set_size f _ => f

def prog : FileOp → Io Unit
  | get_block f filebno => do
    let _ ← file_get_block f filebno
    pure ()
  | read f count offset => do
    let _ ← file_read f count offset
    pure ()
  | write f buf count offset => do
    let _ ← file_write f buf count offset
    pure ()
  | set_size f newsize => do
    let _ ← file_set_size f newsize
    pure ()

/-- The ranges of the arguments. -/
def InRange : FileOp → Prop
  | get_block _ _ => True
  | read _ _ _ => True
  | write _ buf count offset => 0 ≤ offset.toInt ∧
    offset.toInt + count.toNat ≤ MAXFILESIZE ∧ count.toNat ≤ buf.length
  | set_size _ newsize => 0 ≤ newsize.toInt ∧ newsize.toInt ≤ MAXFILESIZE

/-- The file is a regular file of the image, and the arguments are in range. -/
def Allowed (m : Mem) (op : FileOp) : Prop :=
  IsFile m op.file ∧ m.word (f_type op.file) = FTYPE_REG ∧ op.InRange

end FileOp

/-- The image after a call that does not panic. -/
def fileStep (m : Mem) (op : FileOp) : Option Mem :=
  match flat op.prog m with
  | .ok r => some r.2
  | .error _ => none

/-- Whatever block is asked for, the change is the file's. -/
theorem get_block_local {r : Except Int Nat} (h : FileOk m f)
    (hrun : flat (file_get_block f i) m = .ok (r, m')) : FileOk m' f ∧ Local f m m' := by
  by_cases hi : i < 1034
  · rcases file_get_block_spec h hi with ⟨m₁, hget, hg⟩ | ⟨-, ⟨-, -, -, hget⟩ | ⟨-, hget⟩⟩
    · rw [hget] at hrun
      cases hrun
      exact ⟨hg.grown.ok, hg.grown.loc⟩
    · rw [hget] at hrun
      cases hrun
      exact ⟨h, .refl f m⟩
    · rw [hget] at hrun
      cases hrun
  · rw [file_get_block_large (by omega)] at hrun
    cases hrun
    exact ⟨h, .refl f m⟩

theorem read_from_local {count stop pos : Word} {left : Nat} {buf : List Byte}
    {r : Int × List Byte} (h : FileOk m f)
    (hrun : flat (file_read_from f count stop left pos buf) m = .ok (r, m')) :
    FileOk m' f ∧ Local f m m' := by
  induction left generalizing m pos buf with
  | zero =>
    cases hrun
    exact ⟨h, .refl _ _⟩
  | succ left ih =>
    rw [file_read_from] at hrun
    split at hrun
    · cases hrun
      exact ⟨h, .refl _ _⟩
    obtain ⟨blk, m₁, hget, hrun⟩ := Prog.flat_bind_eq_ok hrun
    obtain ⟨hok, hloc⟩ := get_block_local h hget
    cases blk with
    | error e =>
      cases hrun
      exact ⟨hok, hloc⟩
    | ok blk =>
      obtain ⟨hok', hloc'⟩ := ih hok hrun
      exact ⟨hok', hloc.trans hloc'⟩

/-- What `file_write` does for arguments in range. -/
theorem file_write_local {buf : List Byte} {count offset : Word} {r : Int} (h : FileOk m f)
    (ho : 0 ≤ offset.toInt) (hc : offset.toInt + count.toNat ≤ MAXFILESIZE)
    (hbuf : count.toNat ≤ buf.length)
    (hrun : flat (file_write f buf count offset) m = .ok (r, m')) :
    FileOk m' f ∧ Local f m m' := by
  obtain ⟨m₁, hsize, hx⟩ := file_write_ext h ho hc hbuf hrun
  rcases hsize with ⟨rfl, -⟩ | ⟨-, hr⟩
  · exact ⟨hx.ok, hx.loc⟩
  · exact ⟨hx.ok, hr.loc.trans hx.loc⟩

/-- What a call on a regular file changes is the file's. -/
theorem FileOp.local_step {op : FileOp} (hok : FileOk m op.file) (hrange : op.InRange)
    (h : fileStep m op = some m') : FileOk m' op.file ∧ Local op.file m m' := by
  unfold fileStep at h
  split at h
  · rename_i r hr
    cases h
    obtain ⟨r₁, m₁, hrun, hr⟩ : ∃ (r₁ : Unit) (m₁ : Mem), flat op.prog m = .ok (r₁, m₁) ∧ r.2 = m₁ :=
      ⟨r.1, r.2, hr, rfl⟩
    rw [hr]
    cases op with
    | get_block f i =>
      obtain ⟨p, m₂, hget, hret⟩ := Prog.flat_bind_eq_ok hrun
      cases hret
      exact get_block_local hok hget
    | read f count offset =>
      obtain ⟨p, m₂, hread, hret⟩ := Prog.flat_bind_eq_ok hrun
      cases hret
      rw [file_read, Prog.flat_loadWord_bind] at hread
      split at hread
      · cases hread
        exact ⟨hok, .refl f m⟩
      · exact read_from_local hok hread
    | write f buf count offset =>
      obtain ⟨p, m₂, hwrite, hret⟩ := Prog.flat_bind_eq_ok hrun
      cases hret
      exact file_write_local hok hrange.1 hrange.2.1 hrange.2.2 hwrite
    | set_size f newsize =>
      obtain ⟨p, m₂, hset, hret⟩ := Prog.flat_bind_eq_ok hrun
      cases hret
      obtain ⟨m₃, hrun₃, hr₃, -⟩ := file_set_size_spec (f := f) hok newsize
      rw [hrun₃] at hset
      cases hset
      exact ⟨hr₃.ok, hr₃.loc⟩
  · cases h

theorem Owned.step {op : FileOp} (hO : Owned m) (hop : op.Allowed m)
    (h : fileStep m op = some m') : Owned m' := by
  obtain ⟨hf, hreg, hrange⟩ := hop
  have hdir : m.word (f_type op.file) ≠ FTYPE_DIR := by
    rw [hreg]
    decide
  obtain ⟨hok, hloc⟩ := op.local_step (hO.fileOk hf) hrange h
  exact hO.change hf hdir hloc hok

/-- An owned image stays owned under any operations on its regular files that
do not panic: after each of them every block belongs to one slot and is
marked in use, and the blocks of the file system itself are not handed out. -/
theorem images_stay_owned {ops : List FileOp} (hO : Owned m)
    (hall : runs.Along fileStep FileOp.Allowed m ops)
    (hrun : runs.runFrom fileStep m ops = some m') : Owned m' :=
  runs.runFrom_keeps (fun _ _ _ hO hop h => hO.step hop h) hO hrun hall

/-- An image of 8 blocks: the root has block 3, with one empty file in it, and
blocks 4 to 7 are free. -/
def tinyImage : Mem :=
  let m : Mem := fun _ => 0
  ((((((m.setWord super FS_MAGIC).setWord (super + 4) 8).setWord bitmap 0xF0).setWord
    (f_size s_root) 4096).setWord (f_type s_root) FTYPE_DIR).setWord (f_direct s_root 0) 3).setWord
    12288 97

/-- The pointers of a file without an indirect block. -/
theorem ptr_of_ind (hind : ind m f = 0) (k : Nat) :
    ptr m f k = if k < 10 then blk m f k else 0 := by
  by_cases hk : k = 1034
  · rw [hk, ptr_ind, hind]
    rfl
  · rw [ptr_blk hk]
    by_cases hd : k < 10
    · rw [if_pos hd]
    · rw [blk_entry_none (by omega) hind, if_neg hd]

theorem tinyImage_root (k : Nat) : ptr tinyImage s_root k = if k = 0 then 3 else 0 := by
  have hdirect : ∀ k < 10, blk tinyImage s_root k = if k = 0 then 3 else 0 := by decide +kernel
  rw [ptr_of_ind (by decide +kernel)]
  by_cases hd : k < 10
  · rw [if_pos hd, hdirect k hd]
  · rw [if_neg hd, if_neg (by omega)]

theorem tinyImage_file (k : Nat) : ptr tinyImage 12288 k = 0 := by
  have hdirect : ∀ k < 10, blk tinyImage 12288 k = 0 := by decide +kernel
  rw [ptr_of_ind (by decide +kernel)]
  by_cases hd : k < 10
  · rw [if_pos hd, hdirect k hd]
  · rw [if_neg hd]

/-- The files of an image whose root has one block, with one file in it. -/
theorem files_of_one_entry (hroot : ∀ k, ptr m s_root k = if k = 0 then 3 else 0)
    (htype : m.word (f_type 12288) ≠ FTYPE_DIR)
    (hname : ∀ j < 16, m (4096 * 3 + 256 * j) ≠ 0 → j = 0) (h : IsFile m f) :
    f = s_root ∨ f = 12288 := by
  induction h with
  | root => exact .inl rfl
  | child _ hc ih =>
    obtain ⟨i, j, -, -, hp, hj, rfl⟩ := hc.ptr
    rcases ih with rfl | rfl
    · have hname' := hc.name
      rw [hroot] at hp hname' ⊢
      split at hp
      · rename_i hi
        rw [if_pos hi] at hname' ⊢
        rw [hname j hj hname']
        exact .inr rfl
      · exact absurd rfl hp
    · exact absurd hc.dir htype

theorem tinyImage_files (h : IsFile tinyImage f) : f = s_root ∨ f = 12288 :=
  files_of_one_entry tinyImage_root (by decide +kernel) (by decide +kernel) h

/-- An image of 8 blocks whose root has one block, with one file in it that has
at most one block. -/
theorem owned_of_one_entry (hn : numBlocks m = 8)
    (hused : ∀ b < 4, isFree m b = false)
    (hroot : ∀ k, ptr m s_root k = if k = 0 then 3 else 0)
    (hfile : ∀ k, ptr m 12288 k = if k = i then b else 0)
    (hmine : b ≠ 0 → 4 ≤ b ∧ b < 8 ∧ isFree m b = false)
    (htype : m.word (f_type 12288) ≠ FTYPE_DIR)
    (hname : ∀ j < 16, m (4096 * 3 + 256 * j) ≠ 0 → j = 0) : Owned m := by
  have hfirst : firstBlock m = 3 := by rw [firstBlock, hn]
  have hfiles : ∀ f, IsFile m f → f = s_root ∨ f = 12288 := fun f hf =>
    files_of_one_entry hroot htype hname hf
  refine ⟨by omega, fun b hb _ => hused b (by omega), ?_, ?_⟩
  · intro f k hf hp
    rw [hfirst, hn]
    rcases hfiles f hf with rfl | rfl
    · rw [hroot] at hp ⊢
      have hk : k = 0 := by grind
      rw [if_pos hk]
      exact ⟨le_rfl, by omega, hused 3 (by omega)⟩
    · rw [hfile] at hp ⊢
      have hk : k = i := by grind
      rw [if_pos hk] at hp ⊢
      obtain ⟨h₁, h₂, h₃⟩ := hmine hp
      exact ⟨by omega, h₂, h₃⟩
  · intro f g k l hf hg hp he
    rcases hfiles f hf with rfl | rfl <;> rcases hfiles g hg with rfl | rfl <;>
      simp only [hroot, hfile] at hp he <;> grind

theorem tinyImage_owned : Owned tinyImage :=
  owned_of_one_entry (i := 0) (b := 0) (by decide +kernel) (by decide +kernel) tinyImage_root
    (fun k => by rw [tinyImage_file, ite_self]) (fun h => absurd rfl h) (by decide +kernel)
    (by decide +kernel)

theorem tinyImage_isFile : IsFile tinyImage 12288 :=
  .child .root ⟨by decide +kernel, ⟨0, 0, by decide +kernel, by decide +kernel, by omega,
    by decide +kernel⟩, by decide +kernel⟩

theorem images_stay_owned_once :
    ∃ m', runs.runFrom fileStep tinyImage [.write 12288 [1, 2, 3] 3 4095] = some m' ∧
      Owned m' := by
  have hrun : (runs.runFrom fileStep tinyImage [.write 12288 [1, 2, 3] 3 4095]).isSome := by
    decide +kernel
  obtain ⟨m', hm'⟩ := Option.isSome_iff_exists.mp hrun
  have hop : FileOp.Allowed tinyImage (.write 12288 [1, 2, 3] 3 4095) :=
    ⟨tinyImage_isFile, by decide +kernel, by decide, by decide, by decide⟩
  have hall : runs.Along fileStep FileOp.Allowed tinyImage [.write 12288 [1, 2, 3] 3 4095] := by
    refine ⟨hop, ?_⟩
    split <;> trivial
  exact ⟨m', hm', images_stay_owned tinyImage_owned hall hm'⟩

end jos.fs
