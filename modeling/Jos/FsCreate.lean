-- file_create of fs/fs.c in every state that creations, writes and truncations
-- lead to: what it adds to a directory, and what it leaves when it fails. A
-- new directory block is not cleared, and the size of a directory is set
-- before there is a block.
import Mathlib
import Jos.FsResolve

namespace jos.fs

open blockstore ia32
open blockstore.Prog (loadByte loadBytes loadWord storeBytes storeWord flushAt flat)

variable {m m' : Mem} {f g d e i : Nat} {name c : List Byte} {names : List (List Byte)}

/-! ## Tidy images -/

/-- A tree whose directories have no blocks behind their size, and in which no name
occurs twice in a directory. -/
structure Tidy (m : Mem) : Prop where
  tree : Tree m
  rest : ∀ d, IsFile m d → m.word (f_type d) = FTYPE_DIR →
    ∀ k, dirBlocks m d ≤ k → k < 1034 → ptr m d k = 0
  once : ∀ d g g' n, IsFile m d → Child m d g → Child m d g' → n.length < MAXNAMELEN →
    NameIs m g n → NameIs m g' n → g = g'

theorem Owned.nameIs_kept (hO : Owned m) (hf : IsFile m f) (hkids : KidsKept f m m')
    (hloc : Local f m m') (hg : IsFile m g) (hlen : name.length < MAXNAMELEN) :
    NameIs m' g name ↔ NameIs m g name := by
  refine nameIs_congr fun x hx hx' => ?_
  simp only [MAXNAMELEN] at hlen
  by_cases hne : g = f
  · subst hne
    exact hO.header_kept hf hloc hx (by omega)
  · exact hO.inode_kept hf hkids hloc hg hne x hx (by omega)

/-- A change of a regular file keeps the directories as they are. -/
theorem Tidy.change (hT : Tidy m) (hf : IsFile m f) (hreg : m.word (f_type f) ≠ FTYPE_DIR)
    (hloc : Local f m m') (hok : FileOk m' f) : Tidy m' := by
  have hO := hT.tree.owned
  have hkids : KidsKept f m m' := .of_regular hreg
  have hfiles : ∀ g, IsFile m' g ↔ IsFile m g := fun g => hO.isFile_iff hf hreg hloc
  -- a directory is another file
  have hdirs : ∀ d, IsFile m' d → m'.word (f_type d) = FTYPE_DIR →
      IsFile m d ∧ m.word (f_type d) = FTYPE_DIR ∧ d ≠ f := fun d hd hdir => by
    have hd := (hfiles d).mp hd
    rw [hO.type_kept hf hkids hloc hd] at hdir
    refine ⟨hd, hdir, ?_⟩
    rintro rfl
    exact hreg hdir
  refine ⟨⟨hO.change hf hreg hloc hok, fun d hd hdir => ?_⟩, fun d hd hdir k hk hk' => ?_,
    fun d g g' n hd hg hg' hlen hn hn' => ?_⟩
  · obtain ⟨hd, hdir, hne⟩ := hdirs d hd hdir
    exact ((hT.tree.dirs d hd hdir).congr hloc.blocks (hO.size_kept hf hkids hloc hd hne)
      (hO.ptr_kept hf hkids hloc hd hne)).1
  · obtain ⟨hd, hdir, hne⟩ := hdirs d hd hdir
    rw [dirBlocks, hO.size_kept hf hkids hloc hd hne] at hk
    rw [hO.ptr_kept hf hkids hloc hd hne]
    exact hT.rest d hd hdir k hk hk'
  · have hd := (hfiles d).mp hd
    rw [hO.child_iff hf hreg hloc hd] at hg hg'
    rw [hO.nameIs_kept hf hkids hloc (.child hd hg) hlen] at hn
    rw [hO.nameIs_kept hf hkids hloc (.child hd hg') hlen] at hn'
    exact hT.once d g g' n hd hg hg' hlen hn hn'

/-! ## A new file -/

/-- The fields of an entry that the creation of a file does not fill in. -/
structure EmptyEntry (m : Mem) (e : Nat) : Prop where
  size : m.word (f_size e) = 0
  type : m.word (f_type e) = FTYPE_REG
  slots : ∀ k, ptr m e k = 0

theorem EmptyEntry.congr (h : EmptyEntry m e)
    (hsame : ∀ x, e + 128 ≤ x → x < e + 256 → m' x = m x) : EmptyEntry m' e := by
  have hind : ind m e = 0 := by rw [← ptr_ind, h.slots]
  refine ⟨?_, ?_, fun k => ?_⟩
  · rw [← h.size]
    refine Mem.word_congr fun x hx hx' => hsame x ?_ ?_ <;> simp only [f_size] at hx hx' <;> omega
  · rw [← h.type]
    refine Mem.word_congr fun x hx hx' => hsame x ?_ ?_ <;> simp only [f_type] at hx hx' <;> omega
  · rw [ptr_congr (fun x hx hx' => hsame x (by omega) (by omega)) (fun hz => absurd hind hz),
      h.slots]

/-- What the creation of a file is to do: the directory `d` gets the entry `e`, an empty file,
and nothing else changes. -/
structure Created (path : List Byte) (d e : Nat) (name : List Byte) (m m' : Mem) : Prop where
  entries : ∀ g, Child m' d g ↔ Child m d g ∨ g = e
  new : ¬ Child m d e
  named : NameIs m' e name
  kept : ∀ g, Child m d g → ∀ x, g ≤ x → x < g + 256 → m' x = m x
  once : ∀ g g' n, Child m' d g → Child m' d g' → n.length < MAXNAMELEN → NameIs m' g n →
    NameIs m' g' n → g = g'
  empty : EmptyEntry m' e
  found : flat (file_open path) m' = .ok (.ok e, m')
  others : ∀ g, IsFile m g → g ≠ d → (∀ x, g ≤ x → x < g + 256 → m' x = m x) ∧
    (∀ k, ptr m' g k = ptr m g k) ∧
    ∀ q, ¬ InInode d (4096 * ptr m g (q / 4096) + q % 4096) → content m' g q = content m g q
  files : ∀ g, IsFile m' g ↔ IsFile m g ∨ g = e

section NewFile

variable (hT : Tidy m) (hd : IsFile m d) (hdir : m.word (f_type d) = FTYPE_DIR)
  (h : Added d e name m m')

include hT hd hdir h

theorem Added.head_kept (hg : g ∈ entries m d) (hne : g ≠ e) : m' g = m g := by
  have hfull := hT.tree.dirs d hd hdir
  have hle := hfull.le
  obtain ⟨i, hi, j, hj, hge⟩ := mem_entries.mp hg
  rw [← ptr_blk (by omega)] at hge
  have halign := (h.aligned hfull).1
  exact h.data i g (by omega) (hfull.ptr_ne hi) (by omega) (by omega)

variable (hname : name ≠ []) (hempty : EmptyEntry m' e)
  (hblank : ∀ g ∈ entries m' d, g ∉ entries m d → g ≠ e → m' g = 0)

include hname hempty hblank

theorem Added.child_dir : Child m' d g ↔ Child m d g ∨ g = e := by
  have hfull := hT.tree.dirs d hd hdir
  have hle := hfull.le
  have hfull' := h.full hfull
  have hdir' : m'.word (f_type d) = FTYPE_DIR :=
    (hT.tree.owned.type_kept hd (h.kids hfull) h.loc hd).trans hdir
  have hmem : ∀ {x y}, Child x d y → y ∈ entries x d := fun hc => by
    obtain ⟨k, j, hk, -, hj, rfl⟩ := hc.entry
    exact mem_entries.mpr ⟨k, hk, j, hj, rfl⟩
  obtain ⟨more, hmore, hcase⟩ := h.entries_eq hfull
  constructor
  · intro hg
    by_cases hge : g = e
    · exact .inr hge
    left
    by_cases hold : g ∈ entries m d
    · refine hfull.child hdir hold ?_
      rw [← h.head_kept hT hd hdir hold hge]
      exact hg.name
    · exact absurd (hblank g (hmem hg) hold hge) hg.name
  · rintro (hg | rfl)
    · refine hfull'.child hdir' (by rw [hmore]; exact List.mem_append_left _ (hmem hg)) ?_
      rw [h.head_kept hT hd hdir (hmem hg) (h.ne_child hfull hg)]
      exact hg.name
    · refine hfull'.child hdir' ?_ (h.named.head_ne hname)
      rw [hmore]
      rcases hcase with ⟨-, hg, -⟩ | ⟨rfl, hmod, -⟩
      · exact List.mem_append_left _ hg
      · exact List.mem_append_right _ (mem_blockEntries.mpr ⟨0, by omega, by omega⟩)

theorem Added.isFile_iff : IsFile m' g ↔ IsFile m g ∨ g = e := by
  have hfull := hT.tree.dirs d hd hdir
  have hO := hT.tree.owned
  have hsame : ∀ {x y}, IsFile m x → x ≠ d → (Child m' x y ↔ Child m x y) := fun hx hne =>
    hO.child_same hd (h.kids hfull) h.loc hx hne
  have hkid : ∀ {x}, Child m' d x ↔ Child m d x ∨ x = e :=
    h.child_dir hT hd hdir hname hempty hblank
  constructor
  · intro hg
    induction hg with
    | root => exact .inl .root
    | @child x y _ hc ih =>
      rcases ih with hx | rfl
      · by_cases hxd : x = d
        · subst hxd
          exact (hkid.mp hc).imp_left (.child hx)
        · exact .inl (.child hx ((hsame hx hxd).mp hc))
      · -- the new file is no directory
        have := hc.dir
        rw [hempty.type] at this
        cases this
  · have hold : ∀ {x}, IsFile m x → IsFile m' x := fun hx => by
      induction hx with
      | root => exact .root
      | @child x y hx hc ih =>
        by_cases hxd : x = d
        · subst hxd
          exact .child ih (hkid.mpr (.inl hc))
        · exact .child ih ((hsame hx hxd).mpr hc)
    rintro (hg | rfl)
    · exact hold hg
    · exact .child (hold hd) (hkid.mpr (.inr rfl))

/-- The image with the new file is tidy, if the name was not there. -/
theorem Added.tidy (hlen : name.length < MAXNAMELEN) (hno : lookup m d name = none) : Tidy m' := by
  have hfull := hT.tree.dirs d hd hdir
  have hO := hT.tree.owned
  have hkids := h.kids hfull
  have hfiles : ∀ g, IsFile m' g ↔ IsFile m g ∨ g = e := fun g =>
    h.isFile_iff hT hd hdir hname hempty hblank
  have htype : ∀ x, IsFile m x → m'.word (f_type x) = m.word (f_type x) := fun x hx =>
    hO.type_kept hd hkids h.loc hx
  -- a directory was there before
  have hdirs : ∀ x, IsFile m' x → m'.word (f_type x) = FTYPE_DIR →
      IsFile m x ∧ m.word (f_type x) = FTYPE_DIR := fun x hx hxdir => by
    rcases (hfiles x).mp hx with hx | rfl
    · exact ⟨hx, (htype x hx).symm.trans hxdir⟩
    · rw [hempty.type] at hxdir
      cases hxdir
  have hnames : ∀ {g n}, IsFile m g → n.length < MAXNAMELEN → (NameIs m' g n ↔ NameIs m g n) :=
    fun hg hn => hO.nameIs_kept hd hkids h.loc hg hn
  refine ⟨⟨hO.extend hd hkids h.loc h.ok fun g hg => ?_, fun x hx hxdir => ?_⟩,
    fun x hx hxdir k hk hk' => ?_, fun x g g' n hx hg hg' hn hgn hgn' => ?_⟩
  · refine ((hfiles g).mp hg).imp_right ?_
    rintro rfl
    exact hempty.slots
  · obtain ⟨hx, hxdir⟩ := hdirs x hx hxdir
    by_cases hxd : x = d
    · subst hxd
      exact h.full hfull
    · exact (h.lookup_other hO hd hfull hx (hT.tree.dirs x hx hxdir) hxd hlen).2
  · obtain ⟨hx, hxdir⟩ := hdirs x hx hxdir
    by_cases hxd : x = d
    · subst hxd
      rcases h.dirBlocks_eq hfull with ⟨hn, -, hptr⟩ | ⟨hn, -⟩
      · rw [hptr]
        exact hT.rest x hx hxdir k (by omega) hk'
      · rw [h.slots k (by omega) (by omega)]
        exact hT.rest x hx hxdir k (by omega) hk'
    · rw [dirBlocks, hO.size_kept hd hkids h.loc hx hxd] at hk
      rw [hO.ptr_kept hd hkids h.loc hx hxd]
      exact hT.rest x hx hxdir k hk hk'
  · obtain ⟨hx, hxdir⟩ := hdirs x hx hg.dir
    by_cases hxd : x = d
    · subst hxd
      rw [h.child_dir hT hd hdir hname hempty hblank] at hg hg'
      -- no old entry has the new name
      have hfresh : ∀ y, Child m x y → NameIs m' y name → False := fun y hy hyn => by
        have hmem : y ∈ entries m x := by
          obtain ⟨k, j, hk, -, hj, rfl⟩ := hy.entry
          exact mem_entries.mpr ⟨k, hk, j, hj, rfl⟩
        have hnone := List.find?_eq_none.mp hno y hmem
        rw [decide_eq_true ((hnames (.child hx hy) hlen).mp hyn)] at hnone
        exact hnone rfl
      rcases hg with hg | rfl <;> rcases hg' with hg' | rfl
      · exact hT.once x g g' n hx hg hg' hn ((hnames (.child hx hg) hn).mp hgn)
          ((hnames (.child hx hg') hn).mp hgn')
      · rw [hgn'.unique h.named] at hgn
        exact (hfresh g hg hgn).elim
      · rw [hgn.unique h.named] at hgn'
        exact (hfresh g' hg' hgn').elim
      · rfl
    · rw [hO.child_same hd hkids h.loc hx hxd] at hg hg'
      exact hT.once x g g' n hx hg hg' hn ((hnames (.child hx hg) hn).mp hgn)
        ((hnames (.child hx hg') hn).mp hgn')

theorem Added.created {path : List Byte} (hP : Parent m s_root (components path) d name) :
    Created path d e name m m' := by
  have hfull := hT.tree.dirs d hd hdir
  have hO := hT.tree.owned
  have hkids := h.kids hfull
  obtain ⟨hno, hlen, -, -⟩ := hP.last
  have hT' := h.tidy hT hd hdir hname hempty hblank hlen hno
  have hd' := (h.isFile_iff hT hd hdir hname hempty hblank).mpr (.inl hd)
  have hwalk := h.walk hT.tree hd hdir hP .root components_ne_nil none
  rw [← walk_path_eq] at hwalk
  refine ⟨fun g => h.child_dir hT hd hdir hname hempty hblank, fun hc => h.ne_child hfull hc rfl,
    h.named, hkids, fun g g' n hg hg' hn hgn hgn' => hT'.once d g g' n hd' hg hg' hn hgn hgn',
    hempty, Prog.flat_bind_ok hwalk, fun g hg hne => ⟨fun x hx hx' =>
      hO.inode_kept hd hkids h.loc hg hne x hx hx', hO.ptr_kept hd hkids h.loc hg hne,
      fun q hq => hO.content_same hd hkids h.loc hg hne hq⟩,
    fun g => h.isFile_iff hT hd hdir hname hempty hblank⟩

end NewFile

/-- What a creation in `d` takes is empty: the free entry, or the block that the directory
gets. That is the first free block, or the second if an indirect block is needed too. -/
def Clean (m : Mem) (d : Nat) : Prop :=
  (∀ e, lookup m d [] = some e → EmptyEntry m e) ∧
  (lookup m d [] = none → ∀ b,
    (freeList m)[if 10 ≤ dirBlocks m d ∧ ind m d = 0 then 1 else 0]? = some b →
    EmptyEntry m (4096 * b) ∧ ∀ j, 0 < j → j < 16 → m (4096 * b + 256 * j) = 0)

/-- The condition, in terms of what is there afterwards. -/
theorem Added.clean_iff (hT : Tidy m) (hd : IsFile m d) (hdir : m.word (f_type d) = FTYPE_DIR)
    (h : Added d e name m m') : Clean m d ↔
      EmptyEntry m' e ∧ ∀ g ∈ entries m' d, g ∉ entries m d → g ≠ e → m' g = 0 := by
  have hfull := hT.tree.dirs d hd hdir
  have halign := (h.aligned hfull).1
  have hsame : ∀ x, e + 128 ≤ x → x < e + 256 → m' x = m x := fun x hx hx' =>
    h.raw x (by omega) (by omega)
  have hempty : EmptyEntry m e ↔ EmptyEntry m' e :=
    ⟨fun he => he.congr hsame, fun he => he.congr fun x hx hx' => (hsame x hx hx').symm⟩
  obtain ⟨more, hmore, hcase⟩ := h.entries_eq hfull
  rcases h.dirBlocks_eq hfull with ⟨-, hblank, -⟩ | ⟨-, hblank, hlt, -, he⟩
  · have hnil : entries m' d = entries m d := by
      rcases hcase with ⟨rfl, -⟩ | ⟨-, -, hnot⟩
      · rw [hmore, List.append_nil]
      · exact absurd (lookup_some hblank).1 hnot
    rw [Clean, hblank, hnil, ← hempty]
    constructor
    · exact fun hc => ⟨hc.1 e rfl, fun g hg hng => absurd hg hng⟩
    · rintro ⟨hc, -⟩
      refine ⟨fun e' he' => ?_, fun hc => ?_⟩
      · cases he'
        exact hc
      · cases hc
  · have hfirst := h.first hblank (hT.rest d hd hdir _ le_rfl hlt)
    rcases hcase with ⟨rfl, hmem, hz⟩ | ⟨rfl, hmod, hnot⟩
    · -- a free entry would have been found
      have hnone := List.find?_eq_none.mp hblank e hmem
      rw [decide_eq_true (show NameIs m e [] from hz)] at hnone
      exact absurd rfl hnone
    have hnew : ∀ g, g ∈ entries m' d ∧ g ∉ entries m d ∧ g ≠ e ↔
        ∃ j, 0 < j ∧ j < 16 ∧ g = e + 256 * j := by
      intro g
      rw [hmore, List.mem_append, mem_blockEntries]
      constructor
      · rintro ⟨hg | ⟨j, hj, rfl⟩, hng, hne⟩
        · exact absurd hg hng
        · exact ⟨j, by omega, hj, by omega⟩
      · rintro ⟨j, hj, hj', rfl⟩
        refine ⟨.inr ⟨j, hj', by omega⟩, fun hg => hnot ?_, by omega⟩
        obtain ⟨i, hi, l, hl, hgl⟩ := mem_entries.mp hg
        exact mem_entries.mpr ⟨i, hi, 0, by omega, by omega⟩
    rw [Clean, hblank, ← hempty]
    constructor
    · intro hc
      obtain ⟨h₁, h₂⟩ := hc.2 rfl _ hfirst
      rw [show 4096 * (e / 4096) = e by omega] at h₁ h₂
      refine ⟨h₁, fun g hg hng hne => ?_⟩
      obtain ⟨j, hj, hj', rfl⟩ := (hnew g).mp ⟨hg, hng, hne⟩
      rw [h.raw _ (by omega) (by omega)]
      exact h₂ j hj hj'
    · rintro ⟨h₁, h₂⟩
      refine ⟨fun e' he' => absurd he' (Option.some_ne_none e').symm, fun _ b hb => ?_⟩
      rw [hfirst] at hb
      cases hb
      rw [show 4096 * (e / 4096) = e by omega]
      refine ⟨h₁, fun j hj hj' => ?_⟩
      obtain ⟨hg, hng, hne⟩ := (hnew (e + 256 * j)).mpr ⟨j, hj, hj', rfl⟩
      rw [← h.raw _ (by omega) (by omega)]
      exact h₂ _ hg hng hne

/-- A creation does what it is to do exactly if what it takes is empty. -/
theorem Added.created_iff {path : List Byte} (hT : Tidy m) (hd : IsFile m d)
    (hP : Parent m s_root (components path) d name) (h : Added d e name m m') :
    Created path d e name m m' ↔ Clean m d := by
  obtain ⟨-, -, hdir, hmem⟩ := hP.last
  have hfull := hT.tree.dirs d hd hdir
  have hname : name ≠ [] := components_ne_nil name hmem
  rw [h.clean_iff hT hd hdir]
  constructor
  · intro hc
    refine ⟨hc.empty, fun g hg hng hne => ?_⟩
    by_contra hz
    have hdir' := (hT.tree.owned.type_kept hd (h.kids hfull) h.loc hd).trans hdir
    rcases (hc.entries g).mp ((h.full hfull).child hdir' hg hz) with hkid | rfl
    · obtain ⟨k, j, hk, -, hj, rfl⟩ := hkid.entry
      exact hng (mem_entries.mpr ⟨k, hk, j, hj, rfl⟩)
    · exact hne rfl
  · rintro ⟨h₁, h₂⟩
    exact h.created hT hd hdir hname h₁ h₂ hP

/-! ## Histories -/

/-- The calls that change a file system. -/
inductive FsOp
  | file (op : FileOp)
  | create (path : List Byte)

/-- The image after a call that does not panic. -/
def fsStep (m : Mem) : FsOp → Option Mem
  | .file op => fileStep m op
  | .create path => (flat (file_create path) m).toOption.map Prod.snd

/-- A call on a regular file with arguments in range, or the creation of a file in a directory
in which what it takes is empty, and where it does not get stuck. -/
def FsOp.Allowed (m : Mem) : FsOp → Prop
  | .file op => op.Allowed m
  | .create path => (∀ a ∈ path, a ≠ 0) ∧
    ∀ d name, Parent m s_root (components path) d name → Clean m d ∧ ¬ Stuck m d

theorem Tidy.step {op : FsOp} (hT : Tidy m) (hop : op.Allowed m) (h : fsStep m op = some m') :
    Tidy m' := by
  cases op with
  | file op =>
    obtain ⟨hf, hreg, hrange⟩ := hop
    obtain ⟨hok, hloc⟩ := op.local_step (hT.tree.owned.fileOk hf) hrange h
    exact hT.change hf (by rw [hreg]; decide) hloc hok
  | create path =>
    obtain ⟨hpath, hclean⟩ := hop
    obtain ⟨⟨r, m₁⟩, hrun, rfl⟩ := Option.map_eq_some_iff.mp h
    have hrun : flat (file_create path) m = .ok (r, m₁) := by
      rcases hx : flat (file_create path) m with p | x
      · rw [hx] at hrun
        cases hrun
      · rw [hx] at hrun
        cases hrun
        rfl
    cases r with
    | error r =>
      rcases hT.tree.create_error hpath hrun with ⟨rfl, -⟩ | ⟨d, name, hP, -, hstuck, -⟩
      · exact hT
      · exact absurd hstuck (hclean d name hP).2
    | ok e =>
      obtain ⟨d, name, hP, hd, hA⟩ := hT.tree.create_ok hpath hrun
      obtain ⟨hno, hlen, hdir, hmem⟩ := hP.last
      obtain ⟨h₁, h₂⟩ := (hA.clean_iff hT hd hdir).mp (hclean d name hP).1
      exact hA.tidy hT hd hdir (components_ne_nil name hmem) h₁ h₂ hlen hno

theorem Tidy.run {ops : List FsOp} (hT : Tidy m) (hall : runs.Along fsStep FsOp.Allowed m ops)
    (hrun : runs.runFrom fsStep m ops = some m') : Tidy m' :=
  runs.runFrom_keeps (fun _ _ _ hT hop h => hT.step hop h) hT hrun hall

theorem tinyImage_tidy : Tidy tinyImage := by
  have hroot : ∀ d, IsFile tinyImage d → tinyImage.word (f_type d) = FTYPE_DIR → d = s_root := by
    intro d hd hdir
    rcases tinyImage_files hd with rfl | rfl
    · rfl
    · have hreg : tinyImage.word (f_type 12288) = FTYPE_REG := by decide +kernel
      rw [hreg] at hdir
      cases hdir
  refine ⟨tinyImage_tree, fun d hd hdir k hk _ => ?_, fun d g g' n hd hg hg' _ _ _ => ?_⟩
  · obtain rfl := hroot d hd hdir
    have hblocks : dirBlocks tinyImage s_root = 1 := by decide +kernel
    rw [tinyImage_root, if_neg (by omega)]
  · have hone : ∀ x, Child tinyImage d x → x = 12288 := fun x hx => by
      rcases tinyImage_files (.child hd hx) with rfl | h
      · obtain ⟨i, j, -, -, -, -, hs⟩ := hx.ptr
        unfold s_root super at hs
        omega
      · exact h
    rw [hone g hg, hone g' hg']

/-- An image of 16 blocks whose root has `n` blocks full of entries with names of one
character, and a bitmap. -/
def packed (n : Nat) (free : Word) : Mem := fun x =>
  if 12288 ≤ x ∧ x < 12288 + 4096 * n then
    if x % 256 = 0 then BitVec.ofNat 8 ((x - 12288) / 256 + 1) else 0
  else
    let m : Mem := fun _ => 0
    (List.range n).foldl (fun m i => m.setWord (f_direct s_root i) (BitVec.ofNat 32 (3 + i)))
      (((((m.setWord super FS_MAGIC).setWord (super + 4) 16).setWord bitmap free).setWord
        (f_size s_root) (BitVec.ofNat 32 (4096 * n))).setWord (f_type s_root) FTYPE_DIR) x

section Packed

variable {n : Nat} (hn : n ≤ 10) (hblocks : numBlocks m = 16)
  (hused : ∀ b < 3 + n, isFree m b = false)
  (hsize : m.word (f_size s_root) = BitVec.ofNat 32 (4096 * n))
  (hroot : ∀ k < 10, blk m s_root k = if k < n then 3 + k else 0) (hind : ind m s_root = 0)
  (hentry : ∀ x, 12288 ≤ x → x < 12288 + 4096 * n →
    m x = if x % 256 = 0 then BitVec.ofNat 8 ((x - 12288) / 256 + 1) else 0)

include hn hroot hind in
theorem packed_root (k : Nat) : ptr m s_root k = if k < n then 3 + k else 0 := by
  rw [ptr_of_ind hind]
  by_cases hd : k < 10
  · rw [if_pos hd, hroot k hd]
  · rw [if_neg hd, if_neg (by omega)]

include hentry in
theorem packed_entry {j : Nat} (hj : j < 16 * n) :
    EmptyEntry m (12288 + 256 * j) ∧ m (12288 + 256 * j) = BitVec.ofNat 8 (j + 1) := by
  have hzero : ∀ x, 12288 + 256 * j < x → x < 12288 + 256 * j + 256 → m x = 0 := fun x hx hx' => by
    rw [hentry x (by omega) (by omega), if_neg (by omega)]
  have hword : ∀ a, 12288 + 256 * j < a → a + 4 ≤ 12288 + 256 * j + 256 → m.word a = 0 :=
    fun a ha ha' => Mem.word_eq_zero fun x hx hx' => hzero x (by omega) (by omega)
  have hi : ind m (12288 + 256 * j) = 0 := by
    rw [ind, hword _ (by simp only [f_indirect]; omega) (by simp only [f_indirect]; omega)]
    rfl
  refine ⟨⟨hword _ (by simp only [f_size]; omega) (by simp only [f_size]; omega),
    hword _ (by simp only [f_type]; omega) (by simp only [f_type]; omega), fun k => ?_⟩, ?_⟩
  · rw [ptr_of_ind hi]
    split
    · rename_i hk
      rw [blk_direct hk, hword _ (by simp only [f_direct]; omega)
        (by simp only [f_direct]; omega)]
      rfl
    · rfl
  · rw [hentry _ (by omega) (by omega), if_pos (by omega)]
    congr 1
    omega

include hn hroot hind hentry in
theorem packed_files (h : IsFile m f) : f = s_root ∨ ∃ j < 16 * n, f = 12288 + 256 * j := by
  induction h with
  | root => exact .inl rfl
  | child _ hc ih =>
    obtain ⟨i, j, -, -, hp, hj, rfl⟩ := hc.ptr
    rcases ih with rfl | ⟨l, hl, rfl⟩
    · rw [packed_root hn hroot hind] at hp ⊢
      split at hp
      · rename_i hi
        rw [if_pos hi]
        exact .inr ⟨16 * i + j, by omega, by omega⟩
      · exact absurd rfl hp
    · have := hc.dir
      rw [(packed_entry hentry hl).1.type] at this
      cases this

include hn hblocks hused hsize hroot hind hentry in
theorem packed_tidy : Tidy m := by
  have hfirst : firstBlock m = 3 := by rw [firstBlock, hblocks]
  have hptr := packed_root hn hroot hind
  have hfiles : ∀ f, IsFile m f → f = s_root ∨ ∃ j < 16 * n, f = 12288 + 256 * j := fun f hf =>
    packed_files hn hroot hind hentry hf
  have hdirs : ∀ d, IsFile m d → m.word (f_type d) = FTYPE_DIR → d = s_root := by
    intro d hd hdir
    rcases hfiles d hd with rfl | ⟨j, hj, rfl⟩
    · rfl
    · rw [(packed_entry hentry hj).1.type] at hdir
      cases hdir
  have hv : (m.word (f_size s_root)).toNat = 4096 * n := by
    rw [hsize, BitVec.toNat_ofNat]
    omega
  have hdb : dirBlocks m s_root = n := by
    rw [dirBlocks, perBlock_eq (by omega), hv]
    omega
  have hO : Owned m := by
    refine ⟨by omega, fun b hb _ => hused b (by omega), fun f k hf hp => ?_,
      fun f g k l hf hg hp he => ?_⟩
    · rcases hfiles f hf with rfl | ⟨j, hj, rfl⟩
      · rw [hptr] at hp ⊢
        have hk : k < n := by
          by_contra hc
          exact hp (if_neg hc)
        rw [if_pos hk]
        exact ⟨by omega, by omega, hused _ (by omega)⟩
      · exact absurd ((packed_entry hentry hj).1.slots k) hp
    · rcases hfiles f hf with rfl | ⟨j, hj, rfl⟩
      · rcases hfiles g hg with rfl | ⟨j, hj, rfl⟩
        · rw [hptr] at hp
          rw [hptr, hptr] at he
          refine ⟨rfl, ?_⟩
          split at hp
          · rw [if_pos (by assumption)] at he
            split at he <;> omega
          · exact absurd rfl hp
        · rw [(packed_entry hentry hj).1.slots] at he
          exact absurd he hp
      · exact absurd ((packed_entry hentry hj).1.slots k) hp
  refine ⟨⟨hO, fun d hd hdir => ?_⟩, fun d hd hdir k hk _ => ?_,
    fun d g g' c hd hg hg' _ hn hn' => ?_⟩
  · obtain rfl := hdirs d hd hdir
    refine ⟨by rw [hv, BLKSIZE]; omega, by omega, fun i hi => (hO.fileOk hd).there ?_⟩
    rw [hroot i (by omega), if_pos (by omega)]
    omega
  · obtain rfl := hdirs d hd hdir
    rw [hptr, if_neg (by omega)]
  · -- the names are all different
    have hkid : ∀ x, Child m d x → ∃ j < 16 * n, x = 12288 + 256 * j := fun x hx =>
      (hfiles x (.child hd hx)).resolve_left fun hs => by
        obtain ⟨i, j, -, -, -, -, hx⟩ := hx.ptr
        rw [hs] at hx
        unfold s_root super at hx
        omega
    obtain ⟨j, hj, rfl⟩ := hkid g hg
    obtain ⟨j', hj', rfl⟩ := hkid g' hg'
    have hfirst : m (12288 + 256 * j) = m (12288 + 256 * j') := by
      cases c with
      | nil => exact absurd hn hg.name
      | cons a c => exact hn.2.1.trans hn'.2.1.symm
    rw [(packed_entry hentry hj).2, (packed_entry hentry hj').2] at hfirst
    have := congrArg BitVec.toNat hfirst
    rw [BitVec.toNat_ofNat, BitVec.toNat_ofNat] at this
    omega

end Packed

/-- The image whose root has one full block. -/
def packedBlock : Mem := packed 1 0xFFF0

theorem packedBlock_tidy : Tidy packedBlock :=
  packed_tidy (n := 1) (by decide) (by decide +kernel) (by decide +kernel) (by decide +kernel)
    (by decide +kernel) (by decide +kernel) fun x hx hx' => if_pos ⟨hx, hx'⟩

/-- The image after a call. -/
def after (m : Mem) (op : FsOp) : Mem := (fsStep m op).getD m

theorem fsStep_after {op : FsOp} (h : (fsStep m op).isSome) : fsStep m op = some (after m op) := by
  obtain ⟨m', hm'⟩ := Option.isSome_iff_exists.mp h
  rw [after, hm', Option.getD_some]

/-- A byte is written into the first file, at the place that the name of a second entry would
have in a block of a directory. -/
def staleWrite : FsOp := .file (.write 12288 [120] 1 256)

/-- The file is cut to nothing. -/
def staleCut : FsOp := .file (.set_size 12288 0)

/-- Nothing that can be seen has changed. -/
structure Intact (m m' : Mem) : Prop where
  dirs : ∀ d, IsFile m d → m.word (f_type d) = FTYPE_DIR →
    m'.word (f_size d) = m.word (f_size d) ∧ entries m' d = entries m d
  files : ∀ g, IsFile m g → (∀ x, g ≤ x → x < g + 256 → m' x = m x) ∧
    (∀ k, ptr m' g k = ptr m g k) ∧ ∀ q, content m' g q = content m g q
  opens : ∀ path, (flat (file_open path) m').map Prod.fst = (flat (file_open path) m).map Prod.fst
  creates : ∀ path,
    (flat (file_create path) m').map Prod.fst = (flat (file_create path) m).map Prod.fst

theorem Intact.refl (m : Mem) : Intact m m :=
  ⟨fun _ _ _ => ⟨rfl, rfl⟩, fun _ _ => ⟨fun _ _ _ => rfl, fun _ => rfl, fun _ => rfl⟩,
    fun _ => rfl, fun _ => rfl⟩

/-- After any such history, a creation that fails changes nothing exactly if it did not have to
add a block that there is no room for. -/
theorem failed_creation_changes_nothing {m₀ : Mem} {ops : List FsOp} {path : List Byte} {r : Int}
    (hT : Tidy m₀) (hall : runs.Along fsStep FsOp.Allowed m₀ ops)
    (hrun : runs.runFrom fsStep m₀ ops = some m) (hpath : ∀ a ∈ path, a ≠ 0)
    (h : flat (file_create path) m = .ok (.error r, m')) :
    Intact m m' ↔ ∀ d name, Parent m s_root (components path) d name → ¬ Stuck m d := by
  have hT := hT.run hall hrun
  rcases hT.tree.create_error hpath h with ⟨rfl, hP⟩ | ⟨d, name, hP, hd, hstuck, rfl⟩
  · exact ⟨fun _ d name hc => absurd hc (hP d name), fun _ => .refl m'⟩
  · refine ⟨fun hc => ?_, fun hc => absurd hstuck (hc d name hP)⟩
    have hsize := (hc.dirs d hd hP.last.2.2.1).1
    rw [Mem.word_setWord] at hsize
    have := congrArg BitVec.toNat hsize
    rw [BitVec.toNat_add, BitVec.toNat_ofNat] at this
    omega

theorem failed_creation_changes_nothing_tiny :
    ∃ m', flat (file_create [97]) tinyImage = .ok (.error (-E_FILE_EXISTS), m') ∧
      Intact tinyImage m' := by
  obtain ⟨m', hrun, -⟩ : ∃ m', flat (file_create [97]) tinyImage =
      .ok (.error (-E_FILE_EXISTS), m') ∧ () = () := exists_flat_eq (fun _ => ()) (by decide +kernel)
  have hall : runs.Along fsStep FsOp.Allowed tinyImage [] := trivial
  refine ⟨m', hrun, (failed_creation_changes_nothing tinyImage_tidy hall rfl (by decide) hrun).mpr
    fun d name hP => ?_⟩
  have hfound : lookup tinyImage s_root [97] = some 12288 := by decide +kernel
  -- the name is there
  have hc : Parent tinyImage s_root [[97]] d name := hP
  cases hc with
  | here _ _ hno =>
    rw [hfound] at hno
    cases hno
  | step _ _ _ hP => cases hP

/-- The image whose root has ten full blocks and no indirect block, with no free block. -/
def packedFull : Mem := packed 10 0

theorem packedFull_tidy : Tidy packedFull :=
  packed_tidy (n := 10) (by decide) (by decide +kernel) (by decide +kernel) (by decide +kernel)
    (by decide +kernel) (by decide +kernel) fun x hx hx' => if_pos ⟨hx, hx'⟩

/-- A creation fails, and leaves the root with the size of eleven blocks; a name that was not
found before is then reported as a lack of disk space. -/
theorem failed_creation_enlarges : Tidy packedFull ∧
    packedFull.word (f_size s_root) = 40960 ∧
    (flat (file_open [200]) packedFull).toOption.map Prod.fst = some (.error (-E_NOT_FOUND)) ∧
    ∃ m', flat (file_create [200]) packedFull = .ok (.error (-E_NO_DISK), m') ∧
      (m'.word (f_size s_root), (flat (file_open [200]) m').toOption.map Prod.fst) =
        (45056, some (.error (-E_NO_DISK))) :=
  ⟨packedFull_tidy, by decide +kernel, by decide +kernel, exists_flat_eq
    (fun m' => (m'.word (f_size s_root), (flat (file_open [200]) m').toOption.map Prod.fst))
    (by decide +kernel)⟩

end jos.fs
