-- Where `spawn` finds the program headers. Their position and their number
-- come from the file, and are used as they are: a header may lie behind the part
-- of the file that was read, on the stack of the caller.
import Jos.SpawnClean

namespace jos.program

open blockstore (Mem)
open descriptor (MAXFD)
open stateful (bind_ok bind_error bind_eq_ok)

variable {w : World} {fd : Fin MAXFD} {s s' : State} {r : Int} {α β : Type}

/-! ## Calls that look at no header -/

/-- The state in which a call ends. -/
def stateOf : EStateM.Result Fault State α → State
  | .ok _ s => s
  | .error _ s => s

/-- A call that looks at no header, however it ends. -/
structure Headless (x : M α) : Prop where
  heads : ∀ s, (stateOf (x s)).heads = s.heads

theorem Headless.bind {x : M α} {f : α → M β} (hx : Headless x) (hf : ∀ a, Headless (f a)) :
    Headless (x >>= f) := by
  refine ⟨fun s => ?_⟩
  have hs := hx.heads s
  rcases hrun : x s with ⟨a, s₁⟩ | ⟨e, s₁⟩ <;> rw [hrun] at hs
  · rw [bind_ok hrun, (hf a).heads s₁]
    exact hs
  · rw [bind_error hrun]
    exact hs

theorem Headless.ite {c : Prop} [Decidable c] {x y : M α} (hx : Headless x) (hy : Headless y) :
    Headless (if c then x else y) := by
  split
  · exact hx
  · exact hy

theorem headless_pure (a : α) : Headless (pure a) := ⟨fun _ => rfl⟩

theorem headless_throw (e : Fault) : Headless (throw e : M α) := ⟨fun _ => rfl⟩

theorem headless_get : Headless get := ⟨fun _ => rfl⟩

theorem headless_answer (w : World) : Headless (answer w) := ⟨fun _ => rfl⟩

theorem headless_checked (num : Nat) (ret : Int) : Headless (checked num ret) := by
  unfold checked
  split
  · exact headless_throw _
  · exact headless_pure _

theorem headless_fail (p : Point) (r : Int) : Headless (fail p r) := ⟨fun _ => rfl⟩

theorem headless_sys_page_alloc_temp (w : World) : Headless (sys_page_alloc_temp w) :=
  .bind (headless_answer w) fun _ => .bind (headless_checked ..) fun _ =>
    .ite (headless_pure _) ⟨fun _ => rfl⟩

theorem headless_sys_page_alloc (w : World) (va perm : Word) :
    Headless (sys_page_alloc w va perm) :=
  .bind (headless_answer w) fun _ => .bind (headless_checked ..) fun _ =>
    .ite (headless_pure _) ⟨fun _ => rfl⟩

theorem headless_sys_page_map (w : World) (va perm : Word) : Headless (sys_page_map w va perm) := by
  refine .bind (headless_answer w) fun ret => .bind headless_get fun s => ?_
  rcases s.utemp with _ | page
  · exact headless_pure _
  · exact .ite (headless_pure _) (.ite (headless_pure _) ⟨fun _ => rfl⟩)

theorem headless_open_file (w : World) (prog : Str) : Headless (open_file w prog) := by
  refine .ite (headless_pure _) (.bind headless_get fun s => ?_)
  split
  · exact headless_pure _
  · exact .bind (headless_answer w) fun _ => .ite (headless_pure _) ⟨fun _ => rfl⟩

theorem headless_seek (fd : Fin MAXFD) (offset : Word) : Headless (seek fd offset) := by
  refine .bind headless_get fun s => ?_
  split
  · exact headless_pure _
  · exact ⟨fun _ => rfl⟩

theorem headless_read (w : World) (fd : Fin MAXFD) (n : Nat) : Headless (read w fd n) := by
  refine .bind headless_get fun s => ?_
  split
  · exact headless_pure _
  · refine .bind (headless_answer w) fun _ => .ite (headless_pure _) ?_
    split
    · exact headless_pure _
    · exact ⟨fun _ => rfl⟩

theorem headless_readn (w : World) (fd : Fin MAXFD) (k n : Nat) : Headless (readn w fd k n) := by
  induction k generalizing n with
  | zero => exact headless_pure _
  | succ k ih =>
    refine .ite (headless_pure _) (.bind (headless_read ..) fun res => ?_)
    split
    · exact headless_pure _
    · refine .ite (headless_pure _) (.bind (ih _) fun rest => ?_)
      split <;> exact headless_pure _

theorem headless_readn_temp (w : World) (fd : Fin MAXFD) (n : Nat) :
    Headless (readn_temp w fd n) := by
  refine .bind (headless_readn ..) fun res => ?_
  split
  · exact headless_pure _
  · exact ⟨fun _ => rfl⟩

theorem headless_close (w : World) (fd : Fin MAXFD) : Headless (close w fd) := by
  refine .bind headless_get fun s => ?_
  split
  · exact headless_pure _
  · exact .bind (headless_answer w) fun _ => ⟨fun _ => rfl⟩

theorem headless_fill_temp (argv : List Str) (string_store argv_store : Word) :
    Headless (fill_temp argv string_store argv_store) := by
  refine ⟨fun s => ?_⟩
  rw [fill_temp, bind_ok stateful.get_run]
  rcases hpage : s.utemp with _ | page
  · rfl
  · dsimp only
    rcases fill_stack argv string_store argv_store page with e | page' <;> rfl

theorem headless_init_stack (w : World) (argv : List Str) : Headless (init_stack w argv) :=
  .ite (headless_pure _) (.bind (headless_sys_page_alloc_temp w) fun _ => .ite (headless_pure _)
    (.bind (headless_fill_temp ..) fun _ => .bind (headless_sys_page_map ..) fun _ => ⟨fun _ => rfl⟩))

theorem headless_map_pages (w : World) (fd : Fin MAXFD)
    (va memsz filesz fileoffset perm : Word) (n : Nat) (i : Word) :
    Headless (map_pages w fd va memsz filesz fileoffset perm n i) := by
  induction n generalizing i with
  | zero => exact headless_throw _
  | succ n ih =>
    refine .ite (headless_pure _) (.ite ?_ ?_)
    · exact .bind (headless_sys_page_alloc ..) fun _ => .ite (headless_fail ..) (ih _)
    · refine .bind (headless_sys_page_alloc_temp w) fun _ => .ite (headless_fail ..) ?_
      refine .bind (headless_seek ..) fun _ => .ite (headless_fail ..) ?_
      refine .bind (headless_readn_temp ..) fun _ => .ite (headless_fail ..) ?_
      refine .bind (headless_sys_page_map ..) fun _ => .ite (headless_throw _) ?_
      exact .bind ⟨fun _ => rfl⟩ fun _ => ih _

theorem headless_load_segment (w : World) (fd : Fin MAXFD) (p : Proghdr) :
    Headless (load_segment w fd p) := headless_map_pages ..

theorem headless_start_child (w : World) (c : Caller) (fd : Fin MAXFD) (child : Int)
    (eip esp : Word) : Headless (start_child w c fd child eip esp) := by
  have hcopy : ∀ shared, Headless (copy_shared_pages w shared) := by
    intro shared
    induction shared with
    | nil => exact headless_pure _
    | cons p rest ih =>
      exact .bind (headless_answer w) fun _ => .ite ih (.bind ⟨fun _ => rfl⟩ fun _ => ih)
  have hmust : ∀ num msg f, Headless (must w num msg f) := fun _ _ _ =>
    .bind (headless_answer w) fun _ => .bind (headless_checked ..) fun _ =>
      .ite (headless_throw _) ⟨fun _ => rfl⟩
  exact .bind (headless_close ..) fun _ => .bind (hcopy _) fun _ => .bind (hmust ..) fun _ =>
    .bind (hmust ..) fun _ => headless_pure _

/-! ## Segments that can be loaded -/

/-- The bytes of a `readn` to which the kernel and the file server make no trouble. -/
def File.readn (f : File) : Nat → Word → Nat → Except Int (List Byte)
  | 0, _, _ => .ok []
  | k + 1, offset, n =>
    if n = 0 then .ok []
    else match f.read offset n with
      | .error r => .error r
      | .ok bs =>
        if bs = [] then .ok []
        else match f.readn k (offset + BitVec.ofNat 32 bs.length) (n - bs.length) with
          | .error r => .error r
          | .ok rest => .ok (bs ++ rest)

/-- The pages of a segment from `i` on are below `UTOP`, and what is in the file of
them can be read. -/
def Loadable (f : File) (va memsz filesz fileoffset : Word) : Nat → Word → Prop
  | 0, _ => False
  | n + 1, i =>
    memsz ≤ i ∨ (va + i < UTOP ∧
      (filesz ≤ i ∨ ∃ bs, f.readn (min PGSIZE (filesz - i).toNat) (fileoffset + i)
        (min PGSIZE (filesz - i).toNat) = .ok bs) ∧
      Loadable f va memsz filesz fileoffset n (i + 0x1000))

def Proghdr.Loadable (f : File) (p : Proghdr) : Prop :=
  let i := p.p_va % 0x1000
  program.Loadable f (p.p_va - i) (p.p_memsz + i) (p.p_filesz + i) (p.p_offset - i) (2 ^ 20 + 1) 0

theorem read_eq_ok {n : Nat} {bs : List Byte} {offset : Word} (hopen : s.fds fd = some offset)
    (h : read w fd n s = .ok (.ok bs) s') :
    w.file.read offset n = .ok bs ∧ s'.fds fd = some (offset + BitVec.ofNat 32 bs.length) := by
  obtain ⟨_, _, ⟨⟩, h⟩ := bind_eq_ok h
  rw [hopen] at h
  obtain ⟨ret, _, ⟨⟩, h⟩ := bind_eq_ok h
  split at h
  · cases h
  · rcases hread : w.file.read offset n with r | bs' <;> rw [hread] at h
    · cases h
    · cases h
      exact ⟨rfl, Function.update_self ..⟩

/-- What was read is what the file holds. -/
theorem readn_file {k n : Nat} {bs : List Byte} {offset : Word} (hopen : s.fds fd = some offset)
    (h : readn w fd k n s = .ok (.ok bs) s') : w.file.readn k offset n = .ok bs := by
  induction k generalizing n s offset bs with
  | zero =>
    cases h
    rfl
  | succ k ih =>
    rw [readn] at h
    rw [File.readn]
    split at h
    · cases h
      rw [if_pos ‹_›]
    · rw [if_neg ‹_›]
      obtain ⟨res, s₁, hread, h⟩ := bind_eq_ok h
      cases res with
      | error r => cases h
      | ok first =>
        obtain ⟨hfile, hfds⟩ := read_eq_ok hopen hread
        rw [hfile]
        dsimp only at h ⊢
        split at h
        · cases h
          rw [if_pos ‹_›]
        · rw [if_neg ‹_›]
          obtain ⟨rest, s₂, hrest, h⟩ := bind_eq_ok h
          cases rest with
          | error r => cases h
          | ok rest =>
            cases h
            rw [ih hfds hrest]

/-- What the file holds can be read if nobody makes trouble. -/
theorem readn_willing (hw : ∀ i, 0 ≤ w.answers i) {k n : Nat} {bs : List Byte} {offset : Word}
    (hopen : s.fds fd = some offset) (h : w.file.readn k offset n = .ok bs) :
    ∃ s', readn w fd k n s = .ok (.ok bs) s' := by
  induction k generalizing n s offset bs with
  | zero =>
    cases h
    exact ⟨s, rfl⟩
  | succ k ih =>
    rw [File.readn] at h
    rw [readn]
    split at h
    · cases h
      exact ⟨s, by rw [if_pos ‹_›]; rfl⟩
    · rw [if_neg ‹_›]
      rcases hread : w.file.read offset n with r | first <;> rw [hread] at h
      · cases h
      dsimp only at h
      rw [bind_ok (read_ok hopen (hw _) hread)]
      dsimp only
      split at h
      · cases h
        exact ⟨_, by rw [if_pos ‹_›]; rfl⟩
      · rw [if_neg ‹_›]
        rcases hrest : w.file.readn k (offset + BitVec.ofNat 32 first.length)
          (n - first.length) with r | rest <;> rw [hrest] at h
        · cases h
        cases h
        obtain ⟨s', hs'⟩ := ih (s := { s.tick with
          fds := Function.update s.fds fd (some (offset + BitVec.ofNat 32 first.length)) })
          (Function.update_self ..) hrest
        exact ⟨s', by rw [bind_ok hs']; rfl⟩

theorem sys_page_alloc_low {va perm : Word} (h : sys_page_alloc w va perm s = .ok r s') :
    va < UTOP := by
  obtain ⟨_, _, ⟨⟩, h⟩ := bind_eq_ok h
  obtain ⟨_, _, hchecked, -⟩ := bind_eq_ok h
  obtain ⟨rfl, hle, -⟩ := checked_eq_ok hchecked
  by_contra hhigh
  rw [if_pos (BitVec.not_lt.mp hhigh)] at hle
  exact absurd hle (by decide)

theorem map_page_low {va perm : Word} {ret : Int} {found : Option Mem}
    (h : map_page va perm ret found s = .ok r s') (hr : ¬ r < 0) : va < UTOP := by
  have hinval : (-E_INVAL) < 0 := by decide
  cases found with
  | none =>
    cases h
    exact absurd hinval hr
  | some page =>
    by_contra hhigh
    rw [map_page, if_pos (BitVec.not_lt.mp hhigh)] at h
    cases h
    exact hr hinval

theorem sys_page_map_low {va perm : Word} (h : sys_page_map w va perm s = .ok r s')
    (hr : ¬ r < 0) : va < UTOP := by
  obtain ⟨_, _, ⟨⟩, h⟩ := bind_eq_ok h
  obtain ⟨_, _, ⟨⟩, h⟩ := bind_eq_ok h
  exact map_page_low h hr

/-- A segment that was loaded is one that can be. -/
theorem loadable_of_map_pages {va memsz filesz fileoffset perm : Word} {n : Nat} {i : Word}
    (h : map_pages w fd va memsz filesz fileoffset perm n i s = .ok r s') (hr : ¬ r < 0) :
    Loadable w.file va memsz filesz fileoffset n i := by
  induction n generalizing s i with
  | zero => cases h
  | succ n ih =>
    rw [map_pages] at h
    split at h
    · exact .inl ‹_›
    split at h
    · obtain ⟨r₁, s₁, halloc, h⟩ := bind_eq_ok h
      split at h
      · obtain ⟨rfl, -⟩ := fail_eq_ok h
        exact absurd ‹_› hr
      · exact .inr ⟨sys_page_alloc_low halloc, .inl ‹_›, ih h⟩
    · obtain ⟨r₁, s₁, -, h⟩ := bind_eq_ok h
      split at h
      · obtain ⟨rfl, -⟩ := fail_eq_ok h
        exact absurd ‹_› hr
      obtain ⟨r₂, s₂, hseek, h⟩ := bind_eq_ok h
      split at h
      · obtain ⟨rfl, -⟩ := fail_eq_ok h
        exact absurd ‹_› hr
      rename_i hr₂
      have hopen : s₂.fds fd = some (fileoffset + i) := by
        obtain ⟨_, _, ⟨⟩, hseek⟩ := bind_eq_ok hseek
        rcases hfd : s₁.fds fd with _ | o <;> rw [hfd] at hseek
        · cases hseek
          exact absurd (by decide) hr₂
        · cases hseek
          exact Function.update_self ..
      obtain ⟨r₃, s₃, hread, h⟩ := bind_eq_ok h
      split at h
      · obtain ⟨rfl, -⟩ := fail_eq_ok h
        exact absurd ‹_› hr
      rename_i hr₃
      obtain ⟨res, s₄, hreadn, hread⟩ := bind_eq_ok hread
      obtain ⟨r₅, s₅, hmap, h⟩ := bind_eq_ok h
      split at h
      · cases h
      obtain ⟨_, _, ⟨⟩, h⟩ := bind_eq_ok h
      refine .inr ⟨sys_page_map_low hmap ‹_›, .inr ?_, ih h⟩
      cases res with
      | error r₄ =>
        cases hread
        exact absurd ((readn_moved hopen hreadn).2 _ rfl) hr₃
      | ok bs => exact ⟨bs, readn_file hopen hreadn⟩

section

variable (hw : ∀ i, w.answers i = 0)

include hw

theorem sys_page_alloc_willing {va : Word} (perm : Word) (hva : va < UTOP) :
    ∃ child, sys_page_alloc w va perm s = .ok 0 { s.tick with child := child } := by
  have hanswer : answer w s = .ok 0 s.tick := by rw [answer, hw]; rfl
  rw [sys_page_alloc, bind_ok hanswer, if_neg (BitVec.not_le.mpr hva), bind_ok (checked_of_le le_rfl)]
  exact ⟨_, rfl⟩

theorem sys_page_map_willing {va : Word} (perm : Word) {page : Mem} (hpage : s.utemp = some page)
    (hva : va < UTOP) :
    ∃ child, sys_page_map w va perm s = .ok 0 { s.tick with child := child } := by
  have hanswer : answer w s = .ok 0 s.tick := by rw [answer, hw]; rfl
  have hutemp : s.tick.utemp = some page := hpage
  rw [sys_page_map, bind_ok hanswer, bind_ok stateful.get_run, hutemp, map_page,
    if_neg (BitVec.not_le.mpr hva), if_neg (lt_irrefl _)]
  exact ⟨_, rfl⟩

theorem readn_temp_willing {n : Nat} {bs : List Byte} {offset : Word}
    (hopen : s.fds fd = some offset) (h : w.file.readn n offset n = .ok bs) :
    ∃ s', readn_temp w fd n s = .ok bs.length s' := by
  obtain ⟨s', hread⟩ := readn_willing (fun i => (hw i).ge) hopen h
  exact ⟨_, by rw [readn_temp, bind_ok hread]; rfl⟩

/-- A segment that can be loaded is loaded if nobody makes trouble. -/
theorem map_pages_willing {va memsz filesz fileoffset perm : Word} {n : Nat} {i offset : Word}
    (hopen : s.fds fd = some offset) (h : Loadable w.file va memsz filesz fileoffset n i) :
    ∃ s' offset', map_pages w fd va memsz filesz fileoffset perm n i s = .ok 0 s' ∧
      s'.fds fd = some offset' := by
  induction n generalizing s i offset with
  | zero => exact h.elim
  | succ n ih =>
    rw [map_pages]
    by_cases hend : memsz ≤ i
    · exact ⟨s, offset, by rw [if_pos hend]; rfl, hopen⟩
    obtain ⟨hva, hfile, hrest⟩ := h.resolve_left hend
    rw [if_neg hend]
    by_cases hblank : filesz ≤ i
    · obtain ⟨child, halloc⟩ := sys_page_alloc_willing hw (s := s) perm hva
      obtain ⟨s', offset', hrun, hopen'⟩ := ih (s := { s.tick with child := child }) hopen hrest
      exact ⟨s', offset', by rw [if_pos hblank, bind_ok halloc]; exact hrun, hopen'⟩
    obtain ⟨bs, hbs⟩ := hfile.resolve_left hblank
    have halloc := sys_page_alloc_temp_zero (hw s.calls)
    have hseek : seek fd (fileoffset + i) { s.tick with utemp := some fun _ => 0 } =
        .ok 0 { s.tick with
          utemp := some fun _ => 0
          fds := Function.update s.fds fd (some (fileoffset + i)) } := by
      have hopen' : ({ s.tick with utemp := some fun _ => 0 } : State).fds fd = some offset := hopen
      rw [seek, bind_ok stateful.get_run, hopen']
      rfl
    obtain ⟨s₁, hread⟩ := readn_temp_willing hw (s := { s.tick with
      utemp := some fun _ => 0
      fds := Function.update s.fds fd (some (fileoffset + i)) }) (Function.update_self ..) hbs
    have hmoved := readn_temp_moved (Function.update_self ..) hread
    obtain ⟨page, hpage⟩ : ∃ page, s₁.utemp = some page :=
      Option.isSome_iff_exists.mp hmoved.utemp
    obtain ⟨child, hmap⟩ := sys_page_map_willing hw (s := s₁) perm hpage hva
    obtain ⟨o₁, hopen₁⟩ := hmoved.offset
    obtain ⟨s', offset', hrun, hopen'⟩ := ih
      (s := { s₁.tick with child := child, utemp := none }) hopen₁ hrest
    refine ⟨s', offset', ?_, hopen'⟩
    rw [if_neg hblank, bind_ok halloc, if_neg (lt_irrefl _), bind_ok hseek, if_neg (lt_irrefl _),
      bind_ok hread, if_neg (by omega), bind_ok hmap, if_neg (lt_irrefl _)]
    exact hrun

end

/-! ## Headers -/

/-- A header at an offset from `elf_buf` lies in the bytes that were read. -/
def Inside (ph : Word) : Prop := ph.toNat + 32 ≤ 512

/-- Nothing is mapped around `elf_buf`. -/
def blind : Caller := ⟨0, fun _ => none, []⟩

/-- Where header `i` is looked for. -/
def headAt (head : List Byte) (i : Nat) : Word := e_phoff head + BitVec.ofNat 32 (32 * i)

/-- The loop over the headers may come past the one at `ph`: it is not for a segment,
or for one that can be loaded. -/
def Passable (f : File) (head : List Byte) (ph : Word) : Prop :=
  ∃ p_type, blind.word head ph = some p_type ∧ (p_type ≠ ELF_PROG_LOAD ∨
    ∃ p, blind.proghdr head ph p_type = some p ∧ p.Loadable f)

/-- Every header that the loop may come to lies in the bytes that were read. -/
def Contained (f : File) (head : List Byte) : Prop :=
  ∀ i < e_phnum head, (∀ j < i, Passable f head (headAt head j)) → Inside (headAt head i)

variable {c c' : Caller} {head : List Byte}

theorem headAt_zero (head : List Byte) : headAt head 0 = e_phoff head := BitVec.add_zero _

theorem headAt_succ (head : List Byte) (i : Nat) : headAt head i + 32 = headAt head (i + 1) := by
  rw [headAt, headAt, BitVec.add_assoc, Nat.mul_succ, BitVec.ofNat_add]
  rfl

theorem byte_inside {off : Word} (h : off.toNat < 512) : c.byte head off = blind.byte head off := by
  rw [Caller.byte, Caller.byte, if_pos h, if_pos h]

theorem word_inside {off : Word} (h : off.toNat + 4 ≤ 512) :
    c.word head off = blind.word head off := by
  have hoff : ∀ k < 4, (off + BitVec.ofNat 32 k).toNat < 512 := by
    intro k hk
    rw [BitVec.toNat_add, BitVec.toNat_ofNat]
    omega
  have h₀ : c.byte head off = blind.byte head off := byte_inside (by omega)
  have h₁ : c.byte head (off + 1) = blind.byte head (off + 1) :=
    byte_inside (hoff 1 (by omega))
  have h₂ : c.byte head (off + 2) = blind.byte head (off + 2) :=
    byte_inside (hoff 2 (by omega))
  have h₃ : c.byte head (off + 3) = blind.byte head (off + 3) :=
    byte_inside (hoff 3 (by omega))
  rw [Caller.word, Caller.word, h₀, h₁, h₂, h₃]

theorem proghdr_inside {ph p_type : Word} (h : Inside ph) :
    c.proghdr head ph p_type = blind.proghdr head ph p_type := by
  rw [Inside] at h
  have hword : ∀ k, k + 4 ≤ 32 →
      c.word head (ph + BitVec.ofNat 32 k) = blind.word head (ph + BitVec.ofNat 32 k) := by
    intro k hk
    apply word_inside
    rw [BitVec.toNat_add, BitVec.toNat_ofNat]
    omega
  have h₁ : c.word head (ph + 4) = blind.word head (ph + 4) := hword 4 (by omega)
  have h₂ : c.word head (ph + 8) = blind.word head (ph + 8) := hword 8 (by omega)
  have h₃ : c.word head (ph + 16) = blind.word head (ph + 16) := hword 16 (by omega)
  have h₄ : c.word head (ph + 20) = blind.word head (ph + 20) := hword 20 (by omega)
  have h₅ : c.word head (ph + 24) = blind.word head (ph + 24) := hword 24 (by omega)
  rw [Caller.proghdr, Caller.proghdr, h₁, h₂, h₃, h₄, h₅]

/-- The rest of the loop looks at headers in the bytes that were read only, and so
does the same for all callers. -/
theorem load_segments_contained (c : Caller) (fd : Fin MAXFD) (hc : Contained w.file head)
    {n i : Nat} (hi : i + n = e_phnum head) (hpass : ∀ j < i, Passable w.file head (headAt head j)) :
    load_segments w c fd head n (headAt head i) s =
      load_segments w blind fd head n (headAt head i) s ∧
    ∀ ph ∈ (stateOf (load_segments w blind fd head n (headAt head i) s)).heads,
      ph ∈ s.heads ∨ Inside ph := by
  induction n generalizing i s with
  | zero => exact ⟨rfl, fun ph hph => .inl hph⟩
  | succ n ih =>
    have hin := hc i (by omega) hpass
    have hlook : ∀ ph ∈ s.heads ++ [headAt head i], ph ∈ s.heads ∨ Inside ph := by
      intro ph hph
      rcases List.mem_append.mp hph with hph | hph
      · exact .inl hph
      · rw [List.mem_singleton.mp hph]
        exact .inr hin
    -- the loop goes on behind a header that it has come past
    have hnext : Passable w.file head (headAt head i) → ∀ s₁, s₁.heads = s.heads ++ [headAt head i] →
        load_segments w c fd head n (headAt head i + 32) s₁ =
          load_segments w blind fd head n (headAt head i + 32) s₁ ∧
        ∀ ph ∈ (stateOf (load_segments w blind fd head n (headAt head i + 32) s₁)).heads,
          ph ∈ s.heads ∨ Inside ph := by
      intro hp s₁ hs₁
      rw [headAt_succ]
      obtain ⟨heq, hheads⟩ := ih (i := i + 1) (s := s₁) (by omega) fun j hj => by
        rcases Nat.lt_succ_iff_lt_or_eq.mp hj with hj | rfl
        · exact hpass j hj
        · exact hp
      refine ⟨heq, fun ph hph => (hheads ph hph).elim (fun h => ?_) .inr⟩
      rw [hs₁] at h
      exact hlook ph h
    rw [load_segments, load_segments, bind_ok (stateful.modify_run _),
      bind_ok (stateful.modify_run _), word_inside (show (headAt head i).toNat + 4 ≤ 512 by
        rw [Inside] at hin; omega)]
    rcases htype : blind.word head (headAt head i) with _ | p_type
    · exact ⟨rfl, hlook⟩
    dsimp only
    by_cases hload : p_type ≠ ELF_PROG_LOAD
    · rw [if_pos hload, if_pos hload]
      exact hnext ⟨p_type, htype, .inl hload⟩ _ rfl
    rw [if_neg hload, if_neg hload, proghdr_inside hin]
    rcases hp : blind.proghdr head (headAt head i) p_type with _ | p
    · exact ⟨rfl, hlook⟩
    dsimp only
    have hheads₁ := (headless_load_segment w fd p).heads
      { s with heads := s.heads ++ [headAt head i] }
    rcases hseg : load_segment w fd p { s with heads := s.heads ++ [headAt head i] }
      with ⟨r, s₁⟩ | ⟨e, s₁⟩ <;> rw [hseg] at hheads₁
    · have hs₁ : s₁.heads = s.heads ++ [headAt head i] := hheads₁
      rw [bind_ok hseg, bind_ok hseg]
      split
      · exact ⟨rfl, fun ph hph => hlook ph (hs₁ ▸ hph)⟩
      · exact hnext ⟨p_type, htype, .inr ⟨p, hp, loadable_of_map_pages hseg ‹_›⟩⟩ s₁ hs₁
    · have hs₁ : s₁.heads = s.heads ++ [headAt head i] := hheads₁
      rw [bind_error hseg, bind_error hseg]
      exact ⟨rfl, fun ph hph => hlook ph (hs₁ ▸ hph)⟩

/-- The next header is looked at, and those that were are not forgotten. -/
theorem load_segments_grows {n : Nat} {ph q : Word} (hq : q ∈ s.heads ∨ (0 < n ∧ q = ph)) :
    q ∈ (stateOf (load_segments w c fd head n ph s)).heads := by
  induction n generalizing ph s with
  | zero => exact hq.elim id fun h => absurd h.1 (lt_irrefl 0)
  | succ n ih =>
    have hq' : q ∈ s.heads ++ [ph] := by
      rcases hq with hq | ⟨-, rfl⟩
      · exact List.mem_append_left _ hq
      · exact List.mem_append_right _ (List.mem_singleton_self _)
    rw [load_segments, bind_ok (stateful.modify_run _)]
    rcases c.word head ph with _ | p_type
    · exact hq'
    dsimp only
    split
    · exact ih (.inl hq')
    rcases c.proghdr head ph p_type with _ | p
    · exact hq'
    dsimp only
    have hheads₁ := (headless_load_segment w fd p).heads { s with heads := s.heads ++ [ph] }
    rcases hseg : load_segment w fd p { s with heads := s.heads ++ [ph] }
      with ⟨r, s₁⟩ | ⟨e, s₁⟩ <;> rw [hseg] at hheads₁
    · have hs₁ : s₁.heads = s.heads ++ [ph] := hheads₁
      rw [bind_ok hseg]
      split
      · exact hs₁ ▸ hq'
      · exact ih (.inl (hs₁ ▸ hq'))
    · have hs₁ : s₁.heads = s.heads ++ [ph] := hheads₁
      rw [bind_error hseg]
      exact hs₁ ▸ hq'

/-- If nobody makes trouble, the loop comes to every header that it may come to. -/
theorem load_segments_reaches (hw : ∀ i, w.answers i = 0) {n i k : Nat} {offset : Word}
    (hopen : s.fds fd = some offset) (hik : i ≤ k) (hk : k < i + n)
    (hpass : ∀ j < k, Passable w.file head (headAt head j)) :
    headAt head k ∈ (stateOf (load_segments w blind fd head n (headAt head i) s)).heads := by
  induction n generalizing i s offset with
  | zero => omega
  | succ n ih =>
    by_cases hlast : k = i
    · rw [hlast]
      exact load_segments_grows (.inr ⟨Nat.succ_pos n, rfl⟩)
    obtain ⟨p_type, htype, hp⟩ := hpass i (by omega)
    rw [load_segments, bind_ok (stateful.modify_run _), htype]
    dsimp only
    by_cases hload : p_type ≠ ELF_PROG_LOAD
    · rw [if_pos hload, headAt_succ]
      exact ih (s := { s with heads := s.heads ++ [headAt head i] }) hopen (by omega) (by omega)
    rw [if_neg hload]
    obtain ⟨p, hp, hloadable⟩ := hp.resolve_left hload
    rw [hp]
    dsimp only
    obtain ⟨s₁, offset₁, hseg, hopen₁⟩ := map_pages_willing hw
      (s := { s with heads := s.heads ++ [headAt head i] }) hopen hloadable
    rw [bind_ok (show load_segment w fd p _ = _ from hseg), if_neg (lt_irrefl _), headAt_succ]
    exact ih hopen₁ (by omega) (by omega)

/-! ## The call -/

/-- The headers that a call looks at are in the bytes that were read. -/
def Reads (result : EStateM.Result Fault State Int) : Prop :=
  ∀ ph ∈ (stateOf result).heads, Inside ph

theorem readn_header {head : List Byte} {bs : List Byte} (hfile : w.file.read 0 512 = .ok head)
    (hlen : head.length = 512) (hopen : s.fds fd = some 0)
    (h : readn w fd 512 512 s = .ok (.ok bs) s') : bs = head := by
  have hread : w.file.readn (511 + 1) 0 512 = .ok bs := readn_file hopen h
  have hrest : w.file.readn 511 (0 + BitVec.ofNat 32 head.length) (512 - head.length) = .ok [] := by
    rw [hlen]
    rfl
  have hne : head ≠ [] := by
    rintro rfl
    cases hlen
  rw [File.readn, if_neg (by decide), hfile] at hread
  dsimp only at hread
  rw [if_neg hne, hrest] at hread
  cases hread
  exact List.append_nil head

/-- Two calls that do the same, and look at headers in the bytes that were read only. -/
def Agree (x y : M Int) (s : State) : Prop := x s = y s ∧ Reads (x s)

theorem Headless.agree {x : M Int} (hx : Headless x) (hs : s.heads = []) : Agree x x s := by
  refine ⟨rfl, fun ph hph => ?_⟩
  rw [hx.heads, hs] at hph
  cases hph

theorem Headless.agree_bind {x : M α} {f g : α → M Int} (hx : Headless x) (hs : s.heads = [])
    (h : ∀ a s', x s = .ok a s' → s'.heads = [] → Agree (f a) (g a) s') :
    Agree (x >>= f) (x >>= g) s := by
  have hheads := hx.heads s
  rw [hs] at hheads
  rcases hrun : x s with ⟨a, s₁⟩ | ⟨e, s₁⟩ <;> rw [hrun] at hheads
  · obtain ⟨heq, hreads⟩ := h a s₁ hrun hheads
    rw [Agree, bind_ok hrun, bind_ok hrun]
    exact ⟨heq, hreads⟩
  · have hs₁ : s₁.heads = [] := hheads
    rw [Agree, bind_error hrun, bind_error hrun]
    refine ⟨rfl, fun ph hph => ?_⟩
    rw [show (stateOf (.error e s₁ : EStateM.Result Fault State Int)).heads = [] from hs₁] at hph
    cases hph

/-- What follows the loop over the headers. -/
theorem load_segments_agree (hc : Contained w.file head) (hs : s.heads = []) {f : Int → M Int}
    (hf : ∀ r, Headless (f r)) :
    Agree (load_segments w c fd head (e_phnum head) (e_phoff head) >>= f)
      (load_segments w c' fd head (e_phnum head) (e_phoff head) >>= f) s := by
  have hnone : ∀ j < 0, Passable w.file head (headAt head j) := fun j hj => absurd hj (by omega)
  obtain ⟨heq, hheads⟩ := load_segments_contained c fd (s := s) hc
    (Nat.zero_add (e_phnum head)) hnone
  obtain ⟨heq', -⟩ := load_segments_contained c' fd (s := s) hc
    (Nat.zero_add (e_phnum head)) hnone
  rw [headAt_zero] at heq heq' hheads
  have hinside : ∀ ph ∈ (stateOf (load_segments w blind fd head (e_phnum head) (e_phoff head)
      s)).heads, Inside ph := fun ph hph => (hheads ph hph).resolve_left (by rw [hs]; simp)
  rcases hrun : load_segments w blind fd head (e_phnum head) (e_phoff head) s
    with ⟨r, s₁⟩ | ⟨e, s₁⟩ <;> rw [hrun] at heq heq' hinside
  · rw [Agree, bind_ok heq, bind_ok heq']
    refine ⟨rfl, fun ph hph => hinside ph ?_⟩
    rw [(hf r).heads] at hph
    exact hph
  · rw [Agree, bind_error heq, bind_error heq']
    exact ⟨rfl, hinside⟩

/-- What `spawn` does behind the loop over the headers. -/
theorem headless_after_load {child : Int} {eip esp : Word} (r : Int) :
    Headless (if r < 0 then do
      sys_env_destroy
      let _ ← close w fd
      pure r
    else start_child w c fd child eip esp) :=
  .ite (.bind ⟨fun _ => rfl⟩ fun _ => .bind (headless_close ..) fun _ => headless_pure _)
    (headless_start_child ..)

theorem spawn_child_agree {argv : List Str} (hc : Contained w.file head)
    (hshared : c.shared = c'.shared) (hs : s.heads = []) :
    Agree (spawn_child w c argv fd head) (spawn_child w c' argv fd head) s := by
  have hfork : Headless (sys_exofork w) :=
    .bind (headless_answer w) fun _ => .ite (headless_pure _) ⟨fun _ => rfl⟩
  refine hfork.agree_bind hs fun child s₁ _ hs₁ => ?_
  split
  · exact (headless_fail ..).agree hs₁
  refine (headless_init_stack w argv).agree_bind hs₁ fun rs s₂ _ hs₂ => ?_
  dsimp only
  split
  · exact (headless_fail ..).agree hs₂
  have hstart : start_child w c fd child (e_entry head) rs.2 =
      start_child w c' fd child (e_entry head) rs.2 := by
    rw [start_child, start_child, hshared]
  rw [hstart]
  exact load_segments_agree hc hs₂ headless_after_load

theorem headerOf_eq_some {res : Except Int (List Byte)} {bs : List Byte}
    (h : headerOf res = some bs) : res = .ok bs := by
  cases res with
  | error r => cases h
  | ok bs' =>
    rw [headerOf] at h
    split at h
    · cases h
    · cases h
      rfl

theorem open_file_offset {prog : Str} (h : open_file w prog s = .ok (.ok fd) s') :
    s'.fds fd = some 0 := by
  rw [open_file] at h
  split at h
  · cases h
  obtain ⟨_, _, ⟨⟩, h⟩ := bind_eq_ok h
  rcases hfind : (List.finRange MAXFD).find? fun i => (s.fds i).isNone with _ | i <;>
    rw [hfind] at h
  · cases h
  obtain ⟨ret, _, ⟨⟩, h⟩ := bind_eq_ok h
  split at h
  · cases h
  · cases h
    exact Function.update_self ..

theorem spawn_agree {prog : Str} {argv : List Str} {fds : Fin MAXFD → Option Word}
    (hfile : w.file.read 0 512 = .ok head) (hlen : head.length = 512)
    (hc : Contained w.file head) (hshared : c.shared = c'.shared) :
    Agree (spawn w c prog argv) (spawn w c' prog argv) (start fds) := by
  refine (headless_open_file w prog).agree_bind rfl fun res s₁ hopen hs₁ => ?_
  cases res with
  | error r => exact (headless_fail ..).agree hs₁
  | ok fd =>
    refine (headless_readn ..).agree_bind hs₁ fun res s₂ hread hs₂ => ?_
    rcases hhead : headerOf res with _ | bs
    · exact (Headless.bind (headless_close ..) fun _ => headless_fail ..).agree hs₂
    rw [headerOf_eq_some hhead] at hread
    obtain rfl := readn_header hfile hlen (open_file_offset hopen) hread
    exact spawn_child_agree hc hshared hs₂

/-- Headers that were looked at are not forgotten in what follows. -/
theorem mem_heads_bind {x : M α} {f : α → M β} {q : Word} (hf : ∀ a, Headless (f a))
    (h : q ∈ (stateOf (x s)).heads) : q ∈ (stateOf ((x >>= f) s)).heads := by
  rcases hrun : x s with ⟨a, s₁⟩ | ⟨e, s₁⟩ <;> rw [hrun] at h
  · rw [bind_ok hrun, (hf a).heads]
    exact h
  · rw [bind_error hrun]
    exact h

/-- `spawn` behind the loop over the headers. -/
def afterLoad (w : World) (c : Caller) (fd : Fin MAXFD) (eip esp : Word) (r : Int) : M Int :=
  if r < 0 then do
    sys_env_destroy
    let _ ← close w fd
    pure r
  else start_child w c fd 0 eip esp

/-- If nobody makes trouble, `spawn` comes to the loop over the headers. -/
theorem spawn_willing (c : Caller) (hw : ∀ i, w.answers i = 0)
    (hfile : w.file.read 0 512 = .ok head) (hlen : head.length = 512)
    (hmagic : e_magic head = ELF_MAGIC) :
    ∃ s₀ esp, s₀.heads = [] ∧ s₀.fds 0 = some 512 ∧
      spawn w c [] [] (start fun _ => none) =
        (load_segments w c 0 head (e_phnum head) (e_phoff head) >>=
          afterLoad w c 0 (e_entry head) esp) s₀ := by
  let s₁ : State := { start fun _ => none with
    fds := Function.update (fun _ => none) 0 (some 0)
    calls := 1 }
  let s₂ : State := { s₁.tick with fds := Function.update s₁.fds 0 (some (0 + BitVec.ofNat 32 512)) }
  let s₃ : State := { s₂.tick with child := some ⟨[], 0, 0, false⟩ }
  have hopen : open_file w [] (start fun _ => none) = .ok (.ok 0) s₁ := by
    have hfind : (List.finRange MAXFD).find? (fun i => ((start fun _ => none).fds i).isNone) =
        some 0 := by decide
    have hanswer : answer w (start fun _ => none) = .ok 0 (start fun _ => none).tick := by
      rw [answer, hw]
      rfl
    rw [open_file, if_neg (by decide), bind_ok stateful.get_run, hfind]
    dsimp only
    rw [bind_ok hanswer]
    rfl
  have hread : readn w 0 512 512 s₁ = .ok (.ok head) s₂ :=
    readn_whole 0 (k := 511) (s := s₁) rfl (hw _).ge hfile hlen (by decide)
  have hheader : headerOf (.ok head) = some head := by
    rw [headerOf, if_neg]
    rintro (h | h)
    · exact h hlen
    · exact h hmagic
  have hfork : sys_exofork w s₂ = .ok 0 s₃ := by
    have hanswer : answer w s₂ = .ok 0 s₂.tick := by rw [answer, hw]; rfl
    rw [sys_exofork, bind_ok hanswer]
    rfl
  obtain ⟨esp, page, -, hmap⟩ := map_stack_spec (w := w)
    (s := { s₃.tick with utemp := some fun _ => 0 }) (show Fits [] by decide) rfl rfl
  rw [if_neg (by rw [hw]; exact lt_irrefl _), ← init_stack_zero (by decide) (hw _)] at hmap
  refine ⟨{ s₃ with
    utemp := none
    calls := s₃.calls + 2
    child := some ⟨[⟨USTACKTOP - 0x1000, STACKPERM, page⟩], 0, 0, false⟩ }, esp, rfl, rfl, ?_⟩
  rw [spawn, bind_ok hopen]
  dsimp only
  rw [bind_ok hread, hheader]
  dsimp only
  rw [spawn_child, bind_ok hfork, if_neg (lt_irrefl _), bind_ok hmap]
  rfl

/-- Then it comes to every header that it may come to. -/
theorem spawn_reaches (hw : ∀ i, w.answers i = 0) (hfile : w.file.read 0 512 = .ok head)
    (hlen : head.length = 512) (hmagic : e_magic head = ELF_MAGIC) {k : Nat}
    (hk : k < e_phnum head) (hpass : ∀ j < k, Passable w.file head (headAt head j)) :
    headAt head k ∈ (stateOf (spawn w blind [] [] (start fun _ => none))).heads := by
  obtain ⟨s₀, esp, -, hopen, hrun⟩ := spawn_willing blind hw hfile hlen hmagic
  rw [hrun, ← headAt_zero]
  exact mem_heads_bind headless_after_load
    (load_segments_reaches hw hopen (Nat.zero_le k) (by omega) hpass)

end jos.program
