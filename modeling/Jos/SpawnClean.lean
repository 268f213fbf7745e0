-- What a failing `spawn` leaves behind. Up to the loop over the headers it
-- returns at once when a step fails, and does not close the file or destroy the
-- child. In the loop it does both, but `map_segment` may leave its page at
-- `UTEMP`.
import Jos.SpawnStack

namespace jos.program

open blockstore (Mem)
open descriptor (MAXFD)
open stateful (bind_ok bind_eq_ok)

variable {w : World} {fds : Fin MAXFD → Option Word} {fd : Fin MAXFD} {s s' : State} {r : Int}

/-! ## Calls -/

/-- The program file is open at `fd`, where nothing was before, and nothing has
failed. -/
structure Opened (fds : Fin MAXFD → Option Word) (fd : Fin MAXFD) (s : State) : Prop where
  closed : fds fd = none
  fds : ∃ offset, s.fds = Function.update fds fd (some offset)
  utemp : s.utemp = none
  failed : s.failed = none

theorem Opened.offset (h : Opened fds fd s) : ∃ offset, s.fds fd = some offset := by
  obtain ⟨offset, hfds⟩ := h.fds
  exact ⟨offset, by rw [hfds, Function.update_self]⟩

/-- A call that changes at most the offset of the open file, and the page at `UTEMP`
only in its bytes. -/
structure Moved (fd : Fin MAXFD) (s s' : State) : Prop where
  fds : ∃ offset, s'.fds = Function.update s.fds fd (some offset)
  utemp : s'.utemp.isSome = s.utemp.isSome
  child : s'.child.isSome = s.child.isSome
  failed : s'.failed = s.failed

theorem Moved.refl {offset : Word} (h : s.fds fd = some offset) : Moved fd s s :=
  ⟨⟨offset, by rw [← h, Function.update_eq_self]⟩, rfl, rfl, rfl⟩

theorem Moved.trans {s'' : State} (h : Moved fd s s') (h' : Moved fd s' s'') : Moved fd s s'' := by
  obtain ⟨o, ho⟩ := h.fds
  obtain ⟨o', ho'⟩ := h'.fds
  exact ⟨⟨o', by rw [ho', ho, Function.update_idem]⟩, h'.utemp.trans h.utemp,
    h'.child.trans h.child, h'.failed.trans h.failed⟩

theorem Moved.offset (h : Moved fd s s') : ∃ offset, s'.fds fd = some offset := by
  obtain ⟨offset, hfds⟩ := h.fds
  exact ⟨offset, by rw [hfds, Function.update_self]⟩

theorem read_moved {n : Nat} {res : Except Int (List Byte)} {offset : Word}
    (hopen : s.fds fd = some offset) (h : read w fd n s = .ok res s') :
    Moved fd s s' ∧ ∀ r, res = .error r → r < 0 := by
  obtain ⟨_, _, ⟨⟩, h⟩ := bind_eq_ok h
  rw [hopen] at h
  obtain ⟨ret, _, ⟨⟩, h⟩ := bind_eq_ok h
  split at h
  · cases h
    exact ⟨⟨⟨offset, by rw [← hopen, Function.update_eq_self]⟩, rfl, rfl, rfl⟩,
      by rintro r ⟨⟩; assumption⟩
  · rcases hread : w.file.read offset n with r | bs
    · rw [hread] at h
      cases h
      exact ⟨⟨⟨offset, by rw [← hopen, Function.update_eq_self]⟩, rfl, rfl, rfl⟩,
        by rintro r ⟨⟩; exact w.file.neg _ _ _ hread⟩
    · rw [hread] at h
      cases h
      exact ⟨⟨⟨_, rfl⟩, rfl, rfl, rfl⟩, by rintro r ⟨⟩⟩

theorem readn_moved {k n : Nat} {res : Except Int (List Byte)} {offset : Word}
    (hopen : s.fds fd = some offset) (h : readn w fd k n s = .ok res s') :
    Moved fd s s' ∧ ∀ r, res = .error r → r < 0 := by
  induction k generalizing n s s' res offset with
  | zero =>
    cases h
    exact ⟨.refl hopen, by rintro r ⟨⟩⟩
  | succ k ih =>
    rw [readn] at h
    split at h
    · cases h
      exact ⟨.refl hopen, by rintro r ⟨⟩⟩
    · obtain ⟨first, s₁, hread, h⟩ := bind_eq_ok h
      obtain ⟨hmoved, hneg⟩ := read_moved hopen hread
      split at h
      · cases h
        exact ⟨hmoved, by rintro r ⟨⟩; exact hneg _ rfl⟩
      · split at h
        · cases h
          exact ⟨hmoved, by rintro r ⟨⟩⟩
        · obtain ⟨rest, s₂, hrest, h⟩ := bind_eq_ok h
          obtain ⟨o, ho⟩ := hmoved.offset
          obtain ⟨hmoved', hneg'⟩ := ih ho hrest
          split at h
          · cases h
            exact ⟨hmoved.trans hmoved', by rintro r ⟨⟩; exact hneg' _ rfl⟩
          · cases h
            exact ⟨hmoved.trans hmoved', by rintro r ⟨⟩⟩

theorem read_ok {n : Nat} {bs : List Byte} {offset : Word} (hopen : s.fds fd = some offset)
    (hanswer : 0 ≤ w.answers s.calls) (hread : w.file.read offset n = .ok bs) :
    read w fd n s = .ok (.ok bs) { s.tick with
      fds := Function.update s.fds fd (some (offset + BitVec.ofNat 32 bs.length)) } := by
  have hret : answer w s = .ok (w.answers s.calls) s.tick := rfl
  rw [read, bind_ok stateful.get_run, hopen]
  dsimp only
  rw [bind_ok hret, if_neg (not_lt.mpr hanswer), hread]
  rfl

/-- A file that gives all bytes at once. -/
theorem readn_whole (fd : Fin MAXFD) {k n : Nat} {bs : List Byte} {offset : Word}
    (hopen : s.fds fd = some offset) (hanswer : 0 ≤ w.answers s.calls)
    (hread : w.file.read offset n = .ok bs) (hlen : bs.length = n) (hn : 0 < n) :
    readn w fd (k + 1) n s = .ok (.ok bs)
      { s.tick with fds := Function.update s.fds fd (some (offset + BitVec.ofNat 32 n)) } := by
  have hfirst := read_ok hopen hanswer hread
  have hrest : ∀ s₁, readn w fd k (n - bs.length) s₁ = .ok (.ok []) s₁ := by
    intro s₁
    rw [hlen, Nat.sub_self]
    cases k <;> rfl
  have hne : bs ≠ [] := by
    rintro rfl
    rw [List.length_nil] at hlen
    omega
  rw [readn, if_neg (by omega), bind_ok hfirst]
  dsimp only
  rw [if_neg hne, bind_ok (hrest _)]
  dsimp only
  rw [List.append_nil, hlen]
  rfl

theorem close_run {offset : Word} (hopen : s.fds fd = some offset) (h : close w fd s = .ok r s') :
    s'.fds = Function.update s.fds fd none ∧ s'.utemp = s.utemp ∧ s'.child = s.child ∧
      s'.failed = s.failed := by
  obtain ⟨_, _, ⟨⟩, h⟩ := bind_eq_ok h
  rw [hopen] at h
  obtain ⟨ret, _, ⟨⟩, h⟩ := bind_eq_ok h
  cases h
  exact ⟨rfl, rfl, rfl, rfl⟩

theorem checked_eq_ok {num : Nat} {ret : Int} (h : checked num ret s = .ok r s') :
    r = ret ∧ r ≤ 0 ∧ s' = s := by
  rcases lt_or_ge 0 ret with hpos | hle
  · obtain ⟨msg, hmsg⟩ := checked_of_pos (s := s) num hpos
    rw [hmsg] at h
    cases h
  · rw [checked_of_le hle] at h
    cases h
    exact ⟨rfl, hle, rfl⟩

theorem sys_page_alloc_temp_run (h : sys_page_alloc_temp w s = .ok r s') :
    (r < 0 ∧ s' = s.tick) ∨ (r = 0 ∧ s' = { s.tick with utemp := some fun _ => 0 }) := by
  obtain ⟨_, _, ⟨⟩, h⟩ := bind_eq_ok h
  obtain ⟨_, _, hchecked, h⟩ := bind_eq_ok h
  obtain ⟨rfl, -, rfl⟩ := checked_eq_ok hchecked
  split at h
  · cases h
    exact .inl ⟨‹_›, rfl⟩
  · cases h
    exact .inr ⟨rfl, rfl⟩

theorem sys_page_alloc_run {va perm : Word} (h : sys_page_alloc w va perm s = .ok r s') :
    ∃ child, s' = { s.tick with child := child } := by
  obtain ⟨_, _, ⟨⟩, h⟩ := bind_eq_ok h
  obtain ⟨_, _, hchecked, h⟩ := bind_eq_ok h
  obtain ⟨-, -, rfl⟩ := checked_eq_ok hchecked
  split at h
  · cases h
    exact ⟨s.child, rfl⟩
  · cases h
    exact ⟨_, rfl⟩

theorem map_page_run {va perm : Word} {ret : Int} {found : Option Mem}
    (h : map_page va perm ret found s = .ok r s') :
    ∃ child, s' = { s with child := child } ∧ child.isSome = s.child.isSome := by
  cases found with
  | none =>
    cases h
    exact ⟨s.child, rfl, rfl⟩
  | some page =>
    rw [map_page] at h
    split at h
    · cases h
      exact ⟨s.child, rfl, rfl⟩
    split at h
    · cases h
      exact ⟨s.child, rfl, rfl⟩
    · cases h
      exact ⟨_, rfl, Option.isSome_map ..⟩

theorem sys_page_map_run {va perm : Word} (h : sys_page_map w va perm s = .ok r s') :
    ∃ child, s' = { s.tick with child := child } ∧ child.isSome = s.child.isSome := by
  obtain ⟨_, _, ⟨⟩, h⟩ := bind_eq_ok h
  obtain ⟨_, _, ⟨⟩, h⟩ := bind_eq_ok h
  exact map_page_run h

theorem seek_run {offset o : Word} (hopen : s.fds fd = some offset) (h : seek fd o s = .ok r s') :
    r = 0 ∧ s' = { s with fds := Function.update s.fds fd (some o) } := by
  obtain ⟨_, _, ⟨⟩, h⟩ := bind_eq_ok h
  rw [hopen] at h
  cases h
  exact ⟨rfl, rfl⟩

theorem readn_temp_moved {n : Nat} {offset : Word} (hopen : s.fds fd = some offset)
    (h : readn_temp w fd n s = .ok r s') : Moved fd s s' := by
  obtain ⟨res, s₁, hread, h⟩ := bind_eq_ok h
  obtain ⟨hmoved, -⟩ := readn_moved hopen hread
  split at h
  · cases h
    exact hmoved
  · cases h
    exact ⟨hmoved.fds, (Option.isSome_map ..).trans hmoved.utemp, hmoved.child, hmoved.failed⟩

/-! ## Segments -/

/-- A segment could not be loaded. -/
structure Stopped (fds : Fin MAXFD → Option Word) (fd : Fin MAXFD) (s : State) : Prop where
  closed : fds fd = none
  fds : ∃ offset, s.fds = Function.update fds fd (some offset)
  point : (s.failed = some .alloc ∧ s.utemp = none) ∨
    (s.failed = some .file ∧ s.utemp.isSome = true)

/-- The loop goes on, or a call has failed. -/
def Loads (fds : Fin MAXFD → Option Word) (fd : Fin MAXFD) (r : Int) (s : State) : Prop :=
  (r = 0 ∧ Opened fds fd s) ∨ (r < 0 ∧ Stopped fds fd s)

theorem fail_eq_ok {p : Point} {r₀ : Int} (h : fail p r₀ s = .ok r s') :
    r = r₀ ∧ s' = { s with failed := some p } := by
  cases h
  exact ⟨rfl, rfl⟩

theorem map_pages_run {va memsz filesz fileoffset perm : Word} {n : Nat} {i : Word}
    (ho : Opened fds fd s)
    (h : map_pages w fd va memsz filesz fileoffset perm n i s = .ok r s') :
    Loads fds fd r s' := by
  induction n generalizing s i with
  | zero => cases h
  | succ n ih =>
    rw [map_pages] at h
    split at h
    · cases h
      exact .inl ⟨rfl, ho⟩
    split at h
    · -- a blank page
      obtain ⟨r₁, s₁, halloc, h⟩ := bind_eq_ok h
      obtain ⟨child, rfl⟩ := sys_page_alloc_run halloc
      split at h
      · obtain ⟨rfl, rfl⟩ := fail_eq_ok h
        exact .inr ⟨‹_›, ho.closed, ho.fds, .inl ⟨rfl, ho.utemp⟩⟩
      · have ho' : Opened fds fd { s.tick with child := child } :=
          ⟨ho.closed, ho.fds, ho.utemp, ho.failed⟩
        exact ih ho' h
    · -- a page from the file
      obtain ⟨r₁, s₁, halloc, h⟩ := bind_eq_ok h
      rcases sys_page_alloc_temp_run halloc with ⟨hneg, rfl⟩ | ⟨rfl, rfl⟩
      · rw [if_pos hneg] at h
        obtain ⟨rfl, rfl⟩ := fail_eq_ok h
        exact .inr ⟨hneg, ho.closed, ho.fds, .inl ⟨rfl, ho.utemp⟩⟩
      rw [if_neg (lt_irrefl _)] at h
      obtain ⟨offset, hoff⟩ := ho.offset
      obtain ⟨r₂, s₂, hseek, h⟩ := bind_eq_ok h
      obtain ⟨rfl, rfl⟩ := seek_run (s := { s.tick with utemp := some fun _ => 0 }) hoff hseek
      rw [if_neg (lt_irrefl _)] at h
      obtain ⟨r₃, s₃, hread, h⟩ := bind_eq_ok h
      have hmoved := readn_temp_moved (Function.update_self ..) hread
      have hfds : ∃ offset, s₃.fds = Function.update fds fd (some offset) := by
        obtain ⟨o₁, h₁⟩ := ho.fds
        obtain ⟨o₃, h₃⟩ := hmoved.fds
        refine ⟨o₃, ?_⟩
        rw [h₃]
        show Function.update (Function.update s.fds fd _) fd _ = _
        rw [h₁, Function.update_idem, Function.update_idem]
      split at h
      · obtain ⟨rfl, rfl⟩ := fail_eq_ok h
        exact .inr ⟨‹_›, ho.closed, hfds, .inr ⟨rfl, hmoved.utemp⟩⟩
      obtain ⟨r₄, s₄, hmap, h⟩ := bind_eq_ok h
      obtain ⟨child, rfl, -⟩ := sys_page_map_run hmap
      split at h
      · cases h
      obtain ⟨_, _, ⟨⟩, h⟩ := bind_eq_ok h
      have ho' : Opened fds fd { s₃.tick with child := child, utemp := none } :=
        ⟨ho.closed, hfds, rfl, hmoved.failed.trans ho.failed⟩
      exact ih ho' h

theorem load_segments_run {c : Caller} {head : List Byte} {n : Nat} {ph : Word}
    (ho : Opened fds fd s) (h : load_segments w c fd head n ph s = .ok r s') :
    Loads fds fd r s' := by
  induction n generalizing s ph with
  | zero =>
    cases h
    exact .inl ⟨rfl, ho⟩
  | succ n ih =>
    obtain ⟨_, _, ⟨⟩, h⟩ := bind_eq_ok h
    have ho' : Opened fds fd { s with heads := s.heads ++ [ph] } :=
      ⟨ho.closed, ho.fds, ho.utemp, ho.failed⟩
    rcases htype : c.word head ph with _ | p_type <;> rw [htype] at h
    · cases h
    dsimp only at h
    split at h
    · exact ih ho' h
    rcases hp : c.proghdr head ph p_type with _ | p <;> rw [hp] at h
    · cases h
    obtain ⟨r₁, s₁, hsegment, h⟩ := bind_eq_ok h
    rcases map_pages_run ho' hsegment with ⟨rfl, ho₁⟩ | ⟨hneg, hs₁⟩
    · rw [if_neg (lt_irrefl _)] at h
      exact ih ho₁ h
    · rw [if_pos hneg] at h
      cases h
      exact .inr ⟨hneg, hs₁⟩

/-! ## The stack -/

theorem fill_temp_run {argv : List Str} {string_store argv_store : Word}
    (h : fill_temp argv string_store argv_store s = .ok ⟨⟩ s') :
    ∃ page, s' = { s with utemp := some page } := by
  obtain ⟨_, _, ⟨⟩, h⟩ := bind_eq_ok h
  rcases hpage : s.utemp with _ | page <;> rw [hpage] at h
  · cases h
  · rcases hfill : fill_stack argv string_store argv_store page with e | page' <;>
      dsimp only at h <;> rw [hfill] at h
    · cases h
    · cases h
      exact ⟨page', rfl⟩

theorem init_stack_run {argv : List Str} {esp : Word} (htemp : s.utemp = none)
    (h : init_stack w argv s = .ok (r, esp) s') :
    s'.fds = s.fds ∧ s'.utemp = none ∧ s'.failed = s.failed ∧
      s'.child.isSome = s.child.isSome := by
  rw [init_stack] at h
  split at h
  · cases h
    exact ⟨rfl, htemp, rfl, rfl⟩
  obtain ⟨r₁, s₁, halloc, h⟩ := bind_eq_ok h
  rcases sys_page_alloc_temp_run halloc with ⟨hneg, rfl⟩ | ⟨rfl, rfl⟩
  · rw [if_pos hneg] at h
    cases h
    exact ⟨rfl, htemp, rfl, rfl⟩
  rw [if_neg (lt_irrefl _)] at h
  obtain ⟨_, s₂, hfill, h⟩ := bind_eq_ok h
  obtain ⟨page, rfl⟩ := fill_temp_run hfill
  obtain ⟨r₃, s₃, hmap, h⟩ := bind_eq_ok h
  obtain ⟨child, rfl, hchild⟩ := sys_page_map_run hmap
  obtain ⟨_, _, ⟨⟩, h⟩ := bind_eq_ok h
  cases h
  exact ⟨rfl, rfl, rfl, hchild⟩

/-! ## The call -/

/-- Nothing of the call is left. -/
structure Clean (fds : Fin MAXFD → Option Word) (s : State) : Prop where
  fds : s.fds = fds
  utemp : s.utemp = none
  child : s.child = none

/-- Where a call has failed, and whether it has cleaned up. -/
inductive Failed (fds : Fin MAXFD → Option Word) (s : State) : Prop
  | opening (hat : s.failed = some .opening) (hclean : Clean fds s)
  | header (hat : s.failed = some .header) (hclean : Clean fds s)
  | exofork (hat : s.failed = some .exofork) (hleft : s.fds ≠ fds)
  | stack (hat : s.failed = some .stack) (hleft : s.child.isSome = true)
  | alloc (hat : s.failed = some .alloc) (hclean : Clean fds s)
  | file (hat : s.failed = some .file) (hleft : s.utemp.isSome = true)

/-- The file is closed. -/
theorem close_fds {fds₀ : Fin MAXFD → Option Word} (hclosed : fds fd = none)
    (h : ∃ offset, fds₀ = Function.update fds fd (some offset)) :
    Function.update fds₀ fd none = fds := by
  obtain ⟨offset, rfl⟩ := h
  rw [Function.update_idem, ← hclosed, Function.update_eq_self]

theorem Opened.fds_ne (h : Opened fds fd s) : s.fds ≠ fds := by
  obtain ⟨offset, hoff⟩ := h.offset
  intro heq
  rw [heq, h.closed] at hoff
  cases hoff

theorem start_child_run {c : Caller} {child : Int} {eip esp : Word}
    (h : start_child w c fd child eip esp s = .ok r s') : r = child := by
  obtain ⟨_, _, -, h⟩ := bind_eq_ok h
  obtain ⟨_, _, -, h⟩ := bind_eq_ok h
  obtain ⟨_, _, -, h⟩ := bind_eq_ok h
  obtain ⟨_, _, -, h⟩ := bind_eq_ok h
  cases h
  rfl

theorem spawn_child_run {c : Caller} {argv : List Str} {head : List Byte} (ho : Opened fds fd s)
    (h : spawn_child w c argv fd head s = .ok r s') (hr : r < 0) : Failed fds s' := by
  obtain ⟨child, s₁, hfork, h⟩ := bind_eq_ok h
  obtain ⟨ret, _, ⟨⟩, hfork⟩ := bind_eq_ok hfork
  split at hfork
  · cases hfork
    rw [if_pos ‹_›] at h
    obtain ⟨rfl, rfl⟩ := fail_eq_ok h
    exact .exofork rfl ho.fds_ne
  · cases hfork
    rw [if_neg ‹_›] at h
    obtain ⟨⟨r₂, esp⟩, s₂, hstack, h⟩ := bind_eq_ok h
    obtain ⟨hfds, hutemp, hfailed, hchild⟩ := init_stack_run (by exact ho.utemp) hstack
    dsimp only at h
    split at h
    · obtain ⟨rfl, rfl⟩ := fail_eq_ok h
      exact .stack rfl hchild
    have ho₂ : Opened fds fd s₂ :=
      ⟨ho.closed, by rw [hfds]; exact ho.fds, hutemp, hfailed.trans ho.failed⟩
    obtain ⟨r₃, s₃, hload, h⟩ := bind_eq_ok h
    rcases load_segments_run ho₂ hload with ⟨rfl, ho₃⟩ | ⟨hneg, hstop⟩
    · rw [if_neg (lt_irrefl _)] at h
      rw [start_child_run h] at hr
      exact absurd hr ‹_›
    · rw [if_pos hneg] at h
      obtain ⟨_, _, ⟨⟩, h⟩ := bind_eq_ok h
      obtain ⟨r₄, s₄, hclose, h⟩ := bind_eq_ok h
      cases h
      obtain ⟨offset, hoff⟩ := hstop.fds
      have hopen : s₃.fds fd = some offset := by rw [hoff, Function.update_self]
      obtain ⟨hfds₄, hutemp₄, hchild₄, hfailed₄⟩ := close_run
        (s := { s₃ with child := none }) hopen hclose
      rcases hstop.point with ⟨hat, htemp⟩ | ⟨hat, htemp⟩
      · exact .alloc (hfailed₄.trans hat) ⟨hfds₄.trans (close_fds hstop.closed hstop.fds),
          hutemp₄.trans htemp, hchild₄⟩
      · exact .file (hfailed₄.trans hat) (by rw [hutemp₄]; exact htemp)

/-- The caller when it calls `spawn`. Its page at `UTEMP` is for temporary mappings, and there is
none. -/
def start (fds : Fin MAXFD → Option Word) : State := ⟨fds, none, none, 0, [], none⟩

theorem open_file_run {prog : Str} {res : Except Int (Fin MAXFD)} (htemp : s.utemp = none)
    (hfailed : s.failed = none) (h : open_file w prog s = .ok res s') :
    s'.utemp = none ∧ s'.child = s.child ∧ (∀ r, res = .error r → s'.fds = s.fds) ∧
      ∀ fd, res = .ok fd → Opened s.fds fd s' := by
  rw [open_file] at h
  split at h
  · cases h
    exact ⟨htemp, rfl, fun _ _ => rfl, by rintro fd ⟨⟩⟩
  obtain ⟨_, _, ⟨⟩, h⟩ := bind_eq_ok h
  rcases hfind : (List.finRange MAXFD).find? fun i => (s.fds i).isNone with _ | fd <;>
    rw [hfind] at h
  · cases h
    exact ⟨htemp, rfl, fun _ _ => rfl, by rintro fd ⟨⟩⟩
  obtain ⟨ret, _, ⟨⟩, h⟩ := bind_eq_ok h
  split at h
  · cases h
    exact ⟨htemp, rfl, fun _ _ => rfl, by rintro fd ⟨⟩⟩
  · cases h
    refine ⟨htemp, rfl, by rintro r ⟨⟩, ?_⟩
    rintro _ ⟨⟩
    have hnone := List.find?_some (p := fun i => (s.fds i).isNone) hfind
    exact ⟨Option.isNone_iff_eq_none.mp hnone, ⟨0, rfl⟩, htemp, hfailed⟩

theorem spawn_failed {c : Caller} {prog : Str} {argv : List Str}
    (h : spawn w c prog argv (start fds) = .ok r s') (hr : r < 0) : Failed fds s' := by
  obtain ⟨res, s₁, hopen, h⟩ := bind_eq_ok h
  obtain ⟨htemp, hchild, herror, hok⟩ := open_file_run rfl rfl hopen
  cases res with
  | error r₁ =>
    obtain ⟨rfl, rfl⟩ := fail_eq_ok h
    exact .opening rfl ⟨herror _ rfl, htemp, hchild⟩
  | ok fd =>
    have ho := hok fd rfl
    obtain ⟨head, s₂, hread, h⟩ := bind_eq_ok h
    obtain ⟨offset, hoff⟩ := ho.offset
    obtain ⟨hmoved, -⟩ := readn_moved hoff hread
    have ho₂ : Opened fds fd s₂ := by
      obtain ⟨o₁, h₁⟩ := ho.fds
      obtain ⟨o₂, h₂⟩ := hmoved.fds
      refine ⟨ho.closed, ⟨o₂, ?_⟩, ?_, hmoved.failed.trans ho.failed⟩
      · rw [h₂, h₁, Function.update_idem]
        rfl
      · rw [← Option.isNone_iff_eq_none, ← Option.not_isSome, hmoved.utemp, htemp]
        rfl
    have hchild₂ : s₂.child = none := by
      rw [← Option.isNone_iff_eq_none, ← Option.not_isSome, hmoved.child, hchild]
      rfl
    rcases hhead : headerOf head with _ | bs <;> rw [hhead] at h
    · obtain ⟨r₃, s₃, hclose, h⟩ := bind_eq_ok h
      obtain ⟨o₂, h₂⟩ := ho₂.offset
      obtain ⟨hfds₃, hutemp₃, hchild₃, -⟩ := close_run h₂ hclose
      obtain ⟨rfl, rfl⟩ := fail_eq_ok h
      exact .header rfl ⟨hfds₃.trans (close_fds ho₂.closed ho₂.fds), hutemp₃.trans ho₂.utemp,
        hchild₃.trans hchild₂⟩
    · exact spawn_child_run ho₂ h hr

/-- A `spawn` that returns an error has cleaned up, exactly if it has failed in
opening the file, in the check of its header, or in allocating a page of a
segment. -/
theorem failing_spawn_cleans_up {c : Caller} {prog : Str} {argv : List Str}
    (h : spawn w c prog argv (start fds) = .ok r s') (hr : r < 0) :
    Clean fds s' ↔ s'.failed ∈ [some .opening, some .header, some .alloc] := by
  cases spawn_failed h hr with
  | opening hat hclean => exact iff_of_true hclean (by rw [hat]; decide)
  | header hat hclean => exact iff_of_true hclean (by rw [hat]; decide)
  | exofork hat hleft => exact iff_of_false (fun hclean => hleft hclean.fds) (by rw [hat]; decide)
  | stack hat hleft =>
    refine iff_of_false (fun hclean => ?_) (by rw [hat]; decide)
    rw [hclean.child] at hleft
    cases hleft
  | alloc hat hclean => exact iff_of_true hclean (by rw [hat]; decide)
  | file hat hleft =>
    refine iff_of_false (fun hclean => ?_) (by rw [hat]; decide)
    rw [hclean.utemp] at hleft
    cases hleft

/-- The file is not there. -/
theorem failing_spawn_cleans_up_missing :
    ∃ s', spawn (always (-11)) ⟨0, fun _ => none, []⟩ [97] [] (start fun _ => none) = .ok (-11) s' ∧
      Clean (fun _ => none) s' :=
  ⟨_, rfl, (failing_spawn_cleans_up (show spawn (always (-11)) ⟨0, fun _ => none, []⟩ [97] []
    (start fun _ => none) = .ok (-11) _ from rfl) (by decide)).mpr (by decide)⟩

/-- An ELF header with zeros behind it. -/
def elfHeader (phoff : Word) (phnum : Byte) : List Byte :=
  [0x7F, 0x45, 0x4C, 0x46] ++ List.replicate 24 0 ++ ia32.bytes phoff ++ List.replicate 12 0 ++
    [phnum] ++ List.replicate 467 0

theorem length_elfHeader (phoff : Word) (phnum : Byte) : (elfHeader phoff phnum).length = 512 := by
  have hword : (ia32.bytes phoff).length = 4 := rfl
  simp only [elfHeader, List.length_append, List.length_replicate, hword, List.length_cons,
    List.length_nil]

theorem e_magic_elfHeader (phoff : Word) (phnum : Byte) :
    e_magic (elfHeader phoff phnum) = ELF_MAGIC := by
  show ia32.join 0x7F 0x45 0x4C 0x46 = ELF_MAGIC
  decide

theorem headerOf_elfHeader (phoff : Word) (phnum : Byte) :
    headerOf (.ok (elfHeader phoff phnum)) = some (elfHeader phoff phnum) := by
  rw [headerOf, if_neg]
  rintro (h | h)
  · exact h (length_elfHeader phoff phnum)
  · exact h (e_magic_elfHeader phoff phnum)

/-- A file with these bytes. -/
def fileOf (bytes : List Byte) : File where
  read offset n := .ok ((bytes.drop offset.toNat).take n)
  length_le := by
    rintro _ n _ ⟨⟩
    exact List.length_take_le ..
  neg := by rintro _ _ _ ⟨⟩

theorem fileOf_elfHeader (phoff : Word) (phnum : Byte) :
    (fileOf (elfHeader phoff phnum)).read 0 512 = .ok (elfHeader phoff phnum) :=
  congrArg Except.ok (List.take_of_length_le (length_elfHeader phoff phnum).le)

/-- All environments are in use. -/
def noEnvs : World :=
  ⟨fun n => if n = 2 then -E_NO_FREE_ENV else 0, fileOf (elfHeader 0 0)⟩

/-- The program file stays open. -/
theorem failing_spawn_leaves_file_open :
    ∃ s', spawn noEnvs ⟨0, fun _ => none, []⟩ [97] [] (start fun _ => none) =
        .ok (-E_NO_FREE_ENV) s' ∧ s'.fds 0 = some 512 ∧ ¬ Clean (fun _ => none) s' := by
  have hopen : open_file noEnvs [97] (start fun _ => none) = .ok (.ok 0)
      { start fun _ => none with
        fds := Function.update (fun _ => none) 0 (some 0)
        calls := 1 } := rfl
  have hread := readn_whole 0 (w := noEnvs) (k := 511) (s := { start fun _ => none with
    fds := Function.update (fun _ => none) 0 (some 0)
    calls := 1 }) rfl le_rfl (fileOf_elfHeader 0 0) (length_elfHeader 0 0) (by decide)
  have hrun : spawn noEnvs ⟨0, fun _ => none, []⟩ [97] [] (start fun _ => none) =
      .ok (-E_NO_FREE_ENV)
        ⟨Function.update (Function.update (fun _ => none) 0 (some 0)) 0 (some 512), none, none, 3, [],
          some .exofork⟩ := by
    rw [spawn, bind_ok hopen]
    dsimp only
    rw [bind_ok hread, headerOf_elfHeader]
    rfl
  refine ⟨_, hrun, rfl, fun hclean => ?_⟩
  have hfds := congrFun hclean.fds 0
  cases hfds

end jos.program
