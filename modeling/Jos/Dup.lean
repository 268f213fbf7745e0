-- Duplicate descriptors (`dup` of `lib/fd.c`). Descriptor `i` has a page for its
-- `struct Fd` and one for its data, in two arrays of pages one behind the other.
-- `dup` computes addresses in them from numbers that it does not check.
import Jos.Descriptors
import Jos.Mmu

namespace jos.fdtable

open descriptor (MAXFD)

/-! ## The descriptor area -/

def FDTABLE : Word := 0xD0000000
def FILEDATA : Word := FDTABLE + BitVec.ofNat 32 MAXFD * 0x1000

def INDEX2FD (i : Word) : Word := FDTABLE + i * 0x1000

def INDEX2DATA (i : Word) : Word := FILEDATA + i * 0x1000

def fd2num (fd : Word) : Word := (fd - FDTABLE) / 0x1000

def fd2data (fd : Word) : Word := INDEX2DATA (fd2num fd)

/-- A page of memory and the bits of its entry in `PTE_SYSCALL`. -/
structure Mapping where
  page : Nat
  perm : Word
deriving DecidableEq

/-- The pages that an environment has mapped, by address, and the `fd_dev_id` in each
page of memory. The Fd pages that were closed are not in memory. -/
structure Env where
  pages : Word → Option Mapping
  dev : Nat → Word
  closed : List Nat

def Env.set (m : Env) (va : Word) (o : Option Mapping) : Env :=
  { m with pages := Function.update m.pages va o }

/-! ## Calls -/

def sys_page_unmap (m : Env) (va : Word) : Env := if UTOP ≤ va then m else m.set va none

/-- `sys_page_map(0, srcva, 0, dstva, perm)` with the permissions that the page has at
`srcva`. `room` says whether there is memory for a page table. -/
def sys_page_map (m : Env) (room : Bool) (srcva dstva : Word) : Int × Env :=
  if UTOP ≤ srcva ∨ UTOP ≤ dstva then (-E_INVAL, m)
  else match m.pages srcva with
    | none => (-E_INVAL, m)
    | some p => if room then (0, m.set dstva (some p)) else (-E_NO_MEM, m)

def fd_lookup (m : Env) (fdnum : Word) : Except Int Word :=
  if fdnum.toInt < 0 ∨ (MAXFD : Int) ≤ fdnum.toInt then .error (-E_INVAL)
  else if m.pages (INDEX2FD fdnum) = none then .error (-E_INVAL)
  else .ok (INDEX2FD fdnum)

/-- The device number `'p'`. -/
def devpipe : Word := 0x70

/-- `(*dev->dev_close)(fd)`. A file is flushed and the console does nothing, nor does
an unknown device. `devpipe_close` unmaps the two pages. -/
def dev_close (m : Env) (dev_id fd : Word) : Env :=
  if dev_id = devpipe then sys_page_unmap (sys_page_unmap m fd) (fd2data fd) else m

/-- `fd_close(fd, 1)` for a descriptor that is open, with its page. -/
def fd_close (m : Env) (fd : Word) (p : Mapping) : Env :=
  let m' := sys_page_unmap (dev_close m (m.dev p.page) fd) fd
  { m' with closed := p.page :: m'.closed }

/-- `close(fdnum)`, of which `dup` does not use the result. -/
def close (m : Env) (fdnum : Word) : Env :=
  match fd_lookup m fdnum with
  | .error _ => m
  | .ok fd => (m.pages fd).elim m (fd_close m fd)

/-- The label `err` of `dup`. -/
def undo (m : Env) (newfd nva : Word) : Env := sys_page_unmap (sys_page_unmap m newfd) nva

/-- The Fd page is mapped. -/
def dup_fd (m : Env) (room : Bool) (newfdnum oldfd newfd nva : Word) : Int × Env :=
  match sys_page_map m room oldfd newfd with
  | (r, m) => if r < 0 then (r, undo m newfd nva) else (newfdnum.toInt, m)

/-- The data page is mapped if there is one, then the Fd page. -/
def dup_pages (m : Env) (roomData roomFd : Bool) (newfdnum oldfd newfd ova nva : Word) :
    Int × Env :=
  if m.pages ova = none then dup_fd m roomFd newfdnum oldfd newfd nva
  else match sys_page_map m roomData ova nva with
    | (r, m) =>
      if r < 0 then (r, undo m newfd nva) else dup_fd m roomFd newfdnum oldfd newfd nva

def dup (m : Env) (roomData roomFd : Bool) (oldfdnum newfdnum : Word) : Int × Env :=
  match fd_lookup m oldfdnum with
  | .error r => (r, m)
  | .ok oldfd =>
    dup_pages (close m newfdnum) roomData roomFd newfdnum oldfd (INDEX2FD newfdnum) (fd2data oldfd)
      (fd2data (INDEX2FD newfdnum))

/-! ## What a duplicate is -/

/-- A number of a descriptor. -/
def InRange (fdnum : Word) : Prop := 0 ≤ fdnum.toInt ∧ fdnum.toInt < MAXFD

instance (fdnum : Word) : Decidable (InRange fdnum) := inferInstanceAs (Decidable (_ ∧ _))

def Env.fd (m : Env) (i : Word) : Option Mapping := m.pages (INDEX2FD i)

def Env.data (m : Env) (i : Word) : Option Mapping := m.pages (INDEX2DATA i)

def Open (m : Env) (i : Word) : Prop := InRange i ∧ m.fd i ≠ none

/-- Descriptor `new` has the pages of descriptor `old`, and no other has changed. What was
open at `new` has been closed. -/
structure Duplicated (m m' : Env) (old new : Word) : Prop where
  fd : m'.fd new = m.fd old
  data : m'.data new = m.data old
  isOpen : m'.fd old ≠ none
  others : ∀ i, InRange i → i ≠ old → i ≠ new → m'.fd i = m.fd i ∧ m'.data i = m.data i
  closed : ∀ p, m.fd new = some p → new ≠ old → p.page ∈ m'.closed

/-- No descriptor has changed. -/
def Untouched (m m' : Env) : Prop := ∀ i, InRange i → m'.fd i = m.fd i ∧ m'.data i = m.data i

/-- What `dup` is for. -/
structure Serves (m : Env) (roomData roomFd : Bool) (old new : Word) : Prop where
  refused : ¬ InRange new ∨ ¬ Open m old →
    (dup m roomData roomFd old new).1 < 0 ∧ Untouched m (dup m roomData roomFd old new).2
  done : InRange new → Open m old → roomData = true → roomFd = true →
    (dup m roomData roomFd old new).1 = new.toInt ∧
      Duplicated m (dup m roomData roomFd old new).2 old new

/-! ## Addresses -/

/-- Page `n` of the descriptor area. -/
def areaPage (n : Nat) : Word := FDTABLE + BitVec.ofNat 32 (n * 4096)

theorem areaPage_eq_iff {a b : Nat} : areaPage a = areaPage b ↔ a % 2 ^ 20 = b % 2 ^ 20 := by
  rw [areaPage, areaPage, BitVec.add_right_inj, ← BitVec.toNat_inj, BitVec.toNat_ofNat,
    BitVec.toNat_ofNat]
  omega

theorem mul_page (i : Word) : i * 0x1000 = BitVec.ofNat 32 (i.toNat * 4096) := by
  rw [BitVec.ofNat_mul, BitVec.ofNat_toNat, BitVec.setWidth_eq]
  rfl

theorem INDEX2FD_eq (i : Word) : INDEX2FD i = areaPage i.toNat := by
  rw [INDEX2FD, areaPage, mul_page]

theorem INDEX2DATA_eq (i : Word) : INDEX2DATA i = areaPage (MAXFD + i.toNat) := by
  have hdata : FILEDATA = FDTABLE + BitVec.ofNat 32 (MAXFD * 4096) := by decide
  rw [INDEX2DATA, hdata, mul_page, areaPage, Nat.add_mul, BitVec.ofNat_add, BitVec.add_assoc]

theorem fd2num_INDEX2FD (i : Word) : (fd2num (INDEX2FD i)).toNat = i.toNat % 2 ^ 20 := by
  rw [fd2num, INDEX2FD, BitVec.add_comm, BitVec.add_sub_cancel, BitVec.toNat_udiv,
    BitVec.toNat_mul, show (0x1000 : Word).toNat = 4096 from rfl]
  omega

theorem fd2data_INDEX2FD (i : Word) : fd2data (INDEX2FD i) = INDEX2DATA i := by
  rw [fd2data, INDEX2DATA_eq, INDEX2DATA_eq, fd2num_INDEX2FD, areaPage_eq_iff]
  omega

theorem InRange.toNat_lt {i : Word} (h : InRange i) : i.toNat < MAXFD := by
  obtain ⟨h₀, h₁⟩ := h
  rw [BitVec.toInt_eq_toNat_cond] at h₀ h₁
  rw [MAXFD] at h₁ ⊢
  split at h₀ <;> omega

theorem areaPage_lt {n : Nat} (h : n < 2 * MAXFD) : areaPage n < UTOP := by
  rw [MAXFD] at h
  rw [BitVec.lt_def, areaPage, BitVec.toNat_add, BitVec.toNat_ofNat, UTOP_toNat,
    show FDTABLE.toNat = 0xD0000000 from rfl]
  omega

theorem INDEX2FD_inj {i j : Word} (hi : InRange i) (hj : InRange j) (h : INDEX2FD i = INDEX2FD j) :
    i = j := by
  have hi' := hi.toNat_lt
  have hj' := hj.toNat_lt
  rw [INDEX2FD_eq, INDEX2FD_eq, areaPage_eq_iff] at h
  rw [MAXFD] at hi' hj'
  exact BitVec.eq_of_toNat_eq (by omega)

theorem INDEX2DATA_inj {i j : Word} (hi : InRange i) (hj : InRange j)
    (h : INDEX2DATA i = INDEX2DATA j) : i = j := by
  have hi' := hi.toNat_lt
  have hj' := hj.toNat_lt
  rw [INDEX2DATA_eq, INDEX2DATA_eq, areaPage_eq_iff] at h
  rw [MAXFD] at hi' hj' h
  exact BitVec.eq_of_toNat_eq (by omega)

theorem INDEX2FD_ne_INDEX2DATA {i j : Word} (hi : InRange i) (hj : InRange j) :
    INDEX2FD i ≠ INDEX2DATA j := by
  have hi' := hi.toNat_lt
  have hj' := hj.toNat_lt
  rw [INDEX2FD_eq, INDEX2DATA_eq, ne_eq, areaPage_eq_iff]
  rw [MAXFD] at hi' hj' ⊢
  omega

/-- Also for a number that is not one of a descriptor. -/
theorem INDEX2FD_ne_self (i : Word) : INDEX2FD i ≠ INDEX2DATA i := by
  rw [INDEX2FD_eq, INDEX2DATA_eq, ne_eq, areaPage_eq_iff, MAXFD]
  omega

theorem InRange.fd_lt {i : Word} (h : InRange i) : INDEX2FD i < UTOP := by
  rw [INDEX2FD_eq]
  exact areaPage_lt (by have := h.toNat_lt; omega)

theorem InRange.data_lt {i : Word} (h : InRange i) : INDEX2DATA i < UTOP := by
  rw [INDEX2DATA_eq]
  exact areaPage_lt (by have := h.toNat_lt; omega)

/-! ## Pages -/

section

variable {m m' : Env} {va src dst : Word} {o : Option Mapping} {room roomData roomFd : Bool}
  {old new : Word}

@[simp] theorem Env.set_pages_self : (m.set va o).pages va = o := Function.update_self ..

theorem Env.set_pages_ne {x : Word} (h : x ≠ va) : (m.set va o).pages x = m.pages x :=
  Function.update_of_ne h ..

theorem unmap_pages_self (h : va < UTOP) : (sys_page_unmap m va).pages va = none := by
  rw [sys_page_unmap, if_neg (BitVec.not_le.mpr h), Env.set_pages_self]

theorem unmap_pages_ne {x : Word} (h : x ≠ va) : (sys_page_unmap m va).pages x = m.pages x := by
  rw [sys_page_unmap]
  split
  · rfl
  · exact Env.set_pages_ne h

/-- `sys_page_map` succeeds. -/
structure Maps (m : Env) (room : Bool) (src dst : Word) : Prop where
  src_lt : src < UTOP
  dst_lt : dst < UTOP
  mapped : m.pages src ≠ none
  room : room = true

theorem Maps.map (h : Maps m room src dst) :
    sys_page_map m room src dst = (0, m.set dst (m.pages src)) := by
  obtain ⟨p, hp⟩ := Option.ne_none_iff_exists'.mp h.mapped
  rw [sys_page_map, if_neg (not_or.mpr ⟨BitVec.not_le.mpr h.src_lt, BitVec.not_le.mpr h.dst_lt⟩), hp]
  exact if_pos h.room

theorem map_of_not_maps (h : ¬ Maps m room src dst) :
    ∃ r < 0, sys_page_map m room src dst = (r, m) := by
  rw [sys_page_map]
  split
  · exact ⟨_, by decide, rfl⟩
  · rename_i hlow
    rw [not_or, BitVec.not_le, BitVec.not_le] at hlow
    rcases hp : m.pages src with _ | p
    · exact ⟨_, by decide, rfl⟩
    · by_cases hroom : room = true
      · exact absurd ⟨hlow.1, hlow.2, by rw [hp]; exact Option.some_ne_none p, hroom⟩ h
      · exact ⟨-E_NO_MEM, by decide, if_neg hroom⟩

theorem undo_pages_fd {newfd nva : Word} (h : newfd < UTOP) :
    (undo m newfd nva).pages newfd = none := by
  rw [undo]
  by_cases heq : newfd = nva
  · rw [← heq]
    exact unmap_pages_self h
  · rw [unmap_pages_ne heq]
    exact unmap_pages_self h

theorem undo_pages_data {newfd nva : Word} (h : nva < UTOP) :
    (undo m newfd nva).pages nva = none := unmap_pages_self h

theorem undo_pages_ne {newfd nva x : Word} (h : x ≠ newfd) (h' : x ≠ nva) :
    (undo m newfd nva).pages x = m.pages x := by
  rw [undo, unmap_pages_ne h', unmap_pages_ne h]

/-! ## Closing -/

theorem fd_lookup_open (h : Open m old) : fd_lookup m old = .ok (INDEX2FD old) := by
  obtain ⟨⟨hlow, hhigh⟩, hfd⟩ := h
  rw [fd_lookup, if_neg (by omega)]
  exact if_neg hfd

theorem fd_lookup_not_open (h : ¬ Open m old) : fd_lookup m old = .error (-E_INVAL) := by
  rw [fd_lookup]
  split
  · rfl
  · rename_i hrange
    rw [if_pos]
    by_contra hne
    exact h ⟨⟨by omega, by omega⟩, hne⟩

theorem close_not_open (h : ¬ Open m new) : close m new = m := by
  rw [close, fd_lookup_not_open h]

theorem close_open {p : Mapping} (hin : InRange new) (hp : m.fd new = some p) :
    close m new = fd_close m (INDEX2FD new) p := by
  have hopen : Open m new := ⟨hin, by rw [hp]; exact Option.some_ne_none p⟩
  rw [close, fd_lookup_open hopen]
  show (m.fd new).elim m _ = _
  rw [hp]
  rfl

/-- A pipe is open at a number. -/
def IsPipe (m : Env) (i : Word) : Prop := ∃ p, m.fd i = some p ∧ m.dev p.page = devpipe

theorem fd_close_pages_ne {p : Mapping} {x : Word} (h : x ≠ INDEX2FD new)
    (h' : x ≠ INDEX2DATA new) : (fd_close m (INDEX2FD new) p).pages x = m.pages x := by
  show (sys_page_unmap (dev_close m (m.dev p.page) (INDEX2FD new)) (INDEX2FD new)).pages x = _
  rw [unmap_pages_ne h, dev_close]
  split
  · rw [fd2data_INDEX2FD, unmap_pages_ne h', unmap_pages_ne h]
  · rfl

theorem close_pages_ne {x : Word} (h : x ≠ INDEX2FD new) (h' : x ≠ INDEX2DATA new) :
    (close m new).pages x = m.pages x := by
  by_cases hopen : Open m new
  · obtain ⟨p, hp⟩ := Option.ne_none_iff_exists'.mp hopen.2
    rw [close_open hopen.1 hp, fd_close_pages_ne h h']
  · rw [close_not_open hopen]

theorem close_fd (hin : InRange new) : (close m new).fd new = none := by
  rcases hp : m.fd new with _ | p
  · rw [close_not_open fun h => h.2 hp, hp]
  · rw [close_open hin hp]
    exact unmap_pages_self hin.fd_lt

theorem close_data_pipe (hin : InRange new) (hpipe : IsPipe m new) :
    (close m new).data new = none := by
  obtain ⟨p, hp, hdev⟩ := hpipe
  rw [close_open hin hp]
  show (sys_page_unmap (dev_close m (m.dev p.page) (INDEX2FD new)) (INDEX2FD new)).pages
    (INDEX2DATA new) = _
  rw [unmap_pages_ne (INDEX2FD_ne_self new).symm, dev_close, if_pos hdev, fd2data_INDEX2FD]
  exact unmap_pages_self hin.data_lt

theorem close_data (hin : InRange new) (hpipe : ¬ IsPipe m new) :
    (close m new).data new = m.data new := by
  rcases hp : m.fd new with _ | p
  · rw [close_not_open fun h => h.2 hp]
  · rw [close_open hin hp]
    show (sys_page_unmap (dev_close m (m.dev p.page) (INDEX2FD new)) (INDEX2FD new)).pages
      (INDEX2DATA new) = _
    rw [unmap_pages_ne (INDEX2FD_ne_self new).symm, dev_close, if_neg fun h => hpipe ⟨p, hp, h⟩]
    rfl

theorem close_closed {p : Mapping} (hin : InRange new) (hp : m.fd new = some p) :
    p.page ∈ (close m new).closed := by
  rw [close_open hin hp]
  exact List.mem_cons_self ..

/-! ## Duplicating -/

theorem dup_not_open (h : ¬ Open m old) : dup m roomData roomFd old new = (-E_INVAL, m) := by
  rw [dup, fd_lookup_not_open h]

theorem dup_open (h : Open m old) :
    dup m roomData roomFd old new = dup_pages (close m new) roomData roomFd new (INDEX2FD old)
      (INDEX2FD new) (INDEX2DATA old) (INDEX2DATA new) := by
  rw [dup, fd_lookup_open h, fd2data_INDEX2FD]
  show dup_pages _ _ _ _ _ _ (fd2data (INDEX2FD old)) _ = _
  rw [fd2data_INDEX2FD]

/-- The data page has been mapped if there is one. -/
def withData (m : Env) (old new : Word) : Env :=
  if m.data old = none then m else m.set (INDEX2DATA new) (m.data old)

theorem withData_pages_ne {x : Word} (h : x ≠ INDEX2DATA new) :
    (withData m old new).pages x = m.pages x := by
  rw [withData]
  split
  · rfl
  · exact Env.set_pages_ne h

theorem withData_closed : (withData m old new).closed = m.closed := by
  rw [withData]
  split <;> rfl

/-- Both calls of `sys_page_map` succeed, or there is one call and it does. -/
structure Succeeds (m : Env) (roomData roomFd : Bool) (old new : Word) : Prop where
  data : m.data old = none ∨ Maps m roomData (INDEX2DATA old) (INDEX2DATA new)
  fd : Maps (withData m old new) roomFd (INDEX2FD old) (INDEX2FD new)

theorem dup_fd_done (h : Maps m roomFd (INDEX2FD old) (INDEX2FD new)) (nva : Word) :
    dup_fd m roomFd new (INDEX2FD old) (INDEX2FD new) nva =
      (new.toInt, m.set (INDEX2FD new) (m.fd old)) := by
  rw [dup_fd, h.map]
  rfl

theorem dup_pages_done (h : Succeeds m roomData roomFd old new) :
    dup_pages m roomData roomFd new (INDEX2FD old) (INDEX2FD new) (INDEX2DATA old)
      (INDEX2DATA new) =
        (new.toInt, (withData m old new).set (INDEX2FD new) ((withData m old new).fd old)) := by
  have hfd := h.fd
  by_cases hdata : m.data old = none
  · rw [withData, if_pos hdata] at hfd ⊢
    exact (if_pos hdata).trans (dup_fd_done hfd _)
  · rw [withData, if_neg hdata] at hfd ⊢
    refine (if_neg hdata).trans ?_
    rw [(h.data.resolve_left hdata).map]
    exact dup_fd_done hfd _

theorem dup_fd_failed (h : ¬ Maps m roomFd (INDEX2FD old) (INDEX2FD new)) (nva : Word) :
    ∃ r < 0, dup_fd m roomFd new (INDEX2FD old) (INDEX2FD new) nva =
      (r, undo m (INDEX2FD new) nva) := by
  obtain ⟨r, hr, hmap⟩ := map_of_not_maps h
  refine ⟨r, hr, ?_⟩
  rw [dup_fd, hmap]
  exact if_pos hr

/-- A call that fails unmaps the two pages, of which the data page may have been mapped. -/
theorem dup_pages_failed (h : ¬ Succeeds m roomData roomFd old new) :
    ∃ r < 0, ∃ m₁, dup_pages m roomData roomFd new (INDEX2FD old) (INDEX2FD new)
      (INDEX2DATA old) (INDEX2DATA new) = (r, undo m₁ (INDEX2FD new) (INDEX2DATA new)) ∧
        ∀ x, x ≠ INDEX2DATA new → m₁.pages x = m.pages x := by
  by_cases hdata : m.data old = none
  · have hfd : ¬ Maps m roomFd (INDEX2FD old) (INDEX2FD new) := by
      intro hmaps
      exact h ⟨.inl hdata, by rwa [withData, if_pos hdata]⟩
    obtain ⟨r, hr, hdup⟩ := dup_fd_failed hfd (INDEX2DATA new)
    exact ⟨r, hr, m, (if_pos hdata).trans hdup, fun _ _ => rfl⟩
  · by_cases hmaps : Maps m roomData (INDEX2DATA old) (INDEX2DATA new)
    · have hfd : ¬ Maps (m.set (INDEX2DATA new) (m.data old)) roomFd (INDEX2FD old)
          (INDEX2FD new) := by
        intro hfd
        exact h ⟨.inr hmaps, by rwa [withData, if_neg hdata]⟩
      obtain ⟨r, hr, hdup⟩ := dup_fd_failed hfd (INDEX2DATA new)
      refine ⟨r, hr, m.set (INDEX2DATA new) (m.data old), (if_neg hdata).trans ?_, fun x hx =>
        Env.set_pages_ne hx⟩
      rw [hmaps.map]
      exact hdup
    · obtain ⟨r, hr, hmap⟩ := map_of_not_maps hmaps
      refine ⟨r, hr, m, (if_neg hdata).trans ?_, fun _ _ => rfl⟩
      rw [hmap]
      exact if_pos hr

/-! ## Numbers of descriptors -/

/-- With memory, `dup` of one number onto another succeeds. -/
theorem succeeds_of_ne (hold : Open m old) (hnew : InRange new) (hne : old ≠ new) :
    Succeeds (close m new) true true old new := by
  have hfd : INDEX2FD old ≠ INDEX2DATA new := INDEX2FD_ne_INDEX2DATA hold.1 hnew
  refine ⟨?_, hold.1.fd_lt, hnew.fd_lt, ?_, rfl⟩
  · by_cases hdata : (close m new).data old = none
    · exact .inl hdata
    · exact .inr ⟨hold.1.data_lt, hnew.data_lt, hdata, rfl⟩
  · rw [withData_pages_ne hfd,
      close_pages_ne (fun h => hne (INDEX2FD_inj hold.1 hnew h)) hfd]
    exact hold.2

/-- When a descriptor is duplicated onto itself, its Fd page is gone. -/
theorem not_succeeds_self (hold : Open m old) : ¬ Succeeds (close m old) roomData roomFd old old := by
  intro h
  refine h.fd.mapped ?_
  rw [withData_pages_ne (INDEX2FD_ne_self old)]
  exact close_fd hold.1

theorem dup_done (hold : Open m old) (hnew : InRange new) (hne : old ≠ new) :
    dup m true true old new = (new.toInt,
      (withData (close m new) old new).set (INDEX2FD new) (m.fd old)) := by
  have hfd : INDEX2FD old ≠ INDEX2DATA new := INDEX2FD_ne_INDEX2DATA hold.1 hnew
  rw [dup_open hold, dup_pages_done (succeeds_of_ne hold hnew hne), Env.fd, withData_pages_ne hfd,
    close_pages_ne (fun h => hne (INDEX2FD_inj hold.1 hnew h)) hfd]
  rfl

/-- The data page of `new` is the one of `old`, or none, when `dup` is done. -/
def DataGone (m : Env) (old new : Word) : Prop :=
  m.data old ≠ none ∨ IsPipe m new ∨ m.data new = none

theorem withData_data_iff (hold : Open m old) (hnew : InRange new) (hne : old ≠ new) :
    (withData (close m new) old new).data new = m.data old ↔ DataGone m old new := by
  have hclose : (close m new).data old = m.data old := close_pages_ne
    (INDEX2FD_ne_INDEX2DATA hnew hold.1).symm fun h => hne (INDEX2DATA_inj hold.1 hnew h)
  rw [withData, hclose]
  by_cases hdata : m.data old = none
  · rw [if_pos hdata, hdata]
    by_cases hpipe : IsPipe m new
    · exact iff_of_true (close_data_pipe hnew hpipe) (.inr (.inl hpipe))
    · rw [close_data hnew hpipe]
      exact ⟨fun h => .inr (.inr h),
        fun h => (h.resolve_left fun h => h hdata).resolve_left hpipe⟩
  · rw [if_neg hdata]
    exact iff_of_true Env.set_pages_self (.inl hdata)

theorem duplicated_iff (hold : Open m old) (hnew : InRange new) (hne : old ≠ new) :
    Duplicated m ((withData (close m new) old new).set (INDEX2FD new) (m.fd old)) old new ↔
      DataGone m old new := by
  have hfd : INDEX2FD old ≠ INDEX2FD new := fun h => hne (INDEX2FD_inj hold.1 hnew h)
  have hdata : ((withData (close m new) old new).set (INDEX2FD new) (m.fd old)).data new =
      (withData (close m new) old new).data new := Env.set_pages_ne (INDEX2FD_ne_self new).symm
  rw [← withData_data_iff hold hnew hne, ← hdata]
  refine ⟨fun h => h.data, fun h => ⟨Env.set_pages_self, h, ?_, ?_, ?_⟩⟩
  · show Env.pages _ _ ≠ none
    rw [Env.set_pages_ne hfd, withData_pages_ne (INDEX2FD_ne_INDEX2DATA hold.1 hnew),
      close_pages_ne hfd (INDEX2FD_ne_INDEX2DATA hold.1 hnew)]
    exact hold.2
  · intro i hi _ hinew
    have hfd' : INDEX2FD i ≠ INDEX2FD new := fun h => hinew (INDEX2FD_inj hi hnew h)
    have hdata' : INDEX2DATA i ≠ INDEX2DATA new := fun h => hinew (INDEX2DATA_inj hi hnew h)
    have hfdData := INDEX2FD_ne_INDEX2DATA hi hnew
    have hdataFd := (INDEX2FD_ne_INDEX2DATA hnew hi).symm
    refine ⟨?_, ?_⟩
    · show Env.pages _ _ = _
      rw [Env.set_pages_ne hfd', withData_pages_ne hfdData, close_pages_ne hfd' hfdData]
      rfl
    · show Env.pages _ _ = _
      rw [Env.set_pages_ne hdataFd, withData_pages_ne hdata', close_pages_ne hdataFd hdata']
      rfl
  · intro p hp _
    show p.page ∈ (withData (close m new) old new).closed
    rw [withData_closed]
    exact close_closed hnew hp

theorem dup_inside_iff (hold : Open m old) (hnew : InRange new) :
    ((dup m true true old new).1 = new.toInt ∧
      Duplicated m (dup m true true old new).2 old new) ↔ old ≠ new ∧ DataGone m old new := by
  by_cases hne : old = new
  · subst hne
    obtain ⟨r, hr, m₁, hdup, -⟩ := dup_pages_failed (not_succeeds_self hold)
    refine iff_of_false ?_ fun h => h.1 rfl
    rw [dup_open hold, hdup]
    rintro ⟨hres, -⟩
    have hnonneg := hnew.1
    change r = old.toInt at hres
    omega
  · rw [dup_done hold hnew hne]
    simp only [true_and, duplicated_iff hold hnew hne, ne_eq, hne, not_false_eq_true]

/-! ## Other numbers -/

/-- The address is one of a descriptor or of its data. -/
def InArea (va : Word) : Prop := ∃ i, InRange i ∧ (va = INDEX2FD i ∨ va = INDEX2DATA i)

/-- No descriptor changes if the mapping at `va` is replaced by `o`. -/
def Keeps (m : Env) (va : Word) (o : Option Mapping) : Prop := InArea va → m.pages va = o

theorem InArea.lt {va : Word} (h : InArea va) : va < UTOP := by
  obtain ⟨i, hi, rfl | rfl⟩ := h
  · exact hi.fd_lt
  · exact hi.data_lt

theorem untouched_iff {F D : Word} (h : ∀ x, x ≠ F → x ≠ D → m'.pages x = m.pages x) :
    Untouched m m' ↔ Keeps m F (m'.pages F) ∧ Keeps m D (m'.pages D) := by
  refine ⟨fun hkept => ⟨?_, ?_⟩, ?_⟩
  · rintro ⟨i, hi, rfl | rfl⟩
    · exact (hkept i hi).1.symm
    · exact (hkept i hi).2.symm
  · rintro ⟨i, hi, rfl | rfl⟩
    · exact (hkept i hi).1.symm
    · exact (hkept i hi).2.symm
  · rintro ⟨hF, hD⟩ i hi
    have hsame : ∀ x, InArea x → m'.pages x = m.pages x := by
      intro x hx
      by_cases hxF : x = F
      · subst hxF
        exact (hF hx).symm
      · by_cases hxD : x = D
        · subst hxD
          exact (hD hx).symm
        · exact h x hxF hxD
    exact ⟨hsame _ ⟨i, hi, .inl rfl⟩, hsame _ ⟨i, hi, .inr rfl⟩⟩

/-- Both mappings are below `UTOP` and there is memory for them. -/
def Reaches (m : Env) (roomData roomFd : Bool) (old new : Word) : Prop :=
  (m.data old = none ∨ (INDEX2DATA new < UTOP ∧ roomData = true)) ∧
    INDEX2FD new < UTOP ∧ roomFd = true

theorem succeeds_iff (hold : Open m old) :
    Succeeds m roomData roomFd old new ↔ Reaches m roomData roomFd old new := by
  constructor
  · intro h
    exact ⟨h.data.imp_right fun h => ⟨h.dst_lt, h.room⟩, h.fd.dst_lt, h.fd.room⟩
  · rintro ⟨hdata, hlow, hroom⟩
    refine ⟨?_, hold.1.fd_lt, hlow, ?_, hroom⟩
    · by_cases hnone : m.data old = none
      · exact .inl hnone
      · obtain ⟨hlow, hroom⟩ := hdata.resolve_left hnone
        exact .inr ⟨hold.1.data_lt, hlow, hnone, hroom⟩
    · rw [withData]
      split
      · exact hold.2
      · rename_i hsome
        by_cases heq : INDEX2FD old = INDEX2DATA new
        · rw [heq, Env.set_pages_self]
          exact hsome
        · rw [Env.set_pages_ne heq]
          exact hold.2

/-- `dup` onto a number that is not one of a descriptor does no harm. It returns that
number if it succeeds, and unmaps two pages if not. -/
structure Harmless (m : Env) (roomData roomFd : Bool) (old new : Word) : Prop where
  done : Reaches m roomData roomFd old new → new.toInt < 0 ∧
    Keeps m (INDEX2FD new) (m.fd old) ∧
      (m.data old ≠ none → Keeps m (INDEX2DATA new) (m.data old))
  failed : ¬ Reaches m roomData roomFd old new →
    Keeps m (INDEX2FD new) none ∧ Keeps m (INDEX2DATA new) none

/-- If the data page is mapped over the Fd page of `old`, it is that page. -/
theorem withData_fd_of_keeps (hold : Open m old)
    (h : m.data old ≠ none → Keeps m (INDEX2DATA new) (m.data old)) :
    (withData m old new).fd old = m.fd old := by
  rw [withData]
  split
  · rfl
  · rename_i hsome
    by_cases heq : INDEX2FD old = INDEX2DATA new
    · rw [Env.fd, heq, Env.set_pages_self, ← h hsome ⟨old, hold.1, .inl heq.symm⟩, Env.fd, heq]
    · exact Env.set_pages_ne heq

theorem keeps_withData :
    Keeps m (INDEX2DATA new) ((withData m old new).pages (INDEX2DATA new)) ↔
      (m.data old ≠ none → Keeps m (INDEX2DATA new) (m.data old)) := by
  rw [withData]
  split
  · rename_i hnone
    exact iff_of_true (fun _ => rfl) fun h => absurd hnone h
  · rename_i hsome
    rw [Env.set_pages_self]
    exact ⟨fun h _ => h, fun h => h hsome⟩

theorem untouched_done_iff (hold : Open m old) :
    Untouched m ((withData m old new).set (INDEX2FD new) ((withData m old new).fd old)) ↔
      Keeps m (INDEX2FD new) (m.fd old) ∧
        (m.data old ≠ none → Keeps m (INDEX2DATA new) (m.data old)) := by
  rw [untouched_iff (F := INDEX2FD new) (D := INDEX2DATA new)
    fun x hF hD => (Env.set_pages_ne hF).trans (withData_pages_ne hD),
    Env.set_pages_self, Env.set_pages_ne (INDEX2FD_ne_self new).symm, keeps_withData]
  constructor
  · rintro ⟨hF, hD⟩
    rw [withData_fd_of_keeps hold hD] at hF
    exact ⟨hF, hD⟩
  · rintro ⟨hF, hD⟩
    rw [withData_fd_of_keeps hold hD]
    exact ⟨hF, hD⟩

theorem untouched_undo_iff {m₁ : Env} (h : ∀ x, x ≠ INDEX2DATA new → m₁.pages x = m.pages x) :
    Untouched m (undo m₁ (INDEX2FD new) (INDEX2DATA new)) ↔
      Keeps m (INDEX2FD new) none ∧ Keeps m (INDEX2DATA new) none := by
  rw [untouched_iff (F := INDEX2FD new) (D := INDEX2DATA new)
    fun x hF hD => (undo_pages_ne hF hD).trans (h x hD)]
  refine and_congr ?_ ?_
  · exact forall_congr' fun hin => by rw [undo_pages_fd hin.lt]
  · exact forall_congr' fun hin => by rw [undo_pages_data hin.lt]

theorem dup_outside_iff (hold : Open m old) (hnew : ¬ InRange new) :
    ((dup m roomData roomFd old new).1 < 0 ∧ Untouched m (dup m roomData roomFd old new).2) ↔
      Harmless m roomData roomFd old new := by
  rw [dup_open hold, close_not_open fun h => hnew h.1]
  by_cases hreach : Reaches m roomData roomFd old new
  · rw [dup_pages_done ((succeeds_iff hold).mpr hreach)]
    refine (and_congr_right' (untouched_done_iff hold)).trans ⟨fun h => ⟨fun _ => h, ?_⟩, ?_⟩
    · exact fun hnot => absurd hreach hnot
    · exact fun h => h.done hreach
  · obtain ⟨r, hr, m₁, hdup, hsame⟩ := dup_pages_failed fun h => hreach ((succeeds_iff hold).mp h)
    rw [hdup]
    refine (and_iff_right hr).trans ((untouched_undo_iff hsame).trans ⟨fun h => ⟨?_, ?_⟩, ?_⟩)
    · exact fun h => absurd h hreach
    · exact fun _ => h
    · exact fun h => h.failed hreach

/-! ## Every pair of numbers -/

/-- When `dup` does what it is for, if `old` is open. -/
structure Sound (m : Env) (roomData roomFd : Bool) (old new : Word) : Prop where
  inside : InRange new → roomData = true → roomFd = true → old ≠ new ∧ DataGone m old new
  outside : ¬ InRange new → Harmless m roomData roomFd old new

/-- `dup` keeps what it promises when the numbers differ, and no data page is left
at the new one behind a descriptor without one; a number that is not one of a descriptor
must not reach the area of the descriptors. -/
theorem dup_serves_iff (m : Env) (roomData roomFd : Bool) (old new : Word) :
    Serves m roomData roomFd old new ↔ (Open m old → Sound m roomData roomFd old new) := by
  by_cases hold : Open m old
  · constructor
    · intro h _
      refine ⟨?_, fun hnew => (dup_outside_iff hold hnew).mp (h.refused (.inl hnew))⟩
      rintro hnew rfl rfl
      exact (dup_inside_iff hold hnew).mp (h.done hnew hold rfl rfl)
    · intro h
      refine ⟨?_, ?_⟩
      · rintro (hnew | hnot)
        · exact (dup_outside_iff hold hnew).mpr ((h hold).outside hnew)
        · exact absurd hold hnot
      · rintro hnew - rfl rfl
        exact (dup_inside_iff hold hnew).mpr ((h hold).inside hnew rfl rfl)
  · refine iff_of_true ⟨fun _ => ?_, fun _ h => absurd h hold⟩ fun h => absurd h hold
    rw [dup_not_open hold]
    have hneg : -E_INVAL < 0 := by decide
    exact ⟨hneg, fun i _ => ⟨rfl, rfl⟩⟩

end

/-! ## One open file -/

/-- A file is open at 0, and nothing else is. -/
def oneFile : Env where
  pages := Function.update (fun _ => none) (INDEX2FD 0) (some ⟨1, 0x407⟩)
  dev := fun _ => 0x66
  closed := []

theorem oneFile_fd : oneFile.fd 0 = some ⟨1, 0x407⟩ := rfl

theorem open_oneFile : Open oneFile 0 :=
  ⟨by decide, by rw [oneFile_fd]; exact Option.some_ne_none _⟩

theorem dup_serves_one : Serves oneFile true true 0 1 ∧ (dup oneFile true true 0 1).1 = 1 := by
  refine ⟨(dup_serves_iff oneFile true true 0 1).mpr fun _ => ⟨?_, ?_⟩, rfl⟩
  · exact fun _ _ _ => ⟨by decide, .inr (.inr rfl)⟩
  · exact fun h => absurd (by decide : InRange 1) h

/-- Duplicated onto 32, the file gets its Fd page as its data page. Duplicated onto
itself, it is closed. -/
theorem dup_does_not_serve : ¬ Serves oneFile true true 0 32 ∧ ¬ Serves oneFile true true 0 0 := by
  refine ⟨fun h => ?_, fun h => ?_⟩
  · have hdata := ((h.refused (.inl (by decide))).2 0 (by decide)).2
    exact absurd hdata (by decide)
  · have hopen := (h.done (by decide) open_oneFile rfl rfl).2.isOpen
    exact hopen rfl

end jos.fdtable
