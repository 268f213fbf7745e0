-- The page allocator and the page tables (`kern/pmap.c`, `kern/pmap.h`).
-- A page is its index in `pages`. Page directories and page tables live in
-- pages of physical memory, as 1024 words each, and a pointer to one is the
-- number of its page.
import Jos.Mmu
import Mathlib

namespace jos

/-- The ways in which the kernel stops. -/
inductive Panic
  /-- `KADDR called with invalid pa` -/
  | kaddr (pa : Word)
  /-- `PADDR called with invalid kva` -/
  | paddr
  /-- `pa2page called with invalid pa` -/
  | pa2page (pa : Word)
  /-- `page_free`: the page is still referenced -/
  | page_free (pp : Nat)
  /-- `Invalid System Call` -/
  | syscall (syscallno : Word)
  /-- `sys_env_set_trapframe`: `Bad or stale environment` -/
  | set_trapframe (r : Int)
  /-- `Fault occured in kernel space` -/
  | kernel_fault (va : Word)
  /-- `assert(curenv)` in `trap` -/
  | assert_curenv
  /-- `spin_lock`: `already holding` -/
  | spin_lock
  /-- `spin_unlock`: the CPU does not hold the lock -/
  | spin_unlock
  /-- `unhandled trap in kernel` -/
  | unhandled_trap
  /-- `env_pop_tf`: the frame cannot be loaded, and the kernel traps -/
  | iret
  /-- `region_alloc`: `Page alloc failed!` -/
  | region_alloc
  /-- `boot_map_region`: `Cannot find page for the page table entry` -/
  | boot_map_region
  /-- `env_create`: `env_alloc` fails -/
  | env_create (r : Int)
  /-- the code follows a null page directory -/
  | null
deriving DecidableEq

/-- `struct PageInfo` -/
structure PageInfo where
  pp_link : Option Nat
  pp_ref : BitVec 16
deriving DecidableEq

/-- Physical memory with the globals of `pmap.c`. The kernel maps at most
256 MB of physical memory at `KERNBASE`, so there are at most `0x10000` pages. -/
structure Phys where
  npages : Nat
  npages_le : npages ≤ 0x10000
  pages : Nat → PageInfo
  page_free_list : Option Nat
  /-- the words of each page -/
  mem : Nat → Nat → Word

/-- `pte_t *`: a word of a page. -/
structure PteAddr where
  page : Nat
  idx : Nat
deriving DecidableEq

namespace Phys

/-! ## Stores -/

def setRef (s : Phys) (pp : Nat) (r : BitVec 16) : Phys :=
  { s with pages := Function.update s.pages pp { s.pages pp with pp_ref := r } }

def setLink (s : Phys) (pp : Nat) (l : Option Nat) : Phys :=
  { s with pages := Function.update s.pages pp { s.pages pp with pp_link := l } }

def write (s : Phys) (p i : Nat) (w : Word) : Phys :=
  { s with mem := Function.update s.mem p (Function.update (s.mem p) i w) }

/-- `memset(page, 0, PGSIZE)` -/
def zero (s : Phys) (p : Nat) : Phys :=
  { s with mem := Function.update s.mem p (fun _ => 0) }

/-- The page goes to the head of the free list. -/
def pushFree (s : Phys) (pp : Nat) : Phys :=
  { s.setLink pp s.page_free_list with page_free_list := some pp }

end Phys

/-! ## The allocator -/

/-- The page of a physical address, reached through the mapping at
`KERNBASE`. -/
def KADDR (s : Phys) (pa : Word) : Except Panic Nat :=
  if s.npages ≤ PGNUM pa then .error (.kaddr pa) else .ok (PGNUM pa)

def pa2page (s : Phys) (pa : Word) : Except Panic Nat :=
  if s.npages ≤ PGNUM pa then .error (.pa2page pa) else .ok (PGNUM pa)

def page2kva (s : Phys) (pp : Nat) : Except Panic Nat := KADDR s (page2pa pp)

def ALLOC_ZERO : Word := 1

def page_alloc (s : Phys) (alloc_flags : Word) : Except Panic (Option Nat × Phys) :=
  match s.page_free_list with
  | none => .ok (none, s)
  | some allocPage => do
    let s := { s with page_free_list := (s.pages allocPage).pp_link }
    let s := s.setLink allocPage none
    -- `alloc_flags && ALLOC_ZERO`: every flag but 0 clears the page
    let s ← if alloc_flags ≠ 0 ∧ ALLOC_ZERO ≠ 0 then do
        let kva ← page2kva s allocPage
        pure (s.zero kva)
      else pure s
    return (some allocPage, s.setRef allocPage 0)

def page_free (s : Phys) (pp : Nat) : Except Panic Phys :=
  if (s.pages pp).pp_ref ≠ 0 then .error (.page_free pp) else .ok (s.pushFree pp)

def page_decref (s : Phys) (pp : Nat) : Except Panic Phys :=
  let s := s.setRef pp ((s.pages pp).pp_ref - 1)
  if (s.pages pp).pp_ref = 0 then page_free s pp else .ok s

/-! ## The page tables -/

def pgdir_walk (s : Phys) (pgdir : Nat) (va : Word) (create : Bool) :
    Except Panic (Option PteAddr × Phys) := do
  let pde := s.mem pgdir (PDX va)
  if present pde then
    let pgTab ← KADDR s (PTE_ADDR pde)
    return (some ⟨pgTab, PTX va⟩, s)
  else if !create then
    return (none, s)
  else
    match ← page_alloc s (BitVec.ofNat 32 PGSIZE) with
    | (none, s) => return (none, s)
    | (some newPage, s) =>
      let s := s.setRef newPage ((s.pages newPage).pp_ref + 1)
      let pgTab ← page2kva s newPage
      let s := s.zero pgTab
      let s := s.write pgdir (PDX va) (page2pa newPage ||| PTE_P ||| PTE_W ||| PTE_U)
      return (some ⟨pgTab, PTX va⟩, s)

/-- The page at `va` with the address of its entry, or nothing. The walk
creates no table, so it leaves the state as it is. -/
def page_lookup (s : Phys) (pgdir : Nat) (va : Word) : Except Panic (Option (Nat × PteAddr)) := do
  match ← pgdir_walk s pgdir va false with
  | (some pte, _) =>
    let w := s.mem pte.page pte.idx
    if present w then return some (PGNUM (PTE_ADDR w), pte) else return none
  | (none, _) => return none

def page_remove (s : Phys) (pgdir : Nat) (va : Word) : Except Panic Phys := do
  match ← page_lookup s pgdir va with
  | none => return s
  | some (remPage, pte) =>
    let s ← page_decref s remPage
    return s.write pte.page pte.idx 0

def page_insert (s : Phys) (pgdir pp : Nat) (va perm : Word) : Except Panic (Int × Phys) := do
  match ← pgdir_walk s pgdir va true with
  | (none, s) => return (-E_NO_MEM, s)
  | (some pte, s) =>
    let w := s.mem pte.page pte.idx
    if present w then
      if PTE_ADDR w = page2pa pp then
        return (0, s.write pte.page pte.idx (pteFor pp perm))
      else
        let s ← page_remove s pgdir va
        let s := s.write pte.page pte.idx (pteFor pp perm)
        return (0, s.setRef pp ((s.pages pp).pp_ref + 1))
    else
      let s := s.write pte.page pte.idx (pteFor pp perm)
      return (0, s.setRef pp ((s.pages pp).pp_ref + 1))

/-! ## The fields after a store -/

namespace Phys

variable (s : Phys) (pp p i : Nat) (r : BitVec 16) (l : Option Nat) (w : Word)

@[simp] theorem setRef_npages : (s.setRef pp r).npages = s.npages := rfl
@[simp] theorem setRef_free : (s.setRef pp r).page_free_list = s.page_free_list := rfl
@[simp] theorem setRef_mem : (s.setRef pp r).mem = s.mem := rfl
@[simp] theorem write_npages : (s.write p i w).npages = s.npages := rfl
@[simp] theorem write_free : (s.write p i w).page_free_list = s.page_free_list := rfl
@[simp] theorem zero_npages : (s.zero p).npages = s.npages := rfl
@[simp] theorem zero_free : (s.zero p).page_free_list = s.page_free_list := rfl
@[simp] theorem pushFree_free : (s.pushFree pp).page_free_list = some pp := rfl

/-- The reference counts, and the links of the free list. -/
def ref (p : Nat) : BitVec 16 := (s.pages p).pp_ref

def link (p : Nat) : Option Nat := (s.pages p).pp_link

@[simp] theorem setRef_ref : (s.setRef pp r).ref = Function.update s.ref pp r := by
  funext q; by_cases h : q = pp <;> simp [ref, setRef, h]

@[simp] theorem setRef_link : (s.setRef pp r).link = s.link := by
  funext q; by_cases h : q = pp <;> simp [link, setRef, h]

@[simp] theorem setLink_ref : (s.setLink pp l).ref = s.ref := by
  funext q; by_cases h : q = pp <;> simp [ref, setLink, h]

@[simp] theorem setLink_link : (s.setLink pp l).link = Function.update s.link pp l := by
  funext q; by_cases h : q = pp <;> simp [link, setLink, h]

@[simp] theorem write_ref : (s.write p i w).ref = s.ref := rfl
@[simp] theorem write_link : (s.write p i w).link = s.link := rfl
@[simp] theorem zero_ref : (s.zero p).ref = s.ref := rfl
@[simp] theorem zero_link : (s.zero p).link = s.link := rfl
@[simp] theorem pushFree_ref : (s.pushFree pp).ref = s.ref := setLink_ref ..
@[simp] theorem pushFree_link : (s.pushFree pp).link = Function.update s.link pp s.page_free_list :=
  setLink_link ..

theorem write_mem (q j : Nat) :
    (s.write p i w).mem q j = if q = p ∧ j = i then w else s.mem q j := by
  by_cases hq : q = p
  · subst hq; by_cases hj : j = i <;> simp [write, hj]
  · simp [write, hq]

@[simp] theorem write_write (v : Word) : (s.write p i v).write p i w = s.write p i w := by
  simp [write]

theorem zero_mem (q j : Nat) : (s.zero p).mem q j = if q = p then 0 else s.mem q j := by
  by_cases hq : q = p <;> simp [zero, hq]

end Phys

end jos
