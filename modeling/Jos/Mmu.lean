-- Words, addresses and page table entries (`inc/mmu.h`, `inc/memlayout.h`,
-- `inc/error.h`). The macros of the headers are functions here, and each
-- has a law that gives it by division.
import Mathlib

namespace jos

/-- A 32-bit word: `uint32_t`, `uintptr_t`, `physaddr_t`, `pte_t`, `pde_t`,
and, with a sign, `int` and `envid_t`. -/
abbrev Word := BitVec 32

/-! ## The constants of the headers -/

def PGSIZE : Nat := 4096
def NPTENTRIES : Nat := 1024
def PTSIZE : Word := 0x400000

def PTE_P : Word := 0x001
def PTE_W : Word := 0x002
def PTE_U : Word := 0x004
def PTE_A : Word := 0x020
def PTE_D : Word := 0x040
def PTE_AVAIL : Word := 0xE00
def PTE_SYSCALL : Word := PTE_AVAIL ||| PTE_P ||| PTE_W ||| PTE_U

def KERNBASE : Word := 0xF0000000
def KSTACKTOP : Word := KERNBASE
def MMIOLIM : Word := KSTACKTOP - PTSIZE
def MMIOBASE : Word := MMIOLIM - PTSIZE
def ULIM : Word := MMIOBASE
def UVPT : Word := ULIM - PTSIZE
def UPAGES : Word := UVPT - PTSIZE
def UENVS : Word := UPAGES - PTSIZE
def UTOP : Word := UENVS
def UXSTACKTOP : Word := UTOP
def USTACKTOP : Word := UTOP - 0x2000

/-- The error codes. A call that fails returns one of them, negated where
the code does not forget to. -/
def E_BAD_ENV : Int := 2
def E_INVAL : Int := 3
def E_NO_MEM : Int := 4
def E_NO_FREE_ENV : Int := 5
def E_FAULT : Int := 6
def E_IPC_NOT_RECV : Int := 7

/-! ## The macros -/

def PGNUM (la : Word) : Nat := (la >>> 12).toNat

def PDX (la : Word) : Nat := ((la >>> 22) &&& 0x3FF).toNat

def PTX (la : Word) : Nat := ((la >>> 12) &&& 0x3FF).toNat

def PGOFF (la : Word) : Nat := (la &&& 0xFFF).toNat

def PGADDR (d t o : Nat) : Word :=
  BitVec.ofNat 32 d <<< 22 ||| BitVec.ofNat 32 t <<< 12 ||| BitVec.ofNat 32 o

def PTE_ADDR (pte : Word) : Word := pte &&& ~~~0xFFF

/-- The test `pte & PTE_P`. -/
def present (w : Word) : Bool := w &&& PTE_P != 0

/-- The physical address of page `pp`, as `page2pa` gives it. A page is its
index in `pages`. -/
def page2pa (pp : Nat) : Word := BitVec.ofNat 32 pp <<< 12

/-- The page that an entry names, when it is present. -/
def pageOf (w : Word) : Option Nat := if present w then some (PGNUM (PTE_ADDR w)) else none

/-- The entry `page2pa(pp) | PTE_P | perm` that `page_insert` writes. -/
def pteFor (pp : Nat) (perm : Word) : Word := page2pa pp ||| PTE_P ||| perm

/-! ## The macros by division -/

theorem and_low (w : Word) (k : Nat) (h : k ≤ 32) :
    (w &&& BitVec.ofNat 32 (2 ^ k - 1)).toNat = w.toNat % 2 ^ k := by
  have : 2 ^ k - 1 < 2 ^ 32 := by
    have := Nat.pow_le_pow_right (n := 2) (by omega) h
    omega
  rw [BitVec.toNat_and, BitVec.toNat_ofNat, Nat.mod_eq_of_lt this, Nat.and_two_pow_sub_one_eq_mod]

theorem PGNUM_eq (la : Word) : PGNUM la = la.toNat / 4096 := by
  simp [PGNUM, BitVec.toNat_ushiftRight, Nat.shiftRight_eq_div_pow]

theorem PGNUM_lt (la : Word) : PGNUM la < 2 ^ 20 := by
  rw [PGNUM_eq]; have := la.isLt; omega

theorem PDX_eq (la : Word) : PDX la = la.toNat / 4194304 := by
  have h := and_low (la >>> 22) 10 (by omega)
  simp only [Nat.reducePow, Nat.reduceSub, BitVec.toNat_ushiftRight,
    Nat.shiftRight_eq_div_pow] at h
  unfold PDX
  have := la.isLt
  refine h.trans (Nat.mod_eq_of_lt ?_)
  omega

theorem PTX_eq (la : Word) : PTX la = la.toNat / 4096 % 1024 := by
  have h := and_low (la >>> 12) 10 (by omega)
  simp only [Nat.reducePow, Nat.reduceSub, BitVec.toNat_ushiftRight,
    Nat.shiftRight_eq_div_pow] at h
  exact h

theorem PGOFF_eq (la : Word) : PGOFF la = la.toNat % 4096 := and_low la 12 (by omega)

theorem PTX_lt (la : Word) : PTX la < 1024 := by rw [PTX_eq]; omega

theorem PDX_lt (la : Word) : PDX la < 1024 := by rw [PDX_eq]; have := la.isLt; omega

/-- The page number of an address is its two indexes, one after the other. -/
theorem PGNUM_split (la : Word) : PGNUM la = PDX la * 1024 + PTX la := by
  rw [PGNUM_eq, PDX_eq, PTX_eq]; omega

@[simp] theorem UTOP_toNat : UTOP.toNat = 0xEEC00000 := by decide

@[simp] theorem ULIM_toNat : ULIM.toNat = 0xEF800000 := by decide

/-- The number of page directory entries below `UTOP`. -/
def NPDU : Nat := PDX UTOP

theorem NPDU_eq : NPDU = 955 := by decide

theorem PDX_lt_NPDU {va : Word} (h : va < UTOP) : PDX va < NPDU := by
  rw [BitVec.lt_def, UTOP_toNat] at h
  rw [NPDU_eq, PDX_eq]; omega

theorem PGADDR_toNat {i j : Nat} (hi : i < 1024) (hj : j < 1024) :
    (PGADDR i j 0).toNat = i * 4194304 + j * 4096 := by
  have hor : i <<< 22 ||| j <<< 12 = i <<< 22 + j <<< 12 := by
    refine (Nat.shiftLeft_add_eq_or_of_lt ?_ i).symm
    rw [Nat.shiftLeft_eq]
    omega
  simp only [PGADDR, BitVec.toNat_or, BitVec.toNat_shiftLeft, BitVec.toNat_ofNat, Nat.shiftLeft_eq]
    at hor ⊢
  rw [Nat.mod_eq_of_lt (by omega), Nat.mod_eq_of_lt (by omega), Nat.mod_eq_of_lt (by omega),
    Nat.mod_eq_of_lt (by omega), hor]
  simp

theorem PDX_PGADDR {i j : Nat} (hi : i < 1024) (hj : j < 1024) : PDX (PGADDR i j 0) = i := by
  rw [PDX_eq, PGADDR_toNat hi hj]; omega

theorem PTX_PGADDR {i j : Nat} (hi : i < 1024) (hj : j < 1024) : PTX (PGADDR i j 0) = j := by
  rw [PTX_eq, PGADDR_toNat hi hj]; omega

theorem PGADDR_lt_UTOP {i j : Nat} (hi : i < NPDU) (hj : j < 1024) : PGADDR i j 0 < UTOP := by
  rw [NPDU_eq] at hi
  rw [BitVec.lt_def, UTOP_toNat, PGADDR_toNat (by omega) hj]
  omega

/-- The low bits cleared. -/
theorem and_high (w : Word) (k : Nat) :
    w &&& ~~~BitVec.ofNat 32 (2 ^ k - 1) = (w >>> k) <<< k := by
  apply BitVec.eq_of_getLsbD_eq
  intro i hi
  have hlow : (BitVec.ofNat 32 (2 ^ k - 1)).getLsbD i = decide (i < k) := by
    rw [BitVec.getLsbD_ofNat, Nat.testBit_two_pow_sub_one]
    simp [hi]
  simp only [BitVec.getLsbD_and, BitVec.getLsbD_not, hlow, BitVec.getLsbD_shiftLeft,
    BitVec.getLsbD_ushiftRight]
  by_cases hik : i < k
  · simp [hik]
  · have : k + (i - k) = i := by omega
    simp [hi, hik, this]

theorem and_high_toNat (w : Word) (k : Nat) :
    (w &&& ~~~BitVec.ofNat 32 (2 ^ k - 1)).toNat = w.toNat / 2 ^ k * 2 ^ k := by
  rw [and_high w k, BitVec.toNat_shiftLeft, BitVec.toNat_ushiftRight, Nat.shiftLeft_eq,
    Nat.shiftRight_eq_div_pow]
  have := Nat.div_mul_le_self w.toNat (2 ^ k)
  exact Nat.mod_eq_of_lt (Nat.lt_of_le_of_lt this w.isLt)

theorem PTE_ADDR_toNat (w : Word) : (PTE_ADDR w).toNat = w.toNat / 4096 * 4096 :=
  and_high_toNat w 12

@[simp] theorem PGNUM_PTE_ADDR (w : Word) : PGNUM (PTE_ADDR w) = w.toNat / 4096 := by
  rw [PGNUM_eq, PTE_ADDR_toNat]
  omega

theorem present_iff (w : Word) : present w = true ↔ w.toNat % 2 = 1 := by
  have h := and_low w 1 (by omega)
  have hp : w &&& PTE_P = w &&& BitVec.ofNat 32 (2 ^ 1 - 1) := rfl
  rw [present, bne_iff_ne, ne_eq, ← BitVec.toNat_inj, hp, h]
  simp

@[simp] theorem pageOf_zero : pageOf 0#32 = none := by decide

theorem pageOf_eq_some {w : Word} {p : Nat} :
    pageOf w = some p ↔ present w = true ∧ w.toNat / 4096 = p := by
  unfold pageOf
  split <;> simp_all

theorem pageOf_eq_none {w : Word} : pageOf w = none ↔ present w = false := by
  unfold pageOf
  split <;> simp_all

theorem pageOf_lt {w : Word} {p : Nat} (h : pageOf w = some p) : p < 2 ^ 20 := by
  rw [pageOf_eq_some] at h
  have := w.isLt
  omega

/-- Bits below the page and apart from `PTE_P` do not change which page an entry
names. -/
theorem pageOf_or {w m : Word} (hm : m.toNat < 4096) (hp : m &&& PTE_P = 0) :
    pageOf (w ||| m) = pageOf w := by
  have hpres : present (w ||| m) = present w := by
    unfold present
    have hor : (w ||| m) &&& PTE_P = (w &&& PTE_P) ||| (m &&& PTE_P) := by
      apply BitVec.eq_of_getLsbD_eq
      intro i _
      simp only [BitVec.getLsbD_and, BitVec.getLsbD_or, Bool.and_or_distrib_right]
    rw [hor, hp]
    simp
  have hnum : (w ||| m).toNat / 4096 = w.toNat / 4096 := by
    have hshift : m >>> 12 = 0#32 := by
      apply BitVec.eq_of_toNat_eq
      rw [BitVec.toNat_ushiftRight, Nat.shiftRight_eq_div_pow]
      exact Nat.div_eq_of_lt hm
    have h := congrArg BitVec.toNat (BitVec.ushiftRight_or_distrib w m 12)
    rw [hshift, BitVec.or_zero, BitVec.toNat_ushiftRight, BitVec.toNat_ushiftRight,
      Nat.shiftRight_eq_div_pow, Nat.shiftRight_eq_div_pow] at h
    exact h
  unfold pageOf
  rw [hpres, PGNUM_PTE_ADDR, PGNUM_PTE_ADDR, hnum]

/-! ## Entries that the kernel writes -/

theorem page2pa_toNat {pp : Nat} (h : pp < 2 ^ 20) : (page2pa pp).toNat = pp * 4096 := by
  rw [page2pa, BitVec.toNat_shiftLeft, BitVec.toNat_ofNat, Nat.shiftLeft_eq]
  omega

theorem or_lt_page {a b : Word} (ha : a.toNat < 4096) (hb : b.toNat < 4096) :
    (a ||| b).toNat < 4096 := by
  rw [BitVec.toNat_or]
  exact Nat.or_lt_two_pow (n := 12) ha hb

/-- With a permission word below `0x1000`, the entry is the page and, below
it, the permissions with `PTE_P`. -/
theorem pteFor_toNat {pp : Nat} {perm : Word} (hp : pp < 2 ^ 20) (hperm : perm.toNat < 4096) :
    (pteFor pp perm).toNat = pp * 4096 + (perm ||| PTE_P).toNat := by
  have hlow : (perm ||| PTE_P).toNat < 2 ^ 12 := or_lt_page hperm (by decide)
  have h : pteFor pp perm = page2pa pp ||| (perm ||| PTE_P) := by
    unfold pteFor
    rw [BitVec.or_assoc, BitVec.or_comm PTE_P perm]
  have hsh : pp * 4096 = pp <<< 12 := by rw [Nat.shiftLeft_eq]
  rw [h, BitVec.toNat_or, page2pa_toNat hp, hsh, Nat.shiftLeft_add_eq_or_of_lt hlow]

@[simp] theorem present_pteFor (pp : Nat) (perm : Word) : present (pteFor pp perm) = true := by
  have h : (pteFor pp perm).toNat.testBit 0 = true := by
    simp [pteFor, PTE_P, BitVec.toNat_or]
  rw [Nat.testBit_zero, decide_eq_true_eq] at h
  exact (present_iff _).mpr h

@[simp] theorem pageOf_pteFor {pp : Nat} {perm : Word} (hp : pp < 2 ^ 20)
    (hperm : perm.toNat < 4096) : pageOf (pteFor pp perm) = some pp := by
  have hlow : (perm ||| PTE_P).toNat < 4096 := or_lt_page hperm (by decide)
  rw [pageOf_eq_some, pteFor_toNat hp hperm]
  exact ⟨present_pteFor pp perm, by omega⟩

/-- The low 12 bits of an entry: its permissions. -/
def permOf (w : Word) : Word := w &&& 0xFFF

theorem permOf_toNat (w : Word) : (permOf w).toNat = w.toNat % 4096 := and_low w 12 (by omega)

theorem permOf_pteFor {pp : Nat} {perm : Word} (hp : pp < 2 ^ 20) (hperm : perm.toNat < 4096) :
    permOf (pteFor pp perm) = perm ||| PTE_P := by
  have hlow : (perm ||| PTE_P).toNat < 4096 := or_lt_page hperm (by decide)
  rw [← BitVec.toNat_inj, permOf_toNat, pteFor_toNat hp hperm]
  omega

end jos
