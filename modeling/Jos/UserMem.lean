-- Memory through the page tables: what the kernel and a user read and write
-- at a virtual address, the check of user pointers (`user_mem_check` and
-- `user_mem_assert` of `kern/pmap.c`), and the loop of `cprintf` that
-- prints a string.
import Jos.Sched

namespace jos

abbrev Byte := BitVec 8

/-! ## Virtual memory -/

/-- The page at `va`. Both levels have to be present. -/
def translate (s : Phys) (d : Nat) (va : Word) : Option Nat :=
  (pageOf (s.mem d (PDX va))).bind fun t => pageOf (s.mem t (PTX va))

/-- Both entries for `va` are present and have the bits of `perm`. -/
def allowed (s : Phys) (d : Nat) (va perm : Word) : Bool :=
  let pde := s.mem d (PDX va)
  let pte := s.mem (PGNUM (PTE_ADDR pde)) (PTX va)
  pde &&& (perm ||| PTE_P) == perm ||| PTE_P && pte &&& (perm ||| PTE_P) == perm ||| PTE_P

def byteOf (w : Word) (n : Nat) : Byte := (w >>> (8 * n)).setWidth 8

def setByte (w : Word) (n : Nat) (b : Byte) : Word :=
  (w &&& ~~~((0xFF : Word) <<< (8 * n))) ||| (b.setWidth 32 <<< (8 * n))

namespace Phys

/-- The byte that the kernel reads at `va`, or nothing where it faults. -/
def load (s : Phys) (d : Nat) (va : Word) : Option Byte :=
  (translate s d va).map fun p => byteOf (s.mem p (PGOFF va / 4)) (PGOFF va % 4)

/-- A byte stored at `va`, where both entries have the bits of `perm`. -/
def store (s : Phys) (d : Nat) (va perm : Word) (b : Byte) : Option Phys :=
  if allowed s d va perm then
    (translate s d va).map fun p =>
      s.write p (PGOFF va / 4) (setByte (s.mem p (PGOFF va / 4)) (PGOFF va % 4) b)
  else none

/-- Bytes stored by the kernel from `va` on, which heeds `PTE_W` itself. The
error is the address of the first fault. -/
def storeBytes (s : Phys) (d : Nat) : Word → List Byte → Except Word Phys
  | _, [] => .ok s
  | va, b :: bs =>
    match s.store d va PTE_W b with
    | none => .error va
    | some s => s.storeBytes d (va + 1) bs

end Phys

/-! ## The check of a user's range -/

def ROUNDDOWN (a n : Word) : Word := a - a % n

def ROUNDUP (a n : Word) : Word := ROUNDDOWN (a + n - 1) n

theorem ROUNDDOWN_toNat (a : Word) : (ROUNDDOWN a 0x1000).toNat = a.toNat - a.toNat % 4096 := by
  have hmod : (a % (0x1000 : Word)).toNat = a.toNat % 4096 := BitVec.toNat_umod
  have hlt := a.isLt
  rw [ROUNDDOWN, BitVec.toNat_sub, hmod]
  omega

theorem ROUNDUP_toNat {a : Word} (h : a.toNat + 4095 < 2 ^ 32) :
    (ROUNDUP a 0x1000).toNat = a.toNat + 4095 - (a.toNat + 4095) % 4096 := by
  have hsum : (a + 0x1000 - 1).toNat = a.toNat + 4095 := by
    rw [BitVec.toNat_sub, BitVec.toNat_add]
    simp
    omega
  rw [ROUNDUP, ROUNDDOWN_toNat, hsum]

/-- The pages from `va_beg2` up to `va_end2`: the first address that fails. The
number of turns is a bound that no range reaches. -/
def user_mem_check_pages (s : Phys) (pgdir : Nat) (va_beg va_end2 perm : Word) :
    Nat → Word → Except Panic (Option Word)
  | 0, _ => .ok none
  | n + 1, va_beg2 =>
    if va_beg2 < va_end2 then
      let bad := if va_beg2 > va_beg then va_beg2 else va_beg
      let pde := s.mem pgdir (PDX va_beg2)
      if !present pde then .ok (some bad)
      else
        match KADDR s (PTE_ADDR pde) with
        | .error p => .error p
        | .ok pt_kva =>
          if s.mem pt_kva (PTX va_beg2) &&& perm ≠ perm then .ok (some bad)
          else user_mem_check_pages s pgdir va_beg va_end2 perm n (va_beg2 + 0x1000)
    else .ok none

/-- The first address of the range that fails the check, if one does. -/
def user_mem_check_bad (s : Phys) (pgdir : Nat) (va len perm : Word) :
    Except Panic (Option Word) :=
  let va_end := va + len
  if va ≥ ULIM ∨ va_end ≥ ULIM then .ok (some (if va ≥ ULIM then va else ULIM))
  else
    user_mem_check_pages s pgdir va (ROUNDUP va_end 0x1000) perm (2 ^ 20) (ROUNDDOWN va 0x1000)

def user_mem_check (k : Kernel) (e : EnvIx) (va len perm : Word) : Except Panic (Int × Kernel) :=
  match (k.envs e).env_pgdir with
  | none => .error .null
  | some pgdir =>
    match user_mem_check_bad k.pm pgdir va len perm with
    | .error p => .error p
    | .ok none => .ok (0, k)
    | .ok (some bad) => .ok (-E_FAULT, { k with user_mem_check_addr := bad })

/-! ## The console -/

def text (s : String) : List Byte := s.toList.map fun ch => BitVec.ofNat 8 ch.toNat

/-- `%08x` -/
def hex8 (w : Word) : List Byte :=
  (List.range 8).map fun i =>
    let digit := ((w >>> (28 - 4 * i)) &&& 0xF).toNat
    BitVec.ofNat 8 (if digit < 10 then 48 + digit else 87 + digit)

def Kernel.print (k : Kernel) (out : List Byte) : Kernel := { k with console := k.console ++ out }

def user_mem_assert (k : Kernel) (c : Nat) (e : EnvIx) (va len perm : Word) : Res Unit :=
  match user_mem_check k e va len (perm ||| PTE_U) with
  | .error p => .panic p
  | .ok (r, k) =>
    if r < 0 then
      let k := k.print (text "[" ++ hex8 (k.envs e).env_id ++
        text "] user_mem_check assertion failure for va " ++ hex8 k.user_mem_check_addr ++ text "\n")
      env_destroy k c e
    else .ret () k

/-- How the loop over a string ends: with the characters to print, with a
fault, or not at all. -/
inductive Scan
  | done (out : List Byte)
  | fault (va : Word)
  | endless
deriving DecidableEq

def Scan.put (ch : Byte) : Scan → Scan
  | .done out => .done (ch :: out)
  | .fault va => .fault va
  | .endless => .endless

/-- The loop for `%s` in `vprintfmt`, from `p` on, with the addresses that it
reads. After 2^32 characters it has seen all of memory, and goes on for
ever. -/
def scan (read : Word → Option Byte) : Nat → Word → Int → List Word × Scan
  | 0, _, _ => ([], .endless)
  | n + 1, p, precision =>
    match read p with
    | none => ([p], .fault p)
    | some ch =>
      -- `(ch = *p++) != '\0' && (precision < 0 || --precision >= 0)`: the
      -- character is read before the precision is looked at
      if ch = 0 then ([p], .done [])
      else if precision < 0 then
        let rest := scan read n (p + 1) precision
        (p :: rest.1, rest.2.put ch)
      else if precision - 1 ≥ 0 then
        let rest := scan read n (p + 1) (precision - 1)
        (p :: rest.1, rest.2.put ch)
      else ([p], .done [])

/-- What `cprintf("%.*s", len, s)` reads through `s`, and what comes of it. A
null string is printed as `(null)`, and is not read. -/
def cprintf_s (read : Word → Option Byte) (s len : Word) : List Word × Scan :=
  if s = 0 then
    ([], (scan (fun p => some ((text "(null)").getD p.toNat 0)) (2 ^ 32) 0 len.toInt).2)
  else scan read (2 ^ 32) s len.toInt

/-! ## A trap frame in memory -/

/-- The addresses of a `struct Trapframe` at `va`: 68 bytes. -/
def trapframeBytes (va : Word) : List Word := (List.range 68).map fun i => va + BitVec.ofNat 32 i

def loadWord (read : Word → Option Byte) (va : Word) : Word :=
  let byte := fun i => ((read (va + i)).getD 0).setWidth 32
  byte 0 ||| byte 1 <<< 8 ||| byte 2 <<< 16 ||| byte 3 <<< 24

/-- `*tf`, or the first address that faults. -/
def loadTrapframe (read : Word → Option Byte) (va : Word) : Except Word Trapframe :=
  match (trapframeBytes va).find? fun a => (read a).isNone with
  | some a => .error a
  | none =>
    let word := fun i => loadWord read (va + BitVec.ofNat 32 (4 * i))
    let half := fun i => (word i).setWidth 16
    .ok {
      tf_regs := ⟨word 0, word 1, word 2, word 3, word 4, word 5, word 6, word 7⟩
      tf_es := half 8
      tf_ds := half 9
      tf_trapno := word 10
      tf_err := word 11
      tf_eip := word 12
      tf_cs := half 13
      tf_eflags := word 14
      tf_esp := word 15
      tf_ss := half 16 }

end jos
