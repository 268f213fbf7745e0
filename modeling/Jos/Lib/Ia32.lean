-- A part of the IA-32: the general registers, `eip`, `eflags`, memory behind a
-- paged address space, and the instructions that move data between them and
-- a stack. An instruction whose access the address space refuses has no
-- result.
import Mathlib

namespace ia32

abbrev Word := BitVec 32
abbrev Byte := BitVec 8

/-! ## Bytes of a word -/

def byte (w : Word) (n : Nat) : Byte := (w >>> (8 * n)).setWidth 8

def bytes (w : Word) : List Byte := [byte w 0, byte w 1, byte w 2, byte w 3]

def join (b₀ b₁ b₂ b₃ : Byte) : Word :=
  b₀.setWidth 32 ||| b₁.setWidth 32 <<< 8 ||| b₂.setWidth 32 <<< 16 ||| b₃.setWidth 32 <<< 24

theorem join_bytes (w : Word) : join (byte w 0) (byte w 1) (byte w 2) (byte w 3) = w := by
  apply BitVec.eq_of_getLsbD_eq
  intro i hi
  simp only [join, byte, BitVec.getLsbD_or, BitVec.getLsbD_shiftLeft, BitVec.getLsbD_setWidth,
    BitVec.getLsbD_ushiftRight]
  -- the bit comes from the byte that it lies in
  rcases (by omega : i < 8 ∨ (8 ≤ i ∧ i < 16) ∨ (16 ≤ i ∧ i < 24) ∨ 24 ≤ i) with h | h | h | h
  · simp [hi, h, show i < 16 by omega, show i < 24 by omega]
  · simp [hi, h, show ¬ i < 8 by omega, show i < 24 by omega, show i - 8 < 8 by omega,
      show i - 8 < 32 by omega, show 8 + (i - 8) = i by omega]
  · simp [hi, h, show ¬ i < 8 by omega, show ¬ i < 16 by omega, show ¬ i - 8 < 8 by omega,
      show i - 16 < 8 by omega, show i - 16 < 32 by omega, show 16 + (i - 16) = i by omega]
  · simp [hi, show ¬ i < 8 by omega, show ¬ i < 16 by omega, show ¬ i < 24 by omega,
      show ¬ i - 8 < 8 by omega, show ¬ i - 16 < 8 by omega, show i - 24 < 8 by omega,
      show i - 24 < 32 by omega, show 24 + (i - 24) = i by omega]

/-! ## Memory -/

/-- Memory as a user sees it: the cell at an address, if it may be read,
whether it may be written, and the contents of the cells. Two addresses
may name one cell, but only at the same place of a page. -/
@[ext]
structure Space where
  cell : Word → Option Nat
  writable : Word → Bool
  contents : Nat → Byte
  readable : ∀ a, writable a = true → (cell a).isSome
  offset : ∀ a c, cell a = some c → c % 4096 = a.toNat % 4096

namespace Space

variable (m : Space)

def load (a : Word) : Option Byte := (m.cell a).map m.contents

def put (c : Nat) (b : Byte) : Space := { m with contents := Function.update m.contents c b }

def store (a : Word) (b : Byte) : Option Space :=
  if m.writable a then (m.cell a).map fun c => m.put c b else none

def storeBytes (m : Space) : Word → List Byte → Option Space
  | _, [] => some m
  | a, b :: bs => (m.store a b).bind fun m => m.storeBytes (a + 1) bs

def loadWord (a : Word) : Option Word :=
  (m.load a).bind fun b₀ => (m.load (a + 1#32)).bind fun b₁ =>
    (m.load (a + 2#32)).bind fun b₂ => (m.load (a + 3#32)).map fun b₃ => join b₀ b₁ b₂ b₃

def storeWord (a w : Word) : Option Space := m.storeBytes a (bytes w)

variable {m} {m' : Space} {a b : Word}

/-- The same addresses name the same cells, and may be written. -/
def SameMap (m m' : Space) : Prop := m'.cell = m.cell ∧ m'.writable = m.writable

theorem SameMap.rfl : SameMap m m := ⟨Eq.refl _, Eq.refl _⟩

theorem SameMap.trans {m'' : Space} (h : SameMap m m') (h' : SameMap m' m'') : SameMap m m'' :=
  ⟨h'.1.trans h.1, h'.2.trans h.2⟩

theorem store_eq {x : Byte} (h : m.store a x = some m') :
    ∃ c, m.cell a = some c ∧ m' = m.put c x := by
  unfold store at h
  split at h
  · obtain ⟨c, hc, rfl⟩ := Option.map_eq_some_iff.mp h
    exact ⟨c, hc, Eq.refl _⟩
  · cases h

theorem store_some (x : Byte) (h : m.writable a = true) : ∃ m', m.store a x = some m' := by
  obtain ⟨c, hc⟩ := Option.isSome_iff_exists.mp (m.readable a h)
  exact ⟨m.put c x, by rw [store, if_pos h, hc]; exact Eq.refl _⟩

theorem put_map (c : Nat) (x : Byte) : SameMap m (m.put c x) := ⟨Eq.refl _, Eq.refl _⟩

theorem storeBytes_map {bs : List Byte} (h : m.storeBytes a bs = some m') : SameMap m m' := by
  induction bs generalizing m a with
  | nil => cases h; exact .rfl
  | cons x bs ih =>
    obtain ⟨m₁, hs, h⟩ := Option.bind_eq_some_iff.mp h
    obtain ⟨c, -, rfl⟩ := store_eq hs
    exact (put_map c x).trans (ih h)

theorem add_succ (a : Word) (i : Nat) :
    a + 1 + BitVec.ofNat 32 i = a + BitVec.ofNat 32 (i + 1) := by
  rw [BitVec.add_assoc, Nat.add_comm, BitVec.ofNat_add]
  exact Eq.refl _

theorem storeBytes_some {bs : List Byte}
    (h : ∀ i < bs.length, m.writable (a + BitVec.ofNat 32 i) = true) :
    ∃ m', m.storeBytes a bs = some m' := by
  induction bs generalizing m a with
  | nil => exact ⟨m, Eq.refl _⟩
  | cons x bs ih =>
    obtain ⟨m₁, hs⟩ := store_some x (by simpa using h 0 (Nat.succ_pos _))
    obtain ⟨c, -, rfl⟩ := store_eq hs
    obtain ⟨m', hm'⟩ := @ih (m.put c x) (a + 1) fun i hi => by
      rw [add_succ]; exact h (i + 1) (Nat.succ_lt_succ hi)
    exact ⟨m', by rw [storeBytes, hs, Option.bind_some, hm']⟩

theorem storeBytes_writable {bs : List Byte} (h : m.storeBytes a bs = some m') :
    ∀ i < bs.length, m.writable (a + BitVec.ofNat 32 i) = true := by
  induction bs generalizing m a with
  | nil => intro i hi; cases hi
  | cons x bs ih =>
    obtain ⟨m₁, hs, h⟩ := Option.bind_eq_some_iff.mp h
    have hw : m.writable a = true := by
      unfold store at hs
      split at hs
      · assumption
      · cases hs
    obtain ⟨c, -, rfl⟩ := store_eq hs
    rintro (_ | i) hi
    · simpa using hw
    · rw [← add_succ]; exact ih h i (Nat.lt_of_succ_lt_succ hi)

theorem storeBytes_contents {bs : List Byte} {c : Nat} (h : m.storeBytes a bs = some m')
    (hc : ∀ i < bs.length, m.cell (a + BitVec.ofNat 32 i) ≠ some c) :
    m'.contents c = m.contents c := by
  induction bs generalizing m a with
  | nil => cases h; exact Eq.refl _
  | cons x bs ih =>
    obtain ⟨m₁, hs, h⟩ := Option.bind_eq_some_iff.mp h
    obtain ⟨c', hc', rfl⟩ := store_eq hs
    have hne : c ≠ c' := by
      rintro rfl
      exact hc 0 (Nat.succ_pos _) (by simpa using hc')
    rw [ih h fun i hi => by rw [add_succ]; exact hc (i + 1) (Nat.succ_lt_succ hi)]
    exact Function.update_of_ne hne ..

/-- An address that shares no cell with those stored to keeps its byte. -/
theorem load_storeBytes_other {bs : List Byte} (h : m.storeBytes a bs = some m')
    (hb : ∀ i < bs.length, m.cell b ≠ none → m.cell (a + BitVec.ofNat 32 i) ≠ m.cell b) :
    m'.load b = m.load b := by
  rw [load, load, (storeBytes_map h).1]
  rcases hc : m.cell b with _ | c
  · exact Eq.refl _
  · rw [Option.map_some, Option.map_some, storeBytes_contents h fun i hi => ?_]
    rw [← hc]
    exact hb i hi (by rw [hc]; exact Option.some_ne_none c)

theorem cell_ne {i : Nat} (hi : 0 < i) (hi' : i < 4096) (hc : m.cell a ≠ none) :
    m.cell (a + BitVec.ofNat 32 i) ≠ m.cell a := by
  intro heq
  obtain ⟨c, hc⟩ := Option.ne_none_iff_exists'.mp hc
  have h₁ := m.offset a c hc
  have h₂ := m.offset _ c (heq.trans hc)
  rw [BitVec.toNat_add, BitVec.toNat_ofNat] at h₂
  omega

theorem load_storeBytes {bs : List Byte} (h : m.storeBytes a bs = some m')
    (hlen : bs.length ≤ 4096) {i : Nat} (hi : i < bs.length) :
    m'.load (a + BitVec.ofNat 32 i) = bs[i]? := by
  induction bs generalizing m a i with
  | nil => cases hi
  | cons x bs ih =>
    obtain ⟨m₁, hs, h⟩ := Option.bind_eq_some_iff.mp h
    obtain ⟨c, hc, rfl⟩ := store_eq hs
    have hlen' : bs.length + 1 ≤ 4096 := hlen
    rcases i with _ | i
    · -- the bytes that follow lie in other cells
      rw [BitVec.add_zero, load_storeBytes_other h fun j hj hne => ?_]
      · have hc' : (m.put c x).cell a = some c := hc
        rw [load, hc', Option.map_some]
        exact congrArg some (Function.update_self ..)
      · rw [add_succ]
        exact cell_ne (Nat.succ_pos j) (by omega) hne
    · rw [← add_succ]
      exact ih h (by omega) (Nat.lt_of_succ_lt_succ hi)

/-! ### Words -/

theorem loadWord_congr
    (h : ∀ i < 4, m'.load (a + BitVec.ofNat 32 i) = m.load (a + BitVec.ofNat 32 i)) :
    m'.loadWord a = m.loadWord a := by
  have h₀ := h 0 (by omega)
  have h₁ := h 1 (by omega)
  have h₂ := h 2 (by omega)
  have h₃ := h 3 (by omega)
  rw [BitVec.add_zero] at h₀
  simp only [loadWord, h₀, h₁, h₂, h₃]

theorem loadWord_of_bytes {w : Word}
    (h : ∀ i < 4, m.load (a + BitVec.ofNat 32 i) = some (byte w i)) : m.loadWord a = some w := by
  have h₀ := h 0 (by omega)
  have h₁ := h 1 (by omega)
  have h₂ := h 2 (by omega)
  have h₃ := h 3 (by omega)
  rw [BitVec.add_zero] at h₀
  simp only [loadWord, h₀, h₁, h₂, h₃, Option.bind_some, Option.map_some, join_bytes]

theorem storeWord_map {w : Word} (h : m.storeWord a w = some m') : SameMap m m' :=
  storeBytes_map h

theorem storeWord_some (w : Word) (h : ∀ i < 4, m.writable (a + BitVec.ofNat 32 i) = true) :
    ∃ m', m.storeWord a w = some m' :=
  storeBytes_some h

theorem loadWord_storeWord {w : Word} (h : m.storeWord a w = some m') :
    m'.loadWord a = some w := by
  refine loadWord_of_bytes fun i hi => ?_
  rw [load_storeBytes h (show (4 : Nat) ≤ 4096 by decide) hi]
  rcases (by omega : i = 0 ∨ i = 1 ∨ i = 2 ∨ i = 3) with rfl | rfl | rfl | rfl <;> exact Eq.refl _

theorem load_storeWord_other {w : Word} (h : m.storeWord a w = some m')
    (hb : ∀ i < 4, m.cell b ≠ none → m.cell (a + BitVec.ofNat 32 i) ≠ m.cell b) :
    m'.load b = m.load b :=
  load_storeBytes_other h hb

theorem add_ofNat (a : Word) (i j : Nat) :
    a + BitVec.ofNat 32 i + BitVec.ofNat 32 j = a + BitVec.ofNat 32 (i + j) := by
  rw [BitVec.add_assoc, BitVec.ofNat_add]

theorem flatMap_bytes {ws : List Word} {n i : Nat} {w : Word} (hw : ws[n]? = some w)
    (hi : i < 4) : (ws.flatMap bytes)[4 * n + i]? = some (byte w i) := by
  induction ws generalizing n with
  | nil => cases hw
  | cons v ws ih =>
    rw [List.flatMap_cons]
    rcases n with _ | n
    · cases hw
      rcases (by omega : i = 0 ∨ i = 1 ∨ i = 2 ∨ i = 3) with rfl | rfl | rfl | rfl <;>
        exact Eq.refl _
    · rw [List.getElem?_append_right (show 4 ≤ _ by omega), ← ih hw]
      congr 1
      change 4 * (n + 1) + i - 4 = _
      omega

/-- Of words stored one after the other each is there to be read. -/
theorem loadWord_storeBytes {ws : List Word} (h : m.storeBytes a (ws.flatMap bytes) = some m')
    (hlen : ws.length ≤ 1024) {n : Nat} {w : Word} (hw : ws[n]? = some w) :
    m'.loadWord (a + BitVec.ofNat 32 (4 * n)) = some w := by
  have hbytes : (ws.flatMap bytes).length = 4 * ws.length := by
    simp [List.length_flatMap, bytes, Nat.mul_comm]
  have hn : n < ws.length := (List.getElem?_eq_some_iff.mp hw).1
  refine loadWord_of_bytes fun i hi => ?_
  rw [add_ofNat, load_storeBytes h (by omega) (by omega), flatMap_bytes hw hi]

end Space

/-! ## Registers and flags -/

inductive Reg
  | eax
  | ecx
  | edx
  | ebx
  | esp
  | ebp
  | esi
  | edi
deriving DecidableEq

structure Cpu where
  gpr : Reg → Word
  eip : Word
  eflags : Word

structure State extends Cpu where
  mem : Space

/-- The flags that an addition sets: `CF`, `PF`, `AF`, `ZF`, `SF` and `OF`. -/
def addFlags (a b : Word) : Word :=
  let sum := a + b
  let flag := fun (set : Bool) (bit : Word) => if set then bit else 0
  let ones := ((List.range 8).filter fun i => sum.getLsbD i).length
  flag (2 ^ 32 ≤ a.toNat + b.toNat) 0x1 ||| flag (ones % 2 = 0) 0x4 |||
    flag (16 ≤ a.toNat % 16 + b.toNat % 16) 0x10 ||| flag (sum = 0) 0x40 |||
    flag sum.msb 0x80 ||| flag (a.msb = b.msb && sum.msb != a.msb) 0x800

/-- The flags that `popf` takes from the stack outside the kernel. The interrupt
flag is one of them where the privilege level for I/O is 3. -/
def popfMask (eflags : Word) : Word :=
  if eflags &&& 0x3000 = 0x3000 then 0x244FD5 else 0x244DD5

/-- The flags after `popf`, from those before and the word popped. -/
def popfFlags (eflags w : Word) : Word :=
  (eflags &&& ~~~(popfMask eflags)) ||| (w &&& popfMask eflags)

theorem and_merge (a b mask c : Word) :
    ((a &&& ~~~mask) ||| (b &&& mask)) &&& c = (a &&& (~~~mask &&& c)) ||| (b &&& (mask &&& c)) := by
  have hbits : ∀ a b mask c : Bool,
      ((a && !mask || b && mask) && c) = (a && (!mask && c) || b && (mask && c)) := by decide
  ext i hi
  simp only [BitVec.getElem_and, BitVec.getElem_or, BitVec.getElem_not]
  exact hbits ..

/-- `popf` leaves the privilege level for I/O. -/
theorem popfMask_popfFlags (eflags w : Word) :
    popfMask (popfFlags eflags w) = popfMask eflags := by
  have hiopl : popfFlags eflags w &&& 0x3000 = eflags &&& 0x3000 := by
    rw [popfFlags, and_merge]
    have hmask : ~~~(popfMask eflags) &&& 0x3000 = 0x3000 ∧ popfMask eflags &&& 0x3000 = 0 := by
      unfold popfMask
      split <;> decide
    rw [hmask.1, hmask.2]
    simp
  rw [popfMask, hiopl, popfMask]

theorem popfFlags_and (eflags w : Word) :
    popfFlags eflags w &&& popfMask eflags = w &&& popfMask eflags := by
  rw [popfFlags, and_merge, BitVec.and_self]
  simp

/-! ## Instructions -/

inductive Addr
  | abs (a : Word)
  | at (disp : Word) (base : Reg)

inductive Instr
  | pushl (r : Reg)
  | popl (r : Reg)
  | movl (src dst : Reg)
  | load (src : Addr) (dst : Reg)
  | store (src : Reg) (dst : Addr)
  | addl (imm : Word) (dst : Reg)
  | call (r : Reg)
  | popal
  | popfl
  | ret

/-- The length of the encoding, with displacements and immediates of one byte,
and absolute addresses in `eax`. -/
def Instr.size : Instr → Nat
  | .pushl _ | .popl _ | .popal | .popfl | .ret => 1
  | .movl _ _ | .call _ => 2
  | .addl _ _ => 3
  | .load (.abs _) _ | .store _ (.abs _) => 5
  | .load (.at _ r) _ | .store _ (.at _ r) => if r = .esp then 4 else 3

namespace State

variable (s : State)

def set (r : Reg) (w : Word) : State := { s with gpr := Function.update s.gpr r w }

def ea : Addr → Word
  | .abs a => a
  | .at disp base => s.gpr base + disp

def push (w : Word) : Option State :=
  (s.mem.storeWord (s.gpr .esp - 4) w).map fun mem =>
    { s.set .esp (s.gpr .esp - 4) with mem := mem }

/-- The word on the stack, and the state without it. -/
def pop : Option (Word × State) :=
  (s.mem.loadWord (s.gpr .esp)).map fun w => (w, s.set .esp (s.gpr .esp + 4))

/-- `popa` takes the registers one after the other, and skips that for `esp`. -/
def popRegs (s : State) : List Reg → Option State
  | [] => some s
  | r :: rs =>
    if r = .esp then (s.set .esp (s.gpr .esp + 4)).popRegs rs
    else s.pop.bind fun (w, s) => (s.set r w).popRegs rs

def next (i : Instr) : State := { s with eip := s.eip + BitVec.ofNat 32 i.size }

/-- One instruction, or nothing where it faults. -/
def exec : Instr → Option State
  | i@(.pushl r) => (s.push (s.gpr r)).map (next · i)
  | i@(.popl r) => s.pop.map fun (w, s) => (s.set r w).next i
  | i@(.movl src dst) => some ((s.set dst (s.gpr src)).next i)
  | i@(.load src dst) => (s.mem.loadWord (s.ea src)).map fun w => (s.set dst w).next i
  | i@(.store src dst) =>
    (s.mem.storeWord (s.ea dst) (s.gpr src)).map fun mem => next { s with mem := mem } i
  | i@(.addl imm dst) =>
    let sum := s.set dst (s.gpr dst + imm)
    some (next { sum with eflags := (s.eflags &&& ~~~0x8D5) ||| addFlags (s.gpr dst) imm } i)
  | i@(.call r) => (s.push (s.next i).eip).map fun s' => { s' with eip := s.gpr r }
  | i@(.popal) => (s.popRegs [.edi, .esi, .ebp, .esp, .ebx, .edx, .ecx, .eax]).map (next · i)
  | i@(.popfl) =>
    s.pop.map fun (w, s) => next { s with eflags := popfFlags s.eflags w } i
  | .ret => s.pop.map fun (w, s) => { s with eip := w }

@[simp] theorem set_gpr (r : Reg) (w : Word) : (s.set r w).gpr = Function.update s.gpr r w := rfl

@[simp] theorem set_eip (r : Reg) (w : Word) : (s.set r w).eip = s.eip := rfl

@[simp] theorem set_eflags (r : Reg) (w : Word) : (s.set r w).eflags = s.eflags := rfl

@[simp] theorem set_mem (r : Reg) (w : Word) : (s.set r w).mem = s.mem := rfl

@[simp] theorem next_gpr (i : Instr) : (s.next i).gpr = s.gpr := rfl

@[simp] theorem next_eip (i : Instr) : (s.next i).eip = s.eip + BitVec.ofNat 32 i.size := rfl

@[simp] theorem next_eflags (i : Instr) : (s.next i).eflags = s.eflags := rfl

@[simp] theorem next_mem (i : Instr) : (s.next i).mem = s.mem := rfl

/-! ### What each instruction does -/

variable {s}

theorem pop_eq {w : Word} (h : s.mem.loadWord (s.gpr .esp) = some w) :
    s.pop = some (w, s.set .esp (s.gpr .esp + 4)) := by
  rw [pop, h, Option.map_some]

theorem push_eq {w : Word} {mem : Space} (h : s.mem.storeWord (s.gpr .esp - 4) w = some mem) :
    s.push w = some { s.set .esp (s.gpr .esp - 4) with mem := mem } := by
  rw [push, h, Option.map_some]

theorem exec_pushl {r : Reg} {mem : Space}
    (h : s.mem.storeWord (s.gpr .esp - 4) (s.gpr r) = some mem) :
    s.exec (.pushl r) =
      some (next { s.set .esp (s.gpr .esp - 4) with mem := mem } (.pushl r)) := by
  rw [exec, push_eq h, Option.map_some]

theorem exec_popl {r : Reg} {w : Word} (h : s.mem.loadWord (s.gpr .esp) = some w) :
    s.exec (.popl r) = some (((s.set .esp (s.gpr .esp + 4)).set r w).next (.popl r)) := by
  rw [exec, pop_eq h, Option.map_some]

theorem exec_load {src : Addr} {dst : Reg} {w : Word} (h : s.mem.loadWord (s.ea src) = some w) :
    s.exec (.load src dst) = some ((s.set dst w).next (.load src dst)) := by
  rw [exec, h, Option.map_some]

theorem exec_store {src : Reg} {dst : Addr} {mem : Space}
    (h : s.mem.storeWord (s.ea dst) (s.gpr src) = some mem) :
    s.exec (.store src dst) = some (next { s with mem := mem } (.store src dst)) := by
  rw [exec, h, Option.map_some]

theorem exec_popfl {w : Word} (h : s.mem.loadWord (s.gpr .esp) = some w) :
    s.exec .popfl = some (next { s.set .esp (s.gpr .esp + 4) with
      eflags := popfFlags s.eflags w } .popfl) := by
  rw [exec, pop_eq h, Option.map_some]
  rfl

theorem exec_ret {w : Word} (h : s.mem.loadWord (s.gpr .esp) = some w) :
    s.exec .ret = some { s.set .esp (s.gpr .esp + 4) with eip := w } := by
  rw [exec, pop_eq h, Option.map_some]

/-- Registers taken from the stack, which holds `vals`. -/
theorem popRegs_eq {rs : List Reg} {vals : Reg → Word}
    (h : ∀ i r, rs[i]? = some r → r ≠ .esp →
      s.mem.loadWord (s.gpr .esp + BitVec.ofNat 32 (4 * i)) = some (vals r)) :
    ∃ s', s.popRegs rs = some s' ∧ s'.mem = s.mem ∧ s'.eip = s.eip ∧ s'.eflags = s.eflags ∧
      s'.gpr .esp = s.gpr .esp + BitVec.ofNat 32 (4 * rs.length) ∧
      ∀ r, r ≠ .esp → s'.gpr r = if r ∈ rs then vals r else s.gpr r := by
  induction rs generalizing s with
  | nil => exact ⟨s, rfl, rfl, rfl, rfl, (BitVec.add_zero _).symm, fun r _ => rfl⟩
  | cons r rs ih =>
    -- the stack pointer moves on by a word, whether or not the word is taken
    have hnext : ∀ s₁ : State, s₁.mem = s.mem → s₁.gpr .esp = s.gpr .esp + 4 →
        ∀ i r', rs[i]? = some r' → r' ≠ .esp →
          s₁.mem.loadWord (s₁.gpr .esp + BitVec.ofNat 32 (4 * i)) = some (vals r') := by
      intro s₁ hmem hesp i r' hr' hne
      rw [hmem, hesp, ← h (i + 1) r' hr' hne, BitVec.add_assoc]
      congr 2
      rw [Nat.mul_succ, Nat.add_comm, BitVec.ofNat_add]
      rfl
    have hlen : ∀ a : Word, a + 4 + BitVec.ofNat 32 (4 * rs.length) =
        a + BitVec.ofNat 32 (4 * (rs.length + 1)) := by
      intro a
      rw [BitVec.add_assoc, Nat.mul_succ, Nat.add_comm, BitVec.ofNat_add]
      rfl
    by_cases hr : r = .esp
    · subst hr
      obtain ⟨s', hs', hmem, heip, hfl, hesp, hregs⟩ :=
        @ih (s.set .esp (s.gpr .esp + 4)) (hnext _ rfl (by rw [set_gpr, Function.update_self]))
      refine ⟨s', by rw [popRegs, if_pos rfl, hs'], hmem, heip, hfl, ?_, fun r' hr' => ?_⟩
      · rw [hesp, set_gpr, Function.update_self, hlen, List.length_cons]
      · rw [hregs r' hr', set_gpr, Function.update_of_ne hr']
        simp only [List.mem_cons, hr', false_or]
    · have hw : s.mem.loadWord (s.gpr .esp) = some (vals r) := by
        have := h 0 r rfl hr
        rwa [Nat.mul_zero, BitVec.add_zero] at this
      obtain ⟨s', hs', hmem, heip, hfl, hesp, hregs⟩ :=
        @ih ((s.set .esp (s.gpr .esp + 4)).set r (vals r)) (hnext _ rfl (by
          rw [set_gpr, Function.update_of_ne (Ne.symm hr), set_gpr, Function.update_self]))
      refine ⟨s', ?_, hmem, heip, hfl, ?_, fun r' hr' => ?_⟩
      · rw [popRegs, if_neg hr, pop_eq hw, Option.bind_some]
        exact hs'
      · rw [hesp, set_gpr, Function.update_of_ne (Ne.symm hr), set_gpr, Function.update_self, hlen,
          List.length_cons]
      · rw [hregs r' hr', set_gpr, set_gpr]
        by_cases heq : r' = r
        · subst heq
          simp only [Function.update_self, ite_self, List.mem_cons, true_or, if_true]
        · simp only [Function.update_of_ne heq, Function.update_of_ne hr', List.mem_cons, heq,
            false_or]

theorem popRegs_eip {rs : List Reg} {s' : State} (h : s.popRegs rs = some s') :
    s'.eip = s.eip := by
  induction rs generalizing s with
  | nil => cases h; rfl
  | cons r rs ih =>
    rw [popRegs] at h
    split at h
    · exact (ih h).trans rfl
    · obtain ⟨⟨w, s₁⟩, hp, h⟩ := Option.bind_eq_some_iff.mp h
      obtain ⟨_, -, heq⟩ := Option.map_eq_some_iff.mp hp
      cases heq
      exact (ih h).trans rfl

/-- After every instruction but `call` and `ret` the next one runs. -/
theorem exec_eip {i : Instr} {s' : State} (h : s.exec i = some s') (hcall : ∀ r, i ≠ .call r)
    (hret : i ≠ .ret) : s'.eip = s.eip + BitVec.ofNat 32 i.size := by
  have hpop : ∀ {w : Word} {s₁ : State}, s.pop = some (w, s₁) → s₁.eip = s.eip := by
    intro w s₁ hp
    obtain ⟨_, -, heq⟩ := Option.map_eq_some_iff.mp hp
    cases heq
    rfl
  cases i with
  | pushl r =>
    obtain ⟨s₁, hpush, rfl⟩ := Option.map_eq_some_iff.mp h
    obtain ⟨_, -, rfl⟩ := Option.map_eq_some_iff.mp hpush
    rfl
  | popl r =>
    obtain ⟨⟨w, s₁⟩, hp, rfl⟩ := Option.map_eq_some_iff.mp h
    rw [← hpop hp]
    rfl
  | movl src dst => cases h; rfl
  | load src dst => obtain ⟨_, -, rfl⟩ := Option.map_eq_some_iff.mp h; rfl
  | store src dst => obtain ⟨_, -, rfl⟩ := Option.map_eq_some_iff.mp h; rfl
  | addl imm dst => cases h; rfl
  | call r => exact absurd rfl (hcall r)
  | popal =>
    obtain ⟨s₁, hp, rfl⟩ := Option.map_eq_some_iff.mp h
    rw [next_eip, popRegs_eip hp]
  | popfl =>
    obtain ⟨⟨w, s₁⟩, hp, rfl⟩ := Option.map_eq_some_iff.mp h
    rw [← hpop hp]
    rfl
  | ret => exact absurd rfl hret

end State

/-! ## Code in memory -/

/-- Where the `n`th instruction begins. -/
def offset (code : List Instr) (n : Nat) : Nat := ((code.take n).map Instr.size).sum

theorem Instr.size_pos (i : Instr) : 0 < i.size := by
  rcases i with _ | _ | _ | (_ | _) | ⟨_, _ | _⟩ | _ | _ | _ | _ | _ <;> simp only [Instr.size] <;>
    first | omega | (split <;> omega)

theorem Instr.size_le (i : Instr) : i.size ≤ 5 := by
  rcases i with _ | _ | _ | (_ | _) | ⟨_, _ | _⟩ | _ | _ | _ | _ | _ <;> simp only [Instr.size] <;>
    first | omega | (split <;> omega)

theorem offset_le (code : List Instr) (n : Nat) : offset code n ≤ 5 * n := by
  induction code generalizing n with
  | nil => simp [offset]
  | cons i is ih =>
    rcases n with _ | n
    · exact Nat.le_refl _
    · have hoff : offset (i :: is) (n + 1) = i.size + offset is n := rfl
      have := ih n
      have := i.size_le
      omega

theorem offset_succ {code : List Instr} {n : Nat} {i : Instr} (h : code[n]? = some i) :
    offset code (n + 1) = offset code n + i.size := by
  rw [offset, List.take_add_one, h, List.map_append, List.sum_append]
  rfl

/-- The instruction that begins at `eip`, by its number. -/
def indexAt : List Instr → Word → Word → Option Nat
  | [], _, _ => none
  | i :: is, base, eip =>
    if eip = base then some 0 else (indexAt is (base + BitVec.ofNat 32 i.size) eip).map (· + 1)

theorem indexAt_eq {code : List Instr} {base eip : Word} {n : Nat}
    (h : indexAt code base eip = some n) :
    n < code.length ∧ eip = base + BitVec.ofNat 32 (offset code n) := by
  induction code generalizing base n with
  | nil => cases h
  | cons i is ih =>
    rw [indexAt] at h
    split at h
    · cases h
      rename_i heq
      exact ⟨Nat.succ_pos _, by rw [heq]; exact (BitVec.add_zero base).symm⟩
    · obtain ⟨n, hn, rfl⟩ := Option.map_eq_some_iff.mp h
      obtain ⟨hlt, heip⟩ := ih hn
      exact ⟨Nat.succ_lt_succ hlt, by rw [heip, Space.add_ofNat]; rfl⟩

theorem indexAt_offset {code : List Instr} {base : Word} {n : Nat} (hn : n < code.length)
    (hsize : offset code n < 2 ^ 32) :
    indexAt code base (base + BitVec.ofNat 32 (offset code n)) = some n := by
  induction code generalizing base n with
  | nil => cases hn
  | cons i is ih =>
    rcases n with _ | n
    · rw [indexAt, if_pos]
      exact BitVec.add_zero base
    · have hoff : offset (i :: is) (n + 1) = i.size + offset is n := rfl
      rw [hoff] at hsize ⊢
      rw [indexAt, if_neg, ← Space.add_ofNat, ih (Nat.lt_of_succ_lt_succ hn) (by omega)]
      · rfl
      · intro heq
        have := congrArg BitVec.toNat heq
        rw [BitVec.toNat_add, BitVec.toNat_ofNat] at this
        have := i.size_pos
        have := base.isLt
        omega

end ia32
