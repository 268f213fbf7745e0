-- Live frames of page faults: what the upcall finds in them at each of its
-- instructions, where they lie on the exception stack, and that every step
-- which the upcall is made for keeps them.
import Jos.Upcall

namespace jos.upcall

open ia32 (Cpu Instr Reg Space State offset)

/-! ## What a live frame holds -/

section Frames

/-- The place of a register in `struct UTrapframe`. -/
def slot : Reg → Nat
  | .edi => 8
  | .esi => 12
  | .ebp => 16
  | .esp => 20
  | .ebx => 24
  | .edx => 28
  | .ecx => 32
  | .eax => 36

/-- The frame holds the registers `trap`, with `esp` for the stack to return to. -/
structure Framed (m : Space) (frame : Word) (trap : Cpu) (esp : Word) : Prop where
  gpr : ∀ r, r ≠ .esp → m.loadWord (frame + BitVec.ofNat 32 (slot r)) = some (trap.gpr r)
  eip : m.loadWord (frame + 40) = some trap.eip
  eflags : m.loadWord (frame + 44) = some trap.eflags
  esp : m.loadWord (frame + 48) = some esp
  room : ∀ i < 52, m.writable (frame + BitVec.ofNat 32 i) = true

variable {m m' : Space} {frame esp : Word} {trap : Cpu}

theorem Kept.mono {P Q : Word → Prop} (h : Kept Q m m') (hPQ : ∀ a, P a → Q a) : Kept P m m' :=
  fun a ha => h a (hPQ a ha)

theorem Kept.trans {P : Word → Prop} {m'' : Space} (h : Kept P m m') (h' : Kept P m' m'') :
    Kept P m m'' :=
  fun a ha => ⟨(h' a ha).1.trans (h a ha).1, (h' a ha).2.trans (h a ha).2⟩

/-- The first `n` bytes of a frame. -/
def Head (frame : Word) (n : Nat) (a : Word) : Prop := ∃ i < n, a = frame + BitVec.ofNat 32 i

/-- The bytes of a frame. -/
abbrev InFrame (frame : Word) : Word → Prop := Head frame 52

theorem Kept.loadWord {n k : Nat} (hn : k + 4 ≤ n) (h : Kept (Head frame n) m m') :
    m'.loadWord (frame + BitVec.ofNat 32 k) = m.loadWord (frame + BitVec.ofNat 32 k) :=
  Space.loadWord_congr fun i hi => by
    rw [Space.add_ofNat]
    exact (h _ ⟨k + i, by omega, rfl⟩).1

theorem slot_le (r : Reg) : slot r + 4 ≤ 40 := by cases r <;> decide

/-- A frame whose last word is stored anew. -/
theorem Framed.relink {esp' : Word} (h : Framed m frame trap esp) (hk : Kept (Head frame 48) m m')
    (hroom : ∀ i < 52, m'.writable (frame + BitVec.ofNat 32 i) = true)
    (hesp : m'.loadWord (frame + 48) = some esp') : Framed m' frame trap esp' where
  gpr r hr := (hk.loadWord (by have := slot_le r; omega)).trans (h.gpr r hr)
  eip := (hk.loadWord (by decide)).trans h.eip
  eflags := (hk.loadWord (by decide)).trans h.eflags
  esp := hesp
  room := hroom

theorem Framed.kept (h : Framed m frame trap esp) (hk : Kept (InFrame frame) m m') :
    Framed m' frame trap esp :=
  h.relink (hk.mono fun _ ⟨i, hi, ha⟩ => ⟨i, by omega, ha⟩)
    (fun i hi => (hk _ ⟨i, hi, rfl⟩).2.trans (h.room i hi))
    ((hk.loadWord (by decide)).trans h.esp)

theorem utrapframe_eq (cpu : Cpu) (rest : Trapframe) (fault_va : Word) :
    utrapframe (trapframe cpu rest) fault_va =
      [fault_va, rest.tf_err, cpu.gpr .edi, cpu.gpr .esi, cpu.gpr .ebp, rest.tf_regs.reg_oesp,
        cpu.gpr .ebx, cpu.gpr .edx, cpu.gpr .ecx, cpu.gpr .eax, cpu.eip, cpu.eflags,
        cpu.gpr .esp].flatMap ia32.bytes := rfl

/-- The frame that `page_fault_handler` writes. -/
theorem framed_of_store {cpu : Cpu} {rest : Trapframe} {fault_va : Word}
    (h : m.storeBytes frame (utrapframe (trapframe cpu rest) fault_va) = some m') :
    Framed m' frame cpu (cpu.gpr .esp) := by
  rw [utrapframe_eq] at h
  have hword := @Space.loadWord_storeBytes m m' frame _ h (show (13 : Nat) ≤ 1024 by decide)
  refine ⟨fun r hr => ?_, hword (n := 10) rfl, hword (n := 11) rfl, hword (n := 12) rfl,
    fun i hi => ?_⟩
  · cases r with
    | edi => exact hword (n := 2) rfl
    | esi => exact hword (n := 3) rfl
    | ebp => exact hword (n := 4) rfl
    | esp => exact absurd rfl hr
    | ebx => exact hword (n := 6) rfl
    | edx => exact hword (n := 7) rfl
    | ecx => exact hword (n := 8) rfl
    | eax => exact hword (n := 9) rfl
  · rw [(Space.storeBytes_map h).2]
    exact Space.storeBytes_writable h i hi

/-- A store elsewhere keeps what is on the exception stack. -/
theorem Private.kept_store {P : Word → Prop} {b : Word} {bs : List (BitVec 8)} (hm : Private m)
    (h : m.storeBytes b bs = some m') (hP : ∀ a, P a → UXSTACKBASE ≤ a ∧ a < UXSTACKTOP)
    (hb : ∀ a, P a → ∀ i < bs.length, b + BitVec.ofNat 32 i ≠ a) : Kept P m m' := by
  intro a ha
  refine ⟨Space.load_storeBytes_other h fun i hi hne heq => ?_, by rw [(Space.storeBytes_map h).2]⟩
  exact hb a ha i hi (hm a _ (hP a ha).1 (hP a ha).2 hne heq)

theorem Private.map (hm : Private m) (h : Space.SameMap m m') : Private m' := by
  intro a b hlo hhi hne heq
  rw [h.1] at hne heq
  exact hm a b hlo hhi hne heq

theorem Guarded.map (hm : Guarded m) (h : Space.SameMap m m') : Guarded m' := by
  intro a hlo hhi
  rw [h.2]
  exact hm a hlo hhi

end Frames

/-! ## One level -/

section Level

variable {base handler : Word}

/-- The flags that `popf` may set are those at the fault. -/
def FlagsBack (cpu trap : Cpu) : Prop :=
  cpu.eflags &&& ia32.popfMask cpu.eflags = trap.eflags &&& ia32.popfMask cpu.eflags

/-- The registers other than `esp` are those at the fault. -/
def RegsBack (cpu trap : Cpu) : Prop := ∀ r, r ≠ .esp → cpu.gpr r = trap.gpr r

/-- `esp` before the instruction of the upcall with that number. -/
def espAt (l : Level) : Nat → Word
  | 0 | 4 | 5 | 6 | 10 => l.frame
  | 1 | 2 | 3 => l.frame - 4
  | 7 => l.trap.gpr .esp
  | 8 | 9 | 15 => l.trap.gpr .esp - 4
  | 11 => l.frame + 8
  | 12 => l.frame + 40
  | 13 => l.frame + 44
  | _ => l.frame + 48

/-- What holds before the instruction of the upcall with that number. -/
structure Stage (m : Space) (l : Level) (cpu : Cpu) (n : Nat) : Prop where
  esp : cpu.gpr .esp = espAt l n
  above : n = 1 ∨ n = 2 → UXSTACKBASE.toNat + 4 ≤ l.frame.toNat
  eax : 5 ≤ n → n ≤ 7 → cpu.gpr .eax = l.trap.eip
  ebx : 6 ≤ n → n ≤ 9 → cpu.gpr .ebx = l.frame
  regs : 12 ≤ n → RegsBack cpu l.trap
  flags : 14 ≤ n → FlagsBack cpu l.trap
  frame : Framed m l.frame l.trap (if n < 9 then l.trap.gpr .esp else l.trap.gpr .esp - 4)
  pushed : 8 ≤ n → m.loadWord (l.trap.gpr .esp - 4) = some l.trap.eip

variable {s s' : State} {l : Level}

/-- `addl $4, %esp`: the argument of the handler is popped. -/
theorem Stage.pop_arg (h : Stage s.mem l s.toCpu 3) :
    ∃ s', s.exec (.addl 4 .esp) = some s' ∧ s'.mem = s.mem ∧ Stage s'.mem l s'.toCpu 4 := by
  have hesp : s.gpr .esp = l.frame - 4 := h.esp
  refine ⟨_, rfl, rfl, ?_, by simp, by simp, by simp, by simp, by simp, h.frame, by simp⟩
  simp [espAt, hesp, BitVec.sub_add_cancel]

/-- `movl 40(%esp), %eax` -/
theorem Stage.load_eip (h : Stage s.mem l s.toCpu 4) :
    ∃ s', s.exec (.load (.at 40 .esp) .eax) = some s' ∧ s'.mem = s.mem ∧
      Stage s'.mem l s'.toCpu 5 := by
  have hesp : s.gpr .esp = l.frame := h.esp
  have heip : s.mem.loadWord (s.gpr .esp + 40) = some l.trap.eip := hesp ▸ h.frame.eip
  refine ⟨_, State.exec_load heip, rfl, ?_, by simp, by simp, by simp, by simp, by simp,
    h.frame, by simp⟩
  simpa [espAt] using hesp

/-- `movl %esp, %ebx` -/
theorem Stage.save_frame (h : Stage s.mem l s.toCpu 5) :
    ∃ s', s.exec (.movl .esp .ebx) = some s' ∧ s'.mem = s.mem ∧ Stage s'.mem l s'.toCpu 6 := by
  have hesp : s.gpr .esp = l.frame := h.esp
  have heax := h.eax (by decide) (by decide)
  refine ⟨_, rfl, rfl, ?_, by simp, ?_, ?_, by simp, by simp, h.frame, by simp⟩
  · simpa [espAt] using hesp
  · simpa using heax
  · simpa using hesp

/-- `movl 48(%esp), %esp` -/
theorem Stage.switch_stack (h : Stage s.mem l s.toCpu 6) :
    ∃ s', s.exec (.load (.at 48 .esp) .esp) = some s' ∧ s'.mem = s.mem ∧
      Stage s'.mem l s'.toCpu 7 := by
  have hesp : s.gpr .esp = l.frame := h.esp
  have htop : s.mem.loadWord (s.gpr .esp + 48) = some (l.trap.gpr .esp) := hesp ▸ h.frame.esp
  have heax := h.eax (by decide) (by decide)
  have hebx := h.ebx (by decide) (by decide)
  refine ⟨_, State.exec_load htop, rfl, ?_, by simp, ?_, ?_, by simp, by simp, h.frame, by simp⟩
  · simp [espAt]
  · simpa using heax
  · simpa using hebx

/-- `pushl %eax`, the only instruction of the upcall that stores outside the
exception stack -/
theorem Stage.push_eip (h : Stage s.mem l s.toCpu 7)
    (hw : ∀ i < 4, s.mem.writable (s.gpr .esp - 4 + BitVec.ofNat 32 i) = true)
    (hkept : ∀ m', s.mem.storeWord (l.trap.gpr .esp - 4) l.trap.eip = some m' →
      Kept (InFrame l.frame) s.mem m') :
    ∃ s', s.exec (.pushl .eax) = some s' ∧
      s.mem.storeWord (l.trap.gpr .esp - 4) l.trap.eip = some s'.mem ∧
      Stage s'.mem l s'.toCpu 8 := by
  have hesp : s.gpr .esp = l.trap.gpr .esp := h.esp
  have heax : s.gpr .eax = l.trap.eip := h.eax (by decide) (by decide)
  have hebx := h.ebx (by decide) (by decide)
  obtain ⟨m', hm'⟩ := Space.storeWord_some (s.gpr .eax) hw
  have hexec := State.exec_pushl hm'
  rw [hesp, heax] at hm'
  refine ⟨_, hexec, hm', ?_, by simp, by simp, ?_, by simp, by simp,
    h.frame.kept (hkept m' hm'), fun _ => Space.loadWord_storeWord hm'⟩
  · simp [espAt, hesp]
  · simpa using hebx

/-- `movl %esp, 48(%ebx)` -/
theorem Stage.store_esp (h : Stage s.mem l s.toCpu 8)
    (hframe : ∀ m', s.mem.storeWord (l.frame + 48) (l.trap.gpr .esp - 4) = some m' →
      Framed m' l.frame l.trap (l.trap.gpr .esp - 4) ∧
      m'.loadWord (l.trap.gpr .esp - 4) = s.mem.loadWord (l.trap.gpr .esp - 4)) :
    ∃ s', s.exec (.store .esp (.at 48 .ebx)) = some s' ∧
      s.mem.storeWord (l.frame + 48) (l.trap.gpr .esp - 4) = some s'.mem ∧
      Stage s'.mem l s'.toCpu 9 := by
  have hesp : s.gpr .esp = l.trap.gpr .esp - 4 := h.esp
  have hebx : s.gpr .ebx = l.frame := h.ebx (by decide) (by decide)
  obtain ⟨m', hm'⟩ := @Space.storeWord_some s.mem (s.gpr .ebx + 48) (s.gpr .esp) fun i hi => by
    have := h.frame.room (48 + i) (by omega)
    rwa [← Space.add_ofNat, ← hebx] at this
  have hexec := @State.exec_store s .esp (.at 48 .ebx) m' hm'
  rw [hesp, hebx] at hm'
  obtain ⟨hf, hp⟩ := hframe m' hm'
  refine ⟨_, hexec, hm', ?_, by simp, by simp, ?_, by simp, by simp, hf,
    fun _ => hp.trans (h.pushed (by decide))⟩
  · simpa [espAt] using hesp
  · simpa using hebx

/-- `movl %ebx, %esp` -/
theorem Stage.restore_stack (h : Stage s.mem l s.toCpu 9) :
    ∃ s', s.exec (.movl .ebx .esp) = some s' ∧ s'.mem = s.mem ∧ Stage s'.mem l s'.toCpu 10 := by
  have hebx := h.ebx (by decide) (by decide)
  refine ⟨_, rfl, rfl, ?_, by simp, by simp, by simp, by simp, by simp, h.frame,
    fun _ => h.pushed (by decide)⟩
  simpa [espAt] using hebx

/-- `addl $8, %esp` -/
theorem Stage.skip_head (h : Stage s.mem l s.toCpu 10) :
    ∃ s', s.exec (.addl 8 .esp) = some s' ∧ s'.mem = s.mem ∧ Stage s'.mem l s'.toCpu 11 := by
  have hesp : s.gpr .esp = l.frame := h.esp
  refine ⟨_, rfl, rfl, ?_, by simp, by simp, by simp, by simp, by simp, h.frame,
    fun _ => h.pushed (by decide)⟩
  simp [espAt, hesp]

/-- `popal` -/
theorem Stage.pop_regs (h : Stage s.mem l s.toCpu 11) :
    ∃ s', s.exec .popal = some s' ∧ s'.mem = s.mem ∧ Stage s'.mem l s'.toCpu 12 := by
  have hesp : s.gpr .esp = l.frame + 8 := h.esp
  obtain ⟨s', hs', hmem, -, -, hesp', hregs⟩ := @State.popRegs_eq s
    [.edi, .esi, .ebp, .esp, .ebx, .edx, .ecx, .eax] l.trap.gpr fun i r hi hr => by
      have hslot : slot r = 8 + 4 * i := by
        rcases i with _ | _ | _ | _ | _ | _ | _ | _ | i <;> cases hi <;> rfl
      have := h.frame.gpr r hr
      rw [hslot, ← Space.add_ofNat] at this
      rw [hesp]
      exact this
  refine ⟨s'.next .popal, by rw [State.exec, hs', Option.map_some], hmem, ?_, by simp, by simp,
    by simp, fun _ r hr => ?_, by simp, hmem ▸ h.frame, fun _ => hmem ▸ h.pushed (by decide)⟩
  · rw [State.next_gpr, hesp', hesp, BitVec.add_assoc]
    rfl
  · have hmem : r ∈ [Reg.edi, .esi, .ebp, .esp, .ebx, .edx, .ecx, .eax] := by cases r <;> decide
    rw [State.next_gpr, hregs r hr, if_pos hmem]

/-- `addl $4, %esp` -/
theorem Stage.skip_eip (h : Stage s.mem l s.toCpu 12) :
    ∃ s', s.exec (.addl 4 .esp) = some s' ∧ s'.mem = s.mem ∧ Stage s'.mem l s'.toCpu 13 := by
  have hesp : s.gpr .esp = l.frame + 40 := h.esp
  refine ⟨_, rfl, rfl, ?_, by simp, by simp, by simp, fun _ r hr => ?_, by simp, h.frame,
    fun _ => h.pushed (by decide)⟩
  · simp [espAt, hesp, BitVec.add_assoc]
  · have := h.regs (by decide) r hr
    simpa [hr] using this

/-- `popfl` -/
theorem Stage.pop_flags (h : Stage s.mem l s.toCpu 13) :
    ∃ s', s.exec .popfl = some s' ∧ s'.mem = s.mem ∧ Stage s'.mem l s'.toCpu 14 := by
  have hesp : s.gpr .esp = l.frame + 44 := h.esp
  have hfl : s.mem.loadWord (s.gpr .esp) = some l.trap.eflags := hesp ▸ h.frame.eflags
  refine ⟨_, State.exec_popfl hfl, rfl, ?_, by simp, by simp, by simp, fun _ r hr => ?_,
    fun _ => ?_, h.frame, fun _ => h.pushed (by decide)⟩
  · simp [espAt, hesp, BitVec.add_assoc]
  · have := h.regs (by decide) r hr
    simpa [hr] using this
  · simp only [FlagsBack, State.next_eflags, ia32.popfMask_popfFlags, ia32.popfFlags_and]

/-- `popl %esp` -/
theorem Stage.pop_esp (h : Stage s.mem l s.toCpu 14) :
    ∃ s', s.exec (.popl .esp) = some s' ∧ s'.mem = s.mem ∧ Stage s'.mem l s'.toCpu 15 := by
  have hesp : s.gpr .esp = l.frame + 48 := h.esp
  have htop : s.mem.loadWord (s.gpr .esp) = some (l.trap.gpr .esp - 4) := hesp ▸ h.frame.esp
  refine ⟨_, State.exec_popl htop, rfl, ?_, by simp, by simp, by simp, fun _ r hr => ?_,
    fun _ => h.flags (by decide), h.frame, fun _ => h.pushed (by decide)⟩
  · simp [espAt]
  · have := h.regs (by decide) r hr
    simpa [hr] using this

/-- The computation goes on as it was at the fault. -/
structure Resumed (cpu trap : Cpu) : Prop where
  gpr : cpu.gpr = trap.gpr
  eip : cpu.eip = trap.eip
  eflags : FlagsBack cpu trap

/-- `ret` -/
theorem Stage.return (h : Stage s.mem l s.toCpu 15) :
    ∃ s', s.exec .ret = some s' ∧ s'.mem = s.mem ∧ Resumed s'.toCpu l.trap := by
  have hesp : s.gpr .esp = l.trap.gpr .esp - 4 := h.esp
  have heip : s.mem.loadWord (s.gpr .esp) = some l.trap.eip := hesp ▸ h.pushed (by decide)
  refine ⟨_, State.exec_ret heip, rfl, funext fun r => ?_, rfl, h.flags (by decide)⟩
  by_cases hr : r = .esp
  · subst hr
    simp [hesp, BitVec.sub_add_cancel]
  · have := h.regs (by decide) r hr
    simpa [hr] using this

end Level

/-! ## Where the frames are -/

section Places

/-- The frame of a fault lies on the exception stack: at its top for a fault
outside of handlers, and else below the frame of the handler that faulted,
with a word between them. -/
structure Placed (l : Level) (outer : List Level) : Prop where
  low : UXSTACKBASE.toNat ≤ l.frame.toNat
  high : l.frame.toNat + 52 ≤ UXSTACKTOP.toNat
  below : match outer with
    | [] => (l.trap.gpr .esp).toNat ≤ USTACKTOP.toNat
    | o :: _ => (l.trap.gpr .esp).toNat = l.frame.toNat + 56 ∧
      l.frame.toNat + 56 ≤ o.frame.toNat

/-- The exception stack from the frame of the handler up. -/
def Outer : List Level → Word → Prop
  | [], _ => False
  | o :: _, a => o.frame ≤ a ∧ a < UXSTACKTOP

variable {m m' : Space} {l : Level} {outer : List Level} {a : Word}

theorem UXSTACKTOP_toNat : UXSTACKTOP.toNat = 0xEEC00000 := rfl

theorem UXSTACKBASE_toNat : UXSTACKBASE.toNat = 0xEEBFF000 := rfl

theorem USTACKTOP_toNat : USTACKTOP.toNat = 0xEEBFE000 := rfl

theorem Placed.frame_toNat (h : Placed l outer) {i : Nat} (hi : i ≤ 56) :
    (l.frame + BitVec.ofNat 32 i).toNat = l.frame.toNat + i := by
  have := h.high
  rw [UXSTACKTOP_toNat] at this
  rw [BitVec.toNat_add, BitVec.toNat_ofNat]
  omega

theorem Placed.inFrame (h : Placed l outer) (ha : InFrame l.frame a) :
    UXSTACKBASE ≤ a ∧ a < UXSTACKTOP := by
  obtain ⟨i, hi, rfl⟩ := ha
  have := h.low
  have := h.high
  rw [BitVec.le_def, BitVec.lt_def, h.frame_toNat (by omega)]
  omega

/-- The word that the upcall pushes on the stack of the fault, byte by byte. -/
theorem Placed.scratch (h : Placed l outer) {i : Nat} (hi : i < 4) :
    let b := (l.trap.gpr .esp - 4 + BitVec.ofNat 32 i).toNat
    match outer with
    | [] => b < USTACKTOP.toNat ∨ UXSTACKTOP.toNat ≤ b
    | _ => b = l.frame.toNat + 52 + i := by
  intro b
  have hb : b = (2 ^ 32 - 4 + (l.trap.gpr .esp).toNat + i) % 2 ^ 32 := by
    have hfour : (4 : Word).toNat = 4 := rfl
    simp only [b, BitVec.toNat_add, BitVec.toNat_sub, BitVec.toNat_ofNat, hfour]
    omega
  have hbelow := h.below
  have hhigh := h.high
  rw [UXSTACKTOP_toNat] at *
  rw [USTACKTOP_toNat] at *
  rcases outer with _ | ⟨o, outer⟩
  · simp only at hbelow ⊢
    omega
  · simp only at hbelow ⊢
    omega

end Places

/-! ## One level unwound -/

section Unwind

variable {m m' : Space} {s : State} {l : Level} {outer : List Level}

/-- What the upcall changes in memory: its part of the exception stack, and the
word below the `esp` of the fault. -/
structure Touched (l : Level) (outer : List Level) (m m' : Space) : Prop where
  map : Space.SameMap m m'
  outer : Kept (Outer outer) m m'
  rest : ∀ c, (∀ a, UXSTACKBASE ≤ a → a < UXSTACKTOP → m.cell a ≠ some c) →
    (∀ i < 4, m.cell (l.trap.gpr .esp - 4 + BitVec.ofNat 32 i) ≠ some c) →
    m'.contents c = m.contents c

theorem Touched.of_eq (h : m' = m) : Touched l outer m m' := by
  subst h
  exact ⟨.rfl, fun _ _ => ⟨rfl, rfl⟩, fun _ _ _ => rfl⟩

theorem Touched.trans {m'' : Space} (h : Touched l outer m m') (h' : Touched l outer m' m'') :
    Touched l outer m m'' where
  map := h.map.trans h'.map
  outer := h.outer.trans h'.outer
  rest c hstack hword := by
    rw [h'.rest c (by rw [h.map.1]; exact hstack) (by rw [h.map.1]; exact hword),
      h.rest c hstack hword]

theorem Placed.outer_above (h : Placed l outer) {a : Word} (ha : Outer outer a) :
    l.frame.toNat + 56 ≤ a.toNat ∧ UXSTACKBASE ≤ a ∧ a < UXSTACKTOP := by
  rcases outer with _ | ⟨o, outer⟩
  · exact ha.elim
  · have hbelow := h.below
    have hlow := h.low
    simp only at hbelow
    have hle := BitVec.le_def.mp ha.1
    refine ⟨by omega, BitVec.le_def.mpr (by omega), ha.2⟩

/-- The push on the stack of the fault leaves the frame, and those above. -/
theorem Placed.push (h : Placed l outer) (hm : Private m) {w : Word}
    (hs : m.storeWord (l.trap.gpr .esp - 4) w = some m') :
    Kept (InFrame l.frame) m m' ∧ Touched l outer m m' := by
  have hscratch := fun (i : Nat) (hi : i < 4) => h.scratch hi
  refine ⟨hm.kept_store hs (fun a => h.inFrame) fun a ha i hi heq => ?_, Space.storeWord_map hs,
    hm.kept_store hs (fun a ha => (h.outer_above ha).2) fun a ha i hi heq => ?_,
    fun c _ hword => Space.storeBytes_contents hs fun i hi => hword i hi⟩
  · have hin := h.inFrame ha
    obtain ⟨j, hj, rfl⟩ := ha
    have hb := hscratch i hi
    simp only [heq, h.frame_toNat (show j ≤ 56 by omega)] at hb
    have hlow := h.low
    have hhigh := h.high
    rw [UXSTACKBASE_toNat] at hlow
    rw [USTACKTOP_toNat] at hb
    split at hb <;> omega
  · have hb := hscratch i hi
    have ha' := h.outer_above ha
    simp only [heq] at hb
    rcases outer with _ | ⟨o, outer⟩
    · exact ha.elim
    · change i < 4 at hi
      simp only at hb
      omega

/-- The store of the new `esp` in the frame. -/
theorem Placed.link (h : Placed l outer) (hm : Private m) {esp esp' : Word}
    (hf : Framed m l.frame l.trap esp) (hs : m.storeWord (l.frame + 48) esp' = some m') :
    Framed m' l.frame l.trap esp' ∧
      m'.loadWord (l.trap.gpr .esp - 4) = m.loadWord (l.trap.gpr .esp - 4) ∧
      Touched l outer m m' := by
  have hin : ∀ i < 4, UXSTACKBASE ≤ l.frame + 48 + BitVec.ofNat 32 i ∧
      l.frame + 48 + BitVec.ofNat 32 i < UXSTACKTOP := fun i hi =>
    h.inFrame ⟨48 + i, by omega, Space.add_ofNat l.frame 48 i⟩
  have hnat : ∀ i < 4, (l.frame + 48 + BitVec.ofNat 32 i).toNat = l.frame.toNat + 48 + i := by
    intro i hi
    have := h.frame_toNat (show 48 + i ≤ 56 by omega)
    rw [← Space.add_ofNat] at this
    exact this.trans (Nat.add_assoc ..).symm
  refine ⟨hf.relink (hm.kept_store hs (fun a ha => ?_) fun a ha i hi heq => ?_) (fun i hi => ?_)
    (Space.loadWord_storeWord hs), Space.loadWord_congr fun j hj => ?_, Space.storeWord_map hs,
    hm.kept_store hs (fun a ha => (h.outer_above ha).2) fun a ha i hi heq => ?_,
    fun c hstack _ => Space.storeBytes_contents hs fun i hi => hstack _ (hin i hi).1 (hin i hi).2⟩
  · obtain ⟨i, hi, rfl⟩ := ha
    exact h.inFrame ⟨i, by omega, rfl⟩
  · obtain ⟨j, hj, rfl⟩ := ha
    have := congrArg BitVec.toNat heq
    rw [hnat i hi, h.frame_toNat (by omega)] at this
    omega
  · rw [(Space.storeWord_map hs).2]
    exact hf.room i hi
  · -- the pushed word lies above the frame, or not on the exception stack
    refine Space.load_storeWord_other hs fun i hi hne heq => ?_
    have hb := hm _ _ (hin i hi).1 (hin i hi).2 (heq ▸ hne) heq.symm
    have hsc := h.scratch hj
    have hlow := h.low
    have hhigh := h.high
    simp only [hb, hnat i hi] at hsc
    rw [UXSTACKBASE_toNat] at hlow
    rw [USTACKTOP_toNat] at hsc
    split at hsc <;> omega
  · have := (h.outer_above ha).1
    have heq := congrArg BitVec.toNat heq
    rw [hnat i hi] at heq
    change i < 4 at hi
    omega

/-- Once the handler has returned, each instruction but the last leads to the
next. -/
theorem Stage.unwind {n : Nat} (h : Stage s.mem l s.toCpu n) (hm : Private s.mem)
    (hp : Placed l outer) (hn : 3 ≤ n) (hn' : n < 15) (handler : Word)
    (hw : n = 7 → ∀ i < 4, s.mem.writable (l.trap.gpr .esp - 4 + BitVec.ofNat 32 i) = true) :
    ∃ i s', (pgfault_upcall handler)[n]? = some i ∧ i ≠ .ret ∧ (∀ r, i ≠ .call r) ∧
      s.exec i = some s' ∧ Touched l outer s.mem s'.mem ∧ Stage s'.mem l s'.toCpu (n + 1) := by
  -- most of them leave memory as it is
  have hplain : ∀ {i : Instr}, (∃ s', s.exec i = some s' ∧ s'.mem = s.mem ∧
      Stage s'.mem l s'.toCpu (n + 1)) → i ≠ .ret → (∀ r, i ≠ .call r) →
      (pgfault_upcall handler)[n]? = some i → ∃ i s', (pgfault_upcall handler)[n]? = some i ∧
        i ≠ .ret ∧ (∀ r, i ≠ .call r) ∧ s.exec i = some s' ∧ Touched l outer s.mem s'.mem ∧
        Stage s'.mem l s'.toCpu (n + 1) :=
    fun ⟨s', hs', hmem, hst⟩ hret hcall hi =>
      ⟨_, s', hi, hret, hcall, hs', .of_eq hmem, hst⟩
  rcases (by omega : n = 3 ∨ n = 4 ∨ n = 5 ∨ n = 6 ∨ n = 7 ∨ n = 8 ∨ n = 9 ∨ n = 10 ∨ n = 11 ∨
    n = 12 ∨ n = 13 ∨ n = 14) with
    rfl | rfl | rfl | rfl | rfl | rfl | rfl | rfl | rfl | rfl | rfl | rfl
  · exact hplain h.pop_arg nofun nofun rfl
  · exact hplain h.load_eip nofun nofun rfl
  · exact hplain h.save_frame nofun nofun rfl
  · exact hplain h.switch_stack nofun nofun rfl
  · have hesp : s.gpr .esp = l.trap.gpr .esp := h.esp
    obtain ⟨s', hs', hst, hstage⟩ := h.push_eip (hesp ▸ hw rfl) fun m' hm' => (hp.push hm hm').1
    exact ⟨_, s', rfl, nofun, nofun, hs', (hp.push hm hst).2, hstage⟩
  · obtain ⟨s', hs', hst, hstage⟩ := h.store_esp fun m' hm' =>
      ⟨(hp.link hm h.frame hm').1, (hp.link hm h.frame hm').2.1⟩
    exact ⟨_, s', rfl, nofun, nofun, hs', (hp.link hm h.frame hst).2.2, hstage⟩
  · exact hplain h.restore_stack nofun nofun rfl
  · exact hplain h.skip_head nofun nofun rfl
  · exact hplain h.pop_regs nofun nofun rfl
  · exact hplain h.skip_eip nofun nofun rfl
  · exact hplain h.pop_flags nofun nofun rfl
  · exact hplain h.pop_esp nofun nofun rfl

end Unwind

/-! ## All levels -/

section Levels

variable (base handler : Word)

/-- What holds for the last fault: before an instruction of the upcall its
stage, and in other code that the frame is there. -/
def At (m : Space) (l : Level) (cpu : Cpu) : Prop :=
  match index base handler cpu.eip with
  | none => Framed m l.frame l.trap (l.trap.gpr .esp)
  | some n => Stage m l cpu n

/-- The upcall has not begun to unwind. -/
def Early (cpu : Cpu) : Prop := ∀ n, index base handler cpu.eip = some n → n < 7

/-- Every live fault is as its upcall needs it, and was taken where the upcall
of the one before could be interrupted. -/
def Good (m : Space) : Cpu → List Level → Prop
  | cpu, [] => index base handler cpu.eip = none
  | cpu, l :: outer => At base handler m l cpu ∧ Placed l outer ∧ Early base handler l.trap ∧
    Good m l.trap outer

variable {base handler} {m m' : Space} {cpu cpu' : Cpu} {l : Level} {ls outer : List Level}

theorem Stage.early {n : Nat} (h : Stage m l cpu n) (hn : n < 7) (hgpr : cpu'.gpr = cpu.gpr)
    (hf : Framed m' l.frame l.trap (l.trap.gpr .esp)) : Stage m' l cpu' n where
  esp := hgpr ▸ h.esp
  above := h.above
  eax h5 h7 := hgpr ▸ h.eax h5 h7
  ebx h6 h9 := hgpr ▸ h.ebx h6 h9
  regs h12 := by omega
  flags h14 := by omega
  frame := by rwa [if_pos (by omega)]
  pushed h8 := by omega

/-- The frame, while the upcall has not begun to unwind. -/
theorem At.framed (h : At base handler m l cpu) (he : Early base handler cpu) :
    Framed m l.frame l.trap (l.trap.gpr .esp) := by
  unfold At at h
  split at h
  · exact h
  · rename_i n hn
    have := he n hn
    have hf := h.frame
    rwa [if_pos (by omega)] at hf

theorem At.early (h : At base handler m l cpu) (he : Early base handler cpu)
    (hgpr : cpu'.gpr = cpu.gpr) (heip : cpu'.eip = cpu.eip)
    (hf : Framed m' l.frame l.trap (l.trap.gpr .esp)) : At base handler m' l cpu' := by
  unfold At at h ⊢
  rw [heip]
  split at h
  · exact hf
  · rename_i n hn
    exact h.early (he n hn) hgpr hf

theorem Placed.frame_outer (h : Placed l outer) {a : Word} (ha : InFrame l.frame a) :
    Outer (l :: outer) a := by
  refine ⟨?_, (h.inFrame ha).2⟩
  obtain ⟨i, hi, rfl⟩ := ha
  rw [BitVec.le_def, h.frame_toNat (by omega)]
  omega

theorem Placed.outer_outer (h : Placed l outer) {a : Word} (ha : Outer outer a) :
    Outer (l :: outer) a := by
  have := (h.outer_above ha).1
  exact ⟨BitVec.le_def.mpr (by omega), (h.outer_above ha).2.2⟩

/-- A change below the last frame, or of the flags, does not matter. -/
theorem Good.early (h : Good base handler m cpu ls) (he : Early base handler cpu)
    (hgpr : cpu'.gpr = cpu.gpr) (heip : cpu'.eip = cpu.eip) (hk : Kept (Outer ls) m m') :
    Good base handler m' cpu' ls := by
  induction ls generalizing cpu cpu' with
  | nil => exact (congrArg _ heip).trans h
  | cons l outer ih =>
    obtain ⟨hat, hp, hearly, hgood⟩ := h
    exact ⟨hat.early he hgpr heip ((hat.framed he).kept (hk.mono fun _ => hp.frame_outer)), hp,
      hearly, ih hgood hearly rfl rfl (hk.mono fun _ => hp.outer_outer)⟩

/-- The frames lie one below the other, each with a word above it, and hold what
they are to hold. -/
theorem Good.ordered (h : Good base handler m cpu ls) :
    ls.Pairwise fun inner outer => inner.frame.toNat + 56 ≤ outer.frame.toNat := by
  induction ls generalizing cpu with
  | nil => exact .nil
  | cons l outer ih =>
    obtain ⟨-, hp, -, hgood⟩ := h
    have hrest := ih hgood
    refine List.Pairwise.cons (fun o ho => ?_) hrest
    rcases outer with _ | ⟨o', outer⟩
    · cases ho
    · have hbelow := hp.below
      simp only at hbelow
      rcases List.mem_cons.mp ho with rfl | ho
      · exact hbelow.2
      · have := List.rel_of_pairwise_cons hrest ho
        omega

/-- The frames of the levels, while no upcall has begun to unwind. -/
theorem Good.framed (h : Good base handler m cpu ls) (he : Early base handler cpu) (hl : l ∈ ls) :
    Framed m l.frame l.trap (l.trap.gpr .esp) := by
  induction ls generalizing cpu with
  | nil => cases hl
  | cons l' outer ih =>
    obtain ⟨hat, -, hearly, hgood⟩ := h
    rcases List.mem_cons.mp hl with rfl | hl
    · exact hat.framed he
    · exact ih hgood hearly hl

theorem Good.placed (h : Good base handler m cpu ls) (hl : l ∈ ls) :
    UXSTACKBASE.toNat ≤ l.frame.toNat ∧ l.frame.toNat + 52 ≤ UXSTACKTOP.toNat := by
  induction ls generalizing cpu with
  | nil => cases hl
  | cons l' outer ih =>
    obtain ⟨-, hp, -, hgood⟩ := h
    rcases List.mem_cons.mp hl with rfl | hl
    · exact ⟨hp.low, hp.high⟩
    · exact ih hgood hl

end Levels

/-! ## Steps -/

section Steps

variable {base handler : Word} {m m' : Machine}

theorem index_offset {n : Nat} (hn : n < 16) :
    index base handler (base + BitVec.ofNat 32 (offset (pgfault_upcall handler) n)) = some n := by
  refine ia32.indexAt_offset hn ?_
  have := ia32.offset_le (pgfault_upcall handler) n
  omega

theorem index_base : index base handler base = some 0 := by
  have := @index_offset base handler 0 (by decide)
  rwa [show offset (pgfault_upcall handler) 0 = 0 from rfl, BitVec.add_zero] at this

/-- The instruction after the one with the number `n`. -/
theorem index_next {s s' : State} {i : Instr} {n : Nat}
    (hn : index base handler s.eip = some n) (hi : (pgfault_upcall handler)[n]? = some i)
    (hs : s.exec i = some s') (hret : i ≠ .ret) (hcall : ∀ r, i ≠ .call r) (hlt : n + 1 < 16) :
    index base handler s'.eip = some (n + 1) := by
  rw [State.exec_eip hs hcall hret, (ia32.indexAt_eq hn).2, Space.add_ofNat, ← ia32.offset_succ hi]
  exact index_offset hlt

/-- All of them together bring the computation back. -/
theorem Stage.unwind_all {s : State} {l : Level} {outer : List Level} {n : Nat}
    (h : Stage s.mem l s.toCpu n) (hidx : index base handler s.eip = some n)
    (hm : Private s.mem) (hp : Placed l outer) (hn : 3 ≤ n) (hn' : n ≤ 15)
    (hw : ∀ i < 4, s.mem.writable (l.trap.gpr .esp - 4 + BitVec.ofNat 32 i) = true) :
    ∃ s', runs.runFrom (step base handler) ⟨s, l :: outer⟩ (List.replicate (16 - n) .exec) =
        some ⟨s', outer⟩ ∧ Touched l outer s.mem s'.mem ∧ Resumed s'.toCpu l.trap := by
  -- by induction on the number of instructions before the last
  obtain ⟨k, hk⟩ : ∃ k, n + k = 15 := ⟨15 - n, by omega⟩
  induction k generalizing n s with
  | zero =>
    obtain rfl : n = 15 := by omega
    obtain ⟨s', hs', hmem, hres⟩ := h.return
    have hstep : step base handler ⟨s, l :: outer⟩ .exec = some ⟨s', outer⟩ := by
      simp only [step, current, hidx, Option.bind_some]
      rw [show (pgfault_upcall handler)[15]? = some .ret from rfl, Option.bind_some, hs']
      rfl
    exact ⟨s', by rw [List.replicate_one, runs.runFrom, hstep]; rfl, .of_eq hmem, hres⟩
  | succ k ih =>
    obtain ⟨i, s₁, hi, hret, hcall, hs₁, ht, hst⟩ := h.unwind hm hp hn (by omega) handler fun _ => hw
    obtain ⟨s', hs', ht', hres⟩ := ih hst (index_next hidx hi hs₁ hret hcall (by omega))
      (hm.map ht.map) (by omega) (by omega) (by rw [ht.map.2]; exact hw) (by omega)
    have hstep : step base handler ⟨s, l :: outer⟩ .exec = some ⟨s₁, l :: outer⟩ := by
      simp only [step, current, hidx, Option.bind_some, hi, hs₁, Option.map_some,
        remaining_of_ne hret]
    refine ⟨s', ?_, ht.trans ht', hres⟩
    rw [show 16 - n = 16 - (n + 1) + 1 by omega, List.replicate_succ, runs.runFrom, hstep,
      Option.bind_some, hs']

/-- What is kept in a run of clean steps. -/
structure Sane (base handler : Word) (m : Machine) : Prop where
  priv : Private m.user.mem
  guard : Guarded m.user.mem
  good : Good base handler m.user.mem m.user.toCpu m.live

theorem Sane.other (h : Sane base handler m) {s : State}
    (hc : Clean base handler m (.other s)) (hs : step base handler m (.other s) = some m') :
    Sane base handler m' := by
  rcases m with ⟨user, live⟩
  simp only [step] at hs
  split at hs
  · rename_i hnone
    cases hs
    have hnone := Option.isNone_iff_eq_none.mp hnone
    obtain ⟨hpriv, hguard, hlive⟩ := hc
    refine ⟨hpriv, hguard, ?_⟩
    rcases live with _ | ⟨l, outer⟩
    · exact hlive
    · obtain ⟨hat, hp, hearly, hgood⟩ := h.good
      obtain ⟨hkept, hend⟩ := hlive
      have hk : Kept (Outer (l :: outer)) user.mem s.mem := hkept
      have hf : Framed s.mem l.frame l.trap (l.trap.gpr .esp) :=
        (hat.framed fun n hn => by rw [hnone] at hn; cases hn).kept
          (hk.mono fun _ => hp.frame_outer)
      refine ⟨?_, hp, hearly, hgood.early hearly rfl rfl (hk.mono fun _ => hp.outer_outer)⟩
      unfold At
      rcases hend with hnone' | ⟨hthree, hesp⟩
      · rw [hnone']
        exact hf
      · rw [hthree]
        exact ⟨hesp, by simp, by simp, by simp, by simp, by simp, hf, by simp⟩
  · cases hs

/-- Where a clean fault is taken: outside of handlers with `esp` on a stack of
the program, and else on the exception stack, below the last frame, before the
upcall has begun to unwind. -/
theorem Sane.fault_place (h : Sane base handler m) {rest : Trapframe} {fault_va : Word}
    (hc : Clean base handler m (.fault rest fault_va))
    (hnone : (current base handler m.user).bind m.user.exec = none) :
    Early base handler m.user.toCpu ∧
      match m.live with
      | [] => m.user.gpr .esp ≤ USTACKTOP
      | l :: _ => UXSTACKBASE ≤ m.user.gpr .esp ∧ m.user.gpr .esp ≤ l.frame := by
  rcases m with ⟨user, live⟩
  obtain ⟨hword, hc⟩ := hc
  rcases live with _ | ⟨l, outer⟩
  · refine ⟨fun n hn => ?_, hc⟩
    have hgood : index base handler user.eip = none := h.good
    rw [hgood] at hn
    cases hn
  obtain ⟨hat, hp, hearly, hgood⟩ := h.good
  rcases hidx : index base handler user.eip with _ | n
  · exact ⟨fun n hn => (by rw [hidx] at hn; cases hn), hc hidx⟩
  have hstage : Stage user.mem l user.toCpu n := by
    simp only [At, hidx] at hat
    exact hat
  simp only [current, hidx, Option.bind_some] at hnone
  -- from the return of the handler on no instruction faults
  have hlt : n < 3 := by
    by_contra hge
    have hn : n < 16 := (ia32.indexAt_eq hidx).1
    by_cases hn' : n < 15
    · obtain ⟨i, s', hi, -, -, hs', -⟩ := hstage.unwind h.priv hp (by omega) hn' handler fun h7 => by
        subst h7
        have hesp : user.gpr .esp = l.trap.gpr .esp := hstage.esp
        exact hesp ▸ hword hidx
      rw [hi, Option.bind_some, hs'] at hnone
      cases hnone
    · obtain rfl : n = 15 := by omega
      obtain ⟨s', hs', -⟩ := hstage.return
      have hi : (pgfault_upcall handler)[15]? = some .ret := rfl
      rw [hi, Option.bind_some, hs'] at hnone
      cases hnone
  refine ⟨fun k hk => ?_, ?_⟩
  · rw [hidx] at hk
    cases hk
    omega
  · change UXSTACKBASE ≤ user.gpr .esp ∧ user.gpr .esp ≤ l.frame
    have hlow := hp.low
    rw [hstage.esp]
    by_cases hzero : n = 0
    · subst hzero
      exact ⟨BitVec.le_def.mpr hlow, BitVec.le_refl _⟩
    · have habove := hstage.above (by omega)
      have hsub : espAt l n = l.frame - 4 := by
        rcases (by omega : n = 1 ∨ n = 2) with rfl | rfl <;> rfl
      have hnat : (l.frame - 4).toNat = l.frame.toNat - 4 :=
        BitVec.toNat_sub_of_le (BitVec.le_def.mpr (by
          change 4 ≤ _
          omega))
      rw [hsub, BitVec.le_def, BitVec.le_def, hnat]
      omega

/-- The frame of a fault on the exception stack. -/
theorem usertf_nested {tf : Trapframe} (hlow : UXSTACKBASE ≤ tf.tf_esp)
    (hhigh : tf.tf_esp < UXSTACKTOP) : (usertf tf).toNat + 56 = tf.tf_esp.toNat := by
  have hnat := BitVec.le_def.mp hlow
  rw [UXSTACKBASE_toNat] at hnat
  have hfour : (4 : Word).toNat = 4 := rfl
  have hsize : (52 : Word).toNat = 52 := rfl
  rw [usertf, if_pos ⟨hhigh, hlow⟩, BitVec.toNat_sub_of_le, BitVec.toNat_sub_of_le]
  · omega
  · rw [BitVec.le_def]; omega
  · rw [BitVec.le_def, BitVec.toNat_sub_of_le (BitVec.le_def.mpr (by omega))]; omega

/-- The frame of the first fault. -/
theorem usertf_first {tf : Trapframe} (h : tf.tf_esp ≤ USTACKTOP) :
    usertf tf = UXSTACKTOP - 52 := by
  have hnat := BitVec.le_def.mp h
  rw [USTACKTOP_toNat] at hnat
  rw [usertf, if_neg]
  rintro ⟨-, hge⟩
  have hge := BitVec.le_def.mp hge
  have hbase : (UXSTACKTOP - 0x1000).toNat = 0xEEBFF000 := rfl
  omega

/-- The new frame lies on the exception stack, below the last one. -/
theorem placed_of_fault {mem : Space} {cpu : Cpu} {rest : Trapframe} {live : List Level}
    (hguard : Guarded mem)
    (hw : mem.writable (usertf (trapframe cpu rest)) = true)
    (hplace : match live with
      | [] => cpu.gpr .esp ≤ USTACKTOP
      | l :: _ => UXSTACKBASE ≤ cpu.gpr .esp ∧ cpu.gpr .esp ≤ l.frame ∧
        l.frame.toNat + 52 ≤ UXSTACKTOP.toNat) :
    Placed ⟨cpu, usertf (trapframe cpu rest)⟩ live := by
  rcases live with _ | ⟨l, outer⟩
  · have hfirst := @usertf_first (trapframe cpu rest) hplace
    have hlow : UXSTACKBASE.toNat ≤ (UXSTACKTOP - 52).toNat := by decide
    have hhigh : (UXSTACKTOP - 52).toNat + 52 ≤ UXSTACKTOP.toNat := by decide
    exact ⟨hfirst.symm ▸ hlow, hfirst.symm ▸ hhigh, BitVec.le_def.mp hplace⟩
  · obtain ⟨hge, hle, hhigh⟩ := hplace
    have hle := BitVec.le_def.mp hle
    have hnest : (usertf (trapframe cpu rest)).toNat + 56 = (cpu.gpr .esp).toNat :=
      usertf_nested hge (BitVec.lt_def.mpr (by change (cpu.gpr .esp).toNat < _; omega))
    have hge := BitVec.le_def.mp hge
    -- what is below the exception stack cannot be written
    have hlow : UXSTACKBASE.toNat ≤ (usertf (trapframe cpu rest)).toNat := by
      by_contra hlt
      have hfree := hguard (usertf (trapframe cpu rest))
        (by rw [BitVec.le_def, USTACKTOP_toNat]; rw [UXSTACKBASE_toNat] at hge; omega)
        (BitVec.lt_def.mpr (by omega))
      exact absurd (hfree.symm.trans hw) (by decide)
    exact ⟨hlow, (by omega : (usertf (trapframe cpu rest)).toNat + 52 ≤ UXSTACKTOP.toNat), hnest.symm,
      (by omega : (usertf (trapframe cpu rest)).toNat + 56 ≤ l.frame.toNat)⟩

theorem Sane.fault (h : Sane base handler m) {rest : Trapframe} {fault_va : Word}
    (hc : Clean base handler m (.fault rest fault_va))
    (hs : step base handler m (.fault rest fault_va) = some m') : Sane base handler m' := by
  simp only [step] at hs
  split at hs
  case isFalse => cases hs
  rename_i hnone
  obtain ⟨s, hdel, rfl⟩ := Option.map_eq_some_iff.mp hs
  obtain ⟨mem, hmem, rfl⟩ := Option.map_eq_some_iff.mp hdel
  obtain ⟨hearly, hplace⟩ := h.fault_place hc (Option.isNone_iff_eq_none.mp hnone)
  have hmap := Space.storeBytes_map hmem
  have hroom := Space.storeBytes_writable hmem
  have hframed := framed_of_store hmem
  have hp : Placed ⟨m.user.toCpu, usertf (trapframe m.user.toCpu rest)⟩ m.live := by
    refine placed_of_fault h.guard ?_ ?_
    · have hw := hroom 0 (show 0 < 52 by decide)
      rwa [BitVec.add_zero] at hw
    · have hgood := h.good
      rcases hlive : m.live with _ | ⟨l, outer⟩
      · rwa [hlive] at hplace
      · rw [hlive] at hplace hgood
        exact ⟨hplace.1, hplace.2, hgood.2.1.high⟩
  refine ⟨h.priv.map hmap, h.guard.map hmap, ?_, hp, hearly, h.good.early hearly rfl rfl ?_⟩
  · simp only [At, index_base]
    exact ⟨rfl, by simp, by simp, by simp, by simp, by simp, hframed, by simp⟩
  · refine h.priv.kept_store hmem (fun a ha => (hp.outer_above ha).2) fun a ha i hi heq => ?_
    have habove := (hp.outer_above ha).1
    have hi : i < 52 := hi
    have hnat := hp.frame_toNat (show i ≤ 56 by omega)
    simp only [heq] at hnat
    simp only at habove
    omega

/-- A push of the upcall below its frame. -/
theorem push_below {mem mem' : Space} {l : Level} {outer : List Level} {esp w : Word}
    (hpriv : Private mem) (hguard : Guarded mem) (hp : Placed l outer) (hlow : UXSTACKBASE ≤ esp)
    (hle : esp ≤ l.frame) (hs : mem.storeWord (esp - 4) w = some mem') :
    UXSTACKBASE.toNat + 4 ≤ esp.toNat ∧ Kept (Outer (l :: outer)) mem mem' := by
  have hlow := BitVec.le_def.mp hlow
  have hle := BitVec.le_def.mp hle
  have hbase := UXSTACKBASE_toNat
  have hfour : (4 : Word).toNat = 4 := rfl
  have hsub : (esp - 4).toNat = esp.toNat - 4 :=
    BitVec.toNat_sub_of_le (BitVec.le_def.mpr (by omega))
  -- what is below the exception stack cannot be written
  have habove : UXSTACKBASE.toNat + 4 ≤ esp.toNat := by
    by_contra hlt
    have hfree := hguard (esp - 4) (by rw [BitVec.le_def, USTACKTOP_toNat]; omega)
      (BitVec.lt_def.mpr (by omega))
    have hw := Space.storeBytes_writable hs 0 (show 0 < 4 by decide)
    rw [BitVec.add_zero] at hw
    exact absurd (hfree.symm.trans hw) (by decide)
  have hplow := hp.low
  refine ⟨habove, hpriv.kept_store hs (fun a ha => ?_) fun a ha i hi heq => ?_⟩
  · exact ⟨BitVec.le_trans (BitVec.le_def.mpr hplow) ha.1, ha.2⟩
  · have hi : i < 4 := hi
    have hnat := congrArg BitVec.toNat heq
    have ha := BitVec.le_def.mp ha.1
    have hmax := l.frame.isLt
    rw [BitVec.toNat_add, BitVec.toNat_ofNat, hsub] at hnat
    omega

/-- The first three instructions, up to the call of the handler. -/
theorem Stage.enter {s s' : State} {l : Level} {outer : List Level} {i : Instr} {n : Nat}
    (h : Stage s.mem l s.toCpu n) (hpriv : Private s.mem) (hguard : Guarded s.mem)
    (hp : Placed l outer) (hn : n < 3) (hi : (pgfault_upcall handler)[n]? = some i)
    (hs : s.exec i = some s') :
    Space.SameMap s.mem s'.mem ∧ Kept (Outer (l :: outer)) s.mem s'.mem ∧
      (n < 2 → Stage s'.mem l s'.toCpu (n + 1)) ∧ (n = 2 → s'.eip = s.gpr .eax) := by
  have hlow := BitVec.le_def.mpr hp.low
  have hframe : Framed s.mem l.frame l.trap (l.trap.gpr .esp) := by
    have := h.frame
    rwa [if_pos (by omega)] at this
  rcases (by omega : n = 0 ∨ n = 1 ∨ n = 2) with rfl | rfl | rfl
  · cases hi
    have hesp : s.gpr .esp = l.frame := h.esp
    obtain ⟨s₁, hpush, rfl⟩ := Option.map_eq_some_iff.mp hs
    obtain ⟨mem, hmem, rfl⟩ := Option.map_eq_some_iff.mp hpush
    rw [hesp] at hmem
    obtain ⟨habove, hk⟩ := push_below hpriv hguard hp hlow (BitVec.le_refl _) hmem
    refine ⟨Space.storeWord_map hmem, hk, fun _ => ⟨?_, fun _ => habove, by simp, by simp, by simp,
      by simp, hframe.kept (hk.mono fun _ => hp.frame_outer), by simp⟩, by simp⟩
    simp [espAt, hesp]
  · cases hi
    obtain ⟨w, hw, rfl⟩ := Option.map_eq_some_iff.mp hs
    refine ⟨.rfl, fun _ _ => ⟨rfl, rfl⟩, fun _ => ⟨?_, fun _ => h.above (by simp), by simp, by simp,
      by simp, by simp, hframe, by simp⟩, by simp⟩
    simpa [espAt] using h.esp
  · cases hi
    have hesp : s.gpr .esp = l.frame - 4 := h.esp
    have habove := h.above (by simp)
    obtain ⟨s₁, hpush, rfl⟩ := Option.map_eq_some_iff.mp hs
    obtain ⟨mem, hmem, rfl⟩ := Option.map_eq_some_iff.mp hpush
    have hfour : (4 : Word).toNat = 4 := rfl
    have hsub : (l.frame - 4).toNat = l.frame.toNat - 4 :=
      BitVec.toNat_sub_of_le (BitVec.le_def.mpr (by omega))
    rw [hesp] at hmem
    obtain ⟨-, hk⟩ := push_below hpriv hguard hp (BitVec.le_def.mpr (by omega))
      (BitVec.le_def.mpr (by omega)) hmem
    exact ⟨Space.storeWord_map hmem, hk, by simp, fun _ => rfl⟩

theorem Sane.exec (h : Sane base handler m) (hc : Clean base handler m .exec)
    (hs : step base handler m .exec = some m') : Sane base handler m' := by
  rcases m with ⟨user, live⟩
  obtain ⟨i, hcur, hs⟩ := Option.bind_eq_some_iff.mp hs
  obtain ⟨s, hexec, rfl⟩ := Option.map_eq_some_iff.mp hs
  obtain ⟨n, hidx, hi⟩ := Option.bind_eq_some_iff.mp hcur
  change user.exec i = some s at hexec
  change index base handler user.eip = some n at hidx
  have hn : n < 16 := (ia32.indexAt_eq hidx).1
  rcases live with _ | ⟨l, outer⟩
  · have hgood : index base handler user.eip = none := h.good
    rw [hgood] at hidx
    cases hidx
  obtain ⟨hat, hp, hearly, hgood⟩ := h.good
  have hstage : Stage user.mem l user.toCpu n := by
    simp only [At, hidx] at hat
    exact hat
  -- the level stays, and those above it do not change
  have hstays : i ≠ .ret → Space.SameMap user.mem s.mem → Kept (Outer outer) user.mem s.mem →
      At base handler s.mem l s.toCpu → Sane base handler ⟨s, remaining i (l :: outer)⟩ := by
    intro hret hmap hk hat
    rw [remaining_of_ne hret]
    exact ⟨h.priv.map hmap, h.guard.map hmap, hat, hp, hearly, hgood.early hearly rfl rfl hk⟩
  by_cases hlt : n < 3
  · -- up to the call of the handler
    obtain ⟨hmap, hk, hnext, hcall⟩ := hstage.enter h.priv h.guard hp hlt hi hexec
    have hframe : Framed user.mem l.frame l.trap (l.trap.gpr .esp) := by
      have := hstage.frame
      rwa [if_pos (by omega)] at this
    have hret : i ≠ .ret := by
      rcases (by omega : n = 0 ∨ n = 1 ∨ n = 2) with rfl | rfl | rfl <;> cases hi <;> nofun
    refine hstays hret hmap (hk.mono fun _ => hp.outer_outer) ?_
    unfold At
    by_cases htwo : n = 2
    · rw [hcall htwo, hc (htwo ▸ hidx)]
      exact hframe.kept (hk.mono fun _ => hp.frame_outer)
    · have hno : ∀ r, i ≠ .call r := by
        rcases (by omega : n = 0 ∨ n = 1) with rfl | rfl <;> cases hi <;> nofun
      rw [index_next hidx hi hexec hret hno (by omega)]
      exact hnext (by omega)
  by_cases hlast : n = 15
  · -- the computation goes on
    subst hlast
    cases hi
    obtain ⟨s', hs', hmem, hres⟩ := hstage.return
    cases hexec.symm.trans hs'
    refine ⟨hmem ▸ h.priv, hmem ▸ h.guard, hgood.early hearly hres.gpr hres.eip ?_⟩
    rw [hmem]
    exact fun _ _ => ⟨rfl, rfl⟩
  · -- the upcall unwinds
    obtain ⟨i', s', hi', hret, hno, hs', ht, hst⟩ :=
      hstage.unwind h.priv hp (by omega) (by omega) handler fun h7 => by
        subst h7
        cases hi
        have hesp : user.gpr .esp = l.trap.gpr .esp := hstage.esp
        obtain ⟨s₁, hpush, -⟩ := Option.map_eq_some_iff.mp hexec
        obtain ⟨mem, hmem, -⟩ := Option.map_eq_some_iff.mp hpush
        exact hesp ▸ Space.storeBytes_writable hmem
    cases hi.symm.trans hi'
    cases hexec.symm.trans hs'
    refine hstays hret ht.map ht.outer ?_
    unfold At
    rw [index_next hidx hi hexec hret hno (by omega)]
    exact hst

theorem sane_step {ev : Event} (h : Sane base handler m) (hc : Clean base handler m ev)
    (hs : step base handler m ev = some m') : Sane base handler m' := by
  cases ev with
  | exec => exact h.exec hc hs
  | fault rest fault_va => exact h.fault hc hs
  | other s => exact h.other hc hs

end Steps

end jos.upcall
