-- The big kernel lock (kern/spinlock.c) and all the places that take it or
-- release it: i386_init, mp_main, trap, env_run and sched_halt. Each CPU is at
-- a place in this code, and the CPUs take their steps in any order; the steps
-- of spin_lock and spin_unlock are apart.
import Jos.Trap

namespace jos.biglock

/-! ## The lock -/

/-- `struct spinlock`: whether it is held, and the CPU that is said to hold it. -/
structure Spinlock where
  locked : Bool
  cpu : Option Nat

/-- `lock->locked && lock->cpu == thiscpu`. -/
def holding (lk : Spinlock) (c : Nat) : Bool := lk.locked && lk.cpu == some c

/-! ## Places -/

/-- Where a CPU goes on when `lock_kernel` returns. -/
inductive Then
  | boot_aps
  | sched_yield
  | user_test (cs : BitVec 16) (trapno : Word)
  | dispatch (cs : BitVec 16) (trapno : Word)
deriving DecidableEq

/-- Where a CPU goes when `unlock_kernel` returns: to `env_pop_tf` with a frame, or to `hlt`. -/
inductive Leave
  | env_pop_tf (tf : Trapframe)
  | hlt

/-- Why a CPU has stopped: one of the two panics of `DEBUG_SPINLOCK`, or another panic or the
monitor. -/
inductive Stop
  | already_holding
  | not_holding
  | other
deriving DecidableEq

/-- Where a CPU is. -/
inductive Place
  /-- not started yet -/
  | off
  /-- in `i386_init` or `mp_main` before `lock_kernel` -/
  | starting
  /-- at the start of `spin_lock` -/
  | spin_lock (next : Then)
  /-- at the `xchg` of its loop -/
  | acquire (next : Then)
  /-- before `lk->cpu = thiscpu` -/
  | record (next : Then)
  /-- in `boot_aps`, waiting for a CPU that it has started -/
  | boot_aps (waiting : Option Nat)
  /-- at the start of `trap` -/
  | trap (cs : BitVec 16) (trapno : Word)
  /-- at the test of `tf_cs` -/
  | user_test (cs : BitVec 16) (trapno : Word)
  /-- at the call of `trap_dispatch` -/
  | dispatch (cs : BitVec 16) (trapno : Word)
  /-- anywhere else in the kernel -/
  | kernel
  /-- at the start of `spin_unlock` -/
  | spin_unlock (next : Leave)
  /-- before `lk->cpu = 0` -/
  | clear (next : Leave)
  /-- at the `xchg` that releases the lock -/
  | release (next : Leave)
  /-- after `unlock_kernel` -/
  | leave (next : Leave)
  /-- in user mode, or in virtual 8086 mode -/
  | user (vm : Bool)
  /-- in the `hlt` of `sched_halt` -/
  | halted
  | stopped (why : Stop)

/-- The lock, and of each CPU its `cpu_status`, where it is, and whether it has acquired the
lock and not released it yet. -/
structure Machine where
  lock : Spinlock
  panicstr : Bool
  status : Nat → CpuStatus
  place : Nat → Place
  owns : Nat → Bool

namespace Machine

def goto (m : Machine) (c : Nat) (p : Place) : Machine :=
  { m with place := Function.update m.place c p }

def setStatus (m : Machine) (c : Nat) (s : CpuStatus) : Machine :=
  { m with status := Function.update m.status c s }

def stop (m : Machine) (c : Nat) (why : Stop) : Machine := m.goto c (.stopped why)

/-- CPU 0 is in `i386_init`; `mp_init` has set its status. -/
def start : Machine where
  lock := ⟨false, none⟩
  panicstr := false
  status := fun c => if c = 0 then .CPU_STARTED else .CPU_UNUSED
  place := fun c => if c = 0 then .starting else .off
  owns := fun _ => false

/-- `lock_kernel()` returns. -/
def resume (c : Nat) (m : Machine) : Then → Machine
  | .boot_aps => m.goto c (.boot_aps none)
  | .sched_yield => m.goto c .kernel
  | .user_test cs trapno => m.goto c (.user_test cs trapno)
  | .dispatch cs trapno => m.goto c (.dispatch cs trapno)

end Machine

/-- A general protection fault. -/
def T_GPFLT : Word := 13

/-- The trap numbers with a case of their own in `trap_dispatch`. -/
def handled (trapno : Word) : Bool :=
  trapno == IRQ_SPURIOUS || trapno == T_BRKPT || trapno == T_PGFLT || trapno == T_SYSCALL ||
    trapno == IRQ_TIMER || trapno == IRQ_KBD || trapno == IRQ_SERIAL

/-- Whether `trap_dispatch` panics over a trap in the kernel. -/
def dispatchPanics (cs : BitVec 16) (trapno : Word) : Bool :=
  if trapno = T_PGFLT then cs &&& 0x11 == 0 else !handled trapno && cs == GD_KT

/-- `env_pop_tf`: with the `VM` flag to virtual 8086 mode, with selectors that can be loaded
to user mode, and else a fault in the kernel. -/
def env_pop_tf (m : Machine) (c : Nat) (tf : Trapframe) : Machine :=
  if tf.tf_eflags &&& FL_VM ≠ 0 then m.goto c (.user true)
  else if tf.loadable then m.goto c (.user false)
  else m.goto c (.trap GD_KT T_GPFLT)

/-! ## Steps -/

/-- The next step of a CPU, where the code leaves no choice. -/
def go (m : Machine) (c : Nat) : Option Machine :=
  match m.place c with
  | .starting =>
    if c = 0 then some (m.goto c (.spin_lock .boot_aps))
    else some ((m.setStatus c .CPU_STARTED).goto c (.spin_lock .sched_yield))
  | .spin_lock next =>
    if holding m.lock c then some (m.stop c .already_holding) else some (m.goto c (.acquire next))
  | .acquire next =>
    -- the loop goes on while the old value is not 0
    if m.lock.locked then some m
    else
      some ({ m with
        lock := ⟨true, m.lock.cpu⟩
        owns := Function.update m.owns c true }.goto c (.record next))
  | .record next => some ({ m with lock := ⟨m.lock.locked, some c⟩ }.resume c next)
  | .boot_aps (some c') =>
    if m.status c' = .CPU_STARTED then some (m.goto c (.boot_aps none)) else some m
  | .boot_aps none => some (m.goto c .kernel)
  | .trap cs trapno =>
    if m.panicstr then some (m.stop c .other)
    else if m.status c = .CPU_HALTED then
      some ((m.setStatus c .CPU_STARTED).goto c (.spin_lock (.user_test cs trapno)))
    else some ((m.setStatus c .CPU_STARTED).goto c (.user_test cs trapno))
  | .user_test cs trapno =>
    if cs &&& 3 = 3 then some (m.goto c (.spin_lock (.dispatch cs trapno)))
    else some (m.goto c (.dispatch cs trapno))
  | .dispatch cs trapno =>
    if dispatchPanics cs trapno then some ({ m with panicstr := true }.stop c .other)
    else some (m.goto c .kernel)
  | .spin_unlock next =>
    if holding m.lock c then some (m.goto c (.clear next)) else some (m.stop c .not_holding)
  | .clear next => some ({ m with lock := ⟨m.lock.locked, none⟩ }.goto c (.release next))
  | .release next =>
    some ({ m with
      lock := ⟨false, m.lock.cpu⟩
      owns := Function.update m.owns c false }.goto c (.leave next))
  | .leave (.env_pop_tf tf) => some (env_pop_tf m c tf)
  | .leave .hlt => some (m.goto c .halted)
  | _ => none

/-- How the work of a CPU in the kernel ends: with `env_run` or `sched_halt`, with a panic or
in the monitor, or with a fault in the kernel. -/
inductive Work
  | env_run (tf : Trapframe)
  | sched_halt
  | stop (panics : Bool)
  | fault (trapno : Word)

def Work.done (m : Machine) (c : Nat) : Work → Machine
  | .env_run tf => m.goto c (.spin_unlock (.env_pop_tf tf))
  | .sched_halt => (m.setStatus c .CPU_HALTED).goto c (.spin_unlock .hlt)
  | .stop panics => { m with panicstr := m.panicstr || panics }.stop c .other
  | .fault trapno => m.goto c (.trap GD_KT trapno)

/-- What happens next: a CPU goes on; `boot_aps` starts another CPU; a CPU has done its work in
the kernel; user code traps; or a halted CPU is interrupted. -/
inductive Event
  | go (c : Nat)
  | startap (c c' : Nat)
  | work (c : Nat) (w : Work)
  | trap (c : Nat) (cs : BitVec 16) (trapno : Word)
  | interrupt (c : Nat) (trapno : Word)

/-- Code at CPL 3 in protected mode has a code selector that says so. In virtual 8086 mode `cs`
is a plain number. -/
def step (m : Machine) : Event → Option Machine
  | .go c => go m c
  | .startap c c' =>
    match m.place c, m.place c' with
    | .boot_aps none, .off => some ((m.goto c' .starting).goto c (.boot_aps (some c')))
    | _, _ => none
  | .work c w =>
    match m.place c with
    | .kernel => some (w.done m c)
    | _ => none
  | .trap c cs trapno =>
    match m.place c with
    | .user vm => if vm ∨ cs &&& 3 = 3 then some (m.goto c (.trap cs trapno)) else none
    | _ => none
  | .interrupt c trapno =>
    match m.place c with
    | .halted => some (m.goto c (.trap GD_KT trapno))
    | _ => none

/-- No environment is run with the `VM` flag in its frame. -/
def NoVm (_ : Machine) : Event → Prop
  | .work _ (.env_run tf) => tf.tf_eflags &&& FL_VM = 0
  | _ => True

instance (m : Machine) : ∀ ev, Decidable (NoVm m ev)
  | .work _ (.env_run tf) => inferInstanceAs (Decidable (tf.tf_eflags &&& FL_VM = 0))
  | .work _ .sched_halt => .isTrue trivial
  | .work _ (.stop _) => .isTrue trivial
  | .work _ (.fault _) => .isTrue trivial
  | .go _ => .isTrue trivial
  | .startap _ _ => .isTrue trivial
  | .trap _ _ _ => .isTrue trivial
  | .interrupt _ _ => .isTrue trivial

/-! ## The invariant -/

/-- What is so where `lock_kernel` returns to. -/
def Then.Fits : Then → Prop
  | .user_test cs _ => cs = GD_KT
  | _ => True

/-- What is so where `unlock_kernel` returns to. -/
def Leave.Fits (st : CpuStatus) : Leave → Prop
  | .env_pop_tf tf => st = .CPU_STARTED ∧ tf.tf_eflags &&& FL_VM = 0
  | .hlt => st = .CPU_HALTED

/-- A trap that finds the lock free, or in other hands: one from user mode, or the fault of
`env_pop_tf`. -/
def Outer (cs : BitVec 16) (trapno : Word) : Prop :=
  cs &&& 3 = 3 ∨ cs = GD_KT ∧ trapno = T_GPFLT

/-- What is so of CPU `c` at each place: its status, and whether it has the lock. -/
def Place.Fits (c : Nat) (st : CpuStatus) (o : Bool) : Place → Prop
  | .off => o = false ∧ c ≠ 0
  | .starting => o = false ∧ (c = 0 → st = .CPU_STARTED)
  | .spin_lock next => o = false ∧ st = .CPU_STARTED ∧ next.Fits
  | .acquire next => o = false ∧ st = .CPU_STARTED ∧ next.Fits
  | .record next => o = true ∧ st = .CPU_STARTED ∧ next.Fits
  | .boot_aps _ => o = true ∧ st = .CPU_STARTED
  | .trap cs trapno =>
    (o = true ∧ st = .CPU_STARTED ∧ cs = GD_KT) ∨
      (o = false ∧ st = .CPU_STARTED ∧ Outer cs trapno) ∨
      (o = false ∧ st = .CPU_HALTED ∧ cs = GD_KT)
  | .user_test cs trapno =>
    st = .CPU_STARTED ∧ (o = true ∧ cs = GD_KT ∨ o = false ∧ Outer cs trapno)
  | .dispatch cs trapno => st = .CPU_STARTED ∧ (o = true ∨ cs = GD_KT ∧ trapno = T_GPFLT)
  | .kernel => o = true ∧ st = .CPU_STARTED
  | .spin_unlock next => o = true ∧ next.Fits st
  | .clear next => o = true ∧ next.Fits st
  | .release next => o = true ∧ next.Fits st
  | .leave next => o = false ∧ next.Fits st
  | .user vm => o = false ∧ st = .CPU_STARTED ∧ vm = false
  | .halted => o = false ∧ st = .CPU_HALTED
  | .stopped why => why = .other

/-- Whether a CPU that has the lock is in `lock->cpu`. -/
def Place.recorded : Place → Bool
  | .record _ => false
  | .release _ => false
  | _ => true

/-- `o` is the CPU that has the lock, if there is one. -/
structure Held (m : Machine) (o : Option Nat) : Prop where
  owns : m.owns = fun c => decide (o = some c)
  locked : m.lock.locked = o.isSome
  cpu : m.lock.cpu = o.filter fun c => (m.place c).recorded

structure Inv (m : Machine) : Prop where
  held : ∃ o, Held m o
  fits : ∀ c, (m.place c).Fits c (m.status c) (m.owns c)

variable {m m' : Machine} {c : Nat} {p : Place} {o : Option Nat}

theorem Held.owns_iff (h : Held m o) : m.owns c = true ↔ o = some c := by
  rw [h.owns, decide_eq_true_iff]

theorem Inv.start : Inv .start := by
  refine ⟨⟨none, rfl, rfl, rfl⟩, fun c => ?_⟩
  show (if c = 0 then Place.starting else .off).Fits c
    (if c = 0 then .CPU_STARTED else .CPU_UNUSED) false
  by_cases hc : c = 0
  · rw [if_pos hc, if_pos hc]
    exact ⟨rfl, fun _ => rfl⟩
  · rw [if_neg hc, if_neg hc]
    exact ⟨rfl, hc⟩

theorem Inv.panic (h : Inv m) (b : Bool) : Inv { m with panicstr := b } := by
  obtain ⟨o, ho⟩ := h.held
  exact ⟨⟨o, ho.owns, ho.locked, ho.cpu⟩, h.fits⟩

theorem Inv.here {q : Place} (h : Inv m) (hq : m.place c = q) : q.Fits c (m.status c) (m.owns c) :=
  hq ▸ h.fits c

/-- A step of one CPU: the others are where they were. -/
theorem Inv.of_step (h : Inv m) {m' : Machine} (hheld : ∃ o, Held m' o)
    (hfits : (m'.place c).Fits c (m'.status c) (m'.owns c))
    (hothers : ∀ c', c' ≠ c →
      m'.place c' = m.place c' ∧ m'.status c' = m.status c' ∧ m'.owns c' = m.owns c') : Inv m' := by
  refine ⟨hheld, fun c' => ?_⟩
  by_cases hc : c' = c
  · rw [hc]
    exact hfits
  · obtain ⟨hp, hst, ho⟩ := hothers c' hc
    rw [hp, hst, ho]
    exact h.fits c'

/-- A CPU goes to another place and leaves the lock alone. -/
theorem Inv.move {q : Place} (h : Inv m) (hq : m.place c = q) (st : CpuStatus)
    (hfits : p.Fits c st (m.owns c)) (hrec : p.recorded = q.recorded) :
    Inv ((m.setStatus c st).goto c p) := by
  obtain ⟨o, ho⟩ := h.held
  refine h.of_step (c := c) ⟨o, ho.owns, ho.locked, ho.cpu.trans ?_⟩ ?_ fun c' hc =>
    ⟨Function.update_of_ne hc .., Function.update_of_ne hc .., rfl⟩
  · congr 1
    funext c'
    show (m.place c').recorded = (Function.update m.place c p c').recorded
    by_cases hc : c' = c
    · rw [hc, Function.update_self, hrec, hq]
    · rw [Function.update_of_ne hc]
  · show (Function.update m.place c p c).Fits c (Function.update m.status c st c) (m.owns c)
    rw [Function.update_self, Function.update_self]
    exact hfits

theorem Inv.goto {q : Place} (h : Inv m) (hq : m.place c = q)
    (hfits : p.Fits c (m.status c) (m.owns c)) (hrec : p.recorded = q.recorded) :
    Inv (m.goto c p) := by
  have hmove := h.move hq (m.status c) hfits hrec
  unfold Machine.setStatus at hmove
  rwa [Function.update_eq_self] at hmove

/-- The CPU that takes the lock, has it or gives it up writes to it. -/
theorem Inv.setLock {lk : Spinlock} {o' : Bool} (h : Inv m)
    (hlock : m.lock.locked = false ∨ m.owns c = true) (hl : lk.locked = o')
    (hcpu : lk.cpu = if o' && p.recorded then some c else none)
    (hfits : p.Fits c (m.status c) o') :
    Inv (Machine.goto { m with lock := lk, owns := Function.update m.owns c o' } c p) := by
  obtain ⟨o, ho⟩ := h.held
  have hothers : ∀ c', c' ≠ c → m.owns c' = false := by
    intro c' hc
    rw [← Bool.not_eq_true, ho.owns_iff]
    rintro rfl
    rcases hlock with hfree | howns
    · cases ho.locked.symm.trans hfree
    · exact hc (Option.some.inj (ho.owns_iff.mp howns))
  refine h.of_step (c := c) ⟨if o' then some c else none, ?_, ?_, ?_⟩ ?_ fun c' hc =>
    ⟨Function.update_of_ne hc .., rfl, Function.update_of_ne hc ..⟩
  · funext c'
    show Function.update m.owns c o' c' = _
    by_cases hc : c' = c
    · rw [hc, Function.update_self]
      cases o' <;> simp
    · rw [Function.update_of_ne hc, hothers c' hc]
      cases o' <;> simp [Ne.symm hc]
  · show lk.locked = _
    rw [hl]
    cases o' <;> rfl
  · show lk.cpu = Option.filter (fun c' => (Function.update m.place c p c').recorded) _
    rw [hcpu]
    cases o' <;> simp [Option.filter]
  · show (Function.update m.place c p c).Fits c (m.status c) (Function.update m.owns c o' c)
    rw [Function.update_self, Function.update_self]
    exact hfits

theorem Inv.cpu_of_free (h : Inv m) (hfree : m.lock.locked = false) : m.lock.cpu = none := by
  obtain ⟨o, ho⟩ := h.held
  cases o with
  | none => exact ho.cpu
  | some c => cases ho.locked.symm.trans hfree

theorem Inv.cpu_of_owns (h : Inv m) (howns : m.owns c = true) :
    m.lock.locked = true ∧ m.lock.cpu = if (m.place c).recorded then some c else none := by
  obtain ⟨o, ho⟩ := h.held
  rw [ho.locked, ho.cpu, ho.owns_iff.mp howns]
  exact ⟨rfl, rfl⟩

/-- The CPU that has the lock writes `lock->cpu`: itself, or nobody. -/
theorem Inv.setCpu {who : Option Nat} (h : Inv m) (ho : m.owns c = true)
    (hwho : who = if p.recorded then some c else none)
    (hfits : p.Fits c (m.status c) (m.owns c)) :
    Inv (Machine.goto { m with lock := ⟨m.lock.locked, who⟩ } c p) := by
  rw [ho] at hfits
  have hl : (Spinlock.mk m.lock.locked who).locked = true := (h.cpu_of_owns ho).1
  have hset := h.setLock (.inr ho) hl hwho hfits
  rwa [← ho, Function.update_eq_self] at hset

/-! ## The debug checks -/

theorem Inv.holding_iff (h : Inv m) :
    holding m.lock c = true ↔ m.owns c = true ∧ (m.place c).recorded = true := by
  obtain ⟨o, ho⟩ := h.held
  unfold holding
  rw [Bool.and_eq_true, beq_iff_eq, ho.owns_iff, ho.locked, ho.cpu, Option.filter_eq_some_iff]
  exact ⟨fun hc => hc.2, fun hc => ⟨by rw [hc.1]; rfl, hc⟩⟩

/-! ## Every step keeps the invariant -/

theorem not_user_of_kernel : ¬ GD_KT &&& 3 = 3 := by decide

theorem dispatch_gpflt : dispatchPanics GD_KT T_GPFLT = true := by decide

theorem Inv.resume {next : Then} (h : Inv m) (hp : m.place c = .record next) :
    Inv (Machine.resume c { m with lock := ⟨m.lock.locked, some c⟩ } next) := by
  obtain ⟨ho, hst, hnext⟩ := h.here hp
  cases next with
  | boot_aps => exact h.setCpu (p := .boot_aps none) ho rfl ⟨ho, hst⟩
  | sched_yield => exact h.setCpu (p := .kernel) ho rfl ⟨ho, hst⟩
  | user_test cs trapno =>
    exact h.setCpu (p := .user_test cs trapno) ho rfl ⟨hst, .inl ⟨ho, hnext⟩⟩
  | dispatch cs trapno => exact h.setCpu (p := .dispatch cs trapno) ho rfl ⟨hst, .inl ho⟩

theorem Inv.pop {tf : Trapframe} (h : Inv m) (hp : m.place c = .leave (.env_pop_tf tf)) :
    Inv (env_pop_tf m c tf) := by
  obtain ⟨ho, hst, hvm⟩ := h.here hp
  unfold env_pop_tf
  rw [if_neg (not_not.mpr hvm)]
  split
  · exact h.goto hp ⟨ho, hst, rfl⟩ rfl
  · exact h.goto hp (.inr (.inl ⟨ho, hst, .inr ⟨rfl, rfl⟩⟩)) rfl

/-- The start of `trap`: only a CPU that was halted takes the lock here. -/
theorem Inv.trap {cs : BitVec 16} {trapno : Word} (h : Inv m) (hp : m.place c = .trap cs trapno) :
    Inv (if m.status c = .CPU_HALTED then
      (m.setStatus c .CPU_STARTED).goto c (.spin_lock (.user_test cs trapno))
      else (m.setStatus c .CPU_STARTED).goto c (.user_test cs trapno)) := by
  rcases h.here hp with ⟨ho, hst, hcs⟩ | ⟨ho, hst, hout⟩ | ⟨ho, hst, hcs⟩
  · rw [hst]
    exact h.move hp _ ⟨rfl, .inl ⟨ho, hcs⟩⟩ rfl
  · rw [hst]
    exact h.move hp _ ⟨rfl, .inr ⟨ho, hout⟩⟩ rfl
  · rw [hst]
    exact h.move hp _ ⟨ho, rfl, hcs⟩ rfl

/-- The test of `tf_cs`: a trap that the CPU takes with the lock is one from the kernel. -/
theorem Inv.user_test {cs : BitVec 16} {trapno : Word} (h : Inv m)
    (hp : m.place c = .user_test cs trapno) :
    Inv (if cs &&& 3 = 3 then m.goto c (.spin_lock (.dispatch cs trapno))
      else m.goto c (.dispatch cs trapno)) := by
  obtain ⟨hst, ⟨ho, hcs⟩ | ⟨ho, hout⟩⟩ := h.here hp
  · rw [if_neg (hcs ▸ not_user_of_kernel)]
    exact h.goto hp ⟨hst, .inl ho⟩ rfl
  · split
    · exact h.goto hp ⟨ho, hst, trivial⟩ rfl
    · rename_i huser
      exact h.goto hp ⟨hst, .inr (hout.resolve_left huser)⟩ rfl

/-- A CPU that gets to `trap_dispatch` without the lock panics there. -/
theorem Inv.dispatch {cs : BitVec 16} {trapno : Word} (h : Inv m)
    (hp : m.place c = .dispatch cs trapno) :
    Inv (if dispatchPanics cs trapno then { m with panicstr := true }.stop c .other
      else m.goto c .kernel) := by
  obtain ⟨hst, hcases⟩ := h.here hp
  split
  · exact (h.panic true).goto hp rfl rfl
  · rename_i hno
    rcases hcases with ho | ⟨rfl, rfl⟩
    · exact h.goto hp ⟨ho, hst⟩ rfl
    · exact absurd dispatch_gpflt hno

theorem Inv.go (h : Inv m) (hgo : go m c = some m') : Inv m' := by
  unfold biglock.go at hgo
  generalize hp : m.place c = q at hgo
  cases q with
  | starting =>
    obtain ⟨ho, hst⟩ := h.here hp
    dsimp only at hgo
    split at hgo
    · rename_i hc
      cases hgo
      exact h.goto hp ⟨ho, hst hc, trivial⟩ rfl
    · cases hgo
      exact h.move hp _ ⟨ho, rfl, trivial⟩ rfl
  | spin_lock next =>
    obtain ⟨ho, hrest⟩ := h.here hp
    dsimp only at hgo
    split at hgo
    · rename_i hh
      exact absurd (h.holding_iff.mp hh).1 (by rw [ho]; exact Bool.false_ne_true)
    · cases hgo
      exact h.goto hp ⟨ho, hrest⟩ rfl
  | acquire next =>
    obtain ⟨-, hst, hnext⟩ := h.here hp
    dsimp only at hgo
    split at hgo
    · cases hgo
      exact h
    · rename_i hl
      cases hgo
      have hfree : m.lock.locked = false := Bool.not_eq_true _ ▸ hl
      exact h.setLock (.inl hfree) rfl (h.cpu_of_free hfree) ⟨rfl, hst, hnext⟩
  | record next =>
    cases hgo
    exact h.resume hp
  | boot_aps waiting =>
    cases waiting with
    | none =>
      have hfits := h.here hp
      cases hgo
      exact h.goto hp hfits rfl
    | some c' =>
      have hfits := h.here hp
      dsimp only at hgo
      split at hgo
      · cases hgo
        exact h.goto hp hfits rfl
      · cases hgo
        exact h
  | trap cs trapno =>
    dsimp only at hgo
    split at hgo
    · cases hgo
      exact h.goto hp rfl rfl
    · rw [← apply_ite some] at hgo
      exact Option.some.inj hgo ▸ h.trap hp
  | user_test cs trapno =>
    dsimp only at hgo
    rw [← apply_ite some] at hgo
    exact Option.some.inj hgo ▸ h.user_test hp
  | dispatch cs trapno =>
    dsimp only at hgo
    rw [← apply_ite some] at hgo
    exact Option.some.inj hgo ▸ h.dispatch hp
  | spin_unlock next =>
    have hfits := h.here hp
    dsimp only at hgo
    split at hgo
    · cases hgo
      exact h.goto hp hfits rfl
    · rename_i hh
      exact absurd (h.holding_iff.mpr ⟨hfits.1, by rw [hp]; rfl⟩) hh
  | clear next =>
    have hfits := h.here hp
    cases hgo
    exact h.setCpu hfits.1 rfl hfits
  | release next =>
    obtain ⟨ho, hnext⟩ := h.here hp
    have hcpu := (h.cpu_of_owns ho).2
    rw [hp] at hcpu
    cases hgo
    exact h.setLock (.inr ho) rfl hcpu ⟨rfl, hnext⟩
  | leave next =>
    cases next with
    | env_pop_tf tf =>
      cases hgo
      exact h.pop hp
    | hlt =>
      have hfits := h.here hp
      cases hgo
      exact h.goto hp hfits rfl
  | _ => cases hgo

theorem Inv.startap {c' : Nat} (h : Inv m) (hp : m.place c = .boot_aps none)
    (hp' : m.place c' = .off) :
    Inv ((m.goto c' .starting).goto c (.boot_aps (some c'))) := by
  obtain ⟨ho', hne'⟩ := h.here hp'
  have hne : c ≠ c' := by
    rintro rfl
    rw [hp] at hp'
    cases hp'
  have hplace : (m.goto c' .starting).place c = .boot_aps none := by
    show Function.update m.place c' .starting c = _
    rw [Function.update_of_ne hne, hp]
  have hfits := h.here hp
  exact (h.goto (p := .starting) hp' ⟨ho', fun hc => absurd hc hne'⟩ rfl).goto hplace hfits rfl

theorem Inv.work {w : Work} (h : Inv m) (hp : m.place c = .kernel) (hw : NoVm m (.work c w)) :
    Inv (w.done m c) := by
  obtain ⟨ho, hst⟩ := h.here hp
  cases w with
  | env_run tf => exact h.goto hp ⟨ho, hst, hw⟩ rfl
  | sched_halt => exact h.move hp _ ⟨ho, rfl⟩ rfl
  | stop panics => exact (h.panic _).goto hp rfl rfl
  | fault trapno => exact h.goto hp (.inl ⟨ho, hst, rfl⟩) rfl

theorem Inv.step {ev : Event} (h : Inv m) (hev : NoVm m ev) (hstep : step m ev = some m') :
    Inv m' := by
  unfold biglock.step at hstep
  cases ev with
  | go c => exact h.go hstep
  | startap c c' =>
    dsimp only at hstep
    split at hstep
    · rename_i hp hp'
      cases hstep
      exact h.startap hp hp'
    · cases hstep
  | work c w =>
    dsimp only at hstep
    split at hstep
    · rename_i hp
      cases hstep
      exact h.work hp hev
    · cases hstep
  | trap c cs trapno =>
    dsimp only at hstep
    split at hstep
    · rename_i vm hp
      obtain ⟨ho, hst, rfl⟩ := h.here hp
      split at hstep
      · rename_i hcs
        cases hstep
        exact h.goto hp (.inr (.inl ⟨ho, hst, .inl (hcs.resolve_left Bool.false_ne_true)⟩)) rfl
      · cases hstep
    · cases hstep
  | interrupt c trapno =>
    dsimp only at hstep
    split at hstep
    · rename_i hp
      obtain ⟨ho, hst⟩ := h.here hp
      cases hstep
      exact h.goto hp (.inr (.inr ⟨ho, hst, rfl⟩)) rfl
    · cases hstep

/-! ## The discipline -/

/-- At most one CPU is between acquiring and releasing the lock, none that calls `lock_kernel`
has it, each that calls `unlock_kernel` has it, and no debug check has failed. -/
structure Discipline (m : Machine) : Prop where
  exclusive : ∀ c c', m.owns c = true → m.owns c' = true → c = c'
  lock : ∀ c next, m.place c = .spin_lock next → m.owns c = false
  unlock : ∀ c next, m.place c = .spin_unlock next → m.owns c = true
  checks : ∀ c, m.place c ≠ .stopped .already_holding ∧ m.place c ≠ .stopped .not_holding

theorem Inv.discipline (h : Inv m) : Discipline m := by
  obtain ⟨o, ho⟩ := h.held
  refine ⟨fun c c' hc hc' => ?_, fun c next hp => (h.here hp).1, fun c next hp => (h.here hp).1,
    fun c => ⟨fun hp => ?_, fun hp => ?_⟩⟩
  · exact Option.some.inj ((ho.owns_iff.mp hc).symm.trans (ho.owns_iff.mp hc'))
  · cases h.here hp
  · cases h.here hp

/-- CPU 0 gets out of `i386_init` with an environment that has this frame. -/
def bootAndRun (tf : Trapframe) : List Event :=
  [.go 0, .go 0, .go 0, .go 0, .go 0, .work 0 (.env_run tf), .go 0, .go 0, .go 0, .go 0]

/-- CPU 1 starts and waits while CPU 0 has the lock; CPU 0 gets to user mode and traps, and
finds the lock with CPU 1. -/
def twoCpus : List Event :=
  [.go 0, .go 0, .go 0, .go 0, .startap 0 1, .go 1, .go 1, .go 1, .go 0, .go 0,
    .work 0 (.env_run initialTf), .go 0, .go 0, .go 0, .go 0, .trap 0 (GD_UT ||| 3) IRQ_TIMER,
    .go 0, .go 0, .go 1]

end jos.biglock
