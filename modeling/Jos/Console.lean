-- The input of the console (`cons_intr` and `cons_getc` of `kern/console.c`). Characters come
-- from interrupts and from the polls of `cons_getc` itself, and wait in a ring. An access
-- outside the ring ends the run.
import Mathlib
import Jos.Lib.Ring
import Jos.Lib.Runs

namespace jos.console

open ring runs

abbrev Byte := BitVec 8

def CONSBUFSIZE : Nat := 512

/-! ## The code -/

structure Cons where
  buf : Fin CONSBUFSIZE → Byte
  rpos : Nat
  wpos : Nat

instance : NeZero CONSBUFSIZE := ⟨by decide⟩

/-- The next position of the ring. -/
def advance (pos : Nat) : Nat := if pos + 1 = CONSBUFSIZE then 0 else pos + 1

/-- `cons.buf[cons.wpos++] = c`, and back to the start at the end. -/
def Cons.put (s : Cons) (c : Byte) : Option Cons :=
  if s.wpos < CONSBUFSIZE then
    some { s with buf := Function.update s.buf (Fin.ofNat CONSBUFSIZE s.wpos) c
                  wpos := advance s.wpos }
  else none

/-- `cons_intr(proc)`, with the characters that `proc` gives before it gives -1. Both of
the devices give bytes. -/
def cons_intr : List Byte → Cons → Option Cons
  | [], s => some s
  | c :: cs, s => if c = 0 then cons_intr cs s else (s.put c).bind (cons_intr cs)

def serial_intr (serial_exists : Bool) (cs : List Byte) (s : Cons) : Option Cons :=
  if serial_exists then cons_intr cs s else some s

def kbd_intr (cs : List Byte) (s : Cons) : Option Cons := cons_intr cs s

/-- The next character, or 0 if none is waiting. -/
def Cons.take (s : Cons) : Option (Byte × Cons) :=
  if s.rpos ≠ s.wpos then
    if s.rpos < CONSBUFSIZE then
      some (s.buf (Fin.ofNat CONSBUFSIZE s.rpos), { s with rpos := advance s.rpos })
    else none
  else some (0, s)

/-- `cons_getc()`, with what its two polls read. -/
def cons_getc (serial_exists : Bool) (serial kbd : List Byte) (s : Cons) :
    Option (Byte × Cons) :=
  ((serial_intr serial_exists serial s).bind (kbd_intr kbd)).bind Cons.take

/-! ## Runs -/

/-- An interrupt of a device, or a call of `cons_getc`. -/
inductive Event
  | serial (cs : List Byte)
  | kbd (cs : List Byte)
  | getc (serial kbd : List Byte)

/-- The ring, with the characters other than 0 that have arrived, and those that
`cons_getc` has returned. -/
structure Console where
  cons : Cons
  arrived : List Byte
  returned : List Byte

/-- The characters other than 0 that an event brings. -/
def arrivals (serial_exists : Bool) : Event → List Byte
  | .serial cs => if serial_exists then cs.filter (· ≠ 0) else []
  | .kbd cs => cs.filter (· ≠ 0)
  | .getc serial kbd => (if serial_exists then serial.filter (· ≠ 0) else []) ++ kbd.filter (· ≠ 0)

/-- An interrupt has no result. A call has its character, which is 0 if there is none. -/
def perform (serial_exists : Bool) (s : Cons) : Event → Option (Byte × Cons)
  | .serial cs => (serial_intr serial_exists cs s).map (0, ·)
  | .kbd cs => (kbd_intr cs s).map (0, ·)
  | .getc serial kbd => cons_getc serial_exists serial kbd s

def step (serial_exists : Bool) (s : Console) (ev : Event) : Option Console :=
  (perform serial_exists s.cons ev).map fun r =>
    ⟨r.2, s.arrived ++ arrivals serial_exists ev, s.returned ++ [r.1].filter (· ≠ 0)⟩

def start (buf : Fin CONSBUFSIZE → Byte) : Console := ⟨⟨buf, 0, 0⟩, [], []⟩

/-- At most `CONSBUFSIZE - 1` characters are unread when the event has brought its own. -/
def Fits (serial_exists : Bool) (s : Console) (ev : Event) : Prop :=
  s.arrived.length + (arrivals serial_exists ev).length ≤ s.returned.length + (CONSBUFSIZE - 1)

/-- The characters in the ring from `rpos` on to `wpos`. -/
def Cons.unread (s : Cons) : List Byte :=
  (List.range ((s.wpos + CONSBUFSIZE - s.rpos) % CONSBUFSIZE)).map fun i =>
    s.buf (Fin.ofNat CONSBUFSIZE (s.rpos + i))

/-! ## Positions -/

/-- Both positions are in the ring. -/
structure InRing (s : Cons) : Prop where
  rpos : s.rpos < CONSBUFSIZE
  wpos : s.wpos < CONSBUFSIZE

section

variable {s s' : Cons} {c : Byte} {cs : List Byte} {b : Bool} {got sent : List Byte}

theorem advance_lt {pos : Nat} (h : pos < CONSBUFSIZE) : advance pos < CONSBUFSIZE := by
  unfold advance
  split <;> omega

theorem InRing.put (h : InRing s) (c : Byte) : ∃ s', s.put c = some s' ∧ InRing s' :=
  ⟨_, if_pos h.wpos, h.rpos, advance_lt h.wpos⟩

theorem InRing.cons_intr (h : InRing s) (cs : List Byte) :
    ∃ s', cons_intr cs s = some s' ∧ InRing s' := by
  induction cs generalizing s with
  | nil => exact ⟨s, rfl, h⟩
  | cons c cs ih =>
    by_cases hc : c = 0
    · obtain ⟨s', hs', h'⟩ := ih h
      exact ⟨s', (if_pos hc).trans hs', h'⟩
    · obtain ⟨s₁, hput, h₁⟩ := h.put c
      obtain ⟨s', hs', h'⟩ := ih h₁
      refine ⟨s', (if_neg hc).trans ?_, h'⟩
      rw [hput]
      exact hs'

theorem InRing.serial_intr (h : InRing s) (b : Bool) (cs : List Byte) :
    ∃ s', serial_intr b cs s = some s' ∧ InRing s' := by
  cases b with
  | false => exact ⟨s, rfl, h⟩
  | true => exact h.cons_intr cs

theorem InRing.take (h : InRing s) : ∃ r, s.take = some r ∧ InRing r.2 := by
  unfold Cons.take
  split
  · exact ⟨_, if_pos h.rpos, advance_lt h.rpos, h.wpos⟩
  · exact ⟨_, rfl, h⟩

theorem InRing.perform (h : InRing s) (b : Bool) (ev : Event) :
    ∃ r, perform b s ev = some r ∧ InRing r.2 := by
  cases ev with
  | serial cs =>
    obtain ⟨s', hs', h'⟩ := h.serial_intr b cs
    exact ⟨(0, s'), by rw [console.perform, hs']; rfl, h'⟩
  | kbd cs =>
    obtain ⟨s', hs', h'⟩ := h.cons_intr cs
    exact ⟨(0, s'), by rw [console.perform, kbd_intr, hs']; rfl, h'⟩
  | getc serial kbd =>
    obtain ⟨s₁, hs₁, h₁⟩ := h.serial_intr b serial
    obtain ⟨s₂, hs₂, h₂⟩ := h₁.cons_intr kbd
    obtain ⟨r, hr, h'⟩ := h₂.take
    refine ⟨r, ?_, h'⟩
    rw [console.perform, cons_getc, hs₁, Option.bind_some, kbd_intr, hs₂, Option.bind_some, hr]

/-! ## The queue -/

/-- The ring holds what has been sent and not been got, and is not full. -/
structure Queue (s : Cons) (sent got : List Byte) : Prop where
  rpos : s.rpos = got.length % CONSBUFSIZE
  wpos : s.wpos = sent.length % CONSBUFSIZE
  holds : Holds s.buf sent got.length
  front : got <+: sent
  room : sent.length ≤ got.length + (CONSBUFSIZE - 1)

theorem advance_mod (n : Nat) : advance (n % CONSBUFSIZE) = (n + 1) % CONSBUFSIZE := by
  unfold advance CONSBUFSIZE
  split <;> omega

theorem ofNat_mod (n : Nat) : Fin.ofNat CONSBUFSIZE (n % CONSBUFSIZE) = Fin.ofNat CONSBUFSIZE n :=
  Fin.ext (Nat.mod_mod _ _)

theorem Queue.inRing (h : Queue s sent got) : InRing s := by
  refine ⟨?_, ?_⟩
  · rw [h.rpos]
    exact Nat.mod_lt _ (by decide)
  · rw [h.wpos]
    exact Nat.mod_lt _ (by decide)

theorem Queue.put (h : Queue s sent got) (c : Byte)
    (hroom : sent.length + 1 ≤ got.length + (CONSBUFSIZE - 1)) :
    ∃ s', s.put c = some s' ∧ Queue s' (sent ++ [c]) got := by
  refine ⟨_, if_pos h.inRing.wpos, h.rpos, ?_, ?_, ?_, ?_⟩
  · show advance s.wpos = _
    rw [h.wpos, advance_mod, List.length_append, List.length_singleton]
  · show Holds (Function.update s.buf (Fin.ofNat CONSBUFSIZE s.wpos) c) (sent ++ [c]) got.length
    rw [h.wpos, ofNat_mod]
    have hlt : sent.length < got.length + CONSBUFSIZE := by rw [CONSBUFSIZE] at *; omega
    exact (h.holds.store hlt).send (Function.update_self ..)
  · exact h.front.trans (List.prefix_append ..)
  · rwa [List.length_append, List.length_singleton]

theorem Queue.cons_intr (h : Queue s sent got)
    (hroom : sent.length + (cs.filter (· ≠ 0)).length ≤ got.length + (CONSBUFSIZE - 1)) :
    ∃ s', cons_intr cs s = some s' ∧ Queue s' (sent ++ cs.filter (· ≠ 0)) got := by
  induction cs generalizing s sent with
  | nil => exact ⟨s, rfl, by rwa [List.filter_nil, List.append_nil]⟩
  | cons c cs ih =>
    by_cases hc : c = 0
    · have hfilter : (c :: cs).filter (· ≠ 0) = cs.filter (· ≠ 0) :=
        List.filter_cons_of_neg (by simp [hc])
      rw [hfilter] at hroom ⊢
      obtain ⟨s', hs', h'⟩ := ih h hroom
      exact ⟨s', (if_pos hc).trans hs', h'⟩
    · have hfilter : (c :: cs).filter (· ≠ 0) = c :: cs.filter (· ≠ 0) :=
        List.filter_cons_of_pos (decide_eq_true hc)
      rw [hfilter] at hroom ⊢
      rw [List.length_cons] at hroom
      obtain ⟨s₁, hput, h₁⟩ := h.put c (by omega)
      obtain ⟨s', hs', h'⟩ := ih h₁ (by rw [List.length_append, List.length_singleton]; omega)
      rw [List.append_assoc] at h'
      refine ⟨s', (if_neg hc).trans ?_, h'⟩
      rw [hput]
      exact hs'

theorem Queue.serial_intr (h : Queue s sent got)
    (hroom : sent.length + (arrivals b (.serial cs)).length ≤ got.length + (CONSBUFSIZE - 1)) :
    ∃ s', serial_intr b cs s = some s' ∧ Queue s' (sent ++ arrivals b (.serial cs)) got := by
  cases b with
  | false => exact ⟨s, rfl, by rwa [arrivals, if_neg Bool.false_ne_true, List.append_nil]⟩
  | true => exact h.cons_intr hroom

/-- The front of the queue is taken. All that was sent is other than 0. -/
theorem Queue.take (h : Queue s sent got) (hne : ∀ c ∈ sent, c ≠ 0) :
    ∃ r, s.take = some r ∧ Queue r.2 sent (got ++ [r.1].filter (· ≠ 0)) := by
  have hle := h.front.length_le
  have hroom := h.room
  by_cases hempty : got.length = sent.length
  · have heq : s.rpos = s.wpos := by rw [h.rpos, h.wpos, hempty]
    refine ⟨(0, s), if_neg (not_not.mpr heq), ?_⟩
    have hzero : ([0] : List Byte).filter (· ≠ 0) = [] := by decide
    rw [hzero, List.append_nil]
    exact h
  · have hlt : got.length < sent.length := by omega
    have hpos : s.rpos ≠ s.wpos := by
      rw [h.rpos, h.wpos]
      unfold CONSBUFSIZE at hroom ⊢
      omega
    refine ⟨_, (if_pos hpos).trans (if_pos h.inRing.rpos), ?_⟩
    have hc : s.buf (Fin.ofNat CONSBUFSIZE s.rpos) = sent[got.length] := by
      rw [h.rpos, ofNat_mod]
      exact h.holds _ le_rfl hlt
    have hkeep : [s.buf (Fin.ofNat CONSBUFSIZE s.rpos)].filter (· ≠ 0) =
        [s.buf (Fin.ofNat CONSBUFSIZE s.rpos)] := by
      rw [hc]
      refine List.filter_cons_of_pos ?_
      exact decide_eq_true (hne _ (List.getElem_mem hlt))
    dsimp only
    rw [hkeep]
    refine ⟨?_, h.wpos, ?_, ?_, ?_⟩
    · show advance s.rpos = _
      rw [h.rpos, advance_mod, List.length_append, List.length_singleton]
    · rw [List.length_append, List.length_singleton]
      exact h.holds.mono (Nat.le_succ _)
    · rw [h.rpos, ofNat_mod]
      exact take_front h.holds h.front rfl hlt
    · rw [List.length_append, List.length_singleton]
      omega

theorem arrivals_ne_zero {ev : Event} (hc : c ∈ arrivals b ev) : c ≠ 0 := by
  have hfilter : ∀ cs : List Byte, c ∈ cs.filter (· ≠ 0) → c ≠ 0 := fun cs h =>
    of_decide_eq_true (List.mem_filter.mp h).2
  have hserial : ∀ cs : List Byte, c ∈ (if b then cs.filter (· ≠ 0) else []) → c ≠ 0 := by
    intro cs h
    split at h
    · exact hfilter cs h
    · exact absurd h List.not_mem_nil
  cases ev with
  | serial cs => exact hserial cs hc
  | kbd cs => exact hfilter cs hc
  | getc serial kbd =>
    rcases List.mem_append.mp hc with hc | hc
    · exact hserial serial hc
    · exact hfilter kbd hc

theorem Queue.perform {ev : Event} (h : Queue s sent got) (hne : ∀ c ∈ sent, c ≠ 0)
    (hroom : sent.length + (arrivals b ev).length ≤ got.length + (CONSBUFSIZE - 1)) :
    ∃ r, perform b s ev = some r ∧
      Queue r.2 (sent ++ arrivals b ev) (got ++ [r.1].filter (· ≠ 0)) := by
  have hzero : got ++ ([0] : List Byte).filter (· ≠ 0) = got := List.append_nil got
  cases ev with
  | serial cs =>
    obtain ⟨s', hs', h'⟩ := h.serial_intr hroom
    refine ⟨(0, s'), by rw [console.perform, hs']; rfl, ?_⟩
    rw [hzero]
    exact h'
  | kbd cs =>
    obtain ⟨s', hs', h'⟩ := h.cons_intr hroom
    refine ⟨(0, s'), by rw [console.perform, kbd_intr, hs']; rfl, ?_⟩
    rw [hzero]
    exact h'
  | getc serial kbd =>
    have hsplit : arrivals b (.getc serial kbd) = arrivals b (.serial serial) ++ kbd.filter (· ≠ 0) :=
      rfl
    have hall : ∀ c ∈ sent ++ arrivals b (.getc serial kbd), c ≠ 0 := by
      intro c hc
      rcases List.mem_append.mp hc with hc | hc
      · exact hne c hc
      · exact arrivals_ne_zero hc
    rw [hsplit] at hroom hall ⊢
    rw [List.length_append] at hroom
    rw [← List.append_assoc] at hall ⊢
    have hserial : sent.length + (arrivals b (.serial serial)).length ≤
        got.length + (CONSBUFSIZE - 1) := by omega
    obtain ⟨s₁, hs₁, h₁⟩ := h.serial_intr hserial
    have hkbd : (sent ++ arrivals b (.serial serial)).length + (kbd.filter (· ≠ 0)).length ≤
        got.length + (CONSBUFSIZE - 1) := by
      rw [List.length_append]
      omega
    obtain ⟨s₂, hs₂, h₂⟩ := h₁.cons_intr hkbd
    obtain ⟨r, hr, h'⟩ := h₂.take hall
    refine ⟨r, ?_, h'⟩
    rw [console.perform, cons_getc, hs₁, Option.bind_some, kbd_intr, hs₂, Option.bind_some, hr]

/-- What is in the ring is the rest of what was sent. -/
theorem Queue.unread (h : Queue s sent got) : sent = got ++ s.unread := by
  have hle := h.front.length_le
  have hroom := h.room
  have hcount : (s.wpos + CONSBUFSIZE - s.rpos) % CONSBUFSIZE = sent.length - got.length := by
    rw [h.rpos, h.wpos]
    unfold CONSBUFSIZE at hroom ⊢
    omega
  have hdrop : sent.drop got.length = s.unread := by
    rw [Cons.unread, hcount]
    refine List.ext_getElem (by simp) fun i hi _ => ?_
    rw [List.getElem_drop, List.getElem_map, List.getElem_range]
    rw [List.length_drop] at hi
    have hcell : Fin.ofNat CONSBUFSIZE (s.rpos + i) = Fin.ofNat CONSBUFSIZE (got.length + i) := by
      refine Fin.ext ?_
      show (s.rpos + i) % CONSBUFSIZE = (got.length + i) % CONSBUFSIZE
      rw [h.rpos, Nat.mod_add_mod]
    rw [hcell]
    exact (h.holds _ (by omega) (by omega)).symm
  rw [← hdrop]
  obtain ⟨t, rfl⟩ := h.front
  rw [List.drop_left]

end

/-! ## Every interleaving -/

/-- The positions stay in the ring in every run, and no access is outside of it. -/
theorem run_inRing (serial_exists : Bool) (s : Console) (h : InRing s.cons) (evs : List Event) :
    ∃ s', runFrom (step serial_exists) s evs = some s' ∧ InRing s'.cons := by
  induction evs generalizing s with
  | nil => exact ⟨s, rfl, h⟩
  | cons ev evs ih =>
    obtain ⟨r, hr, h'⟩ := h.perform serial_exists ev
    obtain ⟨s', hs', hin⟩ := ih ⟨r.2, s.arrived ++ arrivals serial_exists ev,
      s.returned ++ [r.1].filter (· ≠ 0)⟩ h'
    refine ⟨s', ?_, hin⟩
    rw [runFrom, step, hr]
    exact hs'

/-- A run in which the characters fit keeps the queue. -/
theorem step_queue {serial_exists : Bool} {s s' : Console} {ev : Event}
    (h : Queue s.cons s.arrived s.returned ∧ ∀ c ∈ s.arrived, c ≠ 0)
    (hfits : Fits serial_exists s ev) (hstep : step serial_exists s ev = some s') :
    Queue s'.cons s'.arrived s'.returned ∧ ∀ c ∈ s'.arrived, c ≠ 0 := by
  obtain ⟨r, hr, h'⟩ := h.1.perform h.2 hfits
  rw [step, hr] at hstep
  cases hstep
  refine ⟨h', fun c hc => ?_⟩
  rcases List.mem_append.mp hc with hc | hc
  · exact h.2 c hc
  · exact arrivals_ne_zero hc

theorem queue_start (buf : Fin CONSBUFSIZE → Byte) :
    Queue (start buf).cons (start buf).arrived (start buf).returned :=
  ⟨rfl, rfl, fun j _ hj => absurd hj (Nat.not_lt_zero j), List.prefix_rfl, Nat.zero_le _⟩

end jos.console
