-- The privilege of user environments: the frame that the kernel has saved for
-- one of type `ENV_TYPE_USER` is a frame of user mode, with interrupts on and
-- no right to do I/O. A frame comes from `env_create`, from a trap, from the
-- parent, from a call, or from an upcall.
import Jos.Slots

namespace jos

/-- The flags leave interrupts on and give no right to do I/O. -/
def plainFlags (eflags : Word) : Bool := eflags &&& FL_IF != 0 && eflags &&& FL_IOPL_MASK == 0

/-- A frame of unprivileged user code. -/
def Trapframe.unprivileged (tf : Trapframe) : Bool := tf.tf_cs &&& 3 == 3 && plainFlags tf.tf_eflags

/-! ## The flags of the CPUs -/

/-- The kernel, with the flags that `env_pop_tf` has last loaded on each CPU. -/
structure Flagged where
  k : Kernel
  flags : Nat → Word

/-- The flags after a step that has led to `k'`. -/
def reload (flags : Nat → Word) (k' : Kernel) : Event → Nat → Word
  | .create .. | .store .. | .touch .. => flags
  | ev =>
    match k'.curenv ev.cpu with
    | some e => Function.update flags ev.cpu (k'.envs e).env_tf.tf_eflags
    | none => flags

def Flagged.step (t : Flagged) (ev : Event) : Option Flagged :=
  (jos.step t.k ev).map fun k' => ⟨k', reload t.flags k' ev⟩

/-- User code without the right to do I/O changes neither that nor whether
interrupts are on, so that the flags are the same when it traps. -/
def Obeys (t : Flagged) : Event → Prop
  | .trap c tf _ => t.flags c &&& FL_IOPL_MASK = 0 →
      tf.tf_eflags &&& (FL_IF ||| FL_IOPL_MASK) = t.flags c &&& (FL_IF ||| FL_IOPL_MASK)
  | _ => True

instance (t : Flagged) (ev : Event) : Decidable (Obeys t ev) := by
  unfold Obeys
  split <;> infer_instance

/-- No call meddles, and none of the file server's makes an environment. -/
def Unshared (t : Flagged) (ev : Event) : Prop :=
  Careful t.k ev ∧
    match callOf t.k ev with
    | some (cur, .exofork) => (t.k.envs cur).env_type = .ENV_TYPE_USER
    | _ => True

instance (t : Flagged) (ev : Event) : Decidable (Unshared t ev) := by
  unfold Unshared
  split <;> infer_instance

/-! ## The invariant -/

/-- The user environments are unprivileged, saved and running. -/
structure Plain (t : Flagged) : Prop where
  outside : Outside t.k ∧ FreeListed t.k
  saved : ∀ e, t.k.status e ≠ .ENV_FREE → (t.k.envs e).env_type = .ENV_TYPE_USER →
    (t.k.envs e).env_tf.unprivileged = true
  running : ∀ c e, t.k.curenv c = some e → (t.k.envs e).env_type = .ENV_TYPE_USER →
    plainFlags (t.flags c) = true

section plain

variable {t : Flagged} {k' : Kernel} {ev : Event}

/-- What the flags allow depends on these bits alone. -/
theorem plainFlags_congr {w w' : Word}
    (h : w &&& (FL_IF ||| FL_IOPL_MASK) = w' &&& (FL_IF ||| FL_IOPL_MASK)) :
    plainFlags w = plainFlags w' := by
  have hpart : ∀ m : Word, (FL_IF ||| FL_IOPL_MASK) &&& m = m → w &&& m = w' &&& m := by
    intro m hm
    rw [← hm, ← BitVec.and_assoc, h, BitVec.and_assoc]
  unfold plainFlags
  rw [hpart FL_IF (by decide), hpart FL_IOPL_MASK (by decide)]

theorem or_and_self (a b : Word) : (a ||| b) &&& b = b := by
  ext i hi
  simp only [BitVec.getElem_and, BitVec.getElem_or]
  cases a[i] <;> simp

/-- The flags that `sys_env_set_trapframe` leaves. -/
theorem plainFlags_user (w : Word) : plainFlags ((w ||| FL_IF) &&& ~~~FL_IOPL_MASK) = true := by
  have hon : ~~~FL_IOPL_MASK &&& FL_IF = FL_IF := by decide
  have hoff : ~~~FL_IOPL_MASK &&& FL_IOPL_MASK = 0#32 := by decide
  have hif : ((w ||| FL_IF) &&& ~~~FL_IOPL_MASK) &&& FL_IF = FL_IF := by
    rw [BitVec.and_assoc, hon, or_and_self]
  have hiopl : ((w ||| FL_IF) &&& ~~~FL_IOPL_MASK) &&& FL_IOPL_MASK = 0#32 := by
    rw [BitVec.and_assoc, hoff, BitVec.and_zero]
  simp only [plainFlags, hif, hiopl]
  decide

theorem unprivileged_iff {tf : Trapframe} :
    tf.unprivileged = true ↔ tf.tf_cs &&& 3 = 3 ∧ plainFlags tf.tf_eflags = true := by
  simp [Trapframe.unprivileged]

theorem or_and_three (sel : BitVec 16) : (sel ||| 3) &&& 3 = 3 := by
  ext i hi
  simp only [BitVec.getElem_and, BitVec.getElem_or]
  cases sel[i] <;> simp

/-- The frame of a user environment that traps. -/
theorem Plain.trap {x : EnvIx} {tf : Trapframe} (h : Plain t) (hs : StepCases t.k ev k')
    (hobeys : Obeys t ev) (htrap : trapOf t.k ev = some (x, tf))
    (htype : (t.k.envs x).env_type = .ENV_TYPE_USER) : tf.unprivileged = true := by
  have hcur := trapOf_curenv htrap
  cases hs with
  | @trap c tf' cr2 k' hmode hlock hload =>
    obtain ⟨cur, -, heq⟩ := Option.map_eq_some_iff.mp htrap
    cases heq
    have hplain := h.running c x hcur htype
    have hiopl : t.flags c &&& FL_IOPL_MASK = 0 := by
      simp only [plainFlags, Bool.and_eq_true, beq_iff_eq] at hplain
      exact hplain.2
    exact unprivileged_iff.mpr
      ⟨loadable_user hload, (plainFlags_congr (hobeys hiopl)).trans hplain⟩
  | _ => cases htrap

theorem Plain.keeps (h : Plain t) (hs : StepCases t.k ev k') (hobeys : Obeys t ev)
    (hown : ∀ cur, callOf t.k ev = some (cur, .exofork) →
      (t.k.envs cur).env_type = .ENV_TYPE_USER) :
    KeepsFrames (fun type tf => type = .ENV_TYPE_USER → tf.unprivileged = true) t.k ev where
  create prog type _ htype := by
    subst htype
    have hinit : initialTf.unprivileged = true := by decide
    exact hinit
  regs type tf regs htf := htf
  jump type tf esp eip htf := htf
  save x tf htrap := h.trap hs hobeys htrap
  fork cur tf hcall htrap _ := h.trap hs hobeys htrap (hown cur hcall)
  frame cur envid va x frame _ _ _ _ :=
    unprivileged_iff.mpr ⟨or_and_three frame.tf_cs, plainFlags_user _⟩

end plain

/-- On the CPU of a step the flags come from the frame of its environment, or
the step was not in the kernel. -/
theorem reload_cases {t : Flagged} {k' : Kernel} {ev : Event} {c : Nat} {e : EnvIx}
    (h : Outside t.k) (hs : StepCases t.k ev k') (hc : k'.curenv c = some e) :
    reload t.flags k' ev c = (k'.envs e).env_tf.tf_eflags ∨
      (reload t.flags k' ev c = t.flags c ∧ t.k.curenv c = some e) := by
  by_cases hcpu : c = ev.cpu
  · subst hcpu
    cases hs with
    | create | store | touch => exact Or.inr ⟨rfl, hc⟩
    | _ => left; simp [reload, hc]
  · have hsame : t.k.curenv c = some e := by
      rw [← hc, Kernel.curenv, Kernel.curenv, step_cpus h hs hcpu]
    refine Or.inr ⟨?_, hsame⟩
    unfold reload
    split
    · rfl
    · rfl
    · rfl
    · rcases k'.curenv ev.cpu with _ | e'
      · rfl
      · exact Function.update_of_ne hcpu ..

theorem plain_step (t : Flagged) (ev : Event) (t' : Flagged) (h : Plain t)
    (hev : Obeys t ev ∧ Unshared t ev) (hs : t.step ev = some t') : Plain t' := by
  obtain ⟨k', hstep, rfl⟩ := Option.map_eq_some_iff.mp hs
  have hcases := step_cases hstep
  obtain ⟨hobeys, hcareful, hown⟩ := hev
  have hown : ∀ cur, callOf t.k ev = some (cur, .exofork) →
      (t.k.envs cur).env_type = .ENV_TYPE_USER := fun cur hcall => by simpa [hcall] using hown
  have hframes := frames_step h.outside hcases (h.keeps hcases hobeys hown) h.saved
  have hout := outside_step h.outside hcareful hcases
  refine ⟨hout, fun e hlive => (hframes e).2 hlive, fun c e hc htype => ?_⟩
  show plainFlags (reload t.flags k' ev c) = true
  rcases reload_cases h.outside.1 hcases hc with hload | ⟨hkeep, hc₀⟩
  · have hplain := (hframes e).2 (hout.1.live hc) htype
    rw [hload]
    exact (unprivileged_iff.mp hplain).2
  · rw [hkeep]
    exact h.running c e hc₀ (((hframes e).1 (h.outside.1.live hc₀)).symm.trans htype)

theorem Plain.start {k : Kernel} (flags : Nat → Word) (hout : Outside k ∧ FreeListed k)
    (hfree : ∀ e, k.status e = .ENV_FREE) (hcur : ∀ c, k.curenv c = none) : Plain ⟨k, flags⟩ :=
  ⟨hout, fun e hl => absurd (hfree e) hl, fun c e hc => by cases (hcur c).symm.trans hc⟩

/-- The first environment, of type `type`, makes a child. Its flags are those
that it was started with. -/
def forkOnce (type : EnvType) (eflags : Word) : List Event :=
  [.create onePage type, .boot,
    .trap 0 { sysTf SYS_exofork 0 0 0 0 0 with tf_eflags := eflags } 0]

def firstFlags : Flagged := ⟨env_init (zeroKernel 64 pages_64 1), fun _ => 0⟩

end jos
