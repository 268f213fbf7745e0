-- The choice of `sched_yield` (`kern/sched.c`). The search goes once around
-- `envs`, from the environment behind `curenv` on, so the environment that it
-- finds is the next runnable one in the circular order. From call to call the
-- choice comes nearer to each environment that waits.
import Jos.OneCpu

namespace jos

/-! ## The circular order -/

/-- The index at which the search of CPU `c` starts. -/
def searchStart (k : Kernel) (c : Nat) : EnvIx :=
  match k.curenv c with
  | some cur => cur + 1
  | none => 0

/-- The number of turns of the search, from `start` on, before it comes to `x`. -/
def turnsTo (start x : EnvIx) : Nat := (x - start).val

/-- How far `x` is behind `cur` in the circular order: 1 for the index behind
`cur`, and `NENV` for `cur` itself. -/
def distance (cur x : EnvIx) : Nat := turnsTo (cur + 1) x + 1

theorem turnsTo_lt (start x : EnvIx) : turnsTo start x < NENV := (x - start).isLt

theorem turnsTo_self (start : EnvIx) : turnsTo start start = 0 := by
  unfold turnsTo
  rw [sub_self]
  rfl

theorem turnsTo_inj {start x y : EnvIx} (h : turnsTo start x = turnsTo start y) : x = y :=
  sub_left_injective (Fin.ext h)

theorem turnsTo_eq (start x : EnvIx) :
    turnsTo start x = (NENV - start.val + x.val) % NENV := congrArg Fin.val (Fin.sub_def x start)

theorem next_val (x : EnvIx) : (x + 1).val = (x.val + 1) % NENV :=
  congrArg Fin.val (Fin.add_def x 1)

/-- One turn of the search comes one nearer to every index but its own. -/
theorem turnsTo_next {start x : EnvIx} (h : x ≠ start) :
    turnsTo start x = turnsTo (start + 1) x + 1 := by
  have hne : x.val ≠ start.val := fun heq => h (Fin.ext heq)
  have hx : x.val < 1024 := x.isLt
  have hs : start.val < 1024 := start.isLt
  simp only [turnsTo_eq, next_val, NENV]
  omega

/-- Behind the index `y`, what came after `y` is nearer than it was. -/
theorem distance_le {start x y : EnvIx} (h : turnsTo start y < turnsTo start x) :
    distance y x ≤ turnsTo start x := by
  have hx : x.val < 1024 := x.isLt
  have hy : y.val < 1024 := y.isLt
  have hs : start.val < 1024 := start.isLt
  simp only [distance, turnsTo_eq, next_val, NENV] at *
  omega

/-! ## The search -/

/-- The search ends at the first runnable index, when one comes in its turns. -/
theorem nextRunnable_first {k : Kernel} {x : EnvIx} (hx : k.status x = .ENV_RUNNABLE) :
    ∀ {n : Nat} {start : EnvIx},
      (∀ y, turnsTo start y < turnsTo start x → k.status y ≠ .ENV_RUNNABLE) →
      turnsTo start x < n → nextRunnable k n start = x := by
  intro n
  induction n with
  | zero => exact fun _ h => absurd h (Nat.not_lt_zero _)
  | succ n ih =>
    intro start hfirst hn
    unfold nextRunnable
    by_cases heq : x = start
    · rw [if_pos (heq ▸ hx), heq]
    · have hnext := turnsTo_next heq
      rw [if_neg (hfirst start (by rw [turnsTo_self]; omega))]
      refine ih (fun y hy => ?_) (by omega)
      by_cases hys : y = start
      · exact hys ▸ hfirst start (by rw [turnsTo_self]; omega)
      · exact hfirst y (by rw [turnsTo_next hys]; omega)

/-- Among the environments for which `p` holds, one comes first. -/
theorem exists_first {p : EnvIx → Prop} (start : EnvIx) (h : ∃ x, p x) :
    ∃ x, p x ∧ ∀ y, turnsTo start y < turnsTo start x → ¬ p y := by
  obtain ⟨x, hx, hmin⟩ := WellFounded.has_min (measure (turnsTo start)).wf {x | p x} h
  exact ⟨x, hx, fun y hlt hy => hmin y hy hlt⟩

/-! ## The choice -/

/-- `x` is the environment to run: the first runnable one in the circular order,
or the one that runs on this CPU already, when none is runnable. -/
def Chosen (k : Kernel) (c : Nat) (x : EnvIx) : Prop :=
  (k.status x = .ENV_RUNNABLE ∧
    ∀ y, turnsTo (searchStart k c) y < turnsTo (searchStart k c) x →
      k.status y ≠ .ENV_RUNNABLE) ∨
  ((∀ y, k.status y ≠ .ENV_RUNNABLE) ∧ k.curenv c = some x ∧ k.status x = .ENV_RUNNING)

section

variable {k : Kernel} {c : Nat} {x y : EnvIx}

theorem Chosen.unique (hx : Chosen k c x) (hy : Chosen k c y) : x = y := by
  rcases hx with ⟨hx, hxf⟩ | ⟨hnone, hcx, -⟩ <;> rcases hy with ⟨hy, hyf⟩ | ⟨hnone', hcy, -⟩
  · have h1 := mt (hxf y) (not_not.mpr hy)
    have h2 := mt (hyf x) (not_not.mpr hx)
    exact turnsTo_inj (Nat.le_antisymm (not_lt.mp h1) (not_lt.mp h2))
  · exact absurd hx (hnone' x)
  · exact absurd hy (hnone y)
  · exact Option.some.inj (hcx.symm.trans hcy)

theorem Chosen.busy (h : Chosen k c x) :
    k.status x = .ENV_RUNNABLE ∨ (k.curenv c = some x ∧ k.status x = .ENV_RUNNING) :=
  h.imp And.left And.right

theorem sched_yield_chosen (h : Chosen k c x) : sched_yield k c = env_run k c x := by
  rcases h with ⟨hx, hfirst⟩ | ⟨hnone, hcur, hrun⟩
  · have hn : nextRunnable k NENV (searchStart k c) = x :=
      nextRunnable_first hx hfirst (turnsTo_lt _ _)
    change (if k.status (nextRunnable k NENV (searchStart k c)) = .ENV_RUNNABLE then
      env_run k c (nextRunnable k NENV (searchStart k c)) else _) = _
    rw [hn, if_pos hx]
  · simp only [sched_yield, if_neg (hnone _), hcur, hrun, if_true]

theorem sched_yield_none (h : ∀ x, ¬ Chosen k c x) : sched_yield k c = sched_halt k c := by
  have hnone : ∀ y, k.status y ≠ .ENV_RUNNABLE := by
    intro y hy
    obtain ⟨x, hx, hfirst⟩ := exists_first (p := (k.status · = .ENV_RUNNABLE))
      (searchStart k c) ⟨y, hy⟩
    exact h x (Or.inl ⟨hx, hfirst⟩)
  rcases hcur : k.curenv c with _ | cur
  · simp only [sched_yield, if_neg (hnone _), hcur]
  · have hrun : k.status cur ≠ .ENV_RUNNING := fun hrun => h cur (Or.inr ⟨hnone, hcur, hrun⟩)
    simp only [sched_yield, if_neg (hnone _), hcur, if_neg hrun]

theorem sched_yield_curenv {k' : Kernel} (h : Chosen k c x) (hleft : sched_yield k c = .left k') :
    k'.curenv c = some x := by
  rw [sched_yield_chosen h, env_run_eq] at hleft
  split at hleft
  · cases hleft
  · split at hleft
    · cases hleft
    · split at hleft
      · cases hleft
        rw [switch_curenv, Function.update_self]
      · cases hleft

/-- An environment that is passed over is nearer to the chosen one than it was to
the one before. -/
theorem Chosen.nearer {cur e : EnvIx} (h : Chosen k c x) (hcur : k.curenv c = some cur)
    (he : k.status e = .ENV_RUNNABLE) (hne : x ≠ e) : distance x e < distance cur e := by
  have hstart : searchStart k c = cur + 1 := by simp only [searchStart, hcur]
  rcases h with ⟨hx, hfirst⟩ | ⟨hnone, -, -⟩
  · rw [hstart] at hfirst
    have hle := mt (hfirst e) (not_not.mpr he)
    have hdiff : turnsTo (cur + 1) x ≠ turnsTo (cur + 1) e := fun heq => hne (turnsTo_inj heq)
    have hnear := distance_le (by omega : turnsTo (cur + 1) x < turnsTo (cur + 1) e)
    exact Nat.lt_succ_of_le hnear
  · exact absurd he (hnone e)

end

/-! ## Call after call -/

/-- The states in which CPU `c` calls `sched_yield`, one call after the other. What
happens in between is free, but `curenv` is the environment that was run last. -/
structure Turns (c : Nat) (ks : Nat → Kernel) : Prop where
  first : ∃ cur, (ks 0).curenv c = some cur
  next : ∀ i, ∃ x, Chosen (ks i) c x ∧ (ks (i + 1)).curenv c = some x

/-- `e` is runnable at each call, up to the one that runs it. -/
def Waits (c : Nat) (ks : Nat → Kernel) (e : EnvIx) : Prop :=
  ∀ i, (∀ j < i, ¬ Chosen (ks j) c e) → (ks i).status e = .ENV_RUNNABLE

theorem Turns.curenv {c : Nat} {ks : Nat → Kernel} (h : Turns c ks) (i : Nat) :
    ∃ cur, (ks i).curenv c = some cur := by
  rcases i with _ | i
  · exact h.first
  · obtain ⟨x, -, hx⟩ := h.next i
    exact ⟨x, hx⟩

/-- After `i` calls that pass over `e`, it is at most `NENV - i` away. -/
theorem Turns.distance_le {c : Nat} {ks : Nat → Kernel} {e : EnvIx} (h : Turns c ks)
    (hw : Waits c ks e) {i : Nat} (hpassed : ∀ j < i, ¬ Chosen (ks j) c e) :
    ∀ cur, (ks i).curenv c = some cur → distance cur e + i ≤ NENV := by
  induction i with
  | zero => exact fun cur _ => turnsTo_lt (cur + 1) e
  | succ i ih =>
    intro cur hcur
    have hbefore : ∀ j < i, ¬ Chosen (ks j) c e := fun j hj => hpassed j (Nat.lt_succ_of_lt hj)
    obtain ⟨prev, hprev⟩ := h.curenv i
    obtain ⟨x, hx, hnext⟩ := h.next i
    obtain rfl : x = cur := Option.some.inj (hnext.symm.trans hcur)
    have hne : x ≠ e := fun heq => hpassed i (Nat.lt_succ_self i) (heq ▸ hx)
    have hlt := hx.nearer hprev (hw i hbefore) hne
    have hle := ih hbefore prev hprev
    omega

/-- No environment is passed over `NENV` times. -/
theorem Turns.served {c : Nat} {ks : Nat → Kernel} {e : EnvIx} (h : Turns c ks)
    (hw : Waits c ks e) : ∃ i < NENV, Chosen (ks i) c e := by
  by_contra hcon
  have hpassed : ∀ j < NENV, ¬ Chosen (ks j) c e := fun j hj hc => hcon ⟨j, hj, hc⟩
  obtain ⟨cur, hcur⟩ := h.curenv NENV
  have hle := h.distance_le hw hpassed cur hcur
  unfold distance at hle
  omega

/-- Environment 0 is alone, and has CPU 0. -/
def aloneKernel (st : EnvStatus) : Kernel :=
  ((zeroKernel 64 pages_64 2).setEnv 0 fun env =>
    { env with env_status := st, env_pgdir := some 1, env_tf := initialTf }).setCurenv 0 (some 0)

theorem aloneKernel_status (st : EnvStatus) :
    (aloneKernel st).status = Function.update (fun _ => .ENV_FREE) 0 st :=
  Kernel.setEnv_status (zeroKernel 64 pages_64 2) 0 fun env =>
    { env with env_status := st, env_pgdir := some 1, env_tf := initialTf }

theorem aloneKernel_chosen : Chosen (aloneKernel .ENV_RUNNABLE) 0 0 := by
  refine Or.inl ⟨rfl, fun y hy => ?_⟩
  have h0 : y ≠ 0 := fun h => absurd hy (h ▸ Nat.lt_irrefl _)
  rw [aloneKernel_status, Function.update_of_ne h0]
  decide

end jos
