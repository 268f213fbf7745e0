-- Environment ids: no two live environments share one, and an id that has
-- been given back is refused until its slot has gone through all of its
-- generations.
import Jos.Env
import Jos.PageTables

namespace jos

open linked_list (Chain)

/-! ## The generations of a slot -/

/-- The id of generation `g` in slot `e`. -/
def idOf (g : Nat) (e : EnvIx) : Word := BitVec.ofNat 32 (g * 4096 + e)

/-- The number of generations before they repeat: 1 up to 2^19 - 1. -/
def NGEN : Nat := 2 ^ 19 - 1

/-- The generation of a slot that has been allocated `m` times. -/
def genAfter : Nat → Nat
  | 0 => 0
  | m + 1 => if genAfter m + 1 < 2 ^ 19 then genAfter m + 1 else 1

theorem genAfter_succ (m : Nat) : genAfter (m + 1) = m % NGEN + 1 := by
  induction m with
  | zero => rfl
  | succ m ih =>
    rw [genAfter, ih, NGEN]
    split <;> omega

theorem genAfter_lt (m : Nat) : genAfter m < 2 ^ 19 := by
  cases m with
  | zero => decide
  | succ m => rw [genAfter_succ, NGEN]; omega

theorem genAfter_pos {m : Nat} (h : 0 < m) : 0 < genAfter m := by
  cases m with
  | zero => omega
  | succ m => rw [genAfter_succ]; omega

/-- A generation does not come back before the others have been. -/
theorem genAfter_ne {m r : Nat} (hm : 0 < m) (hr : 0 < r) (hlt : r < NGEN) :
    genAfter (m + r) ≠ genAfter m := by
  obtain ⟨m, rfl⟩ := Nat.exists_eq_succ_of_ne_zero (Nat.pos_iff_ne_zero.mp hm)
  have hsum : m.succ + r = (m + r) + 1 := by omega
  rw [hsum, genAfter_succ, Nat.succ_eq_add_one, genAfter_succ]
  rw [NGEN] at hlt ⊢
  omega

theorem idOf_toNat {g : Nat} (e : EnvIx) (hg : g < 2 ^ 19) : (idOf g e).toNat = g * 4096 + e := by
  have he : e.val < 1024 := e.isLt
  rw [idOf, BitVec.toNat_ofNat]
  omega

theorem idOf_inj {g g' : Nat} {e e' : EnvIx} (hg : g < 2 ^ 19) (hg' : g' < 2 ^ 19)
    (h : idOf g e = idOf g' e') : g = g' ∧ e = e' := by
  have he : e.val < 1024 := e.isLt
  have he' : e'.val < 1024 := e'.isLt
  have hnat := congrArg BitVec.toNat h
  rw [idOf_toNat e hg, idOf_toNat e' hg'] at hnat
  exact ⟨by omega, Fin.ext (by omega)⟩

theorem ENVX_idOf {g : Nat} (e : EnvIx) (hg : g < 2 ^ 19) : ENVX (idOf g e) = e := by
  have he : e.val < 1024 := e.isLt
  apply Fin.ext
  have h := and_low (idOf g e) 10 (by omega)
  rw [idOf_toNat e hg] at h
  refine h.trans ?_
  omega

/-- The id of a slot that has been allocated `m` times. -/
def idAfter (m : Nat) (e : EnvIx) : Word := if m = 0 then 0 else idOf (genAfter m) e

/-- The id that `env_alloc` makes is that of the next generation. What the
index part of the old id says does not matter. -/
theorem nextId_eq {id : Word} {g r : Nat} (e : EnvIx) (hg : g < 2 ^ 19) (hr : r < 1024)
    (hid : id.toNat = g * 4096 + r) :
    nextId id e = idOf (if g + 1 < 2 ^ 19 then g + 1 else 1) e := by
  have he : e.val < 1024 := e.isLt
  have hmask : ((id + 0x1000) &&& ~~~0x3FF).toNat = (g + 1) * 4096 := by
    have h := and_high_toNat (id + 0x1000) 10
    have hsum : (id + 0x1000).toNat = (g + 1) * 4096 + r := by
      rw [BitVec.toNat_add, hid]
      simp
      omega
    rw [hsum] at h
    refine h.trans ?_
    omega
  have hor : ∀ n < 2 ^ 20, BitVec.ofNat 32 (n * 4096) ||| BitVec.ofNat 32 e.val = idOf n e := by
    intro n hn
    have hshift : n * 4096 = n <<< 12 := by rw [Nat.shiftLeft_eq]
    apply BitVec.eq_of_toNat_eq
    rw [BitVec.toNat_or, BitVec.toNat_ofNat, BitVec.toNat_ofNat, idOf, BitVec.toNat_ofNat,
      Nat.mod_eq_of_lt (by omega), Nat.mod_eq_of_lt (by omega), Nat.mod_eq_of_lt (by omega),
      hshift, Nat.shiftLeft_add_eq_or_of_lt (by omega)]
  have hgen : (id + 0x1000) &&& ~~~0x3FF = BitVec.ofNat 32 ((g + 1) * 4096) := by
    apply BitVec.eq_of_toNat_eq
    rw [hmask, BitVec.toNat_ofNat]
    omega
  have hsign : (BitVec.ofNat 32 ((g + 1) * 4096)).toInt ≤ 0 ↔ ¬ g + 1 < 2 ^ 19 := by
    rw [← hgen, BitVec.toInt_eq_toNat_cond, hmask]
    split <;> omega
  simp only [nextId, hgen, hsign]
  by_cases hlt : g + 1 < 2 ^ 19
  · rw [if_neg (not_not.mpr hlt), if_pos hlt]
    exact hor (g + 1) (by omega)
  · rw [if_pos hlt, if_neg hlt]
    exact hor 1 (by omega)

theorem nextId_idAfter (m : Nat) (e : EnvIx) : nextId (idAfter m e) e = idAfter (m + 1) e := by
  have hnext : idAfter (m + 1) e = idOf (genAfter (m + 1)) e := if_neg (by omega)
  rw [hnext, genAfter]
  rcases m with _ | m
  · exact nextId_eq (g := 0) (r := 0) e (by omega) (by omega) rfl
  · have hid : idAfter (m + 1) e = idOf (genAfter (m + 1)) e := if_neg (by omega)
    rw [hid]
    exact nextId_eq e (genAfter_lt _) e.isLt (idOf_toNat e (genAfter_lt _))

theorem idOf_pos {g : Nat} (e : EnvIx) (hg : g < 2 ^ 19) (h0 : 0 < g) : 0 < (idOf g e).toInt := by
  have he : e.val < 1024 := e.isLt
  rw [BitVec.toInt_eq_toNat_cond, idOf_toNat e hg]
  split <;> omega

/-! ## What the operations do -/

theorem env_setup_vm_none {s s' : Phys} {d : Nat} (h : env_setup_vm s d = .ok (none, s')) :
    s' = s := by
  simp only [env_setup_vm] at h
  split at h
  · cases h
  · cases h
    exact page_alloc_eq_none ‹_›
  · split at h <;> cases h

namespace Kernel

/-- The state after `env_alloc` has taken slot `e`. -/
def enlist (k : Kernel) (e : EnvIx) (pid : Word) (pgdir : Nat) (pm : Phys) : Kernel :=
  { (k.withPm pm).setEnv e (freshEnv · e pid pgdir) with env_free_list := k.link e }

/-- The state after `env_free` has emptied slot `e`, on CPU `c`. -/
def release (k : Kernel) (c : Nat) (e : EnvIx) (pm : Phys) : Kernel :=
  { ((if k.curenv c = some e then k.lcr3 c k.kern_pgdir else k).withPm pm).setEnv e
      (freedEnv · k.env_free_list) with env_free_list := some e }

variable (k : Kernel) (c : Nat) (e : EnvIx) (pid : Word) (pgdir : Nat) (pm : Phys)

@[simp] theorem enlist_envs : (k.enlist e pid pgdir pm).envs =
    Function.update k.envs e (freshEnv (k.envs e) e pid pgdir) := rfl

theorem enlist_status :
    (k.enlist e pid pgdir pm).status = Function.update k.status e .ENV_RUNNABLE :=
  setEnv_status k e (freshEnv · e pid pgdir)

theorem enlist_link : (k.enlist e pid pgdir pm).link = k.link :=
  setEnv_link_same (k := k) (e := e) (f := (freshEnv · e pid pgdir)) rfl

theorem enlist_dir : (k.enlist e pid pgdir pm).dir = Function.update k.dir e (some pgdir) :=
  setEnv_dir k e (freshEnv · e pid pgdir)

@[simp] theorem release_envs : (k.release c e pm).envs =
    Function.update k.envs e (freedEnv (k.envs e) k.env_free_list) := by
  simp only [release, setEnv_envs, withPm_envs]
  split <;> rfl

@[simp] theorem release_kern_pgdir : (k.release c e pm).kern_pgdir = k.kern_pgdir := by
  simp only [release, setEnv_kern_pgdir, withPm_kern_pgdir]
  split <;> rfl

theorem release_cpus : (k.release c e pm).cpus =
    if k.curenv c = some e then
      Function.update k.cpus c { k.cpus c with cr3 := k.kern_pgdir }
    else k.cpus := by
  simp only [release, setEnv_cpus, withPm_cpus]
  split <;> rfl

@[simp] theorem release_curenv : (k.release c e pm).curenv = k.curenv := by
  funext x
  unfold curenv
  rw [release_cpus]
  by_cases h : k.curenv c = some e
  · rw [if_pos h]
    by_cases hx : x = c <;> simp [hx]
  · rw [if_neg h]

theorem release_status :
    (k.release c e pm).status = Function.update k.status e .ENV_FREE := by
  funext x; by_cases h : x = e <;> simp [status, freedEnv, h]

theorem release_link :
    (k.release c e pm).link = Function.update k.link e k.env_free_list := by
  funext x; by_cases h : x = e <;> simp [link, freedEnv, h]

theorem release_dir : (k.release c e pm).dir = Function.update k.dir e none := by
  funext x; by_cases h : x = e <;> simp [dir, freedEnv, h]

end Kernel

/-- `env_alloc` fails with nothing changed, or takes the first free slot. -/
theorem env_alloc_cases {k k' : Kernel} {pid : Word} {r : Except Int EnvIx}
    (h : env_alloc k pid = .ok (r, k')) :
    (∃ code, r = .error code ∧ (code = -E_NO_FREE_ENV ∨ code = -E_NO_MEM) ∧ k' = k) ∨
    ∃ e pgdir pm, r = .ok e ∧ k.env_free_list = some e ∧
      env_setup_vm k.pm k.kern_pgdir = .ok (some pgdir, pm) ∧ k' = k.enlist e pid pgdir pm := by
  unfold env_alloc at h
  rcases hf : k.env_free_list with _ | e
  · rw [hf] at h; cases h
    exact Or.inl ⟨_, rfl, Or.inl rfl, rfl⟩
  · rw [hf] at h
    rcases hv : env_setup_vm k.pm k.kern_pgdir with p | ⟨_ | pgdir, pm⟩
    · rw [hv] at h; cases h
    · rw [hv] at h; cases h
      exact Or.inl ⟨_, rfl, Or.inr rfl, by rw [env_setup_vm_none hv, Kernel.withPm_self]⟩
    · rw [hv] at h; cases h
      exact Or.inr ⟨e, pgdir, pm, rfl, rfl, rfl, rfl⟩

/-- `env_free` empties the slot and puts it on the free list. -/
theorem env_free_cases {k k' : Kernel} {c : Nat} {e : EnvIx} (h : env_free k c e = .ok k') :
    ∃ pgdir pm, k.dir e = some pgdir ∧ env_free_pages k.pm pgdir = .ok pm ∧
      k' = k.release c e pm := by
  unfold env_free at h
  by_cases hc : k.curenv c = some e
  all_goals
    rcases hd : k.dir e with _ | pgdir
    · have hd' : (k.envs e).env_pgdir = none := hd
      simp [Kernel.lcr3, hc, hd'] at h
    · have hd' : (k.envs e).env_pgdir = some pgdir := hd
      simp only [hc, if_true, if_false, Kernel.lcr3, Kernel.setCpu_envs, hd'] at h
      rcases hp : env_free_pages k.pm pgdir with p | pm
      · simp [hp] at h
      · simp only [Kernel.setCpu_pm, hp] at h
        cases h
        exact ⟨pgdir, pm, rfl, hp, by simp only [Kernel.release, hc, if_true, if_false] <;> rfl⟩

/-- Once the pages of the environment are freed, nothing stands in its way. -/
theorem env_free_run {k : Kernel} {e : EnvIx} {pgdir : Nat} {pm : Phys} (c : Nat)
    (hd : k.dir e = some pgdir) (hp : env_free_pages k.pm pgdir = .ok pm) :
    env_free k c e = .ok (k.release c e pm) := by
  have hd : (k.envs e).env_pgdir = some pgdir := hd
  unfold env_free Kernel.release
  by_cases hc : k.curenv c = some e
  · simp only [hc, if_true, Kernel.lcr3, Kernel.setCpu_envs, hd, Kernel.setCpu_pm, hp]
    rfl
  · simp only [hc, if_false, hd, hp]

/-! ## The free list -/

/-- The free list ends, and holds the `ENV_FREE` slots. -/
def FreeListed (k : Kernel) : Prop :=
  ∃ l, Chain k.link k.env_free_list l ∧ ∀ e, e ∈ l ↔ k.status e = .ENV_FREE

theorem envAt_val {i : Nat} (hi : i < NENV) : (envAt i).val = i := Nat.mod_eq_of_lt hi

theorem envAt_ne {i j : Nat} (hi : i < NENV) (hj : j < NENV) (hij : i ≠ j) : envAt i ≠ envAt j := by
  intro h
  have hval := congrArg Fin.val h
  rw [envAt_val hi, envAt_val hj] at hval
  exact hij hval

theorem envAt_self (e : EnvIx) : envAt e.val = e := Fin.ext (envAt_val e.isLt)

/-- The slots after `n` turns of the loop. -/
theorem env_init_slots_spec {k : Kernel} (hk : k.env_free_list = none) {n : Nat} (hn : n ≤ NENV) :
    (env_init_slots n k).env_free_list = (if n = 0 then none else some (envAt 0)) ∧
    (env_init_slots n k).status = k.status ∧
    ∀ i < n, ((env_init_slots n k).envs (envAt i)).env_id = 0 ∧
      (env_init_slots n k).link (envAt i) = if i + 1 < n then some (envAt (i + 1)) else none := by
  induction n with
  | zero => exact ⟨hk, rfl, fun i hi => absurd hi (by omega)⟩
  | succ n ih =>
    obtain ⟨hfree, hstatus, hslots⟩ := ih (by omega)
    rcases n with _ | n
    · -- the first slot becomes the head
      have hslot : env_init_slots 1 k = { k.setEnv (envAt 0) (fun env =>
          { env with env_id := 0, env_link := none }) with env_free_list := some (envAt 0) } := by
        simp only [env_init_slots, env_init_slot, Kernel.setEnv_free, hk]
      refine ⟨by rw [hslot]; rfl, ?_, ?_⟩
      · rw [hslot]
        exact Kernel.setEnv_status_same (k := k) (e := envAt 0)
          (f := fun env => { env with env_id := 0, env_link := none }) rfl
      · intro i hi
        obtain rfl : i = 0 := by omega
        simp [hslot, Kernel.link]
    · -- a later slot is linked to the one before it
      have hslot : env_init_slots (n + 2) k = ((env_init_slots (n + 1) k).setEnv
          (envAt (n + 1)) (fun env => { env with env_id := 0, env_link := none })).setEnv
          (envAt n) (fun env => { env with env_link := some (envAt (n + 1)) }) := by
        rw [env_init_slots, env_init_slot]
        simp only [Kernel.setEnv_free, hfree]
        rfl
      have hne := envAt_ne (i := n) (j := n + 1) (by omega) (by omega) (by omega)
      refine ⟨by rw [hslot]; exact hfree, ?_, ?_⟩
      · rw [hslot, Kernel.setEnv_status_same rfl, Kernel.setEnv_status_same rfl, hstatus]
      · intro i hi
        rcases Nat.lt_trichotomy i n with hlt | rfl | hgt
        · have h1 := envAt_ne (i := i) (j := n) (by omega) (by omega) (by omega)
          have h2 := envAt_ne (i := i) (j := n + 1) (by omega) (by omega) (by omega)
          have := hslots i (by omega)
          simpa [hslot, Kernel.link, h1, h2, show i + 1 < n + 1 by omega,
            show i + 1 < n + 1 + 1 by omega] using this
        · have := hslots i (by omega)
          simpa [hslot, Kernel.link, hne] using this.1
        · obtain rfl : i = n + 1 := by omega
          simp [hslot, Kernel.link, hne.symm]

theorem env_init_listed {k : Kernel} (hk : k.env_free_list = none)
    (hfree : ∀ e, k.status e = .ENV_FREE) : FreeListed (env_init k) := by
  obtain ⟨hhead, hstatus, hslots⟩ := env_init_slots_spec hk (Nat.le_refl NENV)
  -- the links from slot `i` on
  have hchain : ∀ n i, i + n = NENV → Chain (env_init k).link
      (if i < NENV then some (envAt i) else none) ((List.range' i n).map envAt) := by
    intro n
    induction n with
    | zero =>
      intro i hi
      simp [show ¬ i < NENV by omega]
    | succ n ih =>
      intro i hi
      rw [if_pos (by omega), List.range'_succ, List.map_cons]
      refine ⟨rfl, ?_⟩
      rw [env_init, (hslots i (by omega)).2]
      exact ih (i + 1) (by omega)
  refine ⟨(List.range' 0 NENV).map envAt, ?_, fun e => ?_⟩
  · have := hchain NENV 0 (by omega)
    rwa [env_init, hhead]
  · have hst : (env_init k).status e = .ENV_FREE := by rw [env_init, hstatus]; exact hfree e
    simp only [hst, iff_true]
    exact List.mem_map.mpr ⟨e.val, by simp [List.mem_range'], envAt_self e⟩

theorem FreeListed.take {k k' : Kernel} {e : EnvIx} (h : FreeListed k)
    (he : k.env_free_list = some e) (hlist : k'.env_free_list = k.link e) (hlink : k'.link = k.link)
    {st : EnvStatus} (hst : st ≠ .ENV_FREE) (hstatus : k'.status = Function.update k.status e st) :
    FreeListed k' := by
  obtain ⟨l, hchain, hmem⟩ := h
  obtain ⟨l, rfl⟩ := hchain.eq_cons he
  have hnot : e ∉ l := (List.nodup_cons.mp hchain.nodup).1
  refine ⟨l, by rw [hlink, hlist]; exact hchain.2, fun x => ?_⟩
  rw [hstatus]
  by_cases hx : x = e
  · simp [hx, hnot, hst]
  · have := hmem x
    simpa [hx] using this

theorem FreeListed.put {k k' : Kernel} {e : EnvIx} (h : FreeListed k)
    (he : k.status e ≠ .ENV_FREE) (hlist : k'.env_free_list = some e)
    (hlink : k'.link = Function.update k.link e k.env_free_list)
    (hstatus : k'.status = Function.update k.status e .ENV_FREE) : FreeListed k' := by
  obtain ⟨l, hchain, hmem⟩ := h
  refine ⟨e :: l, ?_, fun x => ?_⟩
  · rw [hlist, hlink]
    exact hchain.push fun hl => he ((hmem e).mp hl)
  · rw [hstatus]
    by_cases hx : x = e
    · simp [hx]
    · simpa [hx] using hmem x

theorem FreeListed.congr {k k' : Kernel} (h : FreeListed k)
    (hlist : k'.env_free_list = k.env_free_list) (hlink : k'.link = k.link)
    (hstatus : ∀ e, k'.status e = .ENV_FREE ↔ k.status e = .ENV_FREE) : FreeListed k' := by
  obtain ⟨l, hchain, hmem⟩ := h
  exact ⟨l, by rw [hlist, hlink]; exact hchain, fun e => (hmem e).trans (hstatus e).symm⟩

theorem env_alloc_listed {k k' : Kernel} {pid : Word} {r : Except Int EnvIx} (h : FreeListed k)
    (ha : env_alloc k pid = .ok (r, k')) : FreeListed k' := by
  rcases env_alloc_cases ha with ⟨code, -, -, rfl⟩ | ⟨e, pgdir, pm, -, he, -, rfl⟩
  · exact h
  · exact h.take he rfl (Kernel.enlist_link ..) (by simp) (Kernel.enlist_status ..)

theorem env_free_listed {k k' : Kernel} {c : Nat} {e : EnvIx} (h : FreeListed k)
    (hlive : k.status e ≠ .ENV_FREE) (hf : env_free k c e = .ok k') : FreeListed k' := by
  obtain ⟨pgdir, pm, -, -, rfl⟩ := env_free_cases hf
  exact h.put hlive rfl (Kernel.release_link ..) (Kernel.release_status ..)

/-! ## Runs -/

/-- An operation on the slots. -/
inductive EnvOp
  | alloc (parent_id : Word)
  | free (c : Nat) (e : EnvIx)

/-- The kernel, with the ids that each slot has been given, newest first. -/
structure EnvHistory where
  k : Kernel
  given : EnvIx → List Word

namespace EnvHistory

/-- The state after `env_init`. -/
def init (k : Kernel) : EnvHistory := ⟨env_init k, fun _ => []⟩

/-- One operation. Only an environment that is not free is freed. -/
def run (h : EnvHistory) : EnvOp → Option EnvHistory
  | .alloc parent_id =>
    match env_alloc h.k parent_id with
    | .ok (.ok e, k) => some ⟨k, Function.update h.given e ((k.envs e).env_id :: h.given e)⟩
    | .ok (.error _, k) => some ⟨k, h.given⟩
    | .error _ => none
  | .free c e =>
    if h.k.status e = .ENV_FREE then none
    else
      match env_free h.k c e with
      | .ok k => some ⟨k, h.given⟩
      | .error _ => none

def runAll (h : EnvHistory) : List EnvOp → Option EnvHistory
  | [] => some h
  | op :: ops => (h.run op).bind fun h => h.runAll ops

/-- The ids of a slot that has been allocated `m` times, newest first. -/
def idsOf (e : EnvIx) : Nat → List Word
  | 0 => []
  | m + 1 => idOf (genAfter (m + 1)) e :: idsOf e m

/-- The free list is right, and every slot has gone through its generations
in order. -/
structure Good (h : EnvHistory) : Prop where
  listed : FreeListed h.k
  given : ∀ e, h.given e = idsOf e (h.given e).length
  current : ∀ e, (h.k.envs e).env_id = idAfter (h.given e).length e
  live : ∀ e, h.k.status e ≠ .ENV_FREE → h.given e ≠ []

theorem Good.step {h h' : EnvHistory} {op : EnvOp} (hg : h.Good) (hr : h.run op = some h') :
    h'.Good := by
  cases op with
  | alloc parent_id =>
    simp only [run] at hr
    rcases ha : env_alloc h.k parent_id with p | ⟨r, k'⟩
    · simp [ha] at hr
    · have hlisted := env_alloc_listed hg.listed ha
      rcases env_alloc_cases ha with ⟨code, rfl, -, rfl⟩ | ⟨e, pgdir, pm, rfl, -, -, rfl⟩
      · simp only [ha] at hr
        cases hr
        exact hg
      · simp only [ha] at hr
        cases hr
        -- slot `e` moves one generation on, and no other slot changes
        have hid : nextId (h.k.envs e).env_id e = idAfter ((h.given e).length + 1) e := by
          rw [hg.current e, nextId_idAfter]
        refine ⟨hlisted, fun x => ?_, fun x => ?_, fun x hx => ?_⟩
        · by_cases hx : x = e
          · subst hx
            simp [freshEnv, hid, idAfter, idsOf, ← hg.given x]
          · simpa [hx] using hg.given x
        · by_cases hx : x = e
          · subst hx
            simp [freshEnv, hid]
          · simpa [hx] using hg.current x
        · by_cases hxe : x = e
          · simp [hxe]
          · simp only [Kernel.enlist_status, ne_eq, hxe, not_false_eq_true,
              Function.update_of_ne] at hx ⊢
            exact hg.live x hx
  | free c e =>
    simp only [run] at hr
    split at hr
    · cases hr
    · rename_i hlive
      rcases hf : env_free h.k c e with p | k'
      · simp [hf] at hr
      · simp only [hf] at hr
        cases hr
        have hlisted := env_free_listed hg.listed hlive hf
        obtain ⟨pgdir, pm, -, -, rfl⟩ := env_free_cases hf
        refine ⟨hlisted, hg.given, fun x => ?_, fun x hx => ?_⟩
        · by_cases hx : x = e
          · simpa [hx, freedEnv] using hg.current e
          · simpa [hx] using hg.current x
        · rw [Kernel.release_status, Function.update_apply] at hx
          split at hx
          · exact absurd rfl hx
          · exact hg.live x hx

theorem Good.runAll {h h' : EnvHistory} {ops : List EnvOp} (hg : h.Good)
    (hr : h.runAll ops = some h') : h'.Good := by
  induction ops generalizing h with
  | nil => cases hr; exact hg
  | cons op ops ih =>
    obtain ⟨h₁, h₁r, hr⟩ := Option.bind_eq_some_iff.mp hr
    exact ih (hg.step h₁r) hr

/-- `env_init` on slots that are all zero, before any id has been given. -/
theorem good_init {k : Kernel} (hk : k.env_free_list = none)
    (hfree : ∀ e, k.status e = .ENV_FREE) : (init k).Good := by
  have hinit : (init k).k = env_init k := by simp only [init]
  obtain ⟨-, hstatus, hslots⟩ := env_init_slots_spec hk (Nat.le_refl NENV)
  rw [← env_init, ← hinit] at hstatus hslots
  refine ⟨?_, fun e => rfl, fun e => ?_, fun e he => absurd ?_ he⟩
  · rw [hinit]; exact env_init_listed hk hfree
  · have h0 := hslots e.val e.isLt
    rw [envAt_self] at h0
    exact h0.1
  · rw [hstatus]; exact hfree e

theorem Good.getElem {h : EnvHistory} (hg : h.Good) {e : EnvIx} {j : Nat} {id : Word}
    (hj : (h.given e)[j]? = some id) :
    j < (h.given e).length ∧ id = idOf (genAfter ((h.given e).length - j)) e := by
  have hids : ∀ m j, (idsOf e m)[j]? = some id → j < m ∧ id = idOf (genAfter (m - j)) e := by
    intro m
    induction m with
    | zero => intro j hj; simp [idsOf] at hj
    | succ m ih =>
      intro j hj
      cases j with
      | zero => simp [idsOf] at hj; exact ⟨by omega, hj.symm⟩
      | succ j =>
        obtain ⟨hlt, he⟩ := ih j (by simpa [idsOf] using hj)
        exact ⟨by omega, by rw [he, Nat.add_sub_add_right]⟩
  rw [hg.given e] at hj
  exact hids _ j hj

end EnvHistory

/-! ## The law -/

/-- From `env_init` on, whatever is allocated and freed: a live id is positive
and holds the index of its slot, so live ids differ; the free list holds
each free slot once; a failing `env_alloc` changes nothing; and the id of an
environment that has been freed is refused until its slot has been allocated
again 2^19 - 1 times. -/
theorem stale_ids_are_refused {k : Kernel} {ops : List EnvOp} {h : EnvHistory}
    (hk : k.env_free_list = none) (hfree : ∀ e, k.status e = .ENV_FREE)
    (hr : (EnvHistory.init k).runAll ops = some h) :
    (∀ e, h.k.status e ≠ .ENV_FREE →
      0 < (h.k.envs e).env_id.toInt ∧ ENVX (h.k.envs e).env_id = e) ∧
    (∀ e e', h.k.status e ≠ .ENV_FREE → h.k.status e' ≠ .ENV_FREE →
      (h.k.envs e).env_id = (h.k.envs e').env_id → e = e') ∧
    (∃ l, Chain h.k.link h.k.env_free_list l ∧ l.Nodup ∧
      ∀ e, e ∈ l ↔ h.k.status e = .ENV_FREE) ∧
    (∀ pid code k', env_alloc h.k pid = .ok (.error code, k') →
      (code = -E_NO_FREE_ENV ∨ code = -E_NO_MEM) ∧ k' = h.k) ∧
    ∀ e j id, (h.given e)[j]? = some id → (h.k.status e = .ENV_FREE ∨ 0 < j) → j < 2 ^ 19 - 1 →
      ∀ cur checkperm, envid2env h.k cur id checkperm = .error (-E_BAD_ENV) := by
  have hg := (EnvHistory.good_init hk hfree).runAll hr
  have hlive : ∀ e, h.k.status e ≠ .ENV_FREE →
      0 < (h.k.envs e).env_id.toInt ∧ ENVX (h.k.envs e).env_id = e := by
    intro e he
    have hlen := List.length_pos_of_ne_nil (hg.live e he)
    rw [hg.current e, idAfter, if_neg (by omega)]
    exact ⟨idOf_pos e (genAfter_lt _) (genAfter_pos hlen), ENVX_idOf e (genAfter_lt _)⟩
  refine ⟨hlive, ?_, ?_, ?_, ?_⟩
  · intro e e' he he' hid
    rw [← (hlive e he).2, hid, (hlive e' he').2]
  · obtain ⟨l, hchain, hmem⟩ := hg.listed
    exact ⟨l, hchain, hchain.nodup, hmem⟩
  · intro pid code k' ha
    rcases env_alloc_cases ha with ⟨code', he, hcode, rfl⟩ | ⟨e, pgdir, pm, he, -⟩
    · cases he; exact ⟨hcode, rfl⟩
    · cases he
  · intro e j id hj hstale hlt cur checkperm
    obtain ⟨hjlt, rfl⟩ := hg.getElem hj
    have hpos : 0 < (h.given e).length - j := by omega
    have hne : idOf (genAfter ((h.given e).length - j)) e ≠ 0 := by
      intro h0
      have := idOf_pos e (genAfter_lt _) (genAfter_pos hpos)
      rw [h0] at this
      exact absurd this (by decide)
    unfold envid2env
    rw [if_neg hne, ENVX_idOf e (genAfter_lt _)]
    refine if_pos ?_
    rcases hstale with hst | hj0
    · exact Or.inl hst
    · -- the slot has moved on, and has not come round yet
      refine Or.inr fun hid => ?_
      rw [hg.current e, idAfter, if_neg (by omega)] at hid
      refine genAfter_ne hpos hj0 hlt ?_
      rw [Nat.sub_add_cancel (by omega)]
      exact (idOf_inj (genAfter_lt _) (genAfter_lt _) hid).1

/-- The first slot is allocated, freed and allocated again: its first id is
refused. -/
theorem stale_ids_are_refused_once : ∃ h,
    (EnvHistory.init (zeroKernel 16 (by decide) 1)).runAll [.alloc 0, .free 0 0, .alloc 0] =
      some h ∧ (h.given 0)[1]? = some 0x1000 ∧ h.k.status 0 ≠ .ENV_FREE ∧
      envid2env h.k 0 0x1000 true = .error (-E_BAD_ENV) := by
  have hrun : ((EnvHistory.init (zeroKernel 16 (by decide) 1)).runAll
      [.alloc 0, .free 0 0, .alloc 0]).map (fun h => ((h.given 0)[1]?, h.k.status 0)) =
      some (some 0x1000, .ENV_RUNNABLE) := by decide +kernel
  obtain ⟨h, hr, hfacts⟩ := Option.map_eq_some_iff.mp hrun
  obtain ⟨hgiven, hlive⟩ := Prod.mk.inj hfacts
  refine ⟨h, hr, hgiven, by rw [hlive]; decide, ?_⟩
  exact (stale_ids_are_refused rfl (fun _ => rfl) hr).2.2.2.2 0 1 0x1000 hgiven
    (Or.inr (by omega)) (by omega) 0 true

end jos
