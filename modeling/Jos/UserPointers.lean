-- Pointers that a user hands to the kernel. `sys_cputs` checks the range it is given, but
-- the loop of `%.*s` looks at one character more, and at all characters up to a NUL when
-- the length is no positive int. `sys_env_set_trapframe` does not check its pointer.
import Jos.UserRange

namespace jos

open outcome

/-! ## What is read -/

/-- The system calls that read through a pointer. -/
inductive PointerCall
  | cputs (s len : Word)
  | set_trapframe (envid tf : Word)

/-- The call, with `read` for what the pointer leads to. -/
def PointerCall.run (read : Word → Option Byte) (k : Kernel) (c : Nat) (cur : EnvIx) :
    PointerCall → Res Int
  | .cputs s len =>
    (user_mem_assert k c cur s len (PTE_P ||| PTE_U)).bind fun _ k =>
      match (cprintf_s read s len).2 with
      | .done out => .ret 0 (k.print out)
      | .fault va => .panic (.kernel_fault va)
      | .endless => .stuck
  | .set_trapframe envid tf =>
    match envid2env k cur envid true with
    | .error r => .panic (.set_trapframe r)
    | .ok e =>
      match loadTrapframe read tf with
      | .error va => .panic (.kernel_fault va)
      | .ok frame => .ret 0 (k.setEnv e fun env => { env with env_tf := userTf frame })

/-- The addresses that the call reads. -/
def PointerCall.reads (k : Kernel) (c : Nat) (cur : EnvIx) : PointerCall → List Word
  | .cputs s len =>
    match user_mem_check k cur s len (PTE_P ||| PTE_U ||| PTE_U) with
    | .error _ => []
    | .ok (r, _) => if r < 0 then [] else (cprintf_s (k.pm.load (k.cpus c).cr3) s len).1
  | .set_trapframe envid tf =>
    match envid2env k cur envid true with
    | .error _ => []
    | .ok _ => trapframeBytes tf

/-- The call itself. -/
def PointerCall.perform (k : Kernel) (c : Nat) (cur : EnvIx) : PointerCall → Res Int
  | .cputs s len => (sys_cputs k c cur s len).bind fun _ k => .ret 0 k
  | .set_trapframe envid tf => sys_env_set_trapframe k c cur envid tf

/-- The user may read the address. -/
def Readable (s : Phys) (d : Nat) (a : Word) : Prop := a < ULIM ∧ allowed s d a PTE_U = true

/-- The range passes the check of `sys_cputs`. -/
def Checked (k : Kernel) (cur : EnvIx) (s len : Word) : Prop :=
  user_mem_check k cur s len (PTE_P ||| PTE_U ||| PTE_U) = .ok (0, k)

/-- The bytes from `s` up to the first NUL, or to `s + len` where that is reached first and
`len` is no negative int, can be read by the user. -/
def StringReadable (s : Phys) (d : Nat) (p len : Word) : Prop :=
  ∀ j : Nat, j < 2 ^ 32 → (len.toInt < 0 ∨ (j : Int) ≤ len.toInt) →
    (∀ i < j, ∃ ch, ch ≠ 0 ∧ s.load d (p + BitVec.ofNat 32 i) = some ch) →
    Readable s d (p + BitVec.ofNat 32 j)

/-- When a call reads nothing but what the user may read. -/
def PointerCall.Safe (k : Kernel) (cur : EnvIx) (d : Nat) : PointerCall → Prop
  | .cputs s len => s = 0 ∨ ¬ Checked k cur s len ∨ StringReadable k.pm d s len
  | .set_trapframe envid tf =>
    (∀ e, envid2env k cur envid true ≠ .ok e) ∨
      ∀ i < 68, Readable k.pm d (tf + BitVec.ofNat 32 i)

variable {k : Kernel} {c d : Nat} {cur : EnvIx} {s len envid tf p : Word} {n : Nat}
  {read read' : Word → Option Byte} {precision : Int}

/-! ## The loop over a string -/

/-- The loop reads an address if all characters before it are there and not NUL, and are no
more than the precision. -/
theorem mem_scan {a : Word} : a ∈ (scan read n p precision).1 ↔
    ∃ j < n, (precision < 0 ∨ (j : Int) ≤ precision) ∧
      (∀ i < j, ∃ ch, ch ≠ 0 ∧ read (p + BitVec.ofNat 32 i) = some ch) ∧
      a = p + BitVec.ofNat 32 j := by
  have hzero : ∀ p : Word, p + BitVec.ofNat 32 0 = p := BitVec.add_zero
  have hsucc : ∀ (p : Word) (j : Nat), p + BitVec.ofNat 32 (j + 1) = p + 1 + BitVec.ofNat 32 j := by
    intro p j
    rw [Nat.add_comm, BitVec.ofNat_add, ← BitVec.add_assoc]
    rfl
  induction n generalizing p precision with
  | zero => exact ⟨fun h => absurd h List.not_mem_nil, fun ⟨j, hj, _⟩ => absurd hj (Nat.not_lt_zero j)⟩
  | succ n ih =>
    -- the loop ends with its first character
    have hlast : (∀ ch, ch ≠ 0 → read p = some ch → precision = 0) → (a ∈ [p] ↔
        ∃ j < n + 1, (precision < 0 ∨ (j : Int) ≤ precision) ∧
          (∀ i < j, ∃ ch, ch ≠ 0 ∧ read (p + BitVec.ofNat 32 i) = some ch) ∧
          a = p + BitVec.ofNat 32 j) := by
      intro hstop
      rw [List.mem_singleton]
      constructor
      · intro ha
        exact ⟨0, by omega, by omega, fun i hi => absurd hi (Nat.not_lt_zero i), by rw [hzero, ha]⟩
      · rintro ⟨j, -, hj, hall, ha⟩
        rcases j with _ | j
        · rw [ha, hzero]
        · obtain ⟨ch, hch, hread⟩ := hall 0 (by omega)
          rw [hzero] at hread
          have := hstop ch hch hread
          omega
    -- or it goes on
    have hnext : ∀ (ch : Byte) (rest : Int), ch ≠ 0 → read p = some ch → precision ≠ 0 →
        rest = (if precision < 0 then precision else precision - 1) →
        (a ∈ p :: (scan read n (p + 1) rest).1 ↔
          ∃ j < n + 1, (precision < 0 ∨ (j : Int) ≤ precision) ∧
            (∀ i < j, ∃ ch, ch ≠ 0 ∧ read (p + BitVec.ofNat 32 i) = some ch) ∧
            a = p + BitVec.ofNat 32 j) := by
      intro ch rest hch hread hne hrest
      refine List.mem_cons.trans (Iff.trans (or_congr_right ih) ?_)
      constructor
      · rintro (ha | ⟨j, hj, hprec, hall, ha⟩)
        · exact ⟨0, by omega, by omega, fun i hi => absurd hi (Nat.not_lt_zero i), by rw [hzero, ha]⟩
        · refine ⟨j + 1, by omega, ?_, ?_, by rw [hsucc, ha]⟩
          · split at hrest <;> omega
          · intro i hi
            rcases i with _ | i
            · exact ⟨ch, hch, by rw [hzero, hread]⟩
            · rw [hsucc]
              exact hall i (by omega)
      · rintro ⟨j, hj, hprec, hall, ha⟩
        rcases j with _ | j
        · exact .inl (by rw [ha, hzero])
        · refine .inr ⟨j, by omega, ?_, fun i hi => ?_, by rw [ha, hsucc]⟩
          · split at hrest <;> omega
          · rw [← hsucc]
            exact hall (i + 1) (by omega)
    rw [scan]
    rcases hread : read p with _ | ch
    · exact hlast fun ch _ h => by rw [hread] at h; cases h
    · dsimp only
      split
      · rename_i hch
        refine hlast fun ch' hch' h => ?_
        rw [hread, hch] at h
        exact absurd (Option.some.inj h).symm hch'
      · rename_i hch
        split
        · rename_i hneg
          exact hnext ch precision hch hread (by omega) (by rw [if_pos hneg])
        · rename_i hneg
          split
          · exact hnext ch (precision - 1) hch hread (by omega) (by rw [if_neg hneg])
          · exact hlast fun _ _ _ => by omega

/-- Another memory that agrees on what is read gives the same. -/
theorem scan_congr (h : ∀ a ∈ (scan read n p precision).1, read' a = read a) :
    scan read' n p precision = scan read n p precision := by
  induction n generalizing p precision with
  | zero => rfl
  | succ n ih =>
    have hfirst : p ∈ (scan read (n + 1) p precision).1 :=
      mem_scan.mpr ⟨0, by omega, by omega, fun i hi => absurd hi (Nat.not_lt_zero i),
        (BitVec.add_zero p).symm⟩
    have hp := h p hfirst
    rw [scan] at h
    rw [scan, scan, hp]
    rcases hread : read p with _ | ch
    · rfl
    · rw [hread] at h
      dsimp only at h ⊢
      by_cases hch : ch = 0
      · rw [if_pos hch, if_pos hch]
      · rw [if_neg hch] at h
        rw [if_neg hch, if_neg hch]
        split
        · rename_i hneg
          rw [if_pos hneg] at h
          rw [ih fun a ha => h a (.tail _ ha)]
        · rename_i hneg
          rw [if_neg hneg] at h
          split
          · rename_i hpos
            rw [if_pos hpos] at h
            rw [ih fun a ha => h a (.tail _ ha)]
          · rfl

/-! ## The frame -/

theorem mem_trapframeBytes {a : Word} :
    a ∈ trapframeBytes tf ↔ ∃ i < 68, a = tf + BitVec.ofNat 32 i := by
  rw [trapframeBytes, List.mem_map]
  constructor
  · rintro ⟨i, hi, rfl⟩
    exact ⟨i, List.mem_range.mp hi, rfl⟩
  · rintro ⟨i, hi, rfl⟩
    exact ⟨i, List.mem_range.mpr hi, rfl⟩

theorem loadTrapframe_congr (h : ∀ a ∈ trapframeBytes tf, read' a = read a) :
    loadTrapframe read' tf = loadTrapframe read tf := by
  have hbyte : ∀ i < 17, ∀ j < 4, read' (tf + BitVec.ofNat 32 (4 * i) + BitVec.ofNat 32 j) =
      read (tf + BitVec.ofNat 32 (4 * i) + BitVec.ofNat 32 j) := by
    intro i hi j hj
    rw [BitVec.add_assoc, ← BitVec.ofNat_add]
    exact h _ (mem_trapframeBytes.mpr ⟨_, by omega, rfl⟩)
  have hword : ∀ i < 17, loadWord read' (tf + BitVec.ofNat 32 (4 * i)) =
      loadWord read (tf + BitVec.ofNat 32 (4 * i)) := by
    intro i hi
    have h0 := hbyte i hi 0 (by omega)
    have h1 := hbyte i hi 1 (by omega)
    have h2 := hbyte i hi 2 (by omega)
    have h3 := hbyte i hi 3 (by omega)
    unfold loadWord
    dsimp only
    rw [show (0 : Word) = BitVec.ofNat 32 0 from rfl, show (1 : Word) = BitVec.ofNat 32 1 from rfl,
      show (2 : Word) = BitVec.ofNat 32 2 from rfl, show (3 : Word) = BitVec.ofNat 32 3 from rfl,
      h0, h1, h2, h3]
  have hfind : (trapframeBytes tf).find? (fun a => (read' a).isNone) =
      (trapframeBytes tf).find? fun a => (read a).isNone := by
    have hall : ∀ l : List Word, (∀ a ∈ l, read' a = read a) →
        l.find? (fun a => (read' a).isNone) = l.find? fun a => (read a).isNone := by
      intro l hl
      induction l with
      | nil => rfl
      | cons a l ih =>
        rw [List.find?_cons, List.find?_cons, hl a (.head _), ih fun a ha => hl a (.tail _ ha)]
    exact hall _ h
  unfold loadTrapframe
  rw [hfind]
  simp only [hword _ (by omega : 0 < 17), hword _ (by omega : 1 < 17), hword _ (by omega : 2 < 17),
    hword _ (by omega : 3 < 17), hword _ (by omega : 4 < 17), hword _ (by omega : 5 < 17),
    hword _ (by omega : 6 < 17), hword _ (by omega : 7 < 17), hword _ (by omega : 8 < 17),
    hword _ (by omega : 9 < 17), hword _ (by omega : 10 < 17), hword _ (by omega : 11 < 17),
    hword _ (by omega : 12 < 17), hword _ (by omega : 13 < 17), hword _ (by omega : 14 < 17),
    hword _ (by omega : 15 < 17), hword _ (by omega : 16 < 17)]

/-! ## The check -/

theorem user_mem_check_cases (hd : (k.envs cur).env_pgdir = some d) (perm : Word) :
    (∃ p, user_mem_check k cur s len perm = .error p) ∨
      user_mem_check k cur s len perm = .ok (0, k) ∨
      ∃ bad, user_mem_check k cur s len perm = .ok (-E_FAULT, { k with user_mem_check_addr := bad }) := by
  rw [user_mem_check, hd]
  dsimp only
  rcases user_mem_check_bad k.pm d s len perm with p | _ | bad
  · exact .inl ⟨p, rfl⟩
  · exact .inr (.inl rfl)
  · exact .inr (.inr ⟨bad, rfl⟩)

/-- The check of the running environment passes, or the call ends with it. -/
theorem user_mem_assert_cases (hcur : k.curenv c = some cur)
    (hd : (k.envs cur).env_pgdir = some d) (perm : Word) :
    (user_mem_check k cur s len (perm ||| PTE_U) = .ok (0, k) ∧
      user_mem_assert k c cur s len perm = .ret () k) ∨
    ((∀ r k', user_mem_check k cur s len (perm ||| PTE_U) = .ok (r, k') → r < 0) ∧
      ∀ f g : Unit → Kernel → Res Int, (user_mem_assert k c cur s len perm).bind f =
        (user_mem_assert k c cur s len perm).bind g) := by
  have hcases : (∃ p, user_mem_check k cur s len (perm ||| PTE_U) = .error p) ∨ _ :=
    user_mem_check_cases hd (perm ||| PTE_U)
  rcases hcases with ⟨p, hp⟩ | hok | ⟨bad, hbad⟩
  · refine .inr ⟨fun r k' h => ?_, fun f g => ?_⟩
    · rw [hp] at h
      cases h
    · rw [user_mem_assert, hp]
      rfl
  · refine .inl ⟨hok, ?_⟩
    rw [user_mem_assert, hok]
    rfl
  · refine .inr ⟨fun r k' h => ?_, fun f g => ?_⟩
    · rw [hbad] at h
      cases h
      decide
    · rw [user_mem_assert, hbad]
      have hneg : -E_FAULT < 0 := by decide
      dsimp only
      rw [if_pos hneg]
      generalize hk : Kernel.print _ _ = k'
      have hcur' : k'.curenv c = some cur := by
        rw [← hk]
        exact hcur
      have hholds := env_destroy_holds k' c cur
      rcases hrun : env_destroy k' c cur with a | _ | _ | _
      · rw [hrun] at hholds
        exact absurd hcur' hholds.1
      · rfl
      · rfl
      · rfl

/-! ## The calls -/

theorem cputs_reads (hd : (k.envs cur).env_pgdir = some d) (hcr3 : (k.cpus c).cr3 = d) :
    (∀ a ∈ (PointerCall.cputs s len).reads k c cur, Readable k.pm d a) ↔
      (PointerCall.cputs s len).Safe k cur d := by
  unfold PointerCall.Safe PointerCall.reads
  dsimp only
  have hcases : (∃ p, user_mem_check k cur s len (PTE_P ||| PTE_U ||| PTE_U) = .error p) ∨ _ :=
    user_mem_check_cases hd (PTE_P ||| PTE_U ||| PTE_U)
  rcases hcases with ⟨p, hp⟩ | hok | ⟨bad, hbad⟩
  · have hno : ¬ Checked k cur s len := by
      intro h
      rw [Checked, hp] at h
      cases h
    rw [hp]
    exact ⟨fun _ => .inr (.inl hno), fun _ a ha => absurd ha List.not_mem_nil⟩
  · rw [hok]
    dsimp only
    rw [if_neg (by decide), hcr3, cprintf_s]
    by_cases hs : s = 0
    · rw [if_pos hs]
      exact ⟨fun _ => .inl hs, fun _ a ha => absurd ha List.not_mem_nil⟩
    · rw [if_neg hs]
      constructor
      · intro h
        refine .inr (.inr fun j hj hlen hall => h _ (mem_scan.mpr ⟨j, hj, hlen, hall, rfl⟩))
      · rintro (h | h | h) a ha
        · exact absurd h hs
        · exact absurd hok h
        · obtain ⟨j, hj, hlen, hall, rfl⟩ := mem_scan.mp ha
          exact h j hj hlen hall
  · have hno : ¬ Checked k cur s len := by
      intro h
      rw [Checked, hbad] at h
      cases h
    rw [hbad]
    dsimp only
    rw [if_pos (by decide)]
    exact ⟨fun _ => .inr (.inl hno), fun _ a ha => absurd ha List.not_mem_nil⟩

theorem set_trapframe_reads :
    (∀ a ∈ (PointerCall.set_trapframe envid tf).reads k c cur, Readable k.pm d a) ↔
      (PointerCall.set_trapframe envid tf).Safe k cur d := by
  unfold PointerCall.Safe PointerCall.reads
  dsimp only
  rcases he : envid2env k cur envid true with r | e
  · exact ⟨fun _ => .inl fun e h => (by cases h), fun _ a ha => absurd ha List.not_mem_nil⟩
  · constructor
    · intro h
      exact .inr fun i hi => h _ (mem_trapframeBytes.mpr ⟨i, hi, rfl⟩)
    · rintro (h | h) a ha
      · exact absurd rfl (h e)
      · obtain ⟨i, hi, rfl⟩ := mem_trapframeBytes.mp ha
        exact h i hi

/-- A call depends only on the bytes that it reads. -/
theorem PointerCall.run_congr (hcur : k.curenv c = some cur)
    (hd : (k.envs cur).env_pgdir = some d) (call : PointerCall)
    (h : ∀ a ∈ call.reads k c cur, read a = k.pm.load (k.cpus c).cr3 a) :
    call.run read k c cur = call.perform k c cur := by
  cases call with
  | cputs s len =>
    unfold PointerCall.run PointerCall.perform sys_cputs
    dsimp only
    rcases user_mem_assert_cases hcur hd (s := s) (PTE_P ||| PTE_U) with ⟨hok, hret⟩ | ⟨-, hends⟩
    · have hsame : cprintf_s read s len = cprintf_s (k.pm.load (k.cpus c).cr3) s len := by
        unfold PointerCall.reads at h
        dsimp only at h
        rw [hok] at h
        dsimp only at h
        rw [if_neg (by decide)] at h
        unfold cprintf_s at h ⊢
        split
        · rfl
        · rename_i hs
          rw [if_neg hs] at h
          exact scan_congr h
      rw [hret, Outcome.bind_ret, Outcome.bind_ret, hsame]
      rcases (cprintf_s (k.pm.load (k.cpus c).cr3) s len).2 with out | va | _
      · rfl
      · rfl
      · rfl
    · -- the environment is gone, and nothing is read
      rw [Outcome.bind_assoc]
      exact hends _ _
  | set_trapframe envid tf =>
    unfold PointerCall.run PointerCall.perform sys_env_set_trapframe
    unfold PointerCall.reads at h
    dsimp only at h ⊢
    rcases he : envid2env k cur envid true with r | e
    · rfl
    · rw [he] at h
      dsimp only at h ⊢
      have hsame := loadTrapframe_congr h
      generalize loadTrapframe read tf = frame' at hsame ⊢
      subst hsame
      rcases loadTrapframe (k.pm.load (k.cpus c).cr3) tf with va | frame
      · rfl
      · rfl

/-- An environment with an empty page directory that is running. -/
def runningKernel : Kernel := emptyEnvKernel.setCurenv 0 (some 0)

theorem not_readable_runningKernel (a : Word) : ¬ Readable runningKernel.pm 1 a := by
  rintro ⟨-, hallow⟩
  exact not_present_zero (allowed_present hallow).1

end jos
