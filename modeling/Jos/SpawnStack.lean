-- The stack page that `init_stack` makes for a child. The strings are packed at
-- the top of the page, the array of pointers to them lies below, and the two
-- words for `umain` are at the bottom, where the child starts.
import Jos.Spawn

namespace jos.program

open blockstore (Mem)
open stateful (bind_ok bind_error)

/-! ## Addresses of the page -/

/-- The address of byte `o` of the page at `UTEMP`. -/
def temp (o : Nat) : Word := UTEMP + BitVec.ofNat 32 o

/-- The address of the same byte in the child. -/
def stackAt (o : Nat) : Word := USTACKTOP - 0x1000 + BitVec.ofNat 32 o

theorem temp_toNat {o : Nat} (h : o ≤ 4096) : (temp o).toNat = UTEMP.toNat + o := by
  have hbase : UTEMP.toNat = 0x400000 := rfl
  rw [temp, BitVec.toNat_add, BitVec.toNat_ofNat, hbase]
  omega

theorem stackAt_toNat {o : Nat} (h : o ≤ 4096) :
    (stackAt o).toNat = USTACKTOP.toNat - 4096 + o := by
  have hbase : (USTACKTOP - 0x1000).toNat = 0xEEBFD000 := by decide
  have htop : USTACKTOP.toNat = 0xEEBFE000 := by decide
  rw [stackAt, BitVec.toNat_add, BitVec.toNat_ofNat, hbase, htop]
  omega

theorem temp_add (o n : Nat) : temp o + BitVec.ofNat 32 n = temp (o + n) := by
  rw [temp, temp, BitVec.add_assoc, BitVec.ofNat_add]

theorem temp_index (o i : Nat) : temp o + 4 * BitVec.ofNat 32 i = temp (o + 4 * i) := by
  rw [← temp_add, BitVec.ofNat_mul]
  rfl

theorem temp_sub {o n : Nat} (h : n ≤ o) : temp o - BitVec.ofNat 32 n = temp (o - n) := by
  obtain ⟨k, rfl⟩ : ∃ k, o = k + n := ⟨o - n, by omega⟩
  rw [← temp_add, Nat.add_sub_cancel, BitVec.add_sub_cancel]

theorem stackAt_add (o n : Nat) : stackAt o + BitVec.ofNat 32 n = stackAt (o + n) := by
  rw [stackAt, stackAt, BitVec.add_assoc, BitVec.ofNat_add]

theorem UTEMP2USTACK_temp (o : Nat) : UTEMP2USTACK (temp o) = stackAt o := by
  rw [UTEMP2USTACK, temp, stackAt, BitVec.add_assoc, BitVec.add_comm UTEMP, BitVec.add_sub_cancel,
    BitVec.add_comm]

theorem poke_temp {page : Mem} {o : Nat} {bs : List Byte} (h : o + bs.length ≤ 4096) :
    poke page (temp o) bs = .ok (page.store o bs) := by
  have htemp : (temp o).toNat = UTEMP.toNat + o := temp_toNat (by omega)
  rw [poke, if_pos ⟨by omega, by rw [htemp, PGSIZE]; omega⟩, htemp, Nat.add_sub_cancel_left]

/-! ## The strings -/

/-- The bytes that the strings take. -/
def size (argv : List Str) : Nat := (argv.map fun arg => arg.length + 1).sum

@[simp] theorem size_nil : size [] = 0 := rfl

@[simp] theorem size_cons (arg : Str) (argv : List Str) :
    size (arg :: argv) = arg.length + 1 + size argv := List.sum_cons

theorem string_size_eq (argv : List Str) : string_size argv = BitVec.ofNat 32 (size argv) := by
  suffices ∀ n, argv.foldl (fun n arg => n + BitVec.ofNat 32 (arg.length + 1)) n =
      n + BitVec.ofNat 32 (size argv) by
    rw [string_size, this]
    exact BitVec.zero_add _
  induction argv with
  | nil => exact fun n => (BitVec.add_zero n).symm
  | cons arg argv ih =>
    intro n
    rw [List.foldl_cons, ih, size_cons, BitVec.ofNat_add (arg.length + 1), BitVec.add_assoc]

/-- A string ends before the end of all. -/
theorem size_take_le {argv : List Str} {k : Nat} {arg : Str} (hk : argv[k]? = some arg) :
    size (argv.take k) + (arg.length + 1) ≤ size argv := by
  induction argv generalizing k with
  | nil => cases hk
  | cons first argv ih =>
    cases k with
    | zero =>
      cases hk
      rw [List.take_zero, size_nil, size_cons]
      omega
    | succ k =>
      have hle := ih hk
      rw [List.take_succ_cons, size_cons, size_cons]
      omega

theorem size_take_mono {argv : List Str} {i j : Nat} {arg : Str} (hi : argv[i]? = some arg)
    (hij : i < j) : size (argv.take i) + (arg.length + 1) ≤ size (argv.take j) := by
  have htake : (argv.take j)[i]? = some arg := by rw [List.getElem?_take_of_lt hij, hi]
  have hle := size_take_le htake
  rwa [List.take_take, min_eq_left hij.le] at hle

theorem size_take_total (argv : List Str) (i : Nat) : size (argv.take i) ≤ size argv := by
  conv_rhs => rw [← List.take_append_drop i argv]
  rw [size, size, List.map_append, List.sum_append]
  exact Nat.le_add_right ..

/-- The array at `a` points, from number `i` on, to copies of the strings, which lie
behind each other from `o` on. -/
structure Copied (page : Mem) (a i o : Nat) (argv : List Str) : Prop where
  pointer : ∀ k < argv.length, page.word (a + 4 * (i + k)) = stackAt (o + size (argv.take k))
  string : ∀ k arg, argv[k]? = some arg →
    page.load (o + size (argv.take k)) (arg.length + 1) = arg ++ [0]

variable {page page' : Mem} {a i o : Nat} {argv : List Str}

/-- The copies do not change with the bytes around them. -/
theorem Copied.congr (h : Copied page a i o argv)
    (harray : ∀ x, a + 4 * i ≤ x → x < a + 4 * (i + argv.length) → page' x = page x)
    (hstrings : ∀ x, o ≤ x → x < o + size argv → page' x = page x) : Copied page' a i o argv := by
  refine ⟨fun k hk => ?_, fun k arg hk => ?_⟩
  · rw [← h.pointer k hk]
    exact Mem.word_congr fun x h₁ h₂ => harray x (by omega) (by omega)
  · have hle := size_take_le hk
    rw [← h.string k arg hk]
    exact Mem.load_congr fun x h₁ h₂ => hstrings x (by omega) (by omega)

/-- The loop over the arguments. -/
theorem store_args_spec (argv : List Str) (page : Mem) (hbelow : a + 4 * (i + argv.length) ≤ o)
    (hfits : o + size argv ≤ 4096) :
    ∃ page', store_args (temp a) argv i (temp o) page = .ok (temp (o + size argv), page') ∧
      Copied page' a i o argv ∧
      ∀ x, x < a + 4 * i ∨ a + 4 * (i + argv.length) ≤ x → x < o ∨ o + size argv ≤ x →
        page' x = page x := by
  induction argv generalizing i o page with
  | nil => exact ⟨page, rfl, ⟨fun k hk => absurd hk (Nat.not_lt_zero k), by rintro k _ ⟨⟩⟩,
      fun _ _ _ => rfl⟩
  | cons arg argv ih =>
    rw [size_cons] at hfits ⊢
    rw [List.length_cons] at hbelow ⊢
    -- the pointer, then the string
    let page₁ := page.setWord (a + 4 * i) (stackAt o)
    let page₂ := page₁.store o (arg ++ [0])
    have hlen : (arg ++ [0]).length = arg.length + 1 := List.length_append
    obtain ⟨page', hrun, hcopied, hkeep⟩ := ih (i := i + 1) (o := o + (arg.length + 1)) page₂
      (by omega) (by omega)
    have hkeep₂ : ∀ x, x < o + (arg.length + 1) → x < a + 4 * (i + 1) ∨ o ≤ x →
        page' x = page₂ x := fun x hx hx' => hkeep x (by omega) (.inl hx)
    refine ⟨page', ?_, ⟨fun k hk => ?_, fun k s hk => ?_⟩, fun x hx hx' => ?_⟩
    · have hpointer : poke page (temp a + 4 * BitVec.ofNat 32 i)
          (ia32.bytes (UTEMP2USTACK (temp o))) = .ok page₁ := by
        rw [temp_index, UTEMP2USTACK_temp]
        exact poke_temp (show a + 4 * i + 4 ≤ 4096 by omega)
      have hstring : poke page₁ (temp o) (arg ++ [0]) = .ok page₂ := poke_temp (by omega)
      rw [store_args, hpointer]
      show (poke page₁ (temp o) (arg ++ [0])).bind _ = _
      rw [hstring]
      show store_args (temp a) argv (i + 1) (temp o + BitVec.ofNat 32 (arg.length + 1)) page₂ = _
      rw [temp_add, hrun, Nat.add_assoc]
    · cases k with
      | zero =>
        rw [List.take_zero, size_nil]
        have hword : page'.word (a + 4 * i) = page₁.word (a + 4 * i) := by
          refine Mem.word_congr fun x h₁ h₂ => ?_
          rw [hkeep₂ x (by omega) (.inl (by omega))]
          exact Mem.store_out (.inl (by omega))
        exact hword.trans Mem.word_setWord
      | succ k =>
        have hp := hcopied.pointer k (Nat.lt_of_succ_lt_succ hk)
        rw [Nat.add_right_comm i 1 k] at hp
        rw [List.take_succ_cons, size_cons, ← Nat.add_assoc o]
        exact hp
    · cases k with
      | zero =>
        cases hk
        rw [List.take_zero, size_nil, Nat.add_zero, ← hlen]
        have hload : page'.load o (arg ++ [0]).length = page₂.load o (arg ++ [0]).length :=
          Mem.load_congr fun x h₁ h₂ => hkeep₂ x (by omega) (.inr h₁)
        exact hload.trans Mem.load_store
      | succ k =>
        rw [List.take_succ_cons, size_cons, ← Nat.add_assoc o]
        exact hcopied.string k s hk
    · rw [hkeep x (by omega) (by omega)]
      have hout₂ : page₂ x = page₁ x := Mem.store_out (by omega)
      exact hout₂.trans (Mem.setWord_out (by omega))

/-! ## The page -/

/-- What the child finds at an address of its stack page. -/
def stackWord (page : Mem) (va : Word) : Word := page.word (va - (USTACKTOP - 0x1000)).toNat

def stackBytes (page : Mem) (va : Word) (n : Nat) : List Byte :=
  page.load (va - (USTACKTOP - 0x1000)).toNat n

/-- `n` bytes from an address on are in `[USTACKTOP - PGSIZE, USTACKTOP)`. -/
def InStack (va : Word) (n : Nat) : Prop :=
  USTACKTOP.toNat - PGSIZE ≤ va.toNat ∧ va.toNat + n ≤ USTACKTOP.toNat

/-- The pointer to the arguments that `umain` gets. -/
def argvOf (page : Mem) (esp : Word) : Word := stackWord page (esp + 4)

def argAt (page : Mem) (esp : Word) (i : Nat) : Word :=
  stackWord page (argvOf page esp + BitVec.ofNat 32 (4 * i))

/-- The stack of a child that starts with the arguments `argv`. -/
structure Laid (argv : List Str) (esp : Word) (page : Mem) : Prop where
  argc : stackWord page esp = BitVec.ofNat 32 argv.length
  null : argAt page esp argv.length = 0
  string : ∀ i arg, argv[i]? = some arg →
    stackBytes page (argAt page esp i) (arg.length + 1) = arg ++ [0]
  esp_in : InStack esp 8
  argv_in : InStack (argvOf page esp) (4 * (argv.length + 1))
  string_in : ∀ i arg, argv[i]? = some arg → InStack (argAt page esp i) (arg.length + 1)
  esp_apart : esp.toNat + 8 ≤ (argvOf page esp).toNat
  argv_apart : ∀ i < argv.length,
    (argvOf page esp).toNat + 4 * (argv.length + 1) ≤ (argAt page esp i).toNat
  strings_apart : ∀ i j arg, argv[i]? = some arg → i < j → j < argv.length →
    (argAt page esp i).toNat + (arg.length + 1) ≤ (argAt page esp j).toNat

theorem stackAt_sub {n : Nat} (h : n ≤ 4096) : (stackAt n - (USTACKTOP - 0x1000)).toNat = n := by
  rw [stackAt, BitVec.add_comm, BitVec.add_sub_cancel, BitVec.toNat_ofNat]
  exact Nat.mod_eq_of_lt (by omega)

theorem stackWord_stackAt {n : Nat} (h : n ≤ 4096) : stackWord page (stackAt n) = page.word n := by
  rw [stackWord, stackAt_sub h]

theorem inStack_stackAt {n k : Nat} (h : n + k ≤ 4096) : InStack (stackAt n) k := by
  have htop : USTACKTOP.toNat = 0xEEBFE000 := by decide
  rw [InStack, stackAt_toNat (by omega), htop, PGSIZE]
  omega

theorem fill_stack_spec (argv : List Str) (page : Mem) (hwords : 8 ≤ a)
    (hbelow : a + 4 * (argv.length + 1) ≤ o) (hfits : o + size argv = 4096) :
    ∃ page', fill_stack argv (temp o) (temp a) page = .ok page' ∧
      Laid argv (stackAt (a - 8)) page' := by
  obtain ⟨page₁, hrun, hcopied, -⟩ := store_args_spec argv page (a := a) (i := 0) (o := o)
    (by omega) (by omega)
  let page₂ := page₁.setWord (a + 4 * argv.length) 0
  let page₃ := page₂.setWord (a - 4) (stackAt a)
  let page₄ := page₃.setWord (a - 8) (BitVec.ofNat 32 argv.length)
  have hnull : poke page₁ (temp a + 4 * BitVec.ofNat 32 argv.length) (ia32.bytes 0) =
      .ok page₂ := by
    rw [temp_index]
    exact poke_temp (show a + 4 * argv.length + 4 ≤ 4096 by omega)
  have hend : assert_end (temp (o + size argv)) = .ok () := by
    rw [hfits]
    rfl
  have hptr : poke page₂ (temp a - 4) (ia32.bytes (UTEMP2USTACK (temp a))) = .ok page₃ := by
    rw [UTEMP2USTACK_temp]
    exact (congrArg (poke page₂ · _) (temp_sub (n := 4) (by omega))).trans
      (poke_temp (show a - 4 + 4 ≤ 4096 by omega))
  have hargc : poke page₃ (temp a - 8) (ia32.bytes (BitVec.ofNat 32 argv.length)) = .ok page₄ :=
    (congrArg (poke page₃ · _) (temp_sub (n := 8) (by omega))).trans
      (poke_temp (show a - 8 + 4 ≤ 4096 by omega))
  refine ⟨page₄, ?_, ?_⟩
  · rw [fill_stack, hrun]
    show (poke page₁ (temp a + 4 * BitVec.ofNat 32 argv.length) (ia32.bytes 0)).bind _ = _
    rw [hnull]
    show (assert_end (temp (o + size argv))).bind _ = _
    rw [hend]
    show (poke page₂ (temp a - 4) _).bind _ = _
    rw [hptr]
    exact hargc
  -- the words below leave the array and the strings alone
  have hkeep : ∀ x, a ≤ x → x < a + 4 * argv.length ∨ a + 4 * (argv.length + 1) ≤ x →
      page₄ x = page₁ x := fun x hx hx' => by
    have h₄ : page₄ x = page₃ x := Mem.setWord_out (.inr (by omega))
    have h₃ : page₃ x = page₂ x := Mem.setWord_out (.inr (by omega))
    have h₂ : page₂ x = page₁ x := Mem.setWord_out (by omega)
    rw [h₄, h₃, h₂]
  have hcopied₄ : Copied page₄ a 0 o argv :=
    hcopied.congr (fun x h₁ h₂ => hkeep x (by omega) (.inl (by omega)))
      fun x h₁ h₂ => hkeep x (by omega) (.inr (by omega))
  have hargv : argvOf page₄ (stackAt (a - 8)) = stackAt a := by
    have hadd : stackAt (a - 8) + 4 = stackAt (a - 4) := by
      rw [show a - 4 = a - 8 + 4 by omega]
      exact stackAt_add (a - 8) 4
    rw [argvOf, hadd, stackWord_stackAt (by omega)]
    exact (Mem.word_setWord_out (.inr (by omega))).trans Mem.word_setWord
  have hword : ∀ i ≤ argv.length, argAt page₄ (stackAt (a - 8)) i = page₄.word (a + 4 * i) := by
    intro i hi
    rw [argAt, hargv, stackAt_add, stackWord_stackAt (by omega)]
  have harg : ∀ i < argv.length,
      argAt page₄ (stackAt (a - 8)) i = stackAt (o + size (argv.take i)) := by
    intro i hi
    have hp := hcopied₄.pointer i hi
    rw [Nat.zero_add] at hp
    rw [hword i hi.le, hp]
  have hlt : ∀ {i : Nat} {arg : Str}, argv[i]? = some arg → i < argv.length := fun hi =>
    (List.getElem?_eq_some_iff.mp hi).1
  exact {
    argc := by
      rw [stackWord_stackAt (by omega)]
      exact Mem.word_setWord
    null := by
      rw [hword _ le_rfl]
      have h₄ : page₄.word (a + 4 * argv.length) = page₃.word (a + 4 * argv.length) :=
        Mem.word_setWord_out (.inr (by omega))
      have h₃ : page₃.word (a + 4 * argv.length) = page₂.word (a + 4 * argv.length) :=
        Mem.word_setWord_out (.inr (by omega))
      rw [h₄, h₃]
      exact Mem.word_setWord
    string := fun i arg hi => by
      have hle := size_take_le hi
      rw [harg i (hlt hi), stackBytes, stackAt_sub (by omega)]
      exact hcopied₄.string i arg hi
    esp_in := inStack_stackAt (by omega)
    argv_in := by
      rw [hargv]
      exact inStack_stackAt (by omega)
    string_in := fun i arg hi => by
      have hle := size_take_le hi
      rw [harg i (hlt hi)]
      exact inStack_stackAt (by omega)
    esp_apart := by
      rw [hargv, stackAt_toNat (by omega), stackAt_toNat (by omega)]
      omega
    argv_apart := fun i hi => by
      have hle := size_take_total argv i
      rw [hargv, harg i hi, stackAt_toNat (by omega), stackAt_toNat (by omega)]
      omega
    strings_apart := fun i j arg hi hij hj => by
      have hle := size_take_mono hi hij
      have hle' := size_take_total argv j
      rw [harg i (hlt hi), harg j hj, stackAt_toNat (by omega), stackAt_toNat (by omega)]
      omega }

/-! ## Where the page is filled -/

/-- The strings, the array and the two words have room in a page. -/
def Fits (argv : List Str) : Prop := size argv + 4 * (argv.length + 3) ≤ PGSIZE

instance : Decidable (Fits argv) := inferInstanceAs (Decidable (_ ≤ _))

theorem string_store_toNat (hsize : size argv + 4 * (argv.length + 4) ≤ 2 ^ 22) :
    (string_store argv).toNat = 0x401000 - size argv := by
  have htop : UTEMP + 0x1000 = 0x401000#32 := rfl
  have hlt : size argv < 2 ^ 32 := by omega
  rw [string_store, htop, string_size_eq, BitVec.toNat_sub_of_le, BitVec.toNat_ofNat,
    BitVec.toNat_ofNat, Nat.mod_eq_of_lt hlt]
  rw [BitVec.le_def, BitVec.toNat_ofNat, BitVec.toNat_ofNat, Nat.mod_eq_of_lt hlt]
  omega

theorem argv_store_toNat (hsize : size argv + 4 * (argv.length + 4) ≤ 2 ^ 22) :
    (argv_store argv).toNat = (0x401000 - size argv) / 4 * 4 - 4 * (argv.length + 1) := by
  have hstring := string_store_toNat hsize
  have hmul : (4 * BitVec.ofNat 32 (argv.length + 1) : Word).toNat = 4 * (argv.length + 1) := by
    rw [BitVec.toNat_mul, BitVec.toNat_ofNat, show (4 : Word).toNat = 4 from rfl]
    omega
  have hmod : (string_store argv % 4).toNat = (0x401000 - size argv) % 4 := by
    rw [BitVec.toNat_umod, hstring]
    rfl
  have hround : (string_store argv - string_store argv % 4).toNat =
      (0x401000 - size argv) / 4 * 4 := by
    rw [BitVec.toNat_sub_of_le (by rw [BitVec.le_def, hmod, hstring]; omega), hmod, hstring]
    omega
  rw [argv_store, BitVec.toNat_sub_of_le (by rw [BitVec.le_def, hmul, hround]; omega), hmul, hround]

/-- The test of `init_stack`. -/
theorem argv_store_lt (hsize : size argv + 4 * (argv.length + 4) ≤ 2 ^ 22) :
    argv_store argv - 8 < UTEMP ↔ ¬ Fits argv := by
  have hargv := argv_store_toNat hsize
  have height : (8 : Word).toNat = 8 := rfl
  have htemp : UTEMP.toNat = 0x400000 := rfl
  rw [BitVec.lt_def, BitVec.toNat_sub_of_le (by rw [BitVec.le_def, hargv, height]; omega), hargv,
    height, htemp, Fits, PGSIZE]
  omega

theorem string_store_eq (hfits : Fits argv) : string_store argv = temp (4096 - size argv) := by
  rw [Fits, PGSIZE] at hfits
  apply BitVec.eq_of_toNat_eq
  rw [string_store_toNat (by omega), temp_toNat (by omega), show UTEMP.toNat = 0x400000 from rfl]
  omega

theorem argv_store_eq (hfits : Fits argv) :
    argv_store argv = temp ((4096 - size argv) / 4 * 4 - 4 * (argv.length + 1)) := by
  rw [Fits, PGSIZE] at hfits
  apply BitVec.eq_of_toNat_eq
  rw [argv_store_toNat (by omega), temp_toNat (by omega), show UTEMP.toNat = 0x400000 from rfl]
  omega

/-! ## The call -/

section

variable {w : World} {s : State} {c : Child}

theorem checked_of_le {num : Nat} {ret : Int} (h : ret ≤ 0) : checked num ret s = .ok ret s := by
  rw [checked, lib_syscall, if_neg (fun hpos => by omega)]
  rfl

theorem checked_of_pos (num : Nat) {ret : Int} (h : 0 < ret) :
    ∃ msg, checked num ret s = .error (.panic msg) s := by
  rw [checked, lib_syscall, if_pos ⟨rfl, h⟩]
  exact ⟨_, rfl⟩

/-- The caller after one more call. -/
def State.tick (s : State) : State := { s with calls := s.calls + 1 }

theorem sys_page_alloc_temp_zero (h : w.answers s.calls = 0) :
    sys_page_alloc_temp w s = .ok 0 { s.tick with utemp := some fun _ => 0 } := by
  have hanswer : answer w s = .ok 0 s.tick := by rw [answer, h]; rfl
  rw [sys_page_alloc_temp, bind_ok hanswer, bind_ok (checked_of_le le_rfl)]
  rfl

theorem sys_page_alloc_temp_neg (h : w.answers s.calls < 0) :
    sys_page_alloc_temp w s = .ok (w.answers s.calls) s.tick := by
  have hanswer : answer w s = .ok (w.answers s.calls) s.tick := rfl
  rw [sys_page_alloc_temp, bind_ok hanswer, bind_ok (checked_of_le h.le), if_pos h]
  rfl

theorem sys_page_alloc_temp_pos (h : 0 < w.answers s.calls) :
    ∃ msg, sys_page_alloc_temp w s = .error (.panic msg) s.tick := by
  have hanswer : answer w s = .ok (w.answers s.calls) s.tick := rfl
  obtain ⟨msg, hmsg⟩ := checked_of_pos (s := s.tick) 4 h
  exact ⟨msg, by rw [sys_page_alloc_temp, bind_ok hanswer, bind_error hmsg]⟩

theorem add_page_some {p : Mapping} (hchild : s.child = some c) :
    add_page p s = .ok ⟨⟩ { s with child := some { c with pages := p :: c.pages } } := by
  rw [add_page, stateful.modify_run, hchild]
  rfl

theorem sys_page_map_some (va perm : Word) {page : Mem} (hpage : s.utemp = some page)
    (hva : va < UTOP) (hchild : s.child = some c) :
    sys_page_map w va perm s =
      if w.answers s.calls < 0 then .ok (w.answers s.calls) s.tick
      else .ok 0 { s.tick with child := some { c with pages := ⟨va, perm, page⟩ :: c.pages } } := by
  have hanswer : answer w s = .ok (w.answers s.calls) s.tick := rfl
  have hutemp : s.tick.utemp = some page := hpage
  have hlow : ¬ UTOP ≤ va := fun hle => BitVec.lt_irrefl _ (Nat.lt_of_lt_of_le hva hle)
  rw [sys_page_map, bind_ok hanswer, bind_ok stateful.get_run, hutemp, map_page, if_neg hlow]
  split
  · rfl
  · exact bind_ok (add_page_some (s := s.tick) hchild)

/-- The child gets its arguments, or `init_stack` returns an error and maps nothing;
and if there is memory it succeeds exactly if all fits in the page. -/
def Passes (w : World) (argv : List Str) (s : State) (c : Child) : Prop :=
  ∃ r esp s', init_stack w argv s = .ok (r, esp) s' ∧
    (r < 0 ∧ s'.child = some c ∨ r = 0 ∧ ∃ page, Laid argv esp page ∧
      s'.child = some { c with pages := ⟨USTACKTOP - 0x1000, STACKPERM, page⟩ :: c.pages }) ∧
    (w.answers s.calls = 0 → 0 ≤ w.answers (s.calls + 1) → (r = 0 ↔ Fits argv))

theorem fill_temp_ok {page page' : Mem} {string_store argv_store : Word}
    (hpage : s.utemp = some page)
    (hfill : fill_stack argv string_store argv_store page = .ok page') :
    fill_temp argv string_store argv_store s = .ok ⟨⟩ { s with utemp := some page' } := by
  rw [fill_temp, bind_ok stateful.get_run, hpage]
  dsimp only
  rw [hfill]
  rfl

theorem map_stack_spec {page : Mem} (hfits : Fits argv) (hpage : s.utemp = some page)
    (hchild : s.child = some c) :
    ∃ esp page', Laid argv esp page' ∧ map_stack w argv s =
      if w.answers s.calls < 0 then .ok (w.answers s.calls, esp) { s.tick with utemp := none }
      else .ok (0, esp) { s.tick with
        utemp := none
        child := some { c with
          pages := ⟨USTACKTOP - 0x1000, STACKPERM, page'⟩ :: c.pages } } := by
  have hroom := hfits
  rw [Fits, PGSIZE] at hroom
  obtain ⟨page', hfill, hlaid⟩ := fill_stack_spec argv page
    (a := (4096 - size argv) / 4 * 4 - 4 * (argv.length + 1)) (o := 4096 - size argv)
    (by omega) (by omega) (by omega)
  rw [← string_store_eq hfits, ← argv_store_eq hfits] at hfill
  have hmap := sys_page_map_some (w := w) (s := { s with utemp := some page' })
    (USTACKTOP - 0x1000) STACKPERM rfl (by decide) hchild
  refine ⟨_, page', hlaid, ?_⟩
  have hesp : UTEMP2USTACK (argv_store argv - 8) =
      stackAt ((4096 - size argv) / 4 * 4 - 4 * (argv.length + 1) - 8) := by
    rw [argv_store_eq hfits, ← UTEMP2USTACK_temp]
    exact congrArg UTEMP2USTACK (temp_sub (n := 8) (by omega))
  rw [map_stack, bind_ok (fill_temp_ok hpage hfill), hesp]
  split <;> rename_i hneg
  · rw [if_pos hneg] at hmap
    rw [bind_ok hmap]
    rfl
  · rw [if_neg hneg] at hmap
    rw [bind_ok hmap]
    rfl

/-- `init_stack` with a page. -/
theorem init_stack_zero (hfits : Fits argv) (hzero : w.answers s.calls = 0) :
    init_stack w argv s = map_stack w argv { s.tick with utemp := some fun _ => 0 } := by
  have hroom := hfits
  rw [Fits, PGSIZE] at hroom
  have hlow : ¬ argv_store argv - 8 < UTEMP := fun hlt =>
    (argv_store_lt (by omega)).mp hlt hfits
  rw [init_stack, if_neg hlow, bind_ok (sys_page_alloc_temp_zero hzero)]
  rfl

/-- `init_stack` passes the arguments to the child, exactly if they do not fit or
`sys_page_alloc` has a page or returns an error with its sign. -/
theorem arguments_survive_spawn (hsize : size argv + 4 * (argv.length + 4) ≤ 2 ^ 22)
    (hchild : s.child = some c) :
    Passes w argv s c ↔ ¬ Fits argv ∨ w.answers s.calls ≤ 0 := by
  have htest := argv_store_lt hsize
  by_cases hfits : Fits argv
  · have hlow : ¬ argv_store argv - 8 < UTEMP := fun hlt => htest.mp hlt hfits
    rcases lt_trichotomy (w.answers s.calls) 0 with hneg | hzero | hpos
    · refine iff_of_true ⟨w.answers s.calls, 0, s.tick, ?_, .inl ⟨hneg, hchild⟩, ?_⟩ (.inr hneg.le)
      · rw [init_stack, if_neg hlow, bind_ok (sys_page_alloc_temp_neg hneg), if_pos hneg]
        rfl
      · exact fun h => absurd h hneg.ne
    · obtain ⟨esp, page, hlaid, hrun⟩ := map_stack_spec (w := w) hfits
        (s := { s.tick with utemp := some fun _ => 0 }) rfl hchild
      have hinit := init_stack_zero hfits hzero
      refine iff_of_true ?_ (.inr hzero.le)
      rw [hrun] at hinit
      split at hinit <;> rename_i hmap
      · refine ⟨_, _, _, hinit, .inl ⟨hmap, hchild⟩, fun _ hle => ?_⟩
        exact absurd hmap (not_lt.mpr hle)
      · exact ⟨_, _, _, hinit, .inr ⟨rfl, page, hlaid, rfl⟩, fun _ _ => iff_of_true rfl hfits⟩
    · refine iff_of_false ?_ (fun h => h.elim (fun hno => hno hfits) (not_le.mpr hpos))
      rintro ⟨r, esp, s', hrun, -⟩
      obtain ⟨msg, hmsg⟩ := sys_page_alloc_temp_pos hpos
      rw [init_stack, if_neg hlow, bind_error hmsg] at hrun
      cases hrun
  · refine iff_of_true ⟨-E_NO_MEM, 0, s, ?_, .inl ⟨by decide, hchild⟩, fun _ _ => ?_⟩ (.inl hfits)
    · rw [init_stack, if_pos (htest.mpr hfits)]
      rfl
    · exact iff_of_false (by decide) hfits

end

/-- A file with nothing in it. -/
def emptyFile : File where
  read _ _ := .ok []
  length_le := by rintro _ n _ ⟨⟩; exact Nat.zero_le n
  neg := by rintro _ _ _ ⟨⟩

/-- Every call is answered alike. -/
def always (r : Int) : World := ⟨fun _ => r, emptyFile⟩

/-- A caller that has just made a child. -/
def forked : State := ⟨fun _ => none, none, some ⟨[], 0, 0, false⟩, 0, [], none⟩

theorem arguments_survive_spawn_one : Passes (always 0) [[97]] forked ⟨[], 0, 0, false⟩ :=
  (arguments_survive_spawn (by decide) rfl).mpr (.inr (by decide))

/-- Without memory, the stub panics on the answer of the kernel. -/
theorem stack_panics_without_memory :
    init_stack (always E_NO_MEM) [[97]] forked =
      .error (.panic "syscall 4 returned 4 (> 0)") forked.tick ∧
    ¬ Passes (always E_NO_MEM) [[97]] forked ⟨[], 0, 0, false⟩ := by
  have hrun : init_stack (always E_NO_MEM) [[97]] forked =
      .error (.panic "syscall 4 returned 4 (> 0)") forked.tick := rfl
  refine ⟨hrun, ?_⟩
  rintro ⟨r, esp, s', hok, -⟩
  rw [hrun] at hok
  cases hok

end jos.program
