-- The memory routines of lib/string.c: memset and memmove with the string instructions
-- (ASM), which take double words where the addresses and the length allow it, and the
-- byte loops they stand for. All of them give the bytes that were in the source before
-- the call, however the two ranges overlap.
import Jos.Lib.StringOps

namespace jos.memory

open string_ops

/-! ## With the string instructions -/

namespace asm

/-- `memset`; `%` on the pointer is that of int. -/
def memset (m : Mem 32) (v c n : BitVec 32) : Mem 32 :=
  if n = 0 then m
  else if v.toInt.tmod 4 = 0 ∧ n % 4 = 0 then
    let c := c &&& 0xFF
    let c := (c <<< 24) ||| (c <<< 16) ||| (c <<< 8) ||| c
    repStos (stosl c) 4 (n / 4).toNat v m
  else
    -- stosb stores the low byte of eax
    repStos (stosb (c.setWidth 8)) 1 n.toNat v m

/-- `memmove`; with the direction flag set the pointers go down. -/
def memmove (m : Mem 32) (dst src n : BitVec 32) : Mem 32 :=
  let s := src
  let d := dst
  if s < d ∧ s + n > d then
    let s := s + n
    let d := d + n
    if s.toInt.tmod 4 = 0 ∧ d.toInt.tmod 4 = 0 ∧ n % 4 = 0 then
      repMovs movsl (-4) (n / 4).toNat (d - 4) (s - 4) m
    else
      repMovs movsb (-1) n.toNat (d - 1) (s - 1) m
  else if s.toInt.tmod 4 = 0 ∧ d.toInt.tmod 4 = 0 ∧ n % 4 = 0 then
    repMovs movsl 4 (n / 4).toNat d s m
  else
    repMovs movsb 1 n.toNat d s m

end asm

/-! ## The byte loops -/

/-- `*p++ = c` -/
def set_up (c : BitVec 8) : Nat → BitVec 32 → Mem 32 → Mem 32
  | 0, _, m => m
  | n + 1, p, m => set_up c n (p + 1) (Function.update m p c)

/-- `*d++ = *s++` -/
def copy_up : Nat → BitVec 32 → BitVec 32 → Mem 32 → Mem 32
  | 0, _, _, m => m
  | n + 1, d, s, m => copy_up n (d + 1) (s + 1) (Function.update m d (m s))

/-- `*--d = *--s` -/
def copy_down : Nat → BitVec 32 → BitVec 32 → Mem 32 → Mem 32
  | 0, _, _, m => m
  | n + 1, d, s, m => copy_down n (d - 1) (s - 1) (Function.update m (d - 1) (m (s - 1)))

/-- `memset`; the count is an int, so a negative one makes no turn. -/
def memset (m : Mem 32) (v c n : BitVec 32) : Mem 32 := set_up (c.setWidth 8) n.toInt.toNat v m

def memmove (m : Mem 32) (dst src n : BitVec 32) : Mem 32 :=
  if src < dst ∧ src + n > dst then copy_down n.toNat (dst + n) (src + n) m
  else copy_up n.toNat dst src m

variable {m : Mem 32} {d s v c n : BitVec 32} {k : Nat}

theorem set_up_eq (b : BitVec 8) : set_up b k d m = repStos (stosb b) 1 k d m := by
  induction k generalizing d m with
  | zero => rfl
  | succ k ih => exact ih

theorem copy_up_eq : copy_up k d s m = repMovs movsb 1 k d s m := by
  induction k generalizing d s m with
  | zero => rfl
  | succ k ih => exact ih

theorem copy_down_eq : copy_down k d s m = repMovs movsb (-1) k (d - 1) (s - 1) m := by
  induction k generalizing d s m with
  | zero => rfl
  | succ k ih =>
    rw [copy_down, ih, repMovs, ← BitVec.sub_eq_add_neg, ← BitVec.sub_eq_add_neg]
    rfl

/-! ## Units -/

/-- A pointer whose signed remainder is zero is a multiple of four. -/
theorem aligned_iff (x : BitVec 32) : x.toInt.tmod 4 = 0 ↔ x.toNat % 4 = 0 := by
  rw [← Int.dvd_iff_tmod_eq_zero, BitVec.toInt_eq_toNat_cond]
  split <;> omega

theorem multiple_iff : n % 4 = 0 ↔ n.toNat % 4 = 0 := by
  rw [← BitVec.toNat_inj, BitVec.toNat_umod]
  rfl

theorem repMovs_bytes (δ : BitVec 32) :
    repMovs movsb δ k d s m = repMovs (copied · · · 1) δ k d s m :=
  repMovs_congr (fun _ => True) (fun _ _ => trivial) (fun _ _ _ _ _ => movsb_eq) trivial trivial

theorem aligned_end (h : d.toNat % 4 = 0) : d.toNat + 3 < 2 ^ 32 := by
  have := d.isLt
  omega

theorem repMovs_words {δ : BitVec 32} (hδ : δ.toNat % 4 = 0) (hd : d.toNat % 4 = 0)
    (hs : s.toNat % 4 = 0) : repMovs movsl δ k d s m = repMovs (copied · · · 4) δ k d s m := by
  refine repMovs_congr (fun x => x.toNat % 4 = 0) ?_ (fun _ _ _ hd _ => movsl_eq (aligned_end hd))
    hd hs
  intro x hx
  rw [BitVec.toNat_add]
  omega

theorem repStos_words (b : BitVec 8) (hd : d.toNat % 4 = 0) :
    repStos (stosl (wordOf fun _ => b)) 4 k d m = repStos (filled · · b 4) 4 k d m := by
  refine repStos_congr (fun x => x.toNat % 4 = 0) ?_ (fun _ _ hd => stosl_eq (aligned_end hd)) hd
  intro x hx
  rw [BitVec.toNat_add]
  have : (4 : BitVec 32).toNat = 4 := rfl
  omega

theorem repStos_bytes (b : BitVec 8) :
    repStos (stosb b) 1 k d m = repStos (filled · · b 1) 1 k d m :=
  repStos_congr (fun _ => True) (fun _ _ => trivial) (fun _ _ _ => stosb_eq) trivial

/-- The value that `memset` makes of the byte. -/
theorem broadcast_eq : ((c &&& 0xFF) <<< 24) ||| ((c &&& 0xFF) <<< 16) ||| ((c &&& 0xFF) <<< 8) |||
    (c &&& 0xFF) = wordOf fun _ => c.setWidth 8 := by
  have hlow : (c.setWidth 8).setWidth 32 = c &&& 0xFF := by
    apply BitVec.eq_of_toNat_eq
    rw [BitVec.toNat_setWidth, BitVec.toNat_setWidth, BitVec.toNat_and]
    have := Nat.and_two_pow_sub_one_eq_mod c.toNat 8
    have h255 : (0xFF : BitVec 32).toNat = 2 ^ 8 - 1 := rfl
    rw [h255, this]
    omega
  rw [wordOf, hlow]

/-! ## What the routines leave -/

/-- The units of a whole range. -/
theorem words_length (h : n % 4 = 0) : (n / 4).toNat * 4 = n.toNat := by
  have := multiple_iff.mp h
  have hdiv : (n / 4).toNat = n.toNat / 4 := BitVec.toNat_udiv
  omega

theorem copies_up (hd : d.toNat + n.toNat < 2 ^ 32) (hs : s.toNat + n.toNat < 2 ^ 32)
    (hsafe : d.toNat ≤ s.toNat ∨ s.toNat + n.toNat ≤ d.toNat) :
    repMovs movsb 1 n.toNat d s m = copied m d s n.toNat := by
  have hlen : n.toNat * 1 = n.toNat := Nat.mul_one _
  have hcopy := repMovs_up (m := m) (w := 1) (n := n.toNat) (d := d) (s := s) (by omega)
    (by omega) (by omega)
  rw [hlen] at hcopy
  rw [repMovs_bytes]
  exact hcopy

theorem copies_words_up (hn : n % 4 = 0) (had : d.toNat % 4 = 0) (has : s.toNat % 4 = 0)
    (hd : d.toNat + n.toNat < 2 ^ 32) (hs : s.toNat + n.toNat < 2 ^ 32)
    (hsafe : d.toNat ≤ s.toNat ∨ s.toNat + n.toNat ≤ d.toNat) :
    repMovs movsl 4 (n / 4).toNat d s m = copied m d s n.toNat := by
  have hlen := words_length hn
  rw [repMovs_words rfl had has, ← hlen]
  exact repMovs_up (by omega) (by omega) (by omega)

theorem copies_down (hd : d.toNat + n.toNat < 2 ^ 32) (hs : s.toNat + n.toNat < 2 ^ 32)
    (hsafe : s.toNat ≤ d.toNat) :
    repMovs movsb (-1) n.toNat (d + n - 1) (s + n - 1) m = copied m d s n.toNat := by
  have hlen : n.toNat * 1 = n.toNat := Nat.mul_one _
  have hn : n = BitVec.ofNat 32 (n.toNat * 1) := by rw [hlen, BitVec.ofNat_toNat, BitVec.setWidth_eq]
  have hcopy := repMovs_down (m := m) (w := 1) (n := n.toNat) (d := d) (s := s) (by omega)
    (by omega) hsafe
  rw [← hn, hlen] at hcopy
  rw [repMovs_bytes]
  exact hcopy

theorem copies_words_down (hn : n % 4 = 0) (had : (d + n).toNat % 4 = 0)
    (has : (s + n).toNat % 4 = 0) (hd : d.toNat + n.toNat < 2 ^ 32)
    (hs : s.toNat + n.toNat < 2 ^ 32) (hsafe : s.toNat ≤ d.toNat) :
    repMovs movsl (-4) (n / 4).toNat (d + n - 4) (s + n - 4) m = copied m d s n.toNat := by
  have hlen := words_length hn
  have hn' : n = BitVec.ofNat 32 ((n / 4).toNat * 4) := by
    rw [hlen, BitVec.ofNat_toNat, BitVec.setWidth_eq]
  have hback : ∀ x : BitVec 32, x.toNat % 4 = 0 → (x - 4).toNat % 4 = 0 := by
    intro x hx
    rw [BitVec.toNat_sub]
    have : (4 : BitVec 32).toNat = 4 := rfl
    omega
  have hcopy := repMovs_down (m := m) (w := 4) (n := (n / 4).toNat) (d := d) (s := s) (by omega)
    (by omega) hsafe
  rw [← hn', hlen] at hcopy
  rw [repMovs_words rfl (hback _ had) (hback _ has)]
  exact hcopy

/-- The test of both forms: the destination begins inside the source. -/
theorem overlap_iff (hs : s.toNat + n.toNat < 2 ^ 32) :
    (s < d ∧ s + n > d) ↔ s.toNat < d.toNat ∧ d.toNat < s.toNat + n.toNat := by
  rw [BitVec.lt_def, gt_iff_lt, BitVec.lt_def, BitVec.toNat_add, Nat.mod_eq_of_lt hs]

theorem asm_memmove_eq (hd : d.toNat + n.toNat < 2 ^ 32) (hs : s.toNat + n.toNat < 2 ^ 32) :
    asm.memmove m d s n = copied m d s n.toNat := by
  simp only [asm.memmove, overlap_iff hs, aligned_iff]
  split
  · rename_i hover
    split
    · rename_i hw
      exact copies_words_down hw.2.2 hw.2.1 hw.1 hd hs (by omega)
    · exact copies_down hd hs (by omega)
  · rename_i hover
    split
    · rename_i hw
      exact copies_words_up hw.2.2 hw.2.1 hw.1 hd hs (by omega)
    · exact copies_up hd hs (by omega)

theorem memmove_eq (hd : d.toNat + n.toNat < 2 ^ 32) (hs : s.toNat + n.toNat < 2 ^ 32) :
    memmove m d s n = copied m d s n.toNat := by
  simp only [memmove, overlap_iff hs]
  split
  · rw [copy_down_eq]
    exact copies_down hd hs (by omega)
  · rw [copy_up_eq]
    exact copies_up hd hs (by omega)

theorem fills (b : BitVec 8) (hd : d.toNat + k < 2 ^ 32) :
    repStos (stosb b) 1 k d m = filled m d b k := by
  have hlen : k * 1 = k := Nat.mul_one _
  have hfill := repStos_eq (m := m) (b := b) (w := 1) (n := k) (d := d) (by omega)
  rw [hlen] at hfill
  rw [repStos_bytes]
  exact hfill

theorem asm_memset_eq (hd : d.toNat + n.toNat < 2 ^ 32) :
    asm.memset m d c n = filled m d (c.setWidth 8) n.toNat := by
  simp only [asm.memset, aligned_iff, broadcast_eq]
  split
  · rename_i hzero
    rw [hzero]
    exact filled_zero.symm
  · split
    · rename_i hw
      have hlen := words_length hw.2
      rw [repStos_words _ hw.1, ← hlen]
      exact repStos_eq (by omega)
    · exact fills _ hd

theorem memset_eq (hn : n.toNat < 2 ^ 31) (hd : d.toNat + n.toNat < 2 ^ 32) :
    memset m d c n = filled m d (c.setWidth 8) n.toNat := by
  have hcount : n.toInt.toNat = n.toNat := by
    rw [BitVec.toInt_eq_toNat_of_lt (by omega), Int.toNat_natCast]
  rw [memset, hcount, set_up_eq, fills _ hd]

/-- The routines with string instructions do what the byte loops do: a move leaves the old
bytes of the source at the destination and nothing else changed, however the ranges lie. -/
theorem string_instructions_match_byte_loops (n : BitVec 32) (hn : n.toNat < 2 ^ 31) :
    (∀ (m : Mem 32) (dst src : BitVec 32), src.toNat + n.toNat < 2 ^ 32 →
      dst.toNat + n.toNat < 2 ^ 32 →
      (∀ i < n.toNat, asm.memmove m dst src n (dst + BitVec.ofNat 32 i) =
        m (src + BitVec.ofNat 32 i)) ∧
      (∀ a, (a.toNat < dst.toNat ∨ dst.toNat + n.toNat ≤ a.toNat) →
        asm.memmove m dst src n a = m a) ∧
      asm.memmove m dst src n = memmove m dst src n) ∧
    ∀ (m : Mem 32) (v c : BitVec 32), v.toNat + n.toNat < 2 ^ 32 →
      asm.memset m v c n = memset m v c n := by
  constructor
  · intro m dst src hs hd
    have hcopied := asm_memmove_eq (m := m) hd hs
    refine ⟨?_, ?_, hcopied.trans (memmove_eq hd hs).symm⟩
    · intro i hi
      have hin : InRange dst n.toNat (dst + BitVec.ofNat 32 i) := by
        rw [InRange, toNat_add_ofNat (by omega)]
        omega
      rw [hcopied, copied, if_pos hin, BitVec.add_comm dst, BitVec.add_sub_cancel]
    · intro a ha
      have hout : ¬ InRange dst n.toNat a := by
        rw [InRange]
        omega
      rw [hcopied, copied, if_neg hout]
  · intro m v c hv
    rw [asm_memset_eq hv, memset_eq hn hv]

/-- Eight bytes that move up by four, by double words from the end. -/
theorem string_instructions_match_byte_loops_overlap : ∃ m : Mem 32,
    asm.memmove m 0x1004 0x1000 8 (0x1004 + BitVec.ofNat 32 5) = m (0x1000 + BitVec.ofNat 32 5) ∧
    asm.memmove m 0x1004 0x1000 8 = memmove m 0x1004 0x1000 8 ∧
    asm.memset m 0x1001 0x1FF 3 = memset m 0x1001 0x1FF 3 :=
  ⟨fun a => a.setWidth 8,
    ((string_instructions_match_byte_loops 8 (by decide)).1 _ 0x1004 0x1000 (by decide)
      (by decide)).1 5 (by decide),
    ((string_instructions_match_byte_loops 8 (by decide)).1 _ 0x1004 0x1000 (by decide)
      (by decide)).2.2,
    (string_instructions_match_byte_loops 3 (by decide)).2 _ 0x1001 0x1FF (by decide)⟩

end jos.memory
