-- Programs over a cache that run to their end: what has to be in memory for a
-- program of loads, how a fault brings a page in, and which flushes are made
-- on the way.
import Jos.Lib.BlockStore

namespace blockstore

open ia32 (Byte Word)

variable {ε α β : Type} {P : Pager ε} {R : Nat → Cache → Prop} {c c₁ : Cache} {a n : Nat} {r : α}
  {Q Q' : α → Cache → Prop} {p : Prog ε α}

/-- The program runs to its end and leaves what it should, and every flush on the way finds a
cache as it should. -/
def Pager.Goes (P : Pager ε) (R : Nat → Cache → Prop) (Q : α → Cache → Prop) :
    Prog ε α → Cache → Prop
  | .ret a, c => Q a c
  | .panic _, _ => False
  | .load a n k, c => ∃ c₁, P.touchAll a n c = .ok c₁ ∧ Goes P R Q (k (c₁.mem.load a n)) c₁
  | .store a bs k, c => ∃ c₁, P.touchAll a bs.length c = .ok c₁ ∧ Goes P R Q k (c₁.wrote a bs)
  | .flush a k, c => R a c ∧ ∃ c₁, P.flush a c = .ok c₁ ∧ Goes P R Q k c₁

theorem Pager.goes_bind {f : α → Prog ε β} {Q : β → Cache → Prop} :
    P.Goes R Q (p >>= f) c ↔ P.Goes R (fun r c₁ => P.Goes R Q (f r) c₁) p c := by
  change P.Goes R Q (p.bind f) c ↔ _
  induction p generalizing c with
  | ret a => exact Iff.rfl
  | panic e => exact Iff.rfl
  | load a n k ih => exact exists_congr fun c₁ => and_congr_right fun _ => ih _
  | store a bs k ih => exact exists_congr fun c₁ => and_congr_right fun _ => ih
  | flush a k ih =>
    exact and_congr_right fun _ => exists_congr fun c₁ => and_congr_right fun _ => ih

theorem Pager.Goes.mono (h : P.Goes R Q p c) (hQ : ∀ r c', Q r c' → Q' r c') :
    P.Goes R Q' p c := by
  induction p generalizing c with
  | ret a => exact hQ a c h
  | panic e => exact h
  | load a n k ih =>
    obtain ⟨c₁, h₁, h⟩ := h
    exact ⟨c₁, h₁, ih _ h⟩
  | store a bs k ih =>
    obtain ⟨c₁, h₁, h⟩ := h
    exact ⟨c₁, h₁, ih h⟩
  | flush a k ih =>
    obtain ⟨hR, c₁, h₁, h⟩ := h
    exact ⟨hR, c₁, h₁, ih h⟩

/-! ## Loads and stores in pages that are in memory -/

/-- A program of loads that finds all its pages in memory. -/
def Prog.Cached (c : Cache) : Prog ε α → Prop
  | .ret _ => True
  | .panic _ => True
  | .load a n k => (∀ i < n, c.mapped ((a + i) / 4096) = true) ∧ Cached c (k (c.view.load a n))
  | .store .. => False
  | .flush .. => False

theorem Prog.Cached.bind {f : α → Prog ε β} (hp : p.Cached c)
    (hf : ∀ r m, p.flat c.view = .ok (r, m) → (f r).Cached c) : (p >>= f).Cached c := by
  change (p.bind f).Cached c
  induction p with
  | ret a => exact hf a c.view rfl
  | panic e => trivial
  | load a n k ih => exact ⟨hp.1, ih _ hp.2 hf⟩
  | store a bs k ih => exact hp.elim
  | flush a k ih => exact hp.elim

/-- Such a program is a program over plain memory, and leaves the cache alone. -/
theorem Pager.run_cached (h : p.Cached c) : P.run p c = (p.flat c.view).map fun r => (r.1, c) := by
  induction p with
  | ret a => rfl
  | panic e => rfl
  | load a n k ih =>
    rw [Pager.run, Pager.touchAll_of_mapped h.1]
    show P.run (k (c.mem.load a n)) c = _
    rw [Pager.load_view h.1]
    exact ih _ h.2
  | store a bs k ih => exact h.elim
  | flush a k ih => exact h.elim

theorem Pager.goes_cached {m : Mem} (h : p.Cached c) (hflat : p.flat c.view = .ok (r, m)) :
    P.Goes R Q p c ↔ Q r c := by
  induction p with
  | ret a =>
    cases hflat
    exact Iff.rfl
  | panic e => cases hflat
  | load a n k ih =>
    rw [← ih _ h.2 hflat, Pager.Goes, Pager.touchAll_of_mapped h.1]
    constructor
    · rintro ⟨c₁, h₁, hgo⟩
      cases h₁
      rwa [Pager.load_view h.1] at hgo
    · intro hgo
      exact ⟨c, rfl, by rwa [Pager.load_view h.1]⟩
  | store a bs k ih => exact h.elim
  | flush a k ih => exact h.elim

theorem page_of_word (hword : a % 4096 + 4 ≤ 4096) (h : c.mapped (a / 4096) = true) :
    ∀ i < 4, c.mapped ((a + i) / 4096) = true := by
  intro i hi
  rw [show (a + i) / 4096 = a / 4096 by omega]
  exact h

theorem cached_loadWord (h : c.mapped (a / 4096) = true) (hword : a % 4096 + 4 ≤ 4096) :
    (Prog.loadWord a : Prog ε Word).Cached c := ⟨page_of_word hword h, trivial⟩

theorem Pager.goes_storeWord {w : Word} {Q : Unit → Cache → Prop}
    (h : c.mapped (a / 4096) = true) (hword : a % 4096 + 4 ≤ 4096) :
    P.Goes R Q (Prog.storeWord a w) c ↔ Q () (c.wrote a (ia32.bytes w)) := by
  have htouch : P.touchAll a (ia32.bytes w).length c = .ok c :=
    Pager.touchAll_of_mapped (page_of_word hword h)
  rw [Prog.storeWord, Pager.Goes, htouch]
  constructor
  · rintro ⟨c₁, h₁, hgo⟩
    cases h₁
    exact hgo
  · intro hgo
    exact ⟨c, rfl, hgo⟩

/-! ## A page that is brought in -/

/-- Bytes of one page that is not in memory: the first access brings it in. -/
theorem Pager.touchAll_fault (hm : c.mapped (a / 4096) = false) (hpage : a % 4096 + n ≤ 4096)
    (hn : 0 < n) (hfault : P.fault a c = .ok c₁) (hm₁ : c₁.mapped (a / 4096) = true) :
    P.touchAll a n c = .ok c₁ := by
  unfold Pager.touchAll
  induction n with
  | zero => omega
  | succ n ih =>
    rw [loop.forUpto]
    rcases Nat.eq_zero_or_pos n with rfl | hpos
    · show P.touch (a + 0) c = .ok c₁
      rw [Nat.add_zero, Pager.touch, hm]
      exact hfault
    · rw [ih (by omega) hpos]
      show P.touch (a + n) c₁ = .ok c₁
      rw [Pager.touch, show (a + n) / 4096 = a / 4096 by omega, hm₁]
      rfl

theorem Pager.goes_loadWord_fault {Q : Word → Cache → Prop} (hm : c.mapped (a / 4096) = false)
    (hword : a % 4096 + 4 ≤ 4096) (hfault : P.fault a c = .ok c₁)
    (hm₁ : c₁.mapped (a / 4096) = true) :
    P.Goes R Q (Prog.loadWord a) c ↔ P.Goes R Q (Prog.loadWord a) c₁ := by
  have htouch : P.touchAll a 4 c = .ok c₁ := touchAll_fault hm hword (by omega) hfault hm₁
  have htouch₁ : P.touchAll a 4 c₁ = .ok c₁ :=
    touchAll_of_mapped (page_of_word hword hm₁)
  rw [Prog.loadWord, Pager.Goes, Pager.Goes, htouch, htouch₁]

end blockstore
