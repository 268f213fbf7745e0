-- Programs over a store of bytes that is kept on a disk and cached in pages.
-- A program is a tree of loads, stores and flushes. It is read twice: over
-- plain memory, and over a cache whose pages are loaded by a fault handler
-- and written back by flushes. A cache whose handler and flush are lawful
-- gives every program that does not stop the results of plain memory.
import Mathlib
import Jos.Lib.Ia32
import Jos.Lib.Loop

namespace blockstore

open ia32 (Byte Word byte bytes join join_bytes)

/-! ## Memory -/

abbrev Mem := Nat → Byte

namespace Mem

def load (m : Mem) (a n : Nat) : List Byte := (List.range n).map fun i => m (a + i)

def store (m : Mem) (a : Nat) (bs : List Byte) : Mem := fun x =>
  if a ≤ x ∧ x < a + bs.length then bs.getD (x - a) 0 else m x

/-- The word at an address, low byte first. -/
def word (m : Mem) (a : Nat) : Word := join (m a) (m (a + 1)) (m (a + 2)) (m (a + 3))

def setWord (m : Mem) (a : Nat) (w : Word) : Mem := m.store a (bytes w)

variable {m m' : Mem} {a b n x : Nat} {bs : List Byte} {w : Word}

@[simp] theorem length_load : (m.load a n).length = n := by simp [load]

theorem getElem?_load (i : Nat) (h : i < n) : (m.load a n)[i]? = some (m (a + i)) := by
  simp [load, h]

theorem load_congr (h : ∀ x, a ≤ x → x < a + n → m x = m' x) : m.load a n = m'.load a n := by
  refine List.map_congr_left fun i hi => h _ (by omega) ?_
  have := List.mem_range.mp hi
  omega

theorem store_in (h : a ≤ x) (h' : x < a + bs.length) : m.store a bs x = bs.getD (x - a) 0 :=
  if_pos ⟨h, h'⟩

theorem store_out (h : x < a ∨ a + bs.length ≤ x) : m.store a bs x = m x :=
  if_neg (by omega)

theorem store_eq_self (h : ∀ i < bs.length, some (m (a + i)) = bs[i]?) : m.store a bs = m := by
  funext x
  by_cases hx : a ≤ x ∧ x < a + bs.length
  · have hi := h (x - a) (by omega)
    rw [store_in hx.1 hx.2, List.getD_eq_getElem?_getD, ← hi, Option.getD_some,
      Nat.add_sub_cancel' hx.1]
  · exact store_out (by omega)

theorem load_store : (m.store a bs).load a bs.length = bs := by
  refine List.ext_getElem? fun i => ?_
  by_cases hi : i < bs.length
  · rw [getElem?_load i hi, store_in (by omega) (by omega), Nat.add_sub_cancel_left,
      List.getD_eq_getElem?_getD, List.getElem?_eq_getElem hi, Option.getD_some]
  · rw [List.getElem?_eq_none (by simpa using hi), List.getElem?_eq_none (by omega)]

theorem word_congr (h : ∀ x, a ≤ x → x < a + 4 → m x = m' x) : m.word a = m'.word a := by
  simp only [word, h a (by omega) (by omega), h (a + 1) (by omega) (by omega),
    h (a + 2) (by omega) (by omega), h (a + 3) (by omega) (by omega)]

theorem word_store_out (h : b + 4 ≤ a ∨ a + bs.length ≤ b) :
    (m.store a bs).word b = m.word b :=
  word_congr fun _ _ _ => store_out (by omega)

@[simp] theorem word_setWord : (m.setWord a w).word a = w := by
  have hx : ∀ i < 4, (m.setWord a w) (a + i) = (bytes w).getD i 0 := fun i hi => by
    have hlen : (bytes w).length = 4 := rfl
    rw [setWord, store_in (by omega) (by omega), Nat.add_sub_cancel_left]
  have h₀ : (m.setWord a w) a = byte w 0 := hx 0 (by omega)
  rw [word, h₀, hx 1 (by omega), hx 2 (by omega), hx 3 (by omega)]
  exact join_bytes w

theorem setWord_out (h : x < a ∨ a + 4 ≤ x) : m.setWord a w x = m x := store_out h

theorem word_setWord_out (h : b + 4 ≤ a ∨ a + 4 ≤ b) : (m.setWord a w).word b = m.word b :=
  word_store_out h

theorem word_eq_zero (h : ∀ x, a ≤ x → x < a + 4 → m x = 0) : m.word a = 0 := by
  rw [word, h a (by omega) (by omega), h (a + 1) (by omega) (by omega),
    h (a + 2) (by omega) (by omega), h (a + 3) (by omega) (by omega)]
  decide

end Mem

/-- Whether a store of `n` bytes at `a` reaches page `b`. -/
def hit (a n b : Nat) : Bool := decide (0 < n ∧ a / 4096 ≤ b ∧ b ≤ (a + n - 1) / 4096)

theorem hit_div {a n x : Nat} (h : a ≤ x) (h' : x < a + n) : hit a n (x / 4096) = true := by
  have h₁ : a / 4096 ≤ x / 4096 := Nat.div_le_div_right h
  have h₂ : x / 4096 ≤ (a + n - 1) / 4096 := Nat.div_le_div_right (by omega)
  exact decide_eq_true ⟨by omega, h₁, h₂⟩

/-! ## Programs -/

/-- A program that ends with a result of type `α`, or stops with an error of
type `ε`. -/
inductive Prog (ε α : Type)
  | ret (a : α)
  | panic (e : ε)
  | load (a n : Nat) (k : List Byte → Prog ε α)
  | store (a : Nat) (bs : List Byte) (k : Prog ε α)
  | flush (a : Nat) (k : Prog ε α)

namespace Prog

variable {ε α β : Type}

def bind : Prog ε α → (α → Prog ε β) → Prog ε β
  | ret a, f => f a
  | panic e, _ => panic e
  | load a n k, f => load a n fun bs => (k bs).bind f
  | store a bs k, f => store a bs (k.bind f)
  | flush a k, f => flush a (k.bind f)

instance : Monad (Prog ε) where
  pure := ret
  bind := bind

def loadByte (a : Nat) : Prog ε Byte := load a 1 fun bs => ret (bs.getD 0 0)

def loadBytes (a n : Nat) : Prog ε (List Byte) := load a n ret

def loadWord (a : Nat) : Prog ε Word :=
  load a 4 fun bs => ret (join (bs.getD 0 0) (bs.getD 1 0) (bs.getD 2 0) (bs.getD 3 0))

def storeBytes (a : Nat) (bs : List Byte) : Prog ε Unit := store a bs (ret ())

def storeWord (a : Nat) (w : Word) : Prog ε Unit := store a (bytes w) (ret ())

def flushAt (a : Nat) : Prog ε Unit := flush a (ret ())

/-! ## Over plain memory -/

/-- The program over plain memory: a flush does nothing. -/
def flat : Prog ε α → Mem → Except ε (α × Mem)
  | ret a, m => .ok (a, m)
  | panic e, _ => .error e
  | load a n k, m => flat (k (m.load a n)) m
  | store a bs k, m => flat k (m.store a bs)
  | flush _ k, m => flat k m

variable {m m' : Mem} {r : α} {s : β} {e : ε}

@[simp] theorem flat_pure (a : α) : flat (pure a : Prog ε α) m = .ok (a, m) := rfl

theorem flat_bind (p : Prog ε α) (f : α → Prog ε β) :
    flat (p >>= f) m = (flat p m).bind fun r => flat (f r.1) r.2 := by
  change flat (p.bind f) m = _
  induction p generalizing m with
  | ret a => rfl
  | panic e => rfl
  | load a n k ih => exact ih _
  | store a bs k ih => exact ih
  | flush a k ih => exact ih

theorem flat_bind_ok {p : Prog ε α} {f : α → Prog ε β} (h : flat p m = .ok (r, m')) :
    flat (p >>= f) m = flat (f r) m' := by
  rw [flat_bind, h]
  rfl

theorem flat_bind_error {p : Prog ε α} {f : α → Prog ε β} (h : flat p m = .error e) :
    flat (p >>= f) m = .error e := by
  rw [flat_bind, h]
  rfl

theorem flat_bind_eq_ok {p : Prog ε α} {f : α → Prog ε β} (h : flat (p >>= f) m = .ok (s, m')) :
    ∃ r m₁, flat p m = .ok (r, m₁) ∧ flat (f r) m₁ = .ok (s, m') := by
  rw [flat_bind] at h
  obtain ⟨⟨r, m₁⟩, h₁, h₂⟩ := loop.bind_eq_ok.mp h
  exact ⟨r, m₁, h₁, h₂⟩

@[simp] theorem flat_storeWord (a : Nat) (w : Word) :
    flat (storeWord a w : Prog ε Unit) m = .ok ((), m.setWord a w) := rfl

@[simp] theorem flat_loadWord_bind (a : Nat) (f : Word → Prog ε β) :
    flat (loadWord a >>= f) m = flat (f (m.word a)) m := rfl

@[simp] theorem flat_loadByte_bind (a : Nat) (f : Byte → Prog ε β) :
    flat (loadByte a >>= f) m = flat (f (m a)) m := rfl

@[simp] theorem flat_loadBytes_bind (a n : Nat) (f : List Byte → Prog ε β) :
    flat (loadBytes a n >>= f) m = flat (f (m.load a n)) m := rfl

@[simp] theorem flat_storeWord_bind (a : Nat) (w : Word) (f : Unit → Prog ε β) :
    flat (storeWord a w >>= f) m = flat (f ()) (m.setWord a w) := rfl

@[simp] theorem flat_storeBytes_bind (a : Nat) (bs : List Byte) (f : Unit → Prog ε β) :
    flat (storeBytes a bs >>= f) m = flat (f ()) (m.store a bs) := rfl

/-! ## What a program leaves on the disk -/

/-- A program of loads only. -/
inductive Reads : Prog ε α → Prop
  | ret (a : α) : Reads (ret a)
  | panic (e : ε) : Reads (panic e)
  | load (a n : Nat) (k : List Byte → Prog ε α) : (∀ bs, Reads (k bs)) → Reads (load a n k)

theorem Reads.bind {p : Prog ε α} {f : α → Prog ε β} (hp : Reads p) (hf : ∀ a, Reads (f a)) :
    Reads (p >>= f) := by
  change Reads (p.bind f)
  induction hp with
  | ret a => exact hf a
  | panic e => exact .panic e
  | load a n k _ ih => exact .load a n _ ih

theorem reads_loadWord (a : Nat) : Reads (loadWord a : Prog ε Word) :=
  .load a 4 _ fun _ => .ret _

theorem reads_pure (a : α) : Reads (pure a : Prog ε α) := .ret a

theorem Reads.flat {p : Prog ε α} (hp : Reads p) (h : flat p m = .ok (r, m')) : m' = m := by
  induction hp with
  | ret a => cases h; rfl
  | panic e => cases h
  | load a n k _ ih => exact ih _ h

/-- The blocks that are flushed after the last store to them, or that were
settled before and are not stored to. -/
def settled : Prog ε α → Mem → Set Nat → Set Nat
  | ret _, _, S => S
  | panic _, _, S => S
  | load a n k, m, S => settled (k (m.load a n)) m S
  | store a bs k, m, S =>
    settled k (m.store a bs)
      {b ∈ S | hit a bs.length b = false}
  | flush a k, m, S => settled k m (insert (a / 4096) S)

theorem settled_bind {p : Prog ε α} {f : α → Prog ε β} {S : Set Nat}
    (h : flat p m = .ok (r, m')) :
    settled (p >>= f) m S = settled (f r) m' (settled p m S) := by
  change settled (p.bind f) m S = _
  induction p generalizing m S with
  | ret a => cases h; rfl
  | panic e => cases h
  | load a n k ih => exact ih _ h
  | store a bs k ih => exact ih h
  | flush a k ih => exact ih h

@[simp] theorem settled_loadWord_bind (a : Nat) (f : Word → Prog ε β) (S : Set Nat) :
    settled (loadWord a >>= f) m S = settled (f (m.word a)) m S := rfl

/-- A program of loads only settles nothing. -/
theorem Reads.settled {p : Prog ε α} (hp : Reads p) (S : Set Nat) : settled p m S = S := by
  induction hp with
  | ret a => rfl
  | panic e => rfl
  | load a n k _ ih => exact ih _

/-- Every store of the program is as it should be, in the memory before it. -/
def Stores (R : Mem → Nat → List Byte → Prop) : Prog ε α → Mem → Prop
  | ret _, _ => True
  | panic _, _ => True
  | load a n k, m => Stores R (k (m.load a n)) m
  | store a bs k, m => R m a bs ∧ Stores R k (m.store a bs)
  | flush _ k, m => Stores R k m

theorem Stores.bind {R : Mem → Nat → List Byte → Prop} {p : Prog ε α} {f : α → Prog ε β}
    (hp : Stores R p m) (hf : ∀ r m', flat p m = .ok (r, m') → Stores R (f r) m') :
    Stores R (p >>= f) m := by
  change Stores R (p.bind f) m
  induction p generalizing m with
  | ret a => exact hf a m rfl
  | panic e => trivial
  | load a n k ih => exact ih _ hp hf
  | store a bs k ih => exact ⟨hp.1, ih hp.2 hf⟩
  | flush a k ih => exact ih hp hf

theorem Reads.stores {R : Mem → Nat → List Byte → Prop} {p : Prog ε α} (hp : Reads p) :
    Stores R p m := by
  induction hp with
  | ret a => trivial
  | panic e => trivial
  | load a n k _ ih => exact ih _

@[simp] theorem stores_loadWord_bind {R : Mem → Nat → List Byte → Prop} (a : Nat)
    (f : Word → Prog ε β) : Stores R (loadWord a >>= f) m ↔ Stores R (f (m.word a)) m := Iff.rfl

@[simp] theorem stores_storeWord_bind {R : Mem → Nat → List Byte → Prop} (a : Nat) (w : Word)
    (f : Unit → Prog ε β) : Stores R (storeWord a w >>= f) m ↔
      R m a (bytes w) ∧ Stores R (f ()) (m.setWord a w) := Iff.rfl

end Prog

/-! ## The cache -/

/-- A disk and the pages of it that are in memory. `tables` says which runs of
1024 pages have a page table. -/
structure Cache where
  disk : Mem
  mem : Mem
  mapped : Nat → Bool
  dirty : Nat → Bool
  tables : Nat → Bool

namespace Cache

variable (c : Cache)

/-- What a program reads, once the page is in memory. -/
def view : Mem := fun x => if c.mapped (x / 4096) then c.mem x else c.disk x

/-- A page that is in memory and not dirty is as on the disk. -/
def Coherent : Prop :=
  ∀ x, c.mapped (x / 4096) = true → c.dirty (x / 4096) = false → c.mem x = c.disk x

/-- Bytes stored in pages that are in memory. -/
def wrote (a : Nat) (bs : List Byte) : Cache :=
  { c with
    mem := c.mem.store a bs
    dirty := fun b => c.dirty b || hit a bs.length b }

/-- A page is brought in from the disk. -/
def loaded (b : Nat) : Cache :=
  { c with
    mem := fun x => if x / 4096 = b then c.disk x else c.mem x
    mapped := fun b' => c.mapped b' || decide (b' = b)
    dirty := fun b' => c.dirty b' || decide (b' = b)
    tables := fun t => c.tables t || decide (t = b / 1024) }

/-- The page is mapped anew, which clears its dirty bit. -/
def cleaned (b : Nat) : Cache := { c with dirty := fun b' => c.dirty b' && decide (b' ≠ b) }

/-- A page is written to the disk. -/
def written (b : Nat) : Cache :=
  { c with disk := fun x => if x / 4096 = b then c.mem x else c.disk x }

variable {c}

theorem view_of_mapped {x : Nat} (h : c.mapped (x / 4096) = true) : c.view x = c.mem x :=
  if_pos h

theorem view_of_not_mapped {x : Nat} (h : c.mapped (x / 4096) = false) : c.view x = c.disk x :=
  if_neg (by simp [h])

theorem view_wrote {a : Nat} {bs : List Byte}
    (h : ∀ i < bs.length, c.mapped ((a + i) / 4096) = true) :
    (c.wrote a bs).view = c.view.store a bs := by
  funext x
  by_cases hx : a ≤ x ∧ x < a + bs.length
  · have hm : (c.wrote a bs).mapped (x / 4096) = true := by
      have := h (x - a) (by omega)
      rwa [show a + (x - a) = x by omega] at this
    rw [view_of_mapped hm, Mem.store_in hx.1 hx.2]
    exact Mem.store_in hx.1 hx.2
  · rw [Mem.store_out (by omega)]
    simp only [view, wrote, @Mem.store_out c.mem _ _ bs (show x < a ∨ _ by omega)]

theorem Coherent.wrote {a : Nat} {bs : List Byte} (hc : c.Coherent) :
    (c.wrote a bs).Coherent := by
  intro x hm hd
  obtain ⟨hd, hh⟩ := (Bool.or_eq_false_iff).mp hd
  have hx : x < a ∨ a + bs.length ≤ x := by
    by_contra hcon
    rw [hit_div (by omega) (by omega)] at hh
    cases hh
  exact (Mem.store_out hx).trans (hc x hm hd)

theorem view_loaded {b : Nat} (h : c.mapped b = false) : (c.loaded b).view = c.view := by
  funext x
  by_cases hx : x / 4096 = b
  · simp [view, loaded, hx, h]
  · simp [view, loaded, hx]

theorem loaded_cleaned_coherent {b : Nat} (hc : c.Coherent) :
    ((c.loaded b).cleaned b).Coherent := by
  intro x hm hd
  simp only [loaded, cleaned, Bool.or_eq_true, decide_eq_true_eq, Bool.and_eq_false_iff,
    Bool.or_eq_false_iff, decide_eq_false_iff_not, not_not] at hm hd ⊢
  by_cases hx : x / 4096 = b
  · rw [if_pos hx]
  · rw [if_neg hx]
    exact hc x (hm.resolve_right hx) (hd.resolve_right hx).1

@[simp] theorem view_cleaned {b : Nat} : (c.cleaned b).view = c.view := rfl

theorem view_written {b : Nat} (h : c.mapped b = true) : (c.written b).view = c.view := by
  funext x
  by_cases hx : x / 4096 = b
  · simp [view, written, hx, h]
  · simp [view, written, hx]

theorem written_cleaned_coherent {b : Nat} (hc : c.Coherent) :
    ((c.written b).cleaned b).Coherent := by
  intro x hm hd
  simp only [written, cleaned, Bool.and_eq_false_iff, decide_eq_false_iff_not,
    not_not] at hm hd ⊢
  by_cases hx : x / 4096 = b
  · rw [if_pos hx]
  · rw [if_neg hx]
    exact hc x hm (hd.resolve_right hx)

end Cache

/-- What a cache does on an access to a page that is not in memory, and on a
flush. -/
structure Pager (ε : Type) where
  fault : Nat → Cache → Except ε Cache
  flush : Nat → Cache → Except ε Cache

namespace Pager

variable {ε α β : Type} (P : Pager ε)

def touch (a : Nat) (c : Cache) : Except ε Cache :=
  if c.mapped (a / 4096) then .ok c else P.fault a c

/-- The bytes from `a` on are accessed one after the other. -/
def touchAll (a n : Nat) (c : Cache) : Except ε Cache :=
  loop.forUpto (fun i c => P.touch (a + i) c) n c

/-- The program over the cache. -/
def run : Prog ε α → Cache → Except ε (α × Cache)
  | .ret a, c => .ok (a, c)
  | .panic e, _ => .error e
  | .load a n k, c => (P.touchAll a n c).bind fun c => run (k (c.mem.load a n)) c
  | .store a bs k, c => (P.touchAll a bs.length c).bind fun c => run k (c.wrote a bs)
  | .flush a k, c => (P.flush a c).bind fun c => run k c

/-- A page that was brought in: nothing else can be told from what is read. -/
structure Brought (a : Nat) (c c' : Cache) : Prop where
  coherent : c'.Coherent
  view : c'.view = c.view
  disk : c'.disk = c.disk
  mapped : c'.mapped (a / 4096) = true
  kept : ∀ b, c.mapped b = true → c'.mapped b = true

/-- A page that was flushed: the disk has what is read from it, and nothing
else changed. -/
structure Flushed (a : Nat) (c c' : Cache) : Prop where
  coherent : c'.Coherent
  view : c'.view = c.view
  disk : ∀ x, c'.disk x = if x / 4096 = a / 4096 then c.view x else c.disk x
  mapped : c'.mapped = c.mapped

/-- A handler that brings the page in, and a flush that writes it out. -/
structure Lawful : Prop where
  fault : ∀ a c c', c.Coherent → c.mapped (a / 4096) = false → P.fault a c = .ok c' →
    Brought a c c'
  flush : ∀ a c c', c.Coherent → P.flush a c = .ok c' → Flushed a c c'

variable {P} {a n : Nat} {c c' : Cache}

theorem Lawful.touch (hP : P.Lawful) (hc : c.Coherent) (h : P.touch a c = .ok c') :
    Brought a c c' := by
  unfold Pager.touch at h
  split at h
  · cases h
    exact ⟨hc, rfl, rfl, by assumption, fun _ hb => hb⟩
  · rename_i hm
    exact hP.fault a c c' hc (by simpa using hm) h

theorem touchAll_of_mapped (h : ∀ i < n, c.mapped ((a + i) / 4096) = true) :
    P.touchAll a n c = .ok c := by
  unfold Pager.touchAll
  induction n with
  | zero => rfl
  | succ n ih =>
    rw [loop.forUpto, ih fun i hi => h i (by omega)]
    exact if_pos (h n (by omega))

theorem touchAll_first (h : P.touchAll a (n + 1) c = .ok c') : ∃ c₁, P.touch a c = .ok c₁ := by
  unfold Pager.touchAll at h
  induction n generalizing c' with
  | zero => exact ⟨c', h⟩
  | succ n ih =>
    obtain ⟨c₁, h₁, -⟩ := loop.bind_eq_ok.mp h
    exact ih h₁

/-- All the bytes are in memory, and nothing else can be told from what is read. -/
theorem Lawful.touchAll (hP : P.Lawful) (hc : c.Coherent) (h : P.touchAll a n c = .ok c') :
    c'.Coherent ∧ c'.view = c.view ∧ c'.disk = c.disk ∧
      (∀ i < n, c'.mapped ((a + i) / 4096) = true) ∧
      ∀ b, c.mapped b = true → c'.mapped b = true := by
  unfold Pager.touchAll at h
  induction n generalizing c' with
  | zero => cases h; exact ⟨hc, rfl, rfl, by omega, fun _ hb => hb⟩
  | succ n ih =>
    obtain ⟨c₁, h₁, h₂⟩ := loop.bind_eq_ok.mp h
    obtain ⟨hc₁, hv, hd, hm, hk⟩ := ih h₁
    have hb := hP.touch hc₁ h₂
    refine ⟨hb.coherent, hb.view.trans hv, hb.disk.trans hd, ?_, fun b hb' => hb.kept b (hk b hb')⟩
    intro i hi
    rcases Nat.lt_succ_iff_lt_or_eq.mp hi with hi | rfl
    · exact hb.kept _ (hm i hi)
    · exact hb.mapped

theorem load_view (h : ∀ i < n, c.mapped ((a + i) / 4096) = true) :
    c.mem.load a n = c.view.load a n := by
  refine Mem.load_congr fun x hx hx' => (Cache.view_of_mapped ?_).symm
  have := h (x - a) (by omega)
  rwa [show a + (x - a) = x by omega] at this

/-- A cache that is lawful cannot be told from plain memory, as long as the
program does not stop. -/
theorem Lawful.sim (hP : P.Lawful) {p : Prog ε α} {r : α} (hc : c.Coherent)
    (h : P.run p c = .ok (r, c')) :
    p.flat c.view = .ok (r, c'.view) ∧ c'.Coherent := by
  induction p generalizing c with
  | ret a => cases h; exact ⟨rfl, hc⟩
  | panic e => cases h
  | load a n k ih =>
    obtain ⟨c₁, h₁, h₂⟩ := loop.bind_eq_ok.mp h
    obtain ⟨hc₁, hv, -, hm, -⟩ := hP.touchAll hc h₁
    have := ih _ hc₁ h₂
    rw [load_view hm, hv] at this
    exact this
  | store a bs k ih =>
    obtain ⟨c₁, h₁, h₂⟩ := loop.bind_eq_ok.mp h
    obtain ⟨hc₁, hv, -, hm, -⟩ := hP.touchAll hc h₁
    have := ih hc₁.wrote h₂
    rw [Cache.view_wrote hm, hv] at this
    exact this
  | flush a k ih =>
    obtain ⟨c₁, h₁, h₂⟩ := loop.bind_eq_ok.mp h
    have hf := hP.flush a c c₁ hc h₁
    have := ih hf.coherent h₂
    rw [hf.view] at this
    exact this

theorem Lawful.run_mapped (hP : P.Lawful) {p : Prog ε α} {r : α} (hc : c.Coherent)
    (h : P.run p c = .ok (r, c')) (b : Nat) (hb : c.mapped b = true) : c'.mapped b = true := by
  induction p generalizing c with
  | ret a => cases h; exact hb
  | panic e => cases h
  | load a n k ih =>
    obtain ⟨c₁, h₁, h₂⟩ := loop.bind_eq_ok.mp h
    obtain ⟨hc₁, -, -, -, hk⟩ := hP.touchAll hc h₁
    exact ih _ hc₁ h₂ (hk b hb)
  | store a bs k ih =>
    obtain ⟨c₁, h₁, h₂⟩ := loop.bind_eq_ok.mp h
    obtain ⟨hc₁, -, -, -, hk⟩ := hP.touchAll hc h₁
    exact ih hc₁.wrote h₂ (hk b hb)
  | flush a k ih =>
    obtain ⟨c₁, h₁, h₂⟩ := loop.bind_eq_ok.mp h
    have hf := hP.flush a c c₁ hc h₁
    exact ih hf.coherent h₂ (by rw [hf.mapped]; exact hb)

/-! ## What is on the disk after a program -/

theorem Lawful.run_reads (hP : P.Lawful) {p : Prog ε α} (hp : p.Reads) {r : α} (hc : c.Coherent)
    (h : P.run p c = .ok (r, c')) : c'.disk = c.disk := by
  induction hp generalizing c with
  | ret a => cases h; rfl
  | panic e => cases h
  | load a n k _ ih =>
    obtain ⟨c₁, h₁, h₂⟩ := loop.bind_eq_ok.mp h
    obtain ⟨hc₁, -, hd, -, -⟩ := hP.touchAll hc h₁
    exact (ih _ hc₁ h₂).trans hd

/-- The blocks that are settled by a program are on the disk as they are read. -/
theorem Lawful.run_settled (hP : P.Lawful) {p : Prog ε α} {S : Set Nat} {r : α}
    (hc : c.Coherent) (hS : ∀ x, x / 4096 ∈ S → c.disk x = c.view x)
    (h : P.run p c = .ok (r, c')) (x : Nat) (hx : x / 4096 ∈ p.settled c.view S) :
    c'.disk x = c'.view x := by
  induction p generalizing c S with
  | ret a => cases h; exact hS x hx
  | panic e => cases h
  | load a n k ih =>
    obtain ⟨c₁, h₁, h₂⟩ := loop.bind_eq_ok.mp h
    obtain ⟨hc₁, hv, hd, hm, -⟩ := hP.touchAll hc h₁
    have hS₁ : ∀ x, x / 4096 ∈ S → c₁.disk x = c₁.view x := by
      intro x hx
      rw [hv, hd]
      exact hS x hx
    exact ih _ hc₁ hS₁ h₂ (by rw [load_view hm, hv]; exact hx)
  | store a bs k ih =>
    obtain ⟨c₁, h₁, h₂⟩ := loop.bind_eq_ok.mp h
    obtain ⟨hc₁, hv, hd, hm, -⟩ := hP.touchAll hc h₁
    have hview : (c₁.wrote a bs).view = c.view.store a bs := by rw [Cache.view_wrote hm, hv]
    refine ih hc₁.wrote (fun x hx => ?_) h₂ (by rw [hview]; exact hx)
    obtain ⟨hxS, hh⟩ := hx
    have hout : x < a ∨ a + bs.length ≤ x := by
      by_contra hcon
      rw [hit_div (by omega) (by omega)] at hh
      cases hh
    rw [hview, Mem.store_out hout]
    exact (congrFun hd x).trans (hS x hxS)
  | flush a k ih =>
    obtain ⟨c₁, h₁, h₂⟩ := loop.bind_eq_ok.mp h
    have hf := hP.flush a c c₁ hc h₁
    refine ih hf.coherent (fun x hx => ?_) h₂ (by rw [hf.view]; exact hx)
    rw [hf.disk, hf.view]
    split
    · rfl
    · rename_i hne
      exact hS x (hx.resolve_left hne)

end Pager

end blockstore
