-- The order of the free list at boot (`check_page_free_list` of `kern/pmap.c`). One pass
-- takes the list apart into two lists, through the very links that it walks along, and
-- then puts the second behind the first.
import Mathlib
import Jos.Pmap
import Jos.Lib.LinkedList
import Jos.Lib.Loop

namespace jos.freelist

open linked_list loop

/-! ## The pass -/

/-- `struct PageInfo **`: the address of `pp1` or, for `true`, of `pp2`, or that of the
link of a page. -/
inductive Cell
  | var (t : Bool)
  | pp_link (p : Nat)
deriving DecidableEq

/-- The pages, with the local variables of the pass: `vars` is `pp1` and `pp2`. -/
structure Pass where
  s : Phys
  vars : Bool → Option Nat
  tp : Bool → Cell
  pp : Option Nat

def pdx_limit : Nat := 1

/-- `PDX(page2pa(pp)) >= pdx_limit` -/
def pagetype (p : Nat) : Bool := pdx_limit ≤ PDX (page2pa p)

/-- `*c = v` -/
def Pass.store (x : Pass) (c : Cell) (v : Option Nat) : Pass :=
  match c with
  | .var t => { x with vars := Function.update x.vars t v }
  | .pp_link p => { x with s := x.s.setLink p v }

/-- Before the loop. What `pp1` and `pp2` hold then is not known. -/
def start (s : Phys) (vars : Bool → Option Nat) : Pass := ⟨s, vars, .var, s.page_free_list⟩

def Pass.more (x : Pass) : Bool := x.pp.isSome

def Pass.turn (x : Pass) : Except Panic Pass :=
  match x.pp with
  | none => .error .null
  | some p =>
    let x := x.store (x.tp (pagetype p)) (some p)
    .ok { x with tp := Function.update x.tp (pagetype p) (.pp_link p), pp := x.s.link p }

/-- After the loop: `*tp[1] = 0`, `*tp[0] = pp2` and `page_free_list = pp1`. -/
def Pass.finish (x : Pass) : Phys :=
  let x := x.store (x.tp true) none
  let x := x.store (x.tp false) (x.vars true)
  { x.s with page_free_list := x.vars false }

/-! ## A store at the end of a group -/

section

variable {x : Pass} {t u : Bool} {g xs ys : List Nat} {p q : Nat} {v : Option Nat}

/-- The pages of a type, in their order. -/
def group (t : Bool) (xs : List Nat) : List Nat := xs.filter fun p => pagetype p == t

/-- The cell behind a list: its last link, or the variable if it is empty. -/
def tailOf (t : Bool) (g : List Nat) : Cell := g.getLast?.elim (.var t) .pp_link

@[simp] theorem store_tp {c : Cell} : (x.store c v).tp = x.tp := by
  cases c <;> rfl

@[simp] theorem store_ref {c : Cell} : (x.store c v).s.ref = x.s.ref := by
  cases c with
  | var => rfl
  | pp_link => exact Phys.setLink_ref ..

/-- A store at the end of a list decides what comes behind it, and changes nothing
else. -/
theorem store_tail (t : Bool) (v : Option Nat)
    (hseg : ∃ w, Seg x.s.link (x.vars t) g w) (hd : g.Nodup) :
    Seg (x.store (tailOf t g) v).s.link ((x.store (tailOf t g) v).vars t) g v ∧
    (∀ u, u ≠ t → (x.store (tailOf t g) v).vars u = x.vars u) ∧
    ∀ q, q ∉ g → (x.store (tailOf t g) v).s.link q = x.s.link q := by
  obtain ⟨w, hseg⟩ := hseg
  rcases hlast : g.getLast? with _ | a
  · rw [List.getLast?_eq_none_iff] at hlast
    subst hlast
    refine ⟨?_, fun u hu => ?_, fun _ _ => rfl⟩
    · show Function.update x.vars t v t = v
      rw [Function.update_self]
    · exact Function.update_of_ne hu ..
  · have hstore : x.store (tailOf t g) v = { x with s := x.s.setLink a v } := by
      rw [tailOf, hlast]
      rfl
    have hlink : (x.s.setLink a v).link = Function.update x.s.link a v := Phys.setLink_link ..
    rw [hstore]
    refine ⟨?_, fun _ _ => rfl, fun q hq => ?_⟩
    · have hv : (x.s.setLink a v).link a = v := by rw [hlink, Function.update_self]
      have hnew : Seg (x.s.setLink a v).link (x.vars t) g ((x.s.setLink a v).link a) :=
        hseg.redirect hd hlast fun q _ hq => by rw [hlink, Function.update_of_ne hq]
      rwa [hv] at hnew
    · show (x.s.setLink a v).link q = x.s.link q
      rw [hlink, Function.update_of_ne]
      rintro rfl
      exact hq (List.mem_of_getLast? hlast)

/-! ## One turn -/

theorem group_snoc_self : group (pagetype p) (xs ++ [p]) = group (pagetype p) xs ++ [p] := by
  rw [group, List.filter_append, List.filter_singleton, beq_self_eq_true]
  rfl

theorem group_snoc_ne (h : t ≠ pagetype p) : group t (xs ++ [p]) = group t xs := by
  have hp : (pagetype p == t) = false := beq_false_of_ne h.symm
  rw [group, List.filter_append, List.filter_singleton, hp]
  exact List.append_nil _

theorem mem_group : q ∈ group t xs ↔ q ∈ xs ∧ pagetype q = t := by
  rw [group, List.mem_filter, beq_iff_eq]

theorem tailOf_snoc : tailOf t (g ++ [p]) = .pp_link p := by
  rw [tailOf, List.getLast?_concat]
  rfl

/-- The pages `xs` are in the two lists, each of which ends with its `tp`, and the
pages `ys` are still to come. -/
structure Inv (x : Pass) (xs ys : List Nat) : Prop where
  nodup : (xs ++ ys).Nodup
  rest : Chain x.s.link x.pp ys
  seg : ∀ t, ∃ v, Seg x.s.link (x.vars t) (group t xs) v
  tail : ∀ t, x.tp t = tailOf t (group t xs)

theorem Inv.group_nodup (h : Inv x xs ys) (t : Bool) : (group t xs).Nodup :=
  (List.nodup_append.mp h.nodup).1.filter _

theorem Inv.turn (h : Inv x xs (p :: ys)) :
    ∃ y, x.turn = .ok y ∧ Inv y (xs ++ [p]) ys ∧ y.s.ref = x.s.ref := by
  obtain ⟨hpp, hrest⟩ := h.rest
  have hsplit := List.nodup_append.mp h.nodup
  have hnew : ∀ q ∈ p :: ys, ∀ t, q ∉ group t xs := by
    intro q hq t hg
    exact hsplit.2.2 q (mem_group.mp hg).1 q hq rfl
  obtain ⟨hseg, hvars, hlink⟩ := store_tail (pagetype p) (some p) (h.seg (pagetype p))
    (h.group_nodup _)
  rw [← h.tail (pagetype p)] at hseg hvars hlink
  have hturn : x.turn = .ok { x.store (x.tp (pagetype p)) (some p) with
      tp := Function.update (x.store (x.tp (pagetype p)) (some p)).tp (pagetype p) (.pp_link p)
      pp := (x.store (x.tp (pagetype p)) (some p)).s.link p } := by
    rw [Pass.turn, hpp]
  refine ⟨_, hturn, ⟨?_, ?_, ?_, ?_⟩, store_ref⟩
  · rw [List.append_assoc]
    exact h.nodup
  · show Chain (x.store (x.tp (pagetype p)) (some p)).s.link
      ((x.store (x.tp (pagetype p)) (some p)).s.link p) ys
    rw [hlink p (hnew p (List.mem_cons_self ..) _)]
    exact hrest.congr fun q hq => hlink q (hnew q (List.mem_cons_of_mem _ hq) _)
  · intro t
    by_cases ht : t = pagetype p
    · subst ht
      rw [group_snoc_self]
      exact ⟨_, seg_append.mpr ⟨some p, hseg, rfl, rfl⟩⟩
    · obtain ⟨v, hv⟩ := h.seg t
      rw [group_snoc_ne ht]
      refine ⟨v, ?_⟩
      show Seg _ ((x.store (x.tp (pagetype p)) (some p)).vars t) _ v
      rw [hvars t ht]
      refine hv.congr fun q hq => hlink q fun hq' => ht ?_
      rw [← (mem_group.mp hq).2, (mem_group.mp hq').2]
  · intro t
    by_cases ht : t = pagetype p
    · subst ht
      rw [group_snoc_self, tailOf_snoc]
      exact Function.update_self ..
    · rw [group_snoc_ne ht, ← h.tail t]
      refine (Function.update_of_ne ht ..).trans ?_
      rw [store_tp]

/-- The loop comes to the end of the list. -/
theorem Inv.ends (h : Inv x xs ys) :
    ∃ y, Ends Pass.more Pass.turn x y ∧ Inv y (xs ++ ys) [] ∧ y.s.ref = x.s.ref := by
  induction ys generalizing x xs with
  | nil =>
    have hstop : x.more = false := by rw [Pass.more, chain_nil.mp h.rest]; rfl
    exact ⟨x, .stop hstop, by rwa [List.append_nil], rfl⟩
  | cons p ys ih =>
    have hmore : x.more = true := by rw [Pass.more, h.rest.1]; rfl
    obtain ⟨y, hturn, hy, href⟩ := h.turn
    obtain ⟨z, hends, hz, href'⟩ := ih hy
    rw [List.append_assoc] at hz
    exact ⟨z, .turn hmore hturn hends, hz, href'.trans href⟩

/-! ## The end -/

/-- The second list is put behind the first. -/
theorem Inv.finish (h : Inv x xs []) :
    Chain x.finish.link x.finish.page_free_list (group false xs ++ group true xs) := by
  obtain ⟨hseg₁, hvars₁, hlink₁⟩ := store_tail true none (h.seg true) (h.group_nodup true)
  rw [← h.tail true] at hseg₁ hvars₁ hlink₁
  rw [Pass.finish]
  generalize hx : x.store (x.tp true) none = y at hseg₁ hvars₁ hlink₁ ⊢
  have hother : ∀ q ∈ group false xs, q ∉ group true xs := by
    intro q hq hq'
    have := (mem_group.mp hq).2
    rw [(mem_group.mp hq').2] at this
    cases this
  have hseg₀ : ∃ v, Seg y.s.link (y.vars false) (group false xs) v := by
    obtain ⟨v, hv⟩ := h.seg false
    refine ⟨v, ?_⟩
    rw [hvars₁ false (by decide)]
    exact hv.congr fun q hq => hlink₁ q (hother q hq)
  obtain ⟨hseg₂, hvars₂, hlink₂⟩ := store_tail false (y.vars true) hseg₀ (h.group_nodup false)
  have htp : y.tp false = tailOf false (group false xs) := by
    rw [← hx, store_tp]
    exact h.tail false
  rw [← htp] at hseg₂ hvars₂ hlink₂
  refine seg_none.mp (seg_append.mpr ⟨y.vars true, hseg₂, ?_⟩)
  exact hseg₁.congr fun q hq => hlink₂ q fun hq' => hother q hq' hq

theorem finish_ref : x.finish.ref = x.s.ref := by
  show ((x.store (x.tp true) none).store _ _).s.ref = _
  rw [store_ref, store_ref]

end

/-! ## The whole list -/

theorem pagetype_eq (p : Nat) : pagetype p = !decide ((page2pa p).toNat < 0x400000) := by
  rw [pagetype, pdx_limit, PDX_eq, ← decide_not]
  exact decide_eq_decide.mpr (by omega)

/-- The pass comes to its end on every list, and leaves the pages of the first 4 MB and
then the others, each in the order in which they were. No page is lost. -/
theorem reordered_list_keeps_its_pages (s : Phys) (vars : Bool → Option Nat) (l : List Nat)
    (hl : Chain s.link s.page_free_list l) :
    ∃ x, Ends Pass.more Pass.turn (start s vars) x ∧
      Chain x.finish.link x.finish.page_free_list
        (l.filter (fun p => decide ((page2pa p).toNat < 0x400000)) ++
          l.filter (fun p => !decide ((page2pa p).toNat < 0x400000))) ∧
      (l.filter (fun p => decide ((page2pa p).toNat < 0x400000)) ++
        l.filter (fun p => !decide ((page2pa p).toNat < 0x400000))).Perm l ∧
      x.finish.ref = s.ref := by
  have hstart : Inv (start s vars) [] l := by
    refine ⟨hl.nodup, hl, fun t => ⟨vars t, rfl⟩, fun t => rfl⟩
  obtain ⟨x, hends, hx, href⟩ := hstart.ends
  have hlow : group false l = l.filter fun p => decide ((page2pa p).toNat < 0x400000) := by
    refine List.filter_congr fun p _ => ?_
    rw [pagetype_eq]
    cases decide ((page2pa p).toNat < 0x400000) <;> rfl
  have hhigh : group true l = l.filter fun p => !decide ((page2pa p).toNat < 0x400000) := by
    refine List.filter_congr fun p _ => ?_
    rw [pagetype_eq, beq_true]
  have hchain := hx.finish
  rw [List.nil_append, hlow, hhigh] at hchain
  exact ⟨x, hends, hchain, List.filter_append_perm _ l, finish_ref.trans href⟩

theorem threeFree_le : 0x800 ≤ 0x10000 := by decide

/-- Three free pages, of which the second is in the first 4 MB. -/
def threeFree : Phys where
  npages := 0x800
  npages_le := threeFree_le
  pages := fun p => ⟨if p = 0x700 then some 3 else if p = 3 then some 0x401 else none, 0⟩
  page_free_list := some 0x700
  mem := fun _ _ => 0

theorem reordered_list_keeps_its_pages_three :
    Chain threeFree.link threeFree.page_free_list [0x700, 3, 0x401] ∧
    ∃ x, Ends Pass.more Pass.turn (start threeFree fun _ => none) x ∧
      Chain x.finish.link x.finish.page_free_list [3, 0x700, 0x401] := by
  have hl : Chain threeFree.link threeFree.page_free_list [0x700, 3, 0x401] := by decide
  obtain ⟨x, hends, hchain, -⟩ := reordered_list_keeps_its_pages threeFree (fun _ => none) _ hl
  exact ⟨hl, x, hends, hchain⟩

end jos.freelist
