-- Opening files again and again (fs/serv.c): each open takes the next id of its slot, and
-- the id is handed on as an int. A page that stays mapped keeps an id that the server
-- accepts.
import Jos.OpenFiles

namespace jos.fs

open blockstore ia32
open blockstore.Prog (flat)

variable {s s' : Server} {m : Mem} {o : Nat} {log : Log}

/-! ## Ids that are accepted -/

/-- The Fd pages that clients map have the ids of their slots. -/
structure Accepts (s : Server) : Prop where
  tracked : ∃ log, Tracked s log
  few : Few s
  ids : ∀ o, 0 < s.clients o → (s.fd o).id = (s.opentab o).o_fileid

theorem Accepts.start : Accepts serve_init :=
  ⟨⟨.start, Tracked.start⟩, few_start, fun _ ho => absurd ho (Nat.lt_irrefl 0)⟩

theorem Accepts.lookup (h : Accepts s) (ho : 0 < s.clients o) :
    openfile_lookup s (s.fd o).id = .ok o := by
  obtain ⟨log, htracked⟩ := h.tracked
  obtain ⟨hlt, hmapped, -⟩ := htracked.clients o ho
  have hslot : (s.fd o).id.toNat % MAXOPEN = o := by
    rw [h.ids o ho, htracked.ids o]
    exact idOf_mod hlt
  unfold openfile_lookup
  dsimp only
  rw [hslot, h.few.pageref_eq hmapped, h.ids o ho, if_neg]
  rintro (hle | hne)
  · omega
  · exact hne rfl

/-- No client writes another id into an Fd page. -/
def KeepsId (st : Server × Mem) : ServEvent → Prop
  | .setFd o fd => fd.id = (st.1.fd o).id
  | _ => True

/-- The next id of the slot that a request to open takes is a positive int. -/
def SmallId (st : Server × Mem) : ServEvent → Prop
  | .request _ _ req _ => req = FSREQ_OPEN → ∀ o, FirstFree st.1 o →
    (st.1.opentab o).o_fileid.toNat + 1024 < 2 ^ 31
  | _ => True

/-- What the events of a run have to respect. -/
structure Modest (st : Server × Mem) (ev : ServEvent) : Prop where
  shares : FewShares st ev
  keeps : KeepsId st ev
  small : SmallId st ev

theorem take_fd {i : Nat} (h : i ≠ o) : (s.take o).fd i = s.fd i := by
  unfold Server.take
  split
  · show Function.update s.fd o .zero i = _
    rw [Function.update_of_ne h]
  · show Function.update s.fd o .zero i = _
    rw [Function.update_of_ne h]

theorem take_fileid {i : Nat} (h : i ≠ o) : (s.take o).opentab i = s.opentab i := by
  rw [take_opentab, Function.update_of_ne h]

theorem Accepts.reply {r : Reply} (h : Accepts s) (hr : Opening s r ∨ Quiet s r) (takes : Bool) :
    Accepts (r.taken takes) := by
  obtain ⟨log, htracked⟩ := h.tracked
  refine ⟨⟨_, htracked.reply h.few hr takes⟩, h.few.reply hr htracked takes, ?_⟩
  have hnone : r.pg = none → r.taken takes = r.s := fun hpg => by rw [Reply.taken, hpg]
  rcases hr with hopen | ⟨hsame, hpg⟩
  · cases hopen with
    | full hs hpg =>
      rw [hnone hpg, hs]
      exact h.ids
    | failed o ho hs hpg =>
      have hunused := htracked.unused h.few ho.free
      intro i hi
      rw [hnone hpg, hs] at hi ⊢
      rw [take_clients hunused] at hi
      have hio : i ≠ o := by
        rintro rfl
        omega
      rw [take_fd hio, take_fileid hio]
      exact h.ids i hi
    | opened o f omode ho hid hs hpg =>
      have hunused := htracked.unused h.few ho.free
      have hclients : r.s.clients = s.clients := by
        rw [hs]
        exact take_clients hunused
      have hfd : (r.taken takes).fd = r.s.fd := by
        rw [Reply.taken, hpg]
        dsimp only
        split <;> rfl
      have hopentab : (r.taken takes).opentab = r.s.opentab := by
        rw [Reply.taken, hpg]
        dsimp only
        split <;> rfl
      intro i hi
      rw [hfd, hopentab, hs, opened_fileid]
      by_cases hio : i = o
      · rw [hio, opened_id]
      · have hi' : 0 < s.clients i := by
          rw [← hclients]
          rw [Reply.taken, hpg] at hi
          dsimp only at hi
          split at hi
          · have hi : 0 < Function.update r.s.clients o (r.s.clients o + 1) i := hi
            rwa [Function.update_of_ne hio] at hi
          · exact hi
        have hother : ((s.take o).opened o f omode).fd i = (s.take o).fd i :=
          Function.update_of_ne hio ..
        rw [hother, take_fd hio, take_fileid hio]
        exact h.ids i hi'
  · intro i hi
    rw [hnone hpg] at hi ⊢
    rw [hsame.clients] at hi
    rw [hsame.ids, hsame.opentab]
    exact h.ids i hi

theorem Accepts.client {ev : ServEvent} (h : Accepts s) (hev : s.client ev = some s')
    (hshare : FewShares (s, m) ev) (hkeeps : KeepsId (s, m) ev) : Accepts s' := by
  obtain ⟨log, htracked⟩ := h.tracked
  obtain ⟨hopentab, -, o, ho, hcases⟩ := client_cases hev
  refine ⟨⟨log, htracked.client hev⟩, h.few.client hev hshare, fun i hi => ?_⟩
  rw [hopentab]
  rcases hcases with ⟨fd, rfl, rfl⟩ | ⟨-, hc, hfd⟩ | ⟨-, hc, hfd⟩
  · have hsame : fd.id = (s.fd o).id := hkeeps
    by_cases hio : i = o
    · subst hio
      show (Function.update s.fd i fd i).id = _
      rw [Function.update_self, hsame]
      exact h.ids i hi
    · show (Function.update s.fd o fd i).id = _
      rw [Function.update_of_ne hio]
      exact h.ids i hi
  · rw [hfd]
    by_cases hio : i = o
    · rw [hio]
      exact h.ids o ho
    · rw [hc, Function.update_of_ne hio] at hi
      exact h.ids i hi
  · rw [hfd]
    by_cases hio : i = o
    · rw [hio]
      exact h.ids o ho
    · rw [hc, Function.update_of_ne hio] at hi
      exact h.ids i hi

theorem Accepts.step {st st' : Server × Mem} {ev : ServEvent} (h : Accepts st.1)
    (hev : Modest st ev) (hstep : servStep st ev = some st') : Accepts st'.1 := by
  obtain ⟨s, m⟩ := st
  cases ev with
  | request room takes req p =>
    obtain ⟨r, m', hrun, rfl⟩ := servStep_request hstep
    exact h.reply (handle_cases hrun) takes
  | _ =>
    obtain ⟨s', hs', rfl⟩ := servStep_client hstep (by rintro _ _ _ _ ⟨⟩)
    exact h.client hs' hev.shares hev.keeps

/-! ## Slots that no client uses -/

/-- Where a slot is unused there is a first one that counts as free. -/
theorem exists_firstFree (hfree : ∃ i < MAXOPEN, s.clients i = 0) :
    ∃ o, FirstFree s o := by
  obtain ⟨i, hi, hzero⟩ := hfree
  have hone : s.pageref i ≤ 1 := by
    rw [Server.pageref, hzero]
    split <;> omega
  have hex : ∃ j, j < MAXOPEN ∧ s.pageref j ≤ 1 := ⟨i, hi, hone⟩
  classical
  refine ⟨Nat.find hex, (Nat.find_spec hex).1, (Nat.find_spec hex).2, fun j hj => ?_⟩
  have hmin := Nat.find_min hex hj
  have hlt := (Nat.find_spec hex).1
  by_contra hno
  exact hmin ⟨by omega, by omega⟩

/-- The answer of `openfile_alloc` with memory available: the id of the slot that it has
taken, which is no negative int. -/
def AllocOk (s : Server) (m : Mem) : Prop :=
  ∃ o s', flat (openfile_alloc s true) m = .ok ((.ok o, s'), m) ∧
    0 ≤ (s'.opentab o).o_fileid.toInt

theorem allocOk_iff (hfree : FirstFree s o) :
    AllocOk s m ↔ 0 ≤ ((s.opentab o).o_fileid + 1024#32).toInt := by
  have hid : ((s.take o).opentab o).o_fileid = (s.opentab o).o_fileid + 1024#32 := by
    rw [take_opentab, Function.update_self]
  rcases openfile_alloc_cases s true with ⟨hall, -⟩ | ⟨o', ho', halloc⟩
  · have h₁ := hall o hfree.lt
    have h₂ := hfree.free
    omega
  · obtain rfl := hfree.unique ho'
    rw [if_neg (fun h => Bool.false_ne_true h.2.symm)] at halloc
    rw [← hid]
    constructor
    · rintro ⟨o', s', hrun, hpos⟩
      rw [halloc] at hrun
      cases hrun
      exact hpos
    · intro hpos
      exact ⟨o, s.take o, by rw [halloc]; rfl, hpos⟩

/-- A client opens the root and closes it. -/
def openClose : List ServEvent := [openRoot, .drop 0]

theorem openClose_run (hfree : FirstFree s 0) (hclients : s.clients 0 = 0)
    (hid : 0 ≤ ((s.opentab 0).o_fileid + 1024#32).toInt) :
    ∃ s', runs.runFrom servStep (s, m) openClose = some (s', m) ∧ FirstFree s' 0 ∧
      s'.clients 0 = 0 ∧ (s'.opentab 0).o_fileid = (s.opentab 0).o_fileid + 1024#32 := by
  have hfileid : ((s.take 0).opentab 0).o_fileid = (s.opentab 0).o_fileid + 1024#32 := by
    rw [take_opentab, Function.update_self]
  obtain ⟨r, htrack⟩ := openRoot_track m .start hfree (by rw [hfileid]; exact hid)
  obtain ⟨st, hopen, hst⟩ := Option.map_eq_some_iff.mp htrack
  obtain rfl : st = (s.withRoot 0, m) := (Prod.mk.inj hst).1
  have hone : (s.withRoot 0).clients 0 = 1 := by
    show Function.update (s.take 0).clients 0 ((s.take 0).clients 0 + 1) 0 = 1
    rw [Function.update_self, take_clients hclients, hclients]
  have hdrop : servStep (s.withRoot 0, m) (.drop 0) = some ((s.withRoot 0).withClients 0 0, m) := by
    simp only [servStep, Server.client, hone, Nat.zero_lt_one, if_true]
    rfl
  have hzero : ((s.withRoot 0).withClients 0 0).clients 0 = 0 := by
    simp only [Server.withClients, Function.update_self]
  refine ⟨(s.withRoot 0).withClients 0 0, ?_, ⟨by decide, ?_, fun i hi => absurd hi (by omega)⟩,
    hzero, ?_⟩
  · have hopen' : servStep (s, m) openRoot = some (s.withRoot 0, m) := hopen
    rw [openClose, runs.runFrom, hopen', Option.bind_some, runs.runFrom, hdrop]
    rfl
  · rw [Server.pageref, hzero]
    split <;> omega
  · show (((s.take 0).opened 0 s_root 0).opentab 0).o_fileid = _
    rw [opened_fileid, hfileid]

/-- After `n` files that were opened and closed the id of the slot is `1024 * n`. -/
theorem openClose_runs (m : Mem) {n : Nat} (hn : n < 2 ^ 21) :
    ∃ s, runs.runFrom servStep (serve_init, m) (List.replicate n openClose).flatten = some (s, m) ∧
      FirstFree s 0 ∧ s.clients 0 = 0 ∧ (s.opentab 0).o_fileid = idOf 0 n := by
  induction n with
  | zero => exact ⟨serve_init, rfl, serve_init_first, rfl, rfl⟩
  | succ n ih =>
    obtain ⟨s, hrun, hfree, hclients, hid⟩ := ih (by omega)
    have hpos : 0 ≤ ((s.opentab 0).o_fileid + 1024#32).toInt := by
      have hnat : (idOf 0 (n + 1)).toNat = 1024 * (n + 1) := by
        rw [idOf, BitVec.toNat_ofNat, MAXOPEN]
        omega
      rw [hid, idOf_succ, BitVec.toInt_eq_toNat_of_lt (by omega)]
      omega
    obtain ⟨s', hrun', hfree', hclients', hid'⟩ := openClose_run (m := m) hfree hclients hpos
    refine ⟨s', ?_, hfree', hclients', by rw [hid', hid, idOf_succ]⟩
    have hsnoc : (List.replicate (n + 1) openClose).flatten =
        (List.replicate n openClose).flatten ++ openClose := by
      rw [List.replicate_succ', List.flatten_append, List.flatten_singleton]
    rw [hsnoc, runs.runFrom_append, hrun, Option.bind_some, hrun']

end jos.fs
