-- Memory of devices (`mmio_map_region` of `kern/pmap.c`). A static variable keeps where the
-- next reservation starts. Nothing holds it below `MMIOLIM`.
import Mathlib
import Jos.BootMap
import Jos.Lib.Runs

namespace jos.mmio

open region runs

def PTE_PWT : Word := 0x008
def PTE_PCD : Word := 0x010

/-- Writable, not cached, and for the kernel only. -/
def mmio_perm : Word := PTE_W ||| PTE_P ||| PTE_PCD ||| PTE_PWT

/-! ## The code -/

/-- The address that is returned, the memory, and the new value of the static `base`. -/
def mmio_map_region (kern_pgdir : Nat) (s : Phys) (base pa size : Word) :
    Except Panic (Word × Phys × Word) :=
  let save := base
  let size := ROUNDUP size 0x1000
  (boot_map_region s kern_pgdir base size pa mmio_perm).map fun s => (save, s, base + size)

/-- What a call was given and what it returned. -/
structure Reservation where
  base : Word
  pa : Word
  size : Word

/-- Memory with the static `base`, and the reservations so far, the last one first. -/
structure Mmio where
  s : Phys
  base : Word
  reserved : List Reservation

/-- A call with an address and a size. A panic ends the run. -/
def step (kern_pgdir : Nat) (m : Mmio) (call : Word × Word) : Option Mmio :=
  (mmio_map_region kern_pgdir m.s m.base call.1 call.2).toOption.map fun r =>
    ⟨r.2.1, r.2.2, ⟨r.1, call.1, call.2⟩ :: m.reserved⟩

/-! ## What reservations are for -/

/-- The address is in the reservation. -/
def Reservation.Holds (r : Reservation) (a : Nat) : Prop :=
  r.base.toNat ≤ a ∧ a < r.base.toNat + r.size.toNat

/-- Page `n` is outside the window for devices. -/
def Outside (n : Nat) : Prop := n < PGNUM MMIOBASE ∨ PGNUM MMIOLIM ≤ n

/-- The page at which the directory shows the table of the window, before there is one. -/
def ShowsTable (s : Phys) (d n : Nat) : Prop :=
  table s d (n / 1024) = some d ∧ n % 1024 = PDX MMIOBASE ∧ pageMap s d n = none

/-- The reservations lie in the window and apart, each is mapped, and nothing else has
changed since the start. -/
structure Kept (d : Nat) (m₀ m : Mmio) : Prop where
  aligned : ∀ r ∈ m.reserved, r.base.toNat % PGSIZE = 0
  inside : ∀ r ∈ m.reserved, MMIOBASE.toNat ≤ r.base.toNat ∧
    r.base.toNat + r.size.toNat ≤ MMIOLIM.toNat
  apart : m.reserved.Pairwise fun r r' => ∀ a, ¬ (r.Holds a ∧ r'.Holds a)
  mapped : ∀ r ∈ m.reserved, ∀ o < r.size.toNat, pageMap m.s d ((r.base.toNat + o) / PGSIZE) =
    some (PGNUM (r.pa + BitVec.ofNat 32 o), mmio_perm)
  others : ∀ n < 2 ^ 20, Outside n →
    pageMap m.s d n = pageMap m₀.s d n ∨ ShowsTable m₀.s d n

/-- There is room in the window, and the device's memory starts at a page. -/
structure Room (m : Mmio) (call : Word × Word) : Prop where
  page : call.1.toNat % PGSIZE = 0
  below : m.base.toNat + call.2.toNat ≤ MMIOLIM.toNat

/-! ## One call -/

@[simp] theorem MMIOBASE_toNat : MMIOBASE.toNat = 958 * 1024 * 4096 := by decide

@[simp] theorem MMIOLIM_toNat : MMIOLIM.toNat = 959 * 1024 * 4096 := by decide

theorem outside_iff {n : Nat} : Outside n ↔ n / 1024 ≠ 958 := by
  rw [Outside, PGNUM_eq, PGNUM_eq, MMIOBASE_toNat, MMIOLIM_toNat]
  omega

/-- What every call with room keeps. -/
structure Inv (d : Nat) (m₀ m : Mmio) : Prop where
  wf : ∃ free, WellFormed m.s d free
  base_low : MMIOBASE.toNat ≤ m.base.toNat
  base_high : m.base.toNat ≤ MMIOLIM.toNat
  base_page : m.base.toNat % 4096 = 0
  window : Own m.s d 958
  own : ∀ i, Own m.s d i ↔ Own m₀.s d i
  dir : ∀ i, i ≠ 958 ∨ table m₀.s d i ≠ none → m.s.mem d i = m₀.s.mem d i
  frame : ∀ n < 2 ^ 20, Outside n → Own m₀.s d (n / 1024) → pageMap m.s d n = pageMap m₀.s d n
  aligned : ∀ r ∈ m.reserved, r.base.toNat % 4096 = 0
  low : ∀ r ∈ m.reserved, MMIOBASE.toNat ≤ r.base.toNat
  high : ∀ r ∈ m.reserved, r.base.toNat + r.size.toNat ≤ m.base.toNat
  apart : m.reserved.Pairwise fun r r' => ∀ a, ¬ (r.Holds a ∧ r'.Holds a)
  mapped : ∀ r ∈ m.reserved, ∀ o < r.size.toNat, pageMap m.s d ((r.base.toNat + o) / 4096) =
    some (PGNUM (r.pa + BitVec.ofNat 32 o), mmio_perm)

section

variable {d : Nat} {m₀ m m' : Mmio} {pa size : Word}

theorem Inv.start {free : List Nat} (s : Phys) (hwf : WellFormed s d free) (hown : Own s d 958) :
    Inv d ⟨s, MMIOBASE, []⟩ ⟨s, MMIOBASE, []⟩ where
  wf := ⟨free, hwf⟩
  base_low := le_rfl
  base_high := by rw [MMIOBASE_toNat, MMIOLIM_toNat]; omega
  base_page := by rw [MMIOBASE_toNat]
  window := hown
  own _ := Iff.rfl
  dir _ _ := rfl
  frame _ _ _ _ := rfl
  aligned r hr := absurd hr List.not_mem_nil
  low r hr := absurd hr List.not_mem_nil
  high r hr := absurd hr List.not_mem_nil
  apart := List.Pairwise.nil
  mapped r hr := absurd hr List.not_mem_nil

/-- The page of a byte of a region that starts at a page. -/
theorem PGNUM_add {o : Nat} (hpa : pa.toNat % 4096 = 0) :
    PGNUM (pa + BitVec.ofNat 32 (o / 4096 * 4096)) = PGNUM (pa + BitVec.ofNat 32 o) := by
  rw [PGNUM_eq, PGNUM_eq, BitVec.toNat_add, BitVec.toNat_add, BitVec.toNat_ofNat,
    BitVec.toNat_ofNat]
  omega

/-- The call of `boot_map_region`. -/
def regionOf (d : Nat) (m : Mmio) (pa size : Word) : Call :=
  ⟨m.s, d, m.base, ROUNDUP size 0x1000, pa, mmio_perm⟩

theorem Room.roundup (hroom : Room m (pa, size)) :
    (ROUNDUP size 0x1000).toNat = (size.toNat + 4095) / 4096 * 4096 := by
  have h := hroom.below
  rw [MMIOLIM_toNat] at h
  dsimp only at h
  rw [ROUNDUP_toNat (by omega)]
  omega

theorem Room.base_add (hroom : Room m (pa, size)) (hpage : m.base.toNat % 4096 = 0) :
    (m.base + ROUNDUP size 0x1000).toNat = m.base.toNat + (size.toNat + 4095) / 4096 * 4096 ∧
      m.base.toNat + (size.toNat + 4095) / 4096 * 4096 ≤ MMIOLIM.toNat := by
  have h := hroom.below
  rw [MMIOLIM_toNat] at h ⊢
  rw [BitVec.toNat_add, hroom.roundup]
  dsimp only at h
  omega

theorem Inv.covers_window (h : Inv d m₀ m) (hroom : Room m (pa, size)) {n : Nat}
    (hn : (regionOf d m pa size).Covers n) : n / 1024 = 958 := by
  obtain ⟨hlow, hhigh⟩ := hn
  have hsize := hroom.roundup
  have hbase := h.base_low
  have hpage := h.base_page
  have hlim := hroom.below
  rw [MMIOBASE_toNat] at hbase
  rw [MMIOLIM_toNat] at hlim
  change m.base.toNat / 4096 ≤ n at hlow
  change n < m.base.toNat / 4096 + (ROUNDUP size 0x1000).toNat / 4096 at hhigh
  rw [hsize] at hhigh
  dsimp only at hlim
  omega

theorem Inv.fits (h : Inv d m₀ m) (hroom : Room m (pa, size)) : (regionOf d m pa size).Fits := by
  have hsize := hroom.roundup
  have hlim := hroom.below
  have hpage := h.base_page
  rw [MMIOLIM_toNat] at hlim
  refine ⟨hpage, hroom.page, ?_, ?_, by show mmio_perm < 0x1000; decide, fun n hn => ?_⟩
  · show (ROUNDUP size 0x1000).toNat % 4096 = 0
    omega
  · show m.base.toNat + (ROUNDUP size 0x1000).toNat ≤ 2 ^ 32
    dsimp only at hlim
    omega
  · rw [h.covers_window hroom hn]
    exact h.window

theorem step_error {p : Panic}
    (h : boot_map_region m.s d m.base (ROUNDUP size 0x1000) pa mmio_perm = .error p) :
    step d m (pa, size) = none := by
  rw [step, mmio_map_region, h]
  rfl

theorem step_ok {s : Phys}
    (h : boot_map_region m.s d m.base (ROUNDUP size 0x1000) pa mmio_perm = .ok s) :
    step d m (pa, size) =
      some ⟨s, m.base + ROUNDUP size 0x1000, ⟨m.base, pa, size⟩ :: m.reserved⟩ := by
  rw [step, mmio_map_region, h]
  rfl

/-- A call that does not panic keeps everything. -/
theorem Inv.call (h : Inv d m₀ m) (hroom : Room m (pa, size))
    (hstep : step d m (pa, size) = some m') : Inv d m₀ m' := by
  obtain ⟨free, hwf⟩ := h.wf
  have hpage := h.base_page
  have hlow := h.base_low
  obtain ⟨hbase, hlim⟩ := hroom.base_add hpage
  rcases boot_map_region_spec (h.fits hroom) hwf with herr | ⟨r, -, hrun, hdone⟩
  · have hnone : step d m (pa, size) = none := step_error herr
    rw [hnone] at hstep
    cases hstep
  have hsome : step d m (pa, size) = some ⟨r.s, m.base + ROUNDUP size 0x1000,
    ⟨m.base, pa, size⟩ :: m.reserved⟩ := step_ok hrun
  rw [hsome] at hstep
  cases hstep
  have hcovers : ∀ n, (regionOf d m pa size).Covers n ↔ m.base.toNat / 4096 ≤ n ∧
      n < m.base.toNat / 4096 + (size.toNat + 4095) / 4096 := by
    intro n
    show (_ ∧ n < _ + (ROUNDUP size 0x1000).toNat / 4096) ↔ _
    rw [hroom.roundup, Nat.mul_div_cancel _ (by omega)]
    rfl
  obtain ⟨taken, free', -, hwf', -, -⟩ := hdone.owned
  refine ⟨⟨free', hwf'⟩, ?_, ?_, ?_, ?_, ?_, ?_, ?_, ?_, ?_, ?_, ?_, ?_⟩
  · exact hlow.trans (by rw [hbase]; omega)
  · rw [hbase]
    exact hlim
  · rw [hbase]
    omega
  · exact (hdone.own 958).mpr h.window
  · exact fun i => (hdone.own i).trans (h.own i)
  · intro i hi
    refine (hdone.dir i ?_).trans (h.dir i hi)
    rcases id hi with hne | htab
    · exact .inl fun n hn he => hne (he ▸ h.covers_window hroom hn)
    · refine .inr ?_
      show table m.s d i ≠ none
      rw [table, h.dir i hi]
      exact htab
  · intro n hn hout hown
    refine (hdone.others n hn (fun hc => ?_) ((h.own _).mpr hown)).trans (h.frame n hn hout hown)
    exact outside_iff.mp hout (h.covers_window hroom hc)
  · intro r' hr'
    rcases List.mem_cons.mp hr' with rfl | hr'
    · exact hpage
    · exact h.aligned r' hr'
  · intro r' hr'
    rcases List.mem_cons.mp hr' with rfl | hr'
    · exact hlow
    · exact h.low r' hr'
  · intro r' hr'
    rw [hbase]
    rcases List.mem_cons.mp hr' with rfl | hr'
    · dsimp only
      omega
    · have := h.high r' hr'
      omega
  · refine List.pairwise_cons.mpr ⟨fun r' hr' a => ?_, h.apart⟩
    rintro ⟨⟨hin, -⟩, -, hin'⟩
    have := h.high r' hr'
    dsimp only at hin
    omega
  · intro r' hr' o ho
    rcases List.mem_cons.mp hr' with rfl | hr'
    · dsimp only at ho ⊢
      have hn : (m.base.toNat + o) / 4096 = m.base.toNat / 4096 + o / 4096 := by omega
      rw [hn]
      refine (hdone.mapped _ ((hcovers _).mpr ⟨by omega, by omega⟩)).trans ?_
      show some (PGNUM (pa + BitVec.ofNat 32 ((m.base.toNat / 4096 + o / 4096 -
        m.base.toNat / 4096) * 4096)), mmio_perm ||| PTE_P) = _
      rw [Nat.add_sub_cancel_left, PGNUM_add hroom.page]
      rfl
    · have hhigh := h.high r' hr'
      have hlow' := h.low r' hr'
      rw [MMIOLIM_toNat] at hlim
      rw [MMIOBASE_toNat] at hlow'
      refine (hdone.others _ (by omega) ?_ ?_).trans (h.mapped r' hr' o ho)
      · rw [hcovers]
        omega
      · have hw : (r'.base.toNat + o) / 4096 / 1024 = 958 := by
          have hb := h.base_high
          rw [MMIOLIM_toNat] at hb
          omega
        show Own m.s d _
        rw [hw]
        exact h.window

theorem Inv.kept (h : Inv d m₀ m) : Kept d m₀ m where
  aligned := h.aligned
  inside r hr := ⟨h.low r hr, (h.high r hr).trans h.base_high⟩
  apart := h.apart
  mapped := h.mapped
  others n hn hout := by
    by_cases hown : Own m₀.s d (n / 1024)
    · exact .inl (h.frame n hn hout hown)
    · -- a page of the window in which the directory shows its tables
      have hself₀ : table m₀.s d (n / 1024) = some d := not_not.mp hown
      have hself : table m.s d (n / 1024) = some d := not_not.mp fun hne => hown ((h.own _).mp hne)
      have hread : ∀ s, table s d (n / 1024) = some d →
          pageMap s d n = readPte (s.mem d (n % 1024)) := by
        intro s hs
        rw [pageMap, pteAt, entry, hs]
        rfl
      rw [hread m.s hself, hread m₀.s hself₀]
      by_cases hspare : n % 1024 ≠ 958 ∨ table m₀.s d (n % 1024) ≠ none
      · exact .inl (by rw [h.dir _ hspare])
      · rw [not_or, not_not, not_not] at hspare
        refine .inr ⟨hself₀, hspare.1.trans (by decide), ?_⟩
        rw [hread m₀.s hself₀, readPte]
        have hnone : pageOf (m₀.s.mem d (n % 1024)) = none := hspare.2
        rw [hnone]
        rfl

end

/-! ## Every sequence of calls -/

/-- In every run of calls for which there is room, the reservations stay in the window. -/
theorem mmio_reservations_stay_in_window (d : Nat) (free : List Nat) (s : Phys)
    (hwf : WellFormed s d free) (hown : Own s d (PDX MMIOBASE)) (calls : List (Word × Word))
    (m : Mmio) (hroom : Along (step d) Room ⟨s, MMIOBASE, []⟩ calls)
    (hrun : runFrom (step d) ⟨s, MMIOBASE, []⟩ calls = some m) :
    Kept d ⟨s, MMIOBASE, []⟩ m :=
  (runFrom_keeps (I := Inv d ⟨s, MMIOBASE, []⟩) (fun _ _ _ h hroom hstep => h.call hroom hstep)
    (Inv.start s hwf hown) hrun hroom).kept

theorem mmio_reservations_stay_in_window_one :
    ∃ m, runFrom (step 1) ⟨fourPages, MMIOBASE, []⟩ [(0xFEE00000, 0x1000)] = some m ∧
      Kept 1 ⟨fourPages, MMIOBASE, []⟩ m := by
  have hok : (runFrom (step 1) ⟨fourPages, MMIOBASE, []⟩ [(0xFEE00000, 0x1000)]).isSome = true := by
    decide +kernel
  obtain ⟨m, hm⟩ := Option.isSome_iff_exists.mp hok
  have hroom : Along (step 1) Room ⟨fourPages, MMIOBASE, []⟩ [(0xFEE00000, 0x1000)] := by
    refine ⟨⟨by decide, by decide⟩, ?_⟩
    split <;> trivial
  exact ⟨m, hm, mmio_reservations_stay_in_window 1 [2, 3] fourPages wellFormed_fourPages
    (own_fourPages (by decide)) _ m hroom hm⟩

/-- A size near 2^32 is rounded up to 0. The call maps nothing and returns the address of
a region that would end far beyond the window. -/
theorem mmio_reservation_leaves_window :
    ∃ m, runFrom (step 1) ⟨fourPages, MMIOBASE, []⟩ [(0, 0xFFFFF001)] = some m ∧
      ¬ Kept 1 ⟨fourPages, MMIOBASE, []⟩ m := by
  refine ⟨⟨fourPages, MMIOBASE, [⟨MMIOBASE, 0, 0xFFFFF001⟩]⟩, rfl, fun h => ?_⟩
  have hin := (h.inside _ (List.mem_singleton_self _)).2
  exact absurd hin (by decide)

end jos.mmio
