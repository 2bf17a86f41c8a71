import FpMemSched.Lib.Tables
import Mathlib.Algebra.Order.Ring.Nat

/-!
The table of the MMIO regions of a cell (`mmio.c`).

Where the regions lie is in one array and who handles an access in another, at the same index.
The regions are ordered by their start, so that the one an access falls into is found by binary
search. A region is put in or taken out by moving the entries behind it, one after the other.
-/

namespace FpMemSched.Mmio

open FpMemSched.Lib.Tables

/-- Arithmetic of `unsigned long`. -/
def u64 (x : ℕ) : ℕ := x % 2 ^ 64

structure MmioRegionLocation where
  start : ℕ
  size : ℕ
  deriving DecidableEq

/-- The arrays of a cell; `η` is the type of a handler with its argument. -/
structure Cell (η : Type*) where
  mmioLocations : ℕ → MmioRegionLocation
  mmioHandlers : ℕ → η
  numMmioRegions : ℕ
  maxMmioRegions : ℕ

variable {η : Type*}

def setStart (dst start : ℕ) (c : Cell η) : Cell η :=
  { c with
    mmioLocations :=
      Function.update c.mmioLocations dst { c.mmioLocations dst with start := start } }

def setSize (dst size : ℕ) (c : Cell η) : Cell η :=
  { c with
    mmioLocations :=
      Function.update c.mmioLocations dst { c.mmioLocations dst with size := size } }

def setHandler (dst : ℕ) (handler : η) (c : Cell η) : Cell η :=
  { c with mmioHandlers := Function.update c.mmioHandlers dst handler }

/-- The writes of `copy_region`, in order: the destination has size 0 while it is changed. -/
def copyRegion (src dst : ℕ) (c : Cell η) : Cell η :=
  let c := setSize dst 0 c
  let c := setStart dst (c.mmioLocations src).start c
  let c := setHandler dst (c.mmioHandlers src) c
  setSize dst (c.mmioLocations src).size c

/-- `for (index = 0; index < num_mmio_regions; index++)`, up to the first region that starts
after `start`. -/
def insertIndex (c : Cell η) (start : ℕ) : ℕ → ℕ → ℕ
  | 0, index => index
  | fuel + 1, index =>
    if index < c.numMmioRegions then
      if start < (c.mmioLocations index).start then index else insertIndex c start fuel (index + 1)
    else index

/-- `for (n = num_mmio_regions - 1; n > index; n--)` -/
def moveUp (index : ℕ) : ℕ → Cell η → Cell η
  | 0, c => c
  | n + 1, c => if index < n + 1 then moveUp index n (copyRegion n (n + 1) c) else c

/-- The list gets a dummy region at its end. -/
def grow (c : Cell η) : Cell η :=
  let c := setSize c.numMmioRegions 0 (setStart c.numMmioRegions (2 ^ 64 - 1) c)
  { c with numMmioRegions := c.numMmioRegions + 1 }

def mmioRegionRegister (start size : ℕ) (handler : η) (c : Cell η) : Cell η :=
  if c.maxMmioRegions ≤ c.numMmioRegions then c
  else
    let index := insertIndex c start c.numMmioRegions 0
    let c := grow c
    let c := moveUp index (c.numMmioRegions - 1) c
    setSize index size (setHandler index handler (setStart index start (setSize index 0 c)))

/-- The loop of `find_region`. The table has less than `2 ^ 31` entries, so that an index is
never read as -1. -/
def findLoop (c : Cell η) (address size : ℕ) : ℕ → ℕ → ℕ → Option ℕ
  | 0, _, _ => none
  | fuel + 1, rangeStart, rangeSize =>
    if 0 < rangeSize then
      let index := rangeStart + rangeSize / 2
      let region := c.mmioLocations index
      if address < region.start then findLoop c address size fuel rangeStart (index - rangeStart)
      else if u64 (region.start + region.size) < u64 (address + size) then
        findLoop c address size fuel (index + 1) (rangeSize - (index + 1 - rangeStart))
      else some index
    else none

def findRegion (c : Cell η) (address size : ℕ) : Option ℕ :=
  findLoop c address size c.numMmioRegions 0 c.numMmioRegions

/-- `for (; index < num_mmio_regions; index++)` The last turn reads the entry behind the
table. -/
def moveDown : ℕ → ℕ → Cell η → Cell η
  | 0, _, c => c
  | fuel + 1, index, c =>
    if index < c.numMmioRegions then moveDown fuel (index + 1) (copyRegion (index + 1) index c)
    else c

def mmioRegionUnregister (start : ℕ) (c : Cell η) : Cell η :=
  match findRegion c start 1 with
  | some index =>
    let c := moveDown c.numMmioRegions index c
    { c with numMmioRegions := c.numMmioRegions - 1 }
  | none => c

inductive Op (η : Type*)
  | register (start size : ℕ) (handler : η)
  | unregister (start : ℕ)

def step (c : Cell η) : Op η → Cell η
  | .register start size handler => mmioRegionRegister start size handler c
  | .unregister start => mmioRegionUnregister start c

/-! ### The registered regions -/

/-- A region with its handler. -/
structure Region (η : Type*) where
  start : ℕ
  size : ℕ
  handler : η

namespace Region

/-- An access lies in the region. -/
def Contains (x : Region η) (address size : ℕ) : Prop :=
  x.start ≤ address ∧ address + size ≤ x.start + x.size

instance (x : Region η) (address size : ℕ) : Decidable (x.Contains address size) :=
  inferInstanceAs (Decidable (_ ∧ _))

/-- Nonempty, with an end that is an address. -/
def Valid (x : Region η) : Prop := 0 < x.size ∧ x.start + x.size < 2 ^ 64

def Disjoint (x y : Region η) : Prop :=
  x.start + x.size ≤ y.start ∨ y.start + y.size ≤ x.start

end Region

/-- What is registered, in the order of the calls. A full table takes no more regions; an
address takes the region around it out. -/
def keep (max : ℕ) (held : List (Region η)) : Op η → List (Region η)
  | .register start size handler =>
    if held.length < max then held ++ [⟨start, size, handler⟩] else held
  | .unregister start => held.filter fun x => ¬ x.Contains start 1

/-- Only valid regions are registered, away from those that are there, and no address
overflows. -/
def Proper (held : List (Region η)) : Op η → Prop
  | .register start size handler =>
    (⟨start, size, handler⟩ : Region η).Valid ∧ ∀ y ∈ held, Region.Disjoint ⟨start, size, handler⟩ y
  | .unregister start => start + 1 < 2 ^ 64

/-- All operations of a sequence are proper. -/
def AllProper (max : ℕ) : List (Region η) → List (Op η) → Prop
  | _, [] => True
  | held, op :: ops => Proper held op ∧ AllProper max (keep max held op) ops

/-- The entry at an index, from both arrays. -/
def Cell.region (c : Cell η) (i : ℕ) : Region η :=
  ⟨(c.mmioLocations i).start, (c.mmioLocations i).size, c.mmioHandlers i⟩

def Cell.regions (c : Cell η) : List (Region η) := listed c.numMmioRegions c.region

/-! ### The loops on the entries -/

@[simp] lemma region_setStart (dst start : ℕ) (c : Cell η) :
    (setStart dst start c).region =
      Function.update c.region dst { c.region dst with start := start } := by
  funext i
  rcases eq_or_ne i dst with rfl | hi
  · simp [Cell.region, setStart]
  · simp [Cell.region, setStart, hi]

@[simp] lemma region_setSize (dst size : ℕ) (c : Cell η) :
    (setSize dst size c).region =
      Function.update c.region dst { c.region dst with size := size } := by
  funext i
  rcases eq_or_ne i dst with rfl | hi
  · simp [Cell.region, setSize]
  · simp [Cell.region, setSize, hi]

@[simp] lemma region_setHandler (dst : ℕ) (handler : η) (c : Cell η) :
    (setHandler dst handler c).region =
      Function.update c.region dst { c.region dst with handler := handler } := by
  funext i
  rcases eq_or_ne i dst with rfl | hi
  · simp [Cell.region, setHandler]
  · simp [Cell.region, setHandler, hi]

lemma region_copyRegion {src dst : ℕ} (h : src ≠ dst) (c : Cell η) :
    (copyRegion src dst c).region = Function.update c.region dst (c.region src) := by
  have hloc (c : Cell η) (i : ℕ) : (c.mmioLocations i).start = (c.region i).start ∧
      (c.mmioLocations i).size = (c.region i).size ∧ c.mmioHandlers i = (c.region i).handler :=
    ⟨rfl, rfl, rfl⟩
  simp [copyRegion, hloc, Function.update_of_ne h]

lemma moveUp_spec (index n : ℕ) (c : Cell η) :
    (moveUp index n c).region = shiftUp index n c.region ∧
      (moveUp index n c).numMmioRegions = c.numMmioRegions ∧
      (moveUp index n c).maxMmioRegions = c.maxMmioRegions := by
  induction n generalizing c with
  | zero => exact ⟨rfl, rfl, rfl⟩
  | succ n ih =>
    rw [moveUp, shiftUp]
    split
    · obtain ⟨hr, hn, hm⟩ := ih (copyRegion n (n + 1) c)
      rw [region_copyRegion (by omega)] at hr
      exact ⟨hr, hn, hm⟩
    · exact ⟨rfl, rfl, rfl⟩

lemma moveDown_spec (fuel index : ℕ) (c : Cell η) :
    (moveDown fuel index c).region = shiftDown c.numMmioRegions fuel index c.region ∧
      (moveDown fuel index c).numMmioRegions = c.numMmioRegions ∧
      (moveDown fuel index c).maxMmioRegions = c.maxMmioRegions := by
  induction fuel generalizing index c with
  | zero => exact ⟨rfl, rfl, rfl⟩
  | succ fuel ih =>
    rw [moveDown, shiftDown]
    split
    · obtain ⟨hr, hn, hm⟩ := ih (index + 1) (copyRegion (index + 1) index c)
      rw [region_copyRegion (by omega)] at hr
      exact ⟨hr, hn, hm⟩
    · exact ⟨rfl, rfl, rfl⟩

/-- The regions before the index start no later than `start`; the one at the index starts
later. -/
lemma insertIndex_spec (c : Cell η) (start : ℕ) {fuel index : ℕ}
    (hfuel : c.numMmioRegions - index ≤ fuel) (hle : index ≤ c.numMmioRegions)
    (hbefore : ∀ j < index, (c.region j).start ≤ start) :
    let k := insertIndex c start fuel index
    k ≤ c.numMmioRegions ∧ (∀ j < k, (c.region j).start ≤ start) ∧
      (k < c.numMmioRegions → start < (c.region k).start) := by
  induction fuel generalizing index with
  | zero => exact ⟨hle, hbefore, fun h => by simp only [insertIndex] at h; omega⟩
  | succ fuel ih =>
    rw [insertIndex]
    by_cases hi : index < c.numMmioRegions
    · by_cases hs : start < (c.mmioLocations index).start
      · simp only [hi, hs, if_true]
        exact ⟨hle, hbefore, fun _ => hs⟩
      · simp only [hi, hs, if_true, if_false]
        refine ih (by omega) hi fun j hj => ?_
        rcases Nat.lt_succ_iff_lt_or_eq.mp hj with hj | rfl
        · exact hbefore j hj
        · exact Nat.le_of_not_lt hs
    · simp only [hi, if_false]
      exact ⟨hle, hbefore, fun h => absurd h not_false⟩

/-! ### Binary search -/

/-- The regions are nonempty and follow each other. -/
structure Ordered (l : List (Region η)) : Prop where
  pairwise : l.Pairwise fun x y => x.start + x.size ≤ y.start
  valid : ∀ x ∈ l, x.Valid

lemma Ordered.lt {c : Cell η} (h : Ordered c.regions) {i j : ℕ} (hij : i < j)
    (hj : j < c.numMmioRegions) : (c.region i).start + (c.region i).size ≤ (c.region j).start :=
  pairwise_listed.mp h.pairwise i j hij hj

/-- What the search has left out does not contain the access. -/
lemma findLoop_spec {c : Cell η} (h : Ordered c.regions) {address size : ℕ} (hsize : 0 < size)
    (haddr : address + size < 2 ^ 64) {fuel rangeStart rangeSize : ℕ} (hfuel : rangeSize ≤ fuel)
    (hle : rangeStart + rangeSize ≤ c.numMmioRegions)
    (hinside : ∀ i < c.numMmioRegions, (c.region i).Contains address size →
      rangeStart ≤ i ∧ i < rangeStart + rangeSize) :
    match findLoop c address size fuel rangeStart rangeSize with
    | some i => i < c.numMmioRegions ∧ (c.region i).Contains address size
    | none => ∀ i < c.numMmioRegions, ¬ (c.region i).Contains address size := by
  induction fuel generalizing rangeStart rangeSize with
  | zero =>
    intro i hi hc
    have := hinside i hi hc
    omega
  | succ fuel ih =>
    rw [findLoop]
    by_cases hpos : 0 < rangeSize
    · simp only [hpos, if_true]
      obtain ⟨index, hindex⟩ : ∃ index, index = rangeStart + rangeSize / 2 := ⟨_, rfl⟩
      rw [← hindex]
      have hlt : index < rangeStart + rangeSize := by omega
      have hvalid := h.valid _ (mem_listed.mpr ⟨index, by omega, rfl⟩)
      have hend : u64 ((c.mmioLocations index).start + (c.mmioLocations index).size) =
          (c.region index).start + (c.region index).size := Nat.mod_eq_of_lt hvalid.2
      have haccess : u64 (address + size) = address + size := Nat.mod_eq_of_lt haddr
      by_cases hleft : address < (c.mmioLocations index).start
      · simp only [hleft, if_true]
        refine ih (by omega) (by omega) fun i hi hc => ?_
        have hi' := hinside i hi hc
        refine ⟨hi'.1, ?_⟩
        by_contra hge
        rcases Nat.eq_or_lt_of_le (show index ≤ i by omega) with rfl | hii
        · exact absurd hc.1 (Nat.not_le_of_lt hleft)
        · have := h.lt hii hi
          have h₁ := hc.1
          have h₂ : (c.region index).start = (c.mmioLocations index).start := rfl
          omega
      · by_cases hright : (c.region index).start + (c.region index).size < address + size
        · simp only [hleft, if_false, hend, haccess, hright, if_true]
          refine ih (by omega) (by omega) fun i hi hc => ?_
          have hi' := hinside i hi hc
          refine ⟨?_, by omega⟩
          by_contra hge
          rcases Nat.eq_or_lt_of_le (show i ≤ index by omega) with rfl | hii
          · exact absurd hc.2 (Nat.not_le_of_lt hright)
          · have := h.lt hii (by omega)
            have h₁ := hc.2
            have h₂ : (c.region index).start = (c.mmioLocations index).start := rfl
            omega
        · simp only [hleft, if_false, hend, haccess, hright]
          exact ⟨by omega, Nat.le_of_not_lt hleft, Nat.le_of_not_lt hright⟩
    · simp only [hpos, if_false]
      intro i hi hc
      have := hinside i hi hc
      omega

lemma findRegion_spec {c : Cell η} (h : Ordered c.regions) {address size : ℕ} (hsize : 0 < size)
    (haddr : address + size < 2 ^ 64) :
    match findRegion c address size with
    | some i => i < c.numMmioRegions ∧ (c.region i).Contains address size
    | none => ∀ i < c.numMmioRegions, ¬ (c.region i).Contains address size :=
  findLoop_spec h hsize haddr (Nat.le_refl _) (by omega) fun i hi _ => ⟨by omega, by omega⟩

/-- At most one region contains an access. -/
lemma Ordered.contains_unique {c : Cell η} (h : Ordered c.regions) {address size i j : ℕ}
    (hsize : 0 < size) (hi : i < c.numMmioRegions) (hj : j < c.numMmioRegions)
    (hci : (c.region i).Contains address size) (hcj : (c.region j).Contains address size) :
    i = j := by
  have hci₁ := hci.1
  have hci₂ := hci.2
  have hcj₁ := hcj.1
  have hcj₂ := hcj.2
  rcases Nat.lt_trichotomy i j with hlt | rfl | hlt
  · have := h.lt hlt hj
    omega
  · rfl
  · have := h.lt hlt hi
    omega

lemma findRegion_eq_some {c : Cell η} (h : Ordered c.regions) {address size i : ℕ}
    (hsize : 0 < size) (haddr : address + size < 2 ^ 64) :
    findRegion c address size = some i ↔
      i < c.numMmioRegions ∧ (c.region i).Contains address size := by
  have hspec := findRegion_spec h hsize haddr
  constructor
  · intro hi
    rw [hi] at hspec
    exact hspec
  · rintro ⟨hi, hc⟩
    cases hf : findRegion c address size with
    | none =>
      rw [hf] at hspec
      exact absurd hc (hspec i hi)
    | some j =>
      rw [hf] at hspec
      rw [h.contains_unique hsize hi hspec.1 hc hspec.2]

/-! ### Registration -/

@[simp] lemma num_grow (c : Cell η) : (grow c).numMmioRegions = c.numMmioRegions + 1 := rfl

/-- The dummy region stands behind the others. -/
lemma listed_grow (c : Cell η) : listed c.numMmioRegions (grow c).region = c.regions := by
  refine listed_congr fun j hj => ?_
  have hr : (grow c).region = (setSize c.numMmioRegions 0
    (setStart c.numMmioRegions (2 ^ 64 - 1) c)).region := rfl
  rw [hr, region_setSize, region_setStart, Function.update_of_ne (by omega),
    Function.update_of_ne (by omega)]

/-- Where a region goes into the table. -/
lemma regions_register {c : Cell η} (hroom : c.numMmioRegions < c.maxMmioRegions) (start size : ℕ)
    (handler : η) :
    ∃ l r, c.regions = l ++ r ∧
      (mmioRegionRegister start size handler c).regions = l ++ ⟨start, size, handler⟩ :: r ∧
      (∀ y ∈ l, y.start ≤ start) ∧ (∀ y ∈ r.head?, start < y.start) := by
  obtain ⟨hk, hbefore, hafter⟩ := insertIndex_spec c start (Nat.le_refl _) (Nat.zero_le _)
    (fun j hj => absurd hj (Nat.not_lt_zero j))
  rw [Nat.sub_zero] at hk hbefore hafter
  rw [mmioRegionRegister, if_neg (by omega)]
  generalize insertIndex c start c.numMmioRegions 0 = k at hk hbefore hafter
  obtain ⟨l, r, hlr, hlen, hins⟩ := @listed_insert _ (grow c).region k _ hk ⟨start, size, handler⟩
  rw [listed_grow] at hlr
  have hget (j : ℕ) (hj : j < c.numMmioRegions) : (l ++ r)[j]? = some (c.region j) := by
    rw [← hlr]
    exact getElem?_listed hj
  refine ⟨l, r, hlr, ?_, fun y hy => ?_, fun y hy => ?_⟩
  · obtain ⟨hr, hn, -⟩ := moveUp_spec k c.numMmioRegions (grow c)
    rw [← hins, ← hr]
    refine congrArg₂ listed hn ?_
    simp
  · obtain ⟨j, hj, rfl⟩ := List.mem_iff_getElem.mp hy
    have := hget j (by omega)
    rw [List.getElem?_append_left hj, List.getElem?_eq_getElem hj] at this
    rw [Option.some.inj this]
    exact hbefore j (by omega)
  · have hrl : r.length = c.numMmioRegions - k := by
      have := congrArg List.length hlr
      rw [List.length_append, Cell.regions, length_listed] at this
      omega
    have hpos : 0 < r.length := by
      cases r with
      | nil => cases hy
      | cons => exact Nat.succ_pos _
    have := hget k (by omega)
    rw [List.getElem?_append_right (by omega), hlen, Nat.sub_self, ← List.head?_eq_getElem?,
      Option.mem_def.mp hy] at this
    rw [Option.some.inj this]
    exact hafter (by omega)

/-- A region fits where the order of the starts puts it. -/
lemma Ordered.insert {l r : List (Region η)} {x : Region η} (h : Ordered (l ++ r))
    (hx : x.Valid) (hdis : ∀ y ∈ l ++ r, x.Disjoint y) (hl : ∀ y ∈ l, y.start ≤ x.start)
    (hr : ∀ y ∈ r.head?, x.start < y.start) : Ordered (l ++ x :: r) := by
  obtain ⟨hpl, hpr, hlr⟩ := List.pairwise_append.mp h.pairwise
  have hstart : ∀ y ∈ r, x.start < y.start := by
    cases r with
    | nil => simp
    | cons z r =>
      have hz := hr z rfl
      intro y hy
      rcases List.mem_cons.mp hy with rfl | hy
      · exact hz
      · have := (List.pairwise_cons.mp hpr).1 y hy
        omega
  refine ⟨List.pairwise_append.mpr ⟨hpl, List.pairwise_cons.mpr ⟨fun y hy => ?_, hpr⟩, ?_⟩, ?_⟩
  · have := hstart y hy
    rcases hdis y (List.mem_append_right l hy) with hd | hd <;> omega
  · intro y hy z hz
    rcases List.mem_cons.mp hz with rfl | hz
    · have := hl y hy
      have := hx.1
      rcases hdis y (List.mem_append_left r hy) with hd | hd <;> omega
    · exact hlr y hy z hz
  · intro y hy
    rcases List.mem_append.mp hy with hy | hy
    · exact h.valid y (List.mem_append_left r hy)
    · rcases List.mem_cons.mp hy with rfl | hy
      · exact hx
      · exact h.valid y (List.mem_append_right l hy)

/-- Where a region leaves the table. -/
lemma regions_unregister {c : Cell η} {start i : ℕ} (hf : findRegion c start 1 = some i)
    (hi : i < c.numMmioRegions) :
    ∃ l r, c.regions = l ++ c.region i :: r ∧ (mmioRegionUnregister start c).regions = l ++ r := by
  obtain ⟨l, r, hlr, -, hrem⟩ := @listed_remove _ c.region i _ c.numMmioRegions hi (by omega)
  refine ⟨l, r, hlr, ?_⟩
  obtain ⟨hr, hn, -⟩ := moveDown_spec c.numMmioRegions i c
  rw [← hrem, ← hr, mmioRegionUnregister, hf]
  exact congrArg₂ listed (congrArg (· - 1) hn) rfl

lemma maxMmioRegions_step (c : Cell η) (op : Op η) :
    (step c op).maxMmioRegions = c.maxMmioRegions := by
  cases op with
  | register start size handler =>
    rw [step, mmioRegionRegister]
    split
    · rfl
    · exact (moveUp_spec _ _ (grow c)).2.2
  | unregister start =>
    rw [step, mmioRegionUnregister]
    split
    · exact (moveDown_spec _ _ c).2.2
    · rfl

/-! ### The table of a run -/

/-- The table is in order and holds what is registered. -/
structure Table (c : Cell η) (held : List (Region η)) : Prop where
  ordered : Ordered c.regions
  perm : c.regions.Perm held

lemma Table.length_held {c : Cell η} {held : List (Region η)} (h : Table c held) :
    held.length = c.numMmioRegions := by
  rw [← h.perm.length_eq, Cell.regions, length_listed]

lemma table_register {c : Cell η} {held : List (Region η)} {start size : ℕ} {handler : η}
    (h : Table c held) (hp : Proper held (.register start size handler)) :
    Table (mmioRegionRegister start size handler c)
      (keep c.maxMmioRegions held (.register start size handler)) := by
  have hlen := h.length_held
  rw [keep]
  by_cases hroom : c.numMmioRegions < c.maxMmioRegions
  · obtain ⟨l, r, hc, hc', hl, hr⟩ := regions_register hroom start size handler
    have hordered := h.ordered
    have hperm := h.perm
    rw [hc] at hordered hperm
    rw [if_pos (by omega)]
    refine ⟨?_, ?_⟩
    · rw [hc']
      exact hordered.insert hp.1 (fun y hy => hp.2 y (hperm.mem_iff.mp hy)) hl hr
    · rw [hc']
      exact List.perm_middle.trans ((hperm.cons _).trans (List.perm_append_singleton _ _).symm)
  · rw [if_neg (by omega), mmioRegionRegister, if_pos (by omega)]
    exact h

/-- The region around the address goes, and no other. -/
lemma regions_unregister_eq {c : Cell η} (h : Ordered c.regions) {start : ℕ}
    (hstart : start + 1 < 2 ^ 64) :
    (mmioRegionUnregister start c).regions =
      c.regions.filter fun x => ¬ x.Contains start 1 := by
  have hspec := findRegion_spec h Nat.one_pos hstart
  cases hf : findRegion c start 1 with
  | none =>
    rw [hf] at hspec
    rw [mmioRegionUnregister, hf]
    refine (List.filter_eq_self.mpr fun x hx => ?_).symm
    obtain ⟨j, hj, rfl⟩ := mem_listed.mp hx
    simpa using hspec j hj
  | some i =>
    rw [hf] at hspec
    obtain ⟨hi, hc⟩ := hspec
    obtain ⟨l, r, hlr, hrem⟩ := regions_unregister hf hi
    have hp := h.pairwise
    rw [hlr] at hp
    obtain ⟨-, hpr, hl⟩ := List.pairwise_append.mp hp
    rw [hrem, hlr, List.filter_append, List.filter_cons_of_neg (by simpa using hc)]
    have hc₁ := hc.1
    have hc₂ := hc.2
    congr 1
    · refine (List.filter_eq_self.mpr fun y hy => ?_).symm
      have := hl y hy _ List.mem_cons_self
      refine decide_eq_true fun hy => ?_
      have hy₁ := hy.1
      have hy₂ := hy.2
      omega
    · refine (List.filter_eq_self.mpr fun y hy => ?_).symm
      have := (List.pairwise_cons.mp hpr).1 y hy
      refine decide_eq_true fun hy => ?_
      have hy₁ := hy.1
      have hy₂ := hy.2
      omega

lemma table_step {c : Cell η} {held : List (Region η)} {op : Op η} (h : Table c held)
    (hp : Proper held op) : Table (step c op) (keep c.maxMmioRegions held op) := by
  cases op with
  | register start size handler => exact table_register h hp
  | unregister start =>
    have hr := regions_unregister_eq h.ordered hp
    refine ⟨⟨?_, fun x hx => ?_⟩, ?_⟩
    · rw [step, hr]
      exact h.ordered.pairwise.filter _
    · rw [step, hr] at hx
      exact h.ordered.valid x (List.mem_of_mem_filter hx)
    · rw [step, hr]
      exact h.perm.filter _

lemma table_run {c : Cell η} {held : List (Region η)} {ops : List (Op η)} (h : Table c held)
    (hp : AllProper c.maxMmioRegions held ops) :
    Table (ops.foldl step c) (ops.foldl (keep c.maxMmioRegions) held) := by
  induction ops generalizing c held with
  | nil => exact h
  | cons op ops ih =>
    have ih := ih (table_step h hp.1)
    rw [maxMmioRegions_step] at ih
    exact ih hp.2

/-- **The dispatch table of a cell.** After any proper sequence of operations on a cell without
regions, the table is ordered by start and holds exactly what is registered; a search finds the
region that contains an access, if there is one; and the start of a region takes out that
region only. -/
theorem dispatch_table (c₀ : Cell η) (ops : List (Op η)) (hempty : c₀.numMmioRegions = 0)
    (hops : AllProper c₀.maxMmioRegions [] ops) :
    let c := ops.foldl step c₀
    let held := ops.foldl (keep c₀.maxMmioRegions) []
    c.regions.Pairwise (fun x y => x.start < y.start) ∧ c.regions.Perm held ∧
    (∀ address size, 0 < size → address + size < 2 ^ 64 →
      (∀ i x, c.regions[i]? = some x → x.Contains address size →
        findRegion c address size = some i) ∧
      ((∀ x ∈ held, ¬ x.Contains address size) → findRegion c address size = none)) ∧
    (∀ x ∈ held, ∃ l r, c.regions = l ++ x :: r ∧
      (mmioRegionUnregister x.start c).regions = l ++ r) := by
  intro c held
  have hnil : c₀.regions = [] := by
    rw [Cell.regions, hempty]
    rfl
  have htable : Table c held :=
    table_run ⟨⟨by rw [hnil]; exact .nil, by simp [hnil]⟩, by rw [hnil]⟩ hops
  have hmem {x : Region η} (hx : x ∈ held) : ∃ i < c.numMmioRegions, c.region i = x :=
    mem_listed.mp (htable.perm.mem_iff.mpr hx)
  refine ⟨?_, htable.perm, fun address size hsize haddr => ⟨fun i x hi hx => ?_, fun hno => ?_⟩,
    fun x hx => ?_⟩
  · refine htable.ordered.pairwise.imp_of_mem fun hx _ hxy => ?_
    have := (htable.ordered.valid _ hx).1
    omega
  · have hlt : i < c.numMmioRegions := by
      have := (List.getElem?_eq_some_iff.mp hi).1
      rwa [Cell.regions, length_listed] at this
    have hreg : c.region i = x := Option.some.inj ((getElem?_listed hlt).symm.trans hi)
    exact (findRegion_eq_some htable.ordered hsize haddr).mpr ⟨hlt, hreg ▸ hx⟩
  · cases hf : findRegion c address size with
    | none => rfl
    | some i =>
      obtain ⟨hi, hc⟩ := (findRegion_eq_some htable.ordered hsize haddr).mp hf
      exact absurd hc (hno _ (htable.perm.mem_iff.mp (mem_listed.mpr ⟨i, hi, rfl⟩)))
  · obtain ⟨i, hi, rfl⟩ := hmem hx
    have hvalid := htable.ordered.valid _ (mem_listed.mpr ⟨i, hi, rfl⟩)
    have h₁ := hvalid.1
    have h₂ := hvalid.2
    refine regions_unregister ((findRegion_eq_some htable.ordered Nat.one_pos ?_).mpr ⟨hi, ?_⟩) hi
    · omega
    · exact ⟨Nat.le_refl _, by omega⟩

/-- Three regions for a table of two, and one of them out again. -/
theorem dispatch_table_full :
    let c := [Op.register 0x2000 0x10 'a', .register 0x1000 8 'b', .register 0x3000 1 'c',
      .unregister 0x1000].foldl step ⟨fun _ => ⟨0, 0⟩, fun _ => 'z', 0, 2⟩
    c.regions.Perm [⟨0x2000, 0x10, 'a'⟩] := by
  refine (dispatch_table (⟨fun _ => ⟨0, 0⟩, fun _ => 'z', 0, 2⟩ : Cell Char)
    [.register 0x2000 0x10 'a', .register 0x1000 8 'b', .register 0x3000 1 'c',
      .unregister 0x1000] rfl ?_).2.1
  simp [AllProper, Proper, keep, Region.Valid, Region.Disjoint]

end FpMemSched.Mmio
