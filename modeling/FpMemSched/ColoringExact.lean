import FpMemSched.Coloring
import Mathlib.Algebra.BigOperators.Ring.List
import Mathlib.Data.Nat.ModEq
import Mathlib.Tactic.Ring

/-!
What a coloured region maps.

Without overflow the fragments of a region are disjoint, lie one after the other in the guest,
and hold the units of the region's colours in each row that is walked over. The number of rows
is cut to an `int`: from `2 ^ 31` rows on the walk covers less than the region, unless the
region has no colour at all.
-/

namespace FpMemSched.ColoringExact

open FpMemSched.Lib.Masks FpMemSched.Coloring

/-- The regions and descriptions without overflow in 64 bits. -/
structure Fits (d : ColorDesc) (colMem : MemoryColored) : Prop where
  unit : 0 < d.fragmentUnitSize
  dvd : d.fragmentUnitSize ∣ d.fragmentUnitOffset
  colors : d.maxColors ≤ 64
  offset : d.fragmentUnitOffset < 2 ^ 64
  phys : colMem.memory.physStart + colMem.memory.size < 2 ^ 64
  virt : colMem.memory.virtStart + colMem.memory.size < 2 ^ 64

variable {d : ColorDesc} {colMem : MemoryColored}

lemma Fits.offset_eq (h : Fits d colMem) :
    d.fragmentUnitOffset = d.maxColors * d.fragmentUnitSize :=
  (Nat.div_mul_cancel h.dvd).symm

lemma rows_le (d : ColorDesc) (size : ℕ) : rows d size ≤ size / d.fragmentUnitOffset := by
  simp only [rows]
  generalize size / d.fragmentUnitOffset = q
  split_ifs <;> omega

lemma rows_eq_iff (d : ColorDesc) (size : ℕ) :
    rows d size = size / d.fragmentUnitOffset ↔ size / d.fragmentUnitOffset < 2 ^ 31 := by
  simp only [rows]
  generalize size / d.fragmentUnitOffset = q
  split_ifs <;> omega

lemma rows_mul_le (d : ColorDesc) (size : ℕ) : rows d size * d.fragmentUnitOffset ≤ size :=
  calc rows d size * d.fragmentUnitOffset
      ≤ size / d.fragmentUnitOffset * d.fragmentUnitOffset :=
        Nat.mul_le_mul_right _ (rows_le d size)
    _ ≤ size := Nat.div_mul_le_self _ _

/-! ### Where the fragments lie -/

/-- The physical start and the size of a fragment. -/
def physOf (d : ColorDesc) (mem : Memory) (c : ℕ × ℤ × ℤ) : ℕ × ℕ :=
  (u64 (mem.physStart + c.2.1.toNat * d.fragmentUnitSize + c.1 * d.fragmentUnitOffset),
    u64 ((c.2.2 - c.2.1 + 1).toNat * d.fragmentUnitSize))

/-- The cursor does not move the physical side. -/
lemma map_place (d : ColorDesc) (mem : Memory) (virtStart : ℕ) (l : List (ℕ × ℤ × ℤ)) :
    (place d mem virtStart l).map (fun m => (m.physStart, m.size)) = l.map (physOf d mem) := by
  induction l generalizing virtStart with
  | nil => rfl
  | cons c l ih =>
    rw [place, List.map_cons, List.map_cons, ih]
    rfl

/-- The cuts of a region, as numbers. -/
def natCuts (R : ℕ) (bs : List (ℕ × ℕ)) : List (ℕ × ℤ × ℤ) :=
  (List.range R).flatMap fun r => bs.map fun b => (r, (b.1 : ℤ), (b.2 : ℤ))

lemma cuts_spec (d : ColorDesc) (colMem : MemoryColored) :
    ∃ bs, Blocks (getMask d.maxColors colMem.colors fun _ => false) d.maxColors 0 bs ∧
      cuts d (fun _ => false) colMem = natCuts (rows d colMem.memory.size) bs := by
  obtain ⟨bs, hbs, he⟩ := rangesOf_spec d (fun _ => false) colMem.colors
  refine ⟨bs, hbs, ?_⟩
  rw [cuts, natCuts, he]
  simp only [List.map_map]
  rfl

lemma mem_natCuts {R : ℕ} {bs : List (ℕ × ℕ)} {c : ℕ × ℤ × ℤ} :
    c ∈ natCuts R bs ↔ ∃ r < R, ∃ b ∈ bs, c = (r, (b.1 : ℤ), (b.2 : ℤ)) := by
  simp only [natCuts, List.mem_flatMap, List.mem_range, List.mem_map]
  constructor
  · rintro ⟨r, hr, b, hb, rfl⟩
    exact ⟨r, hr, b, hb, rfl⟩
  · rintro ⟨r, hr, b, hb, rfl⟩
    exact ⟨r, hr, b, hb, rfl⟩

lemma block_len {i j : ℕ} (f : ℕ) (hij : i ≤ j) : i * f + (j - i + 1) * f = (j + 1) * f := by
  rw [← Nat.add_mul]
  congr 1
  omega

/-- The end of a block lies in its row, and the row in the region. -/
lemma Fits.end_le (h : Fits d colMem) {r j : ℕ} (hr : r < rows d colMem.memory.size)
    (hj : j < d.maxColors) :
    (j + 1) * d.fragmentUnitSize ≤ d.fragmentUnitOffset ∧
      r * d.fragmentUnitOffset + d.fragmentUnitOffset ≤ colMem.memory.size := by
  constructor
  · rw [h.offset_eq]
    exact Nat.mul_le_mul_right _ hj
  · calc r * d.fragmentUnitOffset + d.fragmentUnitOffset
        = (r + 1) * d.fragmentUnitOffset := (Nat.succ_mul _ _).symm
      _ ≤ rows d colMem.memory.size * d.fragmentUnitOffset := Nat.mul_le_mul_right _ hr
      _ ≤ colMem.memory.size := rows_mul_le d _

/-- Nothing overflows. -/
lemma Fits.physOf_eq (h : Fits d colMem) {r i j : ℕ} (hr : r < rows d colMem.memory.size)
    (hij : i ≤ j) (hj : j < d.maxColors) :
    physOf d colMem.memory (r, (i : ℤ), (j : ℤ)) =
      (colMem.memory.physStart + r * d.fragmentUnitOffset + i * d.fragmentUnitSize,
        (j - i + 1) * d.fragmentUnitSize) := by
  obtain ⟨hrow, hreg⟩ := h.end_le hr hj
  have hphys := h.phys
  have hsum := block_len d.fragmentUnitSize hij
  have hlen : ((j : ℤ) - (i : ℤ) + 1).toNat = j - i + 1 := by omega
  simp only [physOf, Int.toNat_natCast, hlen, u64, Prod.mk.injEq]
  constructor
  · rw [Nat.mod_eq_of_lt (by omega)]
    omega
  · exact Nat.mod_eq_of_lt (by omega)

/-- The region maps the physical byte `a`. -/
def Holds (m : Memory) (a : ℕ) : Prop := m.physStart ≤ a ∧ a < m.physStart + m.size

/-- Byte `x` of a row belongs to a colour of the region. -/
def Colored (d : ColorDesc) (colMem : MemoryColored) (x : ℕ) : Prop :=
  colMem.colors.testBit (d.maxColors - 1 - x / d.fragmentUnitSize) = true

lemma exists_holds_iff (l : List Memory) (a : ℕ) :
    (∃ m ∈ l, Holds m a) ↔
      ∃ q ∈ l.map (fun m => (m.physStart, m.size)), q.1 ≤ a ∧ a < q.1 + q.2 := by
  simp [Holds]

/-- A byte of a row lies in a block exactly if its unit does. -/
lemma in_block_iff {f i j x : ℕ} (hf : 0 < f) (hij : i ≤ j) :
    i * f ≤ x ∧ x < i * f + (j - i + 1) * f ↔ i ≤ x / f ∧ x / f ≤ j := by
  rw [block_len f hij, ← Nat.le_div_iff_mul_le hf, ← Nat.div_lt_iff_lt_mul hf]
  omega

/-- The bytes the walk covers. -/
theorem holds_fragments_iff (h : Fits d colMem) (a : ℕ) :
    (∃ m ∈ fragments d colMem, Holds m a) ↔
      ∃ r < rows d colMem.memory.size, ∃ x < d.fragmentUnitOffset, Colored d colMem x ∧
        a = colMem.memory.physStart + r * d.fragmentUnitOffset + x := by
  obtain ⟨bs, hbs, hcuts⟩ := cuts_spec d colMem
  rw [exists_holds_iff, fragments, map_place, hcuts]
  simp only [List.mem_map, mem_natCuts]
  constructor
  · rintro ⟨_, ⟨_, ⟨r, hr, b, hb, rfl⟩, rfl⟩, hlo, hhi⟩
    obtain ⟨-, hij, hj⟩ := hbs.bounds b hb
    rw [h.physOf_eq hr hij hj] at hlo hhi
    simp only at hlo hhi
    obtain ⟨hrow, -⟩ := h.end_le hr hj
    obtain ⟨x, rfl⟩ : ∃ x, a = colMem.memory.physStart + r * d.fragmentUnitOffset + x :=
      ⟨a - (colMem.memory.physStart + r * d.fragmentUnitOffset), by omega⟩
    have hx : b.1 ≤ x / d.fragmentUnitSize ∧ x / d.fragmentUnitSize ≤ b.2 :=
      (in_block_iff h.unit hij).mp ⟨by omega, by omega⟩
    have hset := (hbs.mem_iff (Nat.zero_le _)).mp ⟨b, hb, hx⟩
    rw [getMask_eq, if_pos hset.1] at hset
    refine ⟨r, hr, x, ?_, hset.2, rfl⟩
    have := block_len d.fragmentUnitSize hij
    omega
  · rintro ⟨r, hr, x, hx, hcol, rfl⟩
    have hlt : x / d.fragmentUnitSize < d.maxColors := by
      rw [Nat.div_lt_iff_lt_mul h.unit, ← h.offset_eq]
      exact hx
    obtain ⟨b, hb, hlo, hhi⟩ := (hbs.mem_iff (Nat.zero_le (x / d.fragmentUnitSize))).mpr
      ⟨hlt, by rw [getMask_eq, if_pos hlt]; exact hcol⟩
    obtain ⟨-, hij, hj⟩ := hbs.bounds b hb
    refine ⟨_, ⟨_, ⟨r, hr, b, hb, rfl⟩, rfl⟩, ?_⟩
    rw [h.physOf_eq hr hij hj]
    have := (in_block_iff h.unit hij).mpr ⟨hlo, hhi⟩
    simp only
    omega

/-- The fragments come in the order of their physical addresses and do not overlap. -/
theorem fragments_pairwise (h : Fits d colMem) :
    (fragments d colMem).Pairwise fun a b => a.physStart + a.size ≤ b.physStart := by
  obtain ⟨bs, hbs, hcuts⟩ := cuts_spec d colMem
  have hmap : ((fragments d colMem).map fun m => (m.physStart, m.size)).Pairwise
      fun p q => p.1 + p.2 ≤ q.1 := by
    rw [fragments, map_place, hcuts, List.pairwise_map, natCuts, List.pairwise_flatMap]
    refine ⟨fun r hr => ?_, ?_⟩
    · -- within a row
      rw [List.pairwise_map]
      refine hbs.pairwise.imp_of_mem fun {b c} hb hc hbc => ?_
      have hr := List.mem_range.mp hr
      obtain ⟨-, hij, hj⟩ := hbs.bounds b hb
      obtain ⟨-, hij', hj'⟩ := hbs.bounds c hc
      rw [h.physOf_eq hr hij hj, h.physOf_eq hr hij' hj']
      have hle : (b.2 + 1) * d.fragmentUnitSize ≤ c.1 * d.fragmentUnitSize :=
        Nat.mul_le_mul_right _ (by omega)
      have hsum := block_len d.fragmentUnitSize hij
      simp only
      omega
    · -- from one row to a later one
      refine List.pairwise_lt_range.imp_of_mem fun {r r'} hr hr' hlt => ?_
      have hr := List.mem_range.mp hr
      have hr' := List.mem_range.mp hr'
      intro _ hb _ hc
      obtain ⟨b, hb', rfl⟩ := List.mem_map.mp hb
      obtain ⟨c, hc', rfl⟩ := List.mem_map.mp hc
      obtain ⟨-, hij, hj⟩ := hbs.bounds b hb'
      obtain ⟨-, hij', hj'⟩ := hbs.bounds c hc'
      rw [h.physOf_eq hr hij hj, h.physOf_eq hr' hij' hj']
      obtain ⟨hrow, -⟩ := h.end_le hr hj
      have hsum := block_len d.fragmentUnitSize hij
      have hnext : (r + 1) * d.fragmentUnitOffset ≤ r' * d.fragmentUnitOffset :=
        Nat.mul_le_mul_right _ hlt
      rw [Nat.succ_mul] at hnext
      simp only
      omega
  exact List.pairwise_map.mp hmap

/-! ### The guest's view -/

/-- The regions follow one another in the guest, from `v` on. -/
def Contiguous : ℕ → List Memory → Prop
  | _, [] => True
  | v, m :: ms => m.virtStart = v ∧ Contiguous (v + m.size) ms

/-- The room a list of cuts takes. -/
def span (d : ColorDesc) (mem : Memory) (l : List (ℕ × ℤ × ℤ)) : ℕ :=
  (l.map fun c => (physOf d mem c).2).sum

lemma contiguous_place (d : ColorDesc) (mem : Memory) {v : ℕ} {l : List (ℕ × ℤ × ℤ)}
    (h : v + span d mem l < 2 ^ 64) : Contiguous v (place d mem v l) := by
  induction l generalizing v with
  | nil => trivial
  | cons c l ih =>
    have hspan : span d mem (c :: l) = (physOf d mem c).2 + span d mem l := by
      simp [span]
    have hsize : (fragment d mem c.1 v c.2).size = (physOf d mem c).2 := rfl
    refine ⟨rfl, ?_⟩
    rw [u64, Nat.mod_eq_of_lt (by omega)]
    exact ih (by omega)

/-- A block takes no more than its row. -/
lemma size_physOf (hd : d.fragmentUnitOffset < 2 ^ 64) (mem : Memory) {r i j : ℕ} (hij : i ≤ j)
    (hj : j < d.maxColors) :
    (physOf d mem (r, (i : ℤ), (j : ℤ))).2 = (j - i + 1) * d.fragmentUnitSize := by
  have hlen : ((j : ℤ) - (i : ℤ) + 1).toNat = j - i + 1 := by omega
  have hle : (j - i + 1) * d.fragmentUnitSize ≤ d.fragmentUnitOffset :=
    calc (j - i + 1) * d.fragmentUnitSize
        ≤ d.maxColors * d.fragmentUnitSize := Nat.mul_le_mul_right _ (by omega)
      _ ≤ d.fragmentUnitOffset := Nat.div_mul_le_self _ _
  rw [physOf, hlen, u64]
  exact Nat.mod_eq_of_lt (by omega)

lemma span_le (hd : d.fragmentUnitOffset < 2 ^ 64) (mem : Memory) {p : ℕ → Bool}
    {bs : List (ℕ × ℕ)} (hbs : Blocks p d.maxColors 0 bs) (R : ℕ) :
    span d mem (natCuts R bs) ≤ R * d.fragmentUnitOffset := by
  induction R with
  | zero => simp [span, natCuts]
  | succ R ih =>
    have hrow : (bs.map fun b => (physOf d mem (R, (b.1 : ℤ), (b.2 : ℤ))).2).sum ≤
        d.fragmentUnitOffset := by
      have heq : (bs.map fun b => (physOf d mem (R, (b.1 : ℤ), (b.2 : ℤ))).2) =
          (bs.map fun b => b.2 - b.1 + 1).map (· * d.fragmentUnitSize) := by
        rw [List.map_map]
        refine List.map_congr_left fun b hb => ?_
        obtain ⟨-, hij, hj⟩ := hbs.bounds b hb
        exact size_physOf hd mem hij hj
      rw [heq, List.sum_map_mul_right, List.map_id']
      calc (bs.map fun b => b.2 - b.1 + 1).sum * d.fragmentUnitSize
          ≤ d.maxColors * d.fragmentUnitSize := Nat.mul_le_mul_right _ hbs.sum_le
        _ ≤ d.fragmentUnitOffset := Nat.div_mul_le_self _ _
    have hsplit : span d mem (natCuts (R + 1) bs) = span d mem (natCuts R bs) +
        (bs.map fun b => (physOf d mem (R, (b.1 : ℤ), (b.2 : ℤ))).2).sum := by
      simp [span, natCuts, List.range_succ, Function.comp_def]
    rw [hsplit, Nat.succ_mul]
    omega

/-- The fragments do not take more room than the region. -/
lemma span_cuts_le (colMem : MemoryColored) (hd : d.fragmentUnitOffset < 2 ^ 64) :
    span d colMem.memory (cuts d (fun _ => false) colMem) ≤ colMem.memory.size := by
  obtain ⟨bs, hbs, hcuts⟩ := cuts_spec d colMem
  rw [hcuts]
  exact Nat.le_trans (span_le hd colMem.memory hbs _) (rows_mul_le d _)

theorem fragments_contiguous (h : Fits d colMem) :
    Contiguous colMem.memory.virtStart (fragments d colMem) := by
  have hspan := span_cuts_le colMem h.offset
  have hvirt := h.virt
  exact contiguous_place d colMem.memory (by omega)

/-! ### The mapping -/

/-- Keep a list of the fragments that are mapped. -/
def recorder : ManageFunctions (List Memory) where
  map m l := (l ++ [m], 0)
  subpage m l := (l ++ [m], 0)
  unmap _ l := (l, 0)
  unmapRoot _ l := (l, 0)
  remapRoot _ l := (l, 0)
  flush _ _ l := l

/-- What `manage_colored_regions` maps for a new cell. -/
def created (d : ColorDesc) (stack : ℕ → Bool) (colMem : MemoryColored) : List Memory :=
  (manageColoredRegions recorder d stack colMem .create []).1

lemma created_eq (d : ColorDesc) (stack : ℕ → Bool) (colMem : MemoryColored) :
    created d stack colMem = fragments d colMem := by
  have hvisit : ∀ m l, visit recorder .create m l = (l ++ [m], 0) := by
    intro m l
    simp [visit, recorder]
  have hall : ∀ ms l, visitAll (visit recorder .create) ms l = (l ++ ms, 0) := by
    intro ms
    induction ms with
    | nil => simp [visitAll]
    | cons m ms ih =>
      intro l
      simp [visitAll, hvisit, ih]
  rw [created, manageColoredRegions_eq, hall, List.nil_append]

/-- The colour of a byte of memory, counted from the start of a region. -/
def colorFrom (d : ColorDesc) (physStart a : ℕ) : ℕ :=
  (a - physStart) % d.fragmentUnitOffset / d.fragmentUnitSize

/-- The colour of a byte in the cache. -/
def cacheColor (d : ColorDesc) (a : ℕ) : ℕ := a / d.fragmentUnitSize % d.maxColors

/-- Two regions without a common colour. -/
structure Apart (d : ColorDesc) (colMem other : MemoryColored) : Prop where
  aligned : colMem.memory.physStart % d.fragmentUnitOffset =
    other.memory.physStart % d.fragmentUnitOffset
  colors : ∀ k < d.maxColors, ¬ (colMem.colors.testBit k = true ∧ other.colors.testBit k = true)

/-- What the claimed mapping of a coloured region is: disjoint fragments that hold the bytes of
its colours in every row and nothing else, one after the other in the guest, the same for all
operations, and apart from the fragments of regions with other colours. -/
structure Mapped (d : ColorDesc) (stack : ℕ → Bool) (colMem : MemoryColored) : Prop where
  disjoint : (created d stack colMem).Pairwise fun m m' => ∀ a, ¬ (Holds m a ∧ Holds m' a)
  exact : ∀ a, (∃ m ∈ created d stack colMem, Holds m a) ↔
    ∃ r < colMem.memory.size / d.fragmentUnitOffset, ∃ x < d.fragmentUnitOffset,
      Colored d colMem x ∧ a = colMem.memory.physStart + r * d.fragmentUnitOffset + x
  contiguous : Contiguous colMem.memory.virtStart (created d stack colMem)
  walks : ∀ {σ : Type} (f : ManageFunctions σ) (type : ColOperation) (stack' : ℕ → Bool) (s : σ),
    manageColoredRegions f d stack' colMem type s =
      visitAll (visit f type) (created d stack colMem) s
  apart : ∀ other, Fits d other → Apart d colMem other → ∀ m ∈ created d stack colMem,
    ∀ m' ∈ created d stack other, ∀ a a', Holds m a → Holds m' a' →
      a ≠ a' ∧ colorFrom d colMem.memory.physStart a ≠ colorFrom d other.memory.physStart a' ∧
      (d.fragmentUnitSize ∣ colMem.memory.physStart → cacheColor d a ≠ cacheColor d a')

lemma unit_lt (h : Fits d colMem) {x : ℕ} (hx : x < d.fragmentUnitOffset) :
    x / d.fragmentUnitSize < d.maxColors := by
  rw [Nat.div_lt_iff_lt_mul h.unit, ← h.offset_eq]
  exact hx

/-- Bytes of regions without a common colour lie in different units of their rows. -/
lemma unit_ne (h : Fits d colMem) {other : MemoryColored} (hd : Apart d colMem other) {x x' : ℕ}
    (hx : x < d.fragmentUnitOffset) (hc : Colored d colMem x) (hc' : Colored d other x') :
    x / d.fragmentUnitSize ≠ x' / d.fragmentUnitSize := by
  intro he
  have hlt := unit_lt h hx
  unfold Colored at hc hc'
  rw [← he] at hc'
  refine hd.colors (d.maxColors - 1 - x / d.fragmentUnitSize) ?_ ⟨hc, hc'⟩
  generalize x / d.fragmentUnitSize = u at hlt
  omega

/-- The colour of a byte in the cache, for a region that starts with a unit of the cache. -/
lemma cacheColor_row (h : Fits d colMem) {p : ℕ} (hp : d.fragmentUnitSize ∣ p) (r x : ℕ) :
    cacheColor d (p + r * d.fragmentUnitOffset + x) =
      (p / d.fragmentUnitSize + x / d.fragmentUnitSize) % d.maxColors := by
  obtain ⟨b, rfl⟩ := hp
  have hdiv : (d.fragmentUnitSize * b + r * d.fragmentUnitOffset + x) / d.fragmentUnitSize =
      b + x / d.fragmentUnitSize + r * d.maxColors := by
    rw [h.offset_eq, show d.fragmentUnitSize * b + r * (d.maxColors * d.fragmentUnitSize) + x =
      d.fragmentUnitSize * (b + r * d.maxColors) + x by ring, Nat.mul_add_div h.unit]
    ring
  rw [cacheColor, hdiv, Nat.add_mul_mod_self_right, Nat.mul_div_cancel_left _ h.unit]

/-- Rows do not change what a byte is congruent to. -/
lemma add_row_mod (a r x F : ℕ) : (a + r * F + x) % F = (a % F + x) % F := by
  rw [show a + r * F + x = a + x + r * F by ring, Nat.add_mul_mod_self_right, Nat.mod_add_mod]

lemma fragments_apart (h : Fits d colMem) {other : MemoryColored} (h' : Fits d other)
    (hd : Apart d colMem other) {m m' : Memory} (hm : m ∈ fragments d colMem)
    (hm' : m' ∈ fragments d other) {a a' : ℕ} (ha : Holds m a) (ha' : Holds m' a') :
    a ≠ a' ∧ colorFrom d colMem.memory.physStart a ≠ colorFrom d other.memory.physStart a' ∧
      (d.fragmentUnitSize ∣ colMem.memory.physStart → cacheColor d a ≠ cacheColor d a') := by
  obtain ⟨r, -, x, hx, hc, rfl⟩ := (holds_fragments_iff h a).mp ⟨m, hm, ha⟩
  obtain ⟨r', -, x', hx', hc', rfl⟩ := (holds_fragments_iff h' a').mp ⟨m', hm', ha'⟩
  have hne := unit_ne h hd hx hc hc'
  refine ⟨fun he => hne ?_, fun he => hne ?_, fun hdvd he => hne ?_⟩
  · -- the same byte lies at the same place of its row
    have hmod := congrArg (· % d.fragmentUnitOffset) he
    simp only [add_row_mod, hd.aligned] at hmod
    have hxx := Nat.ModEq.add_left_cancel' _ (show _ ≡ _ [MOD d.fragmentUnitOffset] from hmod)
    rw [Nat.ModEq, Nat.mod_eq_of_lt hx, Nat.mod_eq_of_lt hx'] at hxx
    rw [hxx]
  · have hrow : ∀ p r x : ℕ, x < d.fragmentUnitOffset →
        colorFrom d p (p + r * d.fragmentUnitOffset + x) = x / d.fragmentUnitSize := by
      intro p r x hx
      have hsub : p + r * d.fragmentUnitOffset + x - p = x + r * d.fragmentUnitOffset := by omega
      rw [colorFrom, hsub, Nat.add_mul_mod_self_right, Nat.mod_eq_of_lt hx]
    rwa [hrow _ _ _ hx, hrow _ _ _ hx'] at he
  · have hdvd' : d.fragmentUnitSize ∣ other.memory.physStart := by
      rw [← Nat.dvd_mod_iff h.dvd, ← hd.aligned, Nat.dvd_mod_iff h.dvd]
      exact hdvd
    rw [cacheColor_row h hdvd, cacheColor_row h hdvd'] at he
    have hbase : colMem.memory.physStart / d.fragmentUnitSize ≡
        other.memory.physStart / d.fragmentUnitSize [MOD d.maxColors] := by
      have hal := hd.aligned
      rw [h.offset_eq, Nat.mul_comm d.maxColors] at hal
      have hdiv := congrArg (· / d.fragmentUnitSize) hal
      simp only [Nat.mod_mul_right_div_self] at hdiv
      exact hdiv
    have hxx := Nat.ModEq.add_left_cancel hbase (show _ ≡ _ [MOD d.maxColors] from he)
    rwa [Nat.ModEq, Nat.mod_eq_of_lt (unit_lt h hx), Nat.mod_eq_of_lt (unit_lt h hx')] at hxx

/-- A region maps the bytes of its colours in all its rows exactly if it has no colour or loses
no row to the cast. -/
lemma exact_iff (h : Fits d colMem) :
    (∀ a, (∃ m ∈ fragments d colMem, Holds m a) ↔
      ∃ r < colMem.memory.size / d.fragmentUnitOffset, ∃ x < d.fragmentUnitOffset,
        Colored d colMem x ∧ a = colMem.memory.physStart + r * d.fragmentUnitOffset + x) ↔
    (colMem.memory.size / d.fragmentUnitOffset < 2 ^ 31 ∨
      ∀ k < d.maxColors, colMem.colors.testBit k = false) := by
  simp only [holds_fragments_iff h]
  constructor
  · intro hexact
    by_contra hcond
    simp only [not_or, not_forall, Bool.not_eq_false] at hcond
    obtain ⟨hrows, k, hk, hbit⟩ := hcond
    have hlt : rows d colMem.memory.size < colMem.memory.size / d.fragmentUnitOffset :=
      lt_of_le_of_ne (rows_le d _) fun he => hrows ((rows_eq_iff d _).mp he)
    -- a byte of colour `k` in the first row that is left out
    have hunit : (d.maxColors - 1 - k) * d.fragmentUnitSize / d.fragmentUnitSize =
        d.maxColors - 1 - k := Nat.mul_div_cancel _ h.unit
    have hx : (d.maxColors - 1 - k) * d.fragmentUnitSize < d.fragmentUnitOffset := by
      rw [h.offset_eq]
      exact Nat.mul_lt_mul_of_pos_right (by omega) h.unit
    have hcol : Colored d colMem ((d.maxColors - 1 - k) * d.fragmentUnitSize) := by
      rw [Colored, hunit, show d.maxColors - 1 - (d.maxColors - 1 - k) = k by omega]
      exact hbit
    obtain ⟨r, hr, x, hx', -, he⟩ := (hexact _).mpr ⟨_, hlt, _, hx, hcol, rfl⟩
    have hrow : (r + 1) * d.fragmentUnitOffset ≤
        rows d colMem.memory.size * d.fragmentUnitOffset := Nat.mul_le_mul_right _ hr
    rw [Nat.succ_mul] at hrow
    omega
  · rintro (hrows | hbits) a
    · rw [(rows_eq_iff d _).mpr hrows]
    · have hnone : ∀ x < d.fragmentUnitOffset, ¬ Colored d colMem x := by
        intro x hx hc
        have hlt := unit_lt h hx
        unfold Colored at hc
        rw [hbits _ (by generalize x / d.fragmentUnitSize = u at hlt; omega)] at hc
        simp at hc
      constructor
      · rintro ⟨r, -, x, hx, hc, -⟩
        exact absurd hc (hnone x hx)
      · rintro ⟨r, -, x, hx, hc, -⟩
        exact absurd hc (hnone x hx)

/-- **Coloured regions are mapped exactly and apart from each other, if and only if the number
of their rows fits an `int` or they have no colour.** -/
theorem mapped_iff (d : ColorDesc) (stack : ℕ → Bool) (colMem : MemoryColored)
    (h : Fits d colMem) :
    Mapped d stack colMem ↔
      colMem.memory.size / d.fragmentUnitOffset < 2 ^ 31 ∨
        ∀ k < d.maxColors, colMem.colors.testBit k = false := by
  rw [← exact_iff h]
  constructor
  · intro hm a
    rw [← hm.exact a, created_eq]
  · intro hexact
    refine ⟨?_, ?_, ?_, ?_, ?_⟩ <;> simp only [created_eq]
    · refine (fragments_pairwise h).imp fun hle a hh => ?_
      have h₁ := hh.1.2
      have h₂ := hh.2.1
      omega
    · exact hexact
    · exact fragments_contiguous h
    · intro σ f type stack' s
      exact manageColoredRegions_eq f d stack' colMem type s
    · intro other h' hd m hm m' hm' a a' ha ha'
      exact fragments_apart h h' hd hm hm' ha ha'

/-- The second level cache of the board and a region with a quarter of its colours. -/
def boardDesc : ColorDesc := ⟨0x1000, 0x20000⟩
def quarterRegion : MemoryColored :=
  ⟨⟨0x270000000, 0, 0x400000, ⟨true, false, true, false⟩⟩, 0xff000000⟩

theorem mapped_iff_quarterRegion : Mapped boardDesc (fun _ => true) quarterRegion :=
  (mapped_iff boardDesc (fun _ => true) quarterRegion
    ⟨by decide, by decide, by decide, by decide, by decide, by decide⟩).mpr (Or.inl (by decide))

/-- Eight terabytes with one colour of a page each. -/
def hugeRegion : MemoryColored := ⟨⟨0, 0, 2 ^ 43, ⟨true, false, true, false⟩⟩, 1⟩

/-- Nothing at all is mapped: the number of rows is `2 ^ 31`, which is negative as an `int`. -/
theorem hugeRegion_not_mapped :
    Fits ⟨0x1000, 0x1000⟩ hugeRegion ∧ created ⟨0x1000, 0x1000⟩ (fun _ => true) hugeRegion = [] ∧
      ¬ Mapped ⟨0x1000, 0x1000⟩ (fun _ => true) hugeRegion := by
  have hfits : Fits ⟨0x1000, 0x1000⟩ hugeRegion :=
    ⟨by decide, by decide, by decide, by decide, by decide, by decide⟩
  have hrows : rows ⟨0x1000, 0x1000⟩ hugeRegion.memory.size = 0 := by decide
  refine ⟨hfits, ?_, fun hm => ?_⟩
  · rw [created_eq, fragments, cuts, hrows]
    rfl
  · have hexact := hm.exact
    simp only [created_eq] at hexact
    rcases (exact_iff hfits).mp hexact with hlt | hbits
    · revert hlt
      decide
    · exact absurd (hbits 0 (by decide)) (by decide)

end FpMemSched.ColoringExact
