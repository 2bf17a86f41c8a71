import FpMemSched.Lib.Masks
import Mathlib.Data.List.Basic
import Mathlib.Data.Nat.Bitwise

/-!
Coloured memory regions (`coloring.c`, `coloring-common.h`).

A row of a coloured region has `fragment_unit_offset` bytes, one unit of `fragment_unit_size`
bytes for each colour. A region owns the units whose bits are set in its colour mask, in every
row; neighbouring units make one fragment. `manage_colored_regions` walks over the fragments of
a region and does what the operation asks for.
-/

namespace FpMemSched.Coloring

open FpMemSched.Lib.Masks

/-- Arithmetic of `__u64`. -/
def u64 (x : ℕ) : ℕ := x % 2 ^ 64

def pageSize : ℕ := 4096
def numTemporaryPages : ℕ := 16

/-- The flags of a region that the management of memory looks at. -/
structure Flags where
  write : Bool
  commRegion : Bool
  loadable : Bool
  rootshared : Bool
  deriving DecidableEq

structure Memory where
  physStart : ℕ
  virtStart : ℕ
  size : ℕ
  flags : Flags
  deriving DecidableEq

/-- `JAILHOUSE_MEMORY_IS_SUBPAGE`. -/
def Memory.isSubpage (mem : Memory) : Bool :=
  mem.virtStart % pageSize ≠ 0 || mem.size % pageSize ≠ 0

structure MemoryColored where
  memory : Memory
  colors : ℕ
  deriving DecidableEq

structure ColorDesc where
  fragmentUnitSize : ℕ
  fragmentUnitOffset : ℕ
  deriving DecidableEq

/-- `MAX_COLORS`. -/
def ColorDesc.maxColors (d : ColorDesc) : ℕ := d.fragmentUnitOffset / d.fragmentUnitSize

/-! ### The ranges of a mask -/

/-- `while (mask[++j] && j < size);` The last turn may read `mask[size]`. -/
def skipRange (mask : ℕ → Bool) (size : ℕ) : ℕ → ℕ → ℕ
  | 0, j => j
  | fuel + 1, j =>
    if mask (j + 1) = true ∧ j + 1 < size then skipRange mask size fuel (j + 1) else j + 1

/-- The loop of `ranges_in_mask`. -/
def rangesLoop (mask : ℕ → Bool) (size : ℕ) : ℕ → ℕ → ℕ → List ℤ → List ℤ
  | 0, _, _, values => values
  | fuel + 1, k, currentValue, values =>
    if k < size then
      if mask k then
        let j := skipRange mask size size k
        rangesLoop mask size fuel (j + 1) (currentValue + 2)
          ((values.set currentValue k).set (currentValue + 1) (j - 1))
      else rangesLoop mask size fuel (k + 1) currentValue values
    else values

def rangesInMask (mask : ℕ → Bool) (size : ℕ) : List ℤ :=
  rangesLoop mask size size 0 0 (List.replicate (size * 2) (-1))

/-- The loop that takes the mask from the colours, lowest bit last. What is on the stack beyond
the mask stays there. -/
def getMask : ℕ → ℕ → (ℕ → Bool) → ℕ → Bool
  | 0, _, mask => mask
  | i + 1, colors, mask => getMask i (colors / 2) (Function.update mask i (colors % 2 = 1))

/-- Two neighbouring entries at a time, as the loops over `ranges` read them. -/
def pairs : List ℤ → List (ℤ × ℤ)
  | i :: j :: rest => (i, j) :: pairs rest
  | _ => []

/-! ### The walk -/

inductive ColOperation
  | create | destroy | start | loadable | dcache
  deriving DecidableEq

/-- The functions `manage_colored_regions` is given, and the flush of a mapped chunk. They act
on a state and return an error code. -/
structure ManageFunctions (σ : Type*) where
  map : Memory → σ → σ × ℤ
  subpage : Memory → σ → σ × ℤ
  unmap : Memory → σ → σ × ℤ
  unmapRoot : Memory → σ → σ × ℤ
  remapRoot : Memory → σ → σ × ℤ
  flush : ℕ → ℕ → σ → σ

variable {σ : Type*}

/-- The chunks of the `DCACHE` operation. -/
def flushLoop (f : ManageFunctions σ) : ℕ → ℕ → ℕ → σ → σ
  | 0, _, _, s => s
  | fuel + 1, regionAddr, regionSize, s =>
    if 0 < regionSize then
      let size := min regionSize (numTemporaryPages * pageSize)
      flushLoop f fuel (u64 (regionAddr + size)) (regionSize - size) (f.flush regionAddr size s)
    else s

/-- What is done with one fragment. -/
def visit (f : ManageFunctions σ) (type : ColOperation) (frag : Memory) (s : σ) : σ × ℤ :=
  match type with
  | .create =>
    let r := if frag.flags.commRegion || frag.flags.rootshared then (s, 0)
      else f.unmapRoot frag s
    if r.2 ≠ 0 then r
    else if frag.isSubpage then f.subpage frag r.1 else f.map frag r.1
  | .destroy =>
    let r := if frag.isSubpage then (s, 0) else f.unmap frag s
    if r.2 ≠ 0 then r
    else if frag.flags.commRegion || frag.flags.rootshared then r
    else f.remapRoot frag r.1
  | .start => if frag.flags.loadable then f.unmapRoot frag s else (s, 0)
  | .loadable => if frag.flags.loadable then f.remapRoot frag s else (s, 0)
  | .dcache => (flushLoop f frag.size frag.physStart frag.size s, 0)

/-- `(int)(col_mem.memory.size / f_offset)`, as the bound of a loop that counts up from 0: the
lower 32 bits, of which the highest is the sign. -/
def rows (d : ColorDesc) (size : ℕ) : ℕ :=
  let n := size / d.fragmentUnitOffset % 2 ^ 32
  if n < 2 ^ 31 then n else 0

/-- The fragment for the range `(i, j)` of row `r`, at the cursor. -/
def fragment (d : ColorDesc) (mem : Memory) (r virtStart : ℕ) (range : ℤ × ℤ) : Memory :=
  { mem with
    size := u64 ((range.2 - range.1 + 1).toNat * d.fragmentUnitSize)
    physStart :=
      u64 (mem.physStart + range.1.toNat * d.fragmentUnitSize + r * d.fragmentUnitOffset)
    virtStart := virtStart }

section Walk

variable {τ : Type*} {ε : Type*}

/-- One turn of the inner loop. The cursor is `virt_start`; `body` does something with the
fragment and may end the walk. -/
def walkRange (body : Memory → τ → Except ε τ) (d : ColorDesc) (mem : Memory) (r : ℕ)
    (cursor : ℕ × τ) (range : ℤ × ℤ) : Except ε (ℕ × τ) :=
  if range.1 = -1 then .ok cursor
  else
    let frag := fragment d mem r cursor.1 range
    (body frag cursor.2).map fun t => (u64 (cursor.1 + frag.size), t)

/-- The loops over the rows and the ranges of a region, which the hypervisor and the driver
both have. `stack` is what the mask array holds before it is filled, and beyond its end. -/
def walkFragments (d : ColorDesc) (stack : ℕ → Bool) (colMem : MemoryColored)
    (body : Memory → τ → Except ε τ) (t : τ) : Except ε τ :=
  let mask := getMask d.maxColors colMem.colors stack
  let ranges := rangesInMask mask d.maxColors
  ((List.range (rows d colMem.memory.size)).foldlM
    (fun cursor r => (pairs ranges).foldlM (walkRange body d colMem.memory r) cursor)
    (colMem.memory.virtStart, t)).map Prod.snd

end Walk

/-- An error of a fragment is returned at once. -/
def visitOrFail (f : ManageFunctions σ) (type : ColOperation) (frag : Memory) (s : σ) :
    Except (σ × ℤ) σ :=
  let o := visit f type frag s
  if o.2 ≠ 0 then .error o else .ok o.1

/-- The state and the return value at the end. -/
def walkResult : Except (σ × ℤ) σ → σ × ℤ
  | .error o => o
  | .ok s => (s, 0)

def manageColoredRegions (f : ManageFunctions σ) (d : ColorDesc) (stack : ℕ → Bool)
    (colMem : MemoryColored) (type : ColOperation) (s : σ) : σ × ℤ :=
  walkResult (walkFragments d stack colMem (visitOrFail f type) s)

/-! ### The ranges are the blocks of the mask -/

/-- Bit `n - 1 - x` of the colours is entry `x` of the mask. -/
lemma getMask_eq (n colors : ℕ) (mask : ℕ → Bool) (x : ℕ) :
    getMask n colors mask x = if x < n then colors.testBit (n - 1 - x) else mask x := by
  induction n generalizing colors mask with
  | zero => simp [getMask]
  | succ i ih =>
    rw [getMask, ih]
    rcases Nat.lt_trichotomy x i with hx | rfl | hx
    · rw [if_pos hx, if_pos (by omega), show i + 1 - 1 - x = (i - 1 - x) + 1 by omega,
        Nat.testBit_succ]
    · rw [if_neg (Nat.lt_irrefl x), Function.update_self, if_pos (by omega),
        show x + 1 - 1 - x = 0 by omega, Nat.testBit_zero]
    · rw [if_neg (by omega), if_neg (by omega), Function.update_of_ne (by omega)]

variable {mask : ℕ → Bool} {size : ℕ}

lemma skipRange_spec {fuel k j : ℕ} (hj : j < size) (hfuel : size - j ≤ fuel) (hkj : k ≤ j)
    (hset : ∀ x, k ≤ x → x ≤ j → mask x = true) :
    let e := skipRange mask size fuel j
    j < e ∧ e ≤ size ∧ (∀ x, k ≤ x → x < e → mask x = true) ∧ (e < size → mask e = false) := by
  induction fuel generalizing j with
  | zero => omega
  | succ fuel ih =>
    intro e
    by_cases hc : mask (j + 1) = true ∧ j + 1 < size
    · have he : e = skipRange mask size fuel (j + 1) := by simp [e, skipRange, hc]
      obtain ⟨h₁, h₂, h₃⟩ := ih hc.2 (by omega) (by omega) fun x hx hxj => by
        rcases Nat.lt_or_ge x (j + 1) with hlt | hge
        · exact hset x hx (by omega)
        · obtain rfl : x = j + 1 := by omega
          exact hc.1
      rw [he]
      exact ⟨by omega, h₂, h₃⟩
    · have he : e = j + 1 := by simp only [e, skipRange, if_neg hc]
      rw [he]
      refine ⟨by omega, by omega, fun x hx hxj => hset x hx (by omega), fun hlt => ?_⟩
      have : ¬ mask (j + 1) = true := fun hm => hc ⟨hm, hlt⟩
      simpa using this

lemma skipRange_of_set {k : ℕ} (hk : k < size) (hmask : mask k = true) :
    let e := skipRange mask size size k
    k < e ∧ e ≤ size ∧ (∀ x, k ≤ x → x < e → mask x = true) ∧ (e < size → mask e = false) :=
  skipRange_spec hk (by omega) (Nat.le_refl k) fun x hx hxk => by
    obtain rfl : x = k := by omega
    exact hmask

/-- The entries of `ranges` for a list of blocks. -/
def flat (bs : List (ℕ × ℕ)) : List ℤ := bs.flatMap fun b => [(b.1 : ℤ), (b.2 : ℤ)]

/-- Writing the next two entries. -/
lemma set_set_append (pre : List ℤ) (m : ℕ) (a b : ℤ) :
    ((pre ++ List.replicate (m + 2) (-1)).set pre.length a).set (pre.length + 1) b =
      pre ++ [a, b] ++ List.replicate m (-1) := by
  simp [List.replicate_succ]

lemma rangesLoop_spec {fuel k m : ℕ} (hfuel : size - k ≤ fuel) (hm : size + 1 - k ≤ m)
    (pre : List ℤ) :
    ∃ bs, Blocks mask size k bs ∧
      rangesLoop mask size fuel k pre.length (pre ++ List.replicate m (-1)) =
        pre ++ flat bs ++ List.replicate (m - 2 * bs.length) (-1) := by
  induction fuel generalizing k m pre with
  | zero => exact ⟨[], .done (by omega), by simp [rangesLoop, flat]⟩
  | succ fuel ih =>
    by_cases hk : k < size
    · by_cases hmask : mask k = true
      · -- a range starts here
        obtain ⟨h₁, h₂, h₃, h₄⟩ := skipRange_of_set hk hmask
        obtain ⟨e, he⟩ : ∃ e, skipRange mask size size k = e + 1 :=
          ⟨_, (Nat.succ_pred (by omega)).symm⟩
        rw [he] at h₁ h₂ h₃ h₄
        obtain ⟨m, rfl⟩ : ∃ m', m = m' + 2 := ⟨m - 2, by omega⟩
        obtain ⟨bs, hbs, heq⟩ := ih (k := e + 2) (m := m) (by omega) (by omega)
          (pre ++ [(k : ℤ), (e : ℤ)])
        refine ⟨(k, e) :: bs, .take (by omega) (by omega) (fun x hx hxe => h₃ x hx (by omega)) h₄
          hbs, ?_⟩
        have hlen : (pre ++ [(k : ℤ), (e : ℤ)]).length = pre.length + 2 := by simp
        rw [hlen] at heq
        have hlast : ((e + 1 : ℕ) : ℤ) - 1 = e := by omega
        simp only [rangesLoop, hk, hmask, if_true, he, hlast, set_set_append]
        rw [show e + 1 + 1 = e + 2 by omega, heq]
        simp only [flat, List.flatMap_cons, List.append_assoc, List.length_cons]
        congr 4
        omega
      · obtain ⟨bs, hbs, heq⟩ := ih (k := k + 1) (m := m) (by omega) (by omega) pre
        refine ⟨bs, .skip hk (by simpa using hmask) hbs, ?_⟩
        simp only [rangesLoop, hk, hmask, if_true]
        exact heq
    · exact ⟨[], .done (by omega), by simp [rangesLoop, hk, flat]⟩

lemma rangesInMask_spec (mask : ℕ → Bool) (n : ℕ) :
    ∃ bs, Blocks mask n 0 bs ∧
      rangesInMask mask n = flat bs ++ List.replicate (2 * n - 2 * bs.length) (-1) := by
  rcases Nat.eq_zero_or_pos n with rfl | hpos
  · exact ⟨[], .done (Nat.le_refl 0), rfl⟩
  · obtain ⟨bs, hbs, heq⟩ := @rangesLoop_spec mask n n 0 (n * 2) (by omega) (by omega) []
    rw [Nat.mul_comm 2 n]
    exact ⟨bs, hbs, heq⟩

/-- The ranges that the loops do not skip. -/
def rangesOf (d : ColorDesc) (stack : ℕ → Bool) (colors : ℕ) : List (ℤ × ℤ) :=
  (pairs (rangesInMask (getMask d.maxColors colors stack) d.maxColors)).filter (·.1 ≠ -1)

lemma pairs_flat (bs : List (ℕ × ℕ)) (m : ℕ) :
    (pairs (flat bs ++ List.replicate m (-1))).filter (·.1 ≠ -1) =
      bs.map fun b => ((b.1 : ℤ), (b.2 : ℤ)) := by
  induction bs with
  | nil =>
    suffices h : ∀ m, (pairs (List.replicate m (-1))).filter (·.1 ≠ -1) = [] by
      simpa [flat] using h m
    intro m
    induction m using Nat.twoStepInduction with
    | zero => rfl
    | one => rfl
    | more m ih _ =>
      rw [List.replicate_succ, List.replicate_succ]
      simpa [pairs] using ih
  | cons b bs ih =>
    have hb : (b.1 : ℤ) ≠ -1 := by omega
    simp only [flat, List.flatMap_cons, List.cons_append, List.nil_append, pairs,
      ne_eq, hb, not_false_eq_true, decide_true, List.filter_cons_of_pos, List.map_cons] at ih ⊢
    rw [ih]

lemma rangesOf_spec (d : ColorDesc) (stack : ℕ → Bool) (colors : ℕ) :
    ∃ bs, Blocks (getMask d.maxColors colors stack) d.maxColors 0 bs ∧
      rangesOf d stack colors = bs.map fun b => ((b.1 : ℤ), (b.2 : ℤ)) := by
  obtain ⟨bs, hbs, heq⟩ := rangesInMask_spec (getMask d.maxColors colors stack) d.maxColors
  exact ⟨bs, hbs, by rw [rangesOf, heq, pairs_flat]⟩

/-- What was on the stack does not matter. -/
lemma rangesOf_stack (d : ColorDesc) (stack stack' : ℕ → Bool) (colors : ℕ) :
    rangesOf d stack colors = rangesOf d stack' colors := by
  obtain ⟨bs, hbs, he⟩ := rangesOf_spec d stack colors
  obtain ⟨cs, hcs, he'⟩ := rangesOf_spec d stack' colors
  rw [he, he', hbs.unique (fun x hx => ?_) hcs]
  rw [getMask_eq, getMask_eq, if_pos hx, if_pos hx]

/-! ### The fragments -/

/-- The ranges of all rows, in the order of the loops. -/
def cuts (d : ColorDesc) (stack : ℕ → Bool) (colMem : MemoryColored) : List (ℕ × ℤ × ℤ) :=
  (List.range (rows d colMem.memory.size)).flatMap fun r =>
    (rangesOf d stack colMem.colors).map fun range => (r, range)

/-- Fragments get consecutive virtual addresses. -/
def place (d : ColorDesc) (mem : Memory) : ℕ → List (ℕ × ℤ × ℤ) → List Memory
  | _, [] => []
  | virtStart, (r, range) :: cuts =>
    let frag := fragment d mem r virtStart range
    frag :: place d mem (u64 (virtStart + frag.size)) cuts

def fragments (d : ColorDesc) (colMem : MemoryColored) : List Memory :=
  place d colMem.memory colMem.memory.virtStart (cuts d (fun _ => false) colMem)

section Walk

variable {τ : Type*} {ε : Type*} (body : Memory → τ → Except ε τ) (d : ColorDesc)

/-- Skipped ranges do nothing. -/
lemma foldlM_walkRange (mem : Memory) (r : ℕ) (l : List (ℤ × ℤ)) (cursor : ℕ × τ) :
    l.foldlM (walkRange body d mem r) cursor =
      (l.filter (·.1 ≠ -1)).foldlM (walkRange body d mem r) cursor := by
  rw [List.foldlM_filter]
  congr 1
  funext cursor range
  by_cases hr : range.1 = -1
  · simp only [walkRange, hr, if_true]
    rfl
  · simp [hr]

lemma foldlM_flatMap {m : Type* → Type*} [Monad m] [LawfulMonad m] {α β : Type*} {γ}
    (g : γ → β → m γ) (h : α → List β) (l : List α) (c : γ) :
    l.foldlM (fun c a => (h a).foldlM g c) c = (l.flatMap h).foldlM g c := by
  induction l generalizing c with
  | nil => rfl
  | cons a l ih =>
    rw [List.foldlM_cons, List.flatMap_cons, List.foldlM_append]
    exact bind_congr fun c => ih c

/-- A walk along the cuts meets the fragments in turn. -/
lemma foldlM_place (mem : Memory) {l : List (ℕ × ℤ × ℤ)} (hl : ∀ c ∈ l, c.2.1 ≠ -1)
    (virtStart : ℕ) (t : τ) :
    (l.foldlM (fun cursor c => walkRange body d mem c.1 cursor c.2) (virtStart, t)).map Prod.snd =
      (place d mem virtStart l).foldlM (fun t m => body m t) t := by
  induction l generalizing virtStart t with
  | nil => rfl
  | cons c l ih =>
    have hc := hl c List.mem_cons_self
    rw [List.foldlM_cons, place, List.foldlM_cons]
    simp only [walkRange, hc, if_false]
    cases body (fragment d mem c.1 virtStart c.2) t with
    | error e => rfl
    | ok t => exact ih (fun c hc => hl c (List.mem_cons_of_mem _ hc)) _ _

/-- **The loops walk over the fragments**, whatever was on the stack. -/
theorem walkFragments_eq (stack : ℕ → Bool) (colMem : MemoryColored) (t : τ) :
    walkFragments d stack colMem body t =
      (fragments d colMem).foldlM (fun t m => body m t) t := by
  have hcuts : ∀ c ∈ cuts d (fun _ => false) colMem, c.2.1 ≠ -1 := by
    intro c hc
    simp only [cuts, rangesOf, List.mem_flatMap, List.mem_map, List.mem_filter] at hc
    obtain ⟨r, -, range, ⟨-, hr⟩, rfl⟩ := hc
    simpa using hr
  rw [fragments, ← foldlM_place body d colMem.memory hcuts, cuts, ← foldlM_flatMap,
    walkFragments]
  simp only [List.foldlM_map, foldlM_walkRange body d colMem.memory _
    (pairs (rangesInMask _ _))]
  rw [rangesOf_stack d (fun _ => false) stack]
  rfl

end Walk

/-- Do something with each fragment until one fails. -/
def visitAll (g : Memory → σ → σ × ℤ) : List Memory → σ → σ × ℤ
  | [], s => (s, 0)
  | frag :: frags, s => let o := g frag s; if o.2 ≠ 0 then o else visitAll g frags o.1

/-- **Every operation does its work on the same fragments**, until one fails. -/
theorem manageColoredRegions_eq (f : ManageFunctions σ) (d : ColorDesc) (stack : ℕ → Bool)
    (colMem : MemoryColored) (type : ColOperation) (s : σ) :
    manageColoredRegions f d stack colMem type s =
      visitAll (visit f type) (fragments d colMem) s := by
  rw [manageColoredRegions, walkFragments_eq]
  induction fragments d colMem generalizing s with
  | nil => rfl
  | cons m ms ih =>
    rw [List.foldlM_cons, visitAll]
    by_cases hv : (visit f type m s).2 = 0
    · simp only [visitOrFail, hv, ne_eq, not_true_eq_false, if_false]
      exact ih _
    · simp only [visitOrFail, hv, ne_eq, not_false_eq_true, if_true]
      rfl

end FpMemSched.Coloring
