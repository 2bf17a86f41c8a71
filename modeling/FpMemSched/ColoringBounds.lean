import FpMemSched.Coloring

/-!
What `ranges_in_mask` reads and writes.

The scan of a mask is written down once more with its memory accesses: the entries of `mask` it
looks at and the entries of `values` it sets, in order. Replayed on any array of `2 * size`
entries the writes leave the ranges of the mask. No write leaves the array. A read does when the
last entry of the mask is set: the `while` loop tests `mask[size]` before it compares.
-/

namespace FpMemSched.Coloring

open FpMemSched.Lib.Masks

inductive Access
  | read (i : ℕ)
  | write (i : ℕ) (v : ℤ)
  deriving DecidableEq

/-- `while (mask[++j] && j < size);` -/
def skipAccesses (mask : ℕ → Bool) (size : ℕ) : ℕ → ℕ → List Access
  | 0, _ => []
  | fuel + 1, j =>
    .read (j + 1) ::
      if mask (j + 1) = true ∧ j + 1 < size then skipAccesses mask size fuel (j + 1) else []

/-- The second `for` loop of `ranges_in_mask`. -/
def loopAccesses (mask : ℕ → Bool) (size : ℕ) : ℕ → ℕ → ℕ → List Access
  | 0, _, _ => []
  | fuel + 1, k, currentValue =>
    if k < size then
      .read k ::
        if mask k then
          let j := skipRange mask size size k
          skipAccesses mask size size k ++
            .write currentValue k :: .write (currentValue + 1) (j - 1) ::
            loopAccesses mask size fuel (j + 1) (currentValue + 2)
        else loopAccesses mask size fuel (k + 1) currentValue
    else []

/-- The accesses of `ranges_in_mask`. First all values are set to -1. -/
def rangesAccesses (mask : ℕ → Bool) (size : ℕ) : List Access :=
  (List.range (size * 2)).map (fun i => .write i (-1)) ++ loopAccesses mask size size 0 0

/-- The array `values` after an access. -/
def Access.apply (values : List ℤ) : Access → List ℤ
  | .read _ => values
  | .write i v => values.set i v

def replay (l : List Access) (values : List ℤ) : List ℤ := l.foldl Access.apply values

/-- The mask has `n` entries and `values` has `2 * n`. -/
def Access.InBounds (n : ℕ) : Access → Prop
  | .read i => i < n
  | .write i _ => i < 2 * n

instance (n : ℕ) : DecidablePred (Access.InBounds n)
  | .read i => inferInstanceAs (Decidable (i < n))
  | .write i _ => inferInstanceAs (Decidable (i < 2 * n))

/-! ### The writes -/

lemma replay_append (l l' : List Access) (values : List ℤ) :
    replay (l ++ l') values = replay l' (replay l values) := List.foldl_append

variable {mask : ℕ → Bool} {size : ℕ}

lemma le_skipRange {fuel j : ℕ} : j ≤ skipRange mask size fuel j := by
  induction fuel generalizing j with
  | zero => exact Nat.le_refl j
  | succ fuel ih =>
    rw [skipRange]
    split
    · exact Nat.le_of_succ_le ih
    · omega

/-- The inner loop reads the entries up to the one it stops at, and writes nothing. -/
lemma mem_skipAccesses {fuel j : ℕ} {a : Access} :
    a ∈ skipAccesses mask size fuel j ↔
      ∃ i, a = .read i ∧ j < i ∧ i ≤ skipRange mask size fuel j := by
  induction fuel generalizing j with
  | zero =>
    simp only [skipAccesses, skipRange, List.not_mem_nil, false_iff]
    rintro ⟨i, -, h₁, h₂⟩
    omega
  | succ fuel ih =>
    simp only [skipAccesses, skipRange, List.mem_cons]
    split
    · rename_i hc
      rw [ih]
      constructor
      · rintro (rfl | ⟨i, rfl, h₁, h₂⟩)
        · exact ⟨j + 1, rfl, by omega, le_skipRange⟩
        · exact ⟨i, rfl, by omega, h₂⟩
      · rintro ⟨i, rfl, h₁, h₂⟩
        rcases Nat.eq_or_lt_of_le h₁ with rfl | hlt
        · exact .inl rfl
        · exact .inr ⟨i, rfl, hlt, h₂⟩
    · simp only [List.not_mem_nil, or_false]
      constructor
      · rintro rfl
        exact ⟨j + 1, rfl, by omega, Nat.le_refl _⟩
      · rintro ⟨i, rfl, h₁, h₂⟩
        obtain rfl : i = j + 1 := by omega
        rfl

lemma replay_reads {l : List Access} (h : ∀ a ∈ l, ∃ i, a = .read i) (values : List ℤ) :
    replay l values = values := by
  induction l with
  | nil => rfl
  | cons a l ih =>
    obtain ⟨i, rfl⟩ := h a List.mem_cons_self
    exact ih fun b hb => h b (List.mem_cons_of_mem _ hb)

/-- The accesses of the loop are those that build its result. -/
lemma replay_loopAccesses {fuel k currentValue : ℕ} (values : List ℤ) :
    replay (loopAccesses mask size fuel k currentValue) values =
      rangesLoop mask size fuel k currentValue values := by
  induction fuel generalizing k currentValue values with
  | zero => rfl
  | succ fuel ih =>
    rw [loopAccesses, rangesLoop]
    split
    · split
      · rw [← ih]
        have hreads : ∀ a ∈ skipAccesses mask size size k, ∃ i, a = .read i := by
          intro a ha
          obtain ⟨i, hi, -⟩ := mem_skipAccesses.mp ha
          exact ⟨i, hi⟩
        simp only [replay, List.foldl_cons, Access.apply]
        exact (replay_append _ _ values).trans (congrArg _ (replay_reads hreads values))
      · exact ih values
    · rfl

/-- The first loop sets every entry. -/
lemma replay_init {n : ℕ} {values : List ℤ} (h : values.length = n) :
    replay ((List.range n).map fun i => .write i (-1)) values = List.replicate n (-1) := by
  suffices hpre : ∀ m ≤ n, replay ((List.range m).map fun i => .write i (-1)) values =
      List.replicate m (-1) ++ values.drop m by
    have := hpre n (Nat.le_refl n)
    rwa [List.drop_eq_nil_of_le (by omega), List.append_nil] at this
  intro m
  induction m with
  | zero => exact fun _ => rfl
  | succ m ih =>
    intro hm
    obtain ⟨v, hv⟩ : ∃ v, values.drop m = v :: values.drop (m + 1) :=
      ⟨_, List.drop_eq_getElem_cons (by omega)⟩
    rw [List.range_succ, List.map_append, replay_append, ih (by omega), hv]
    simp [replay, Access.apply, List.replicate_succ']

lemma length_replay (l : List Access) (values : List ℤ) :
    (replay l values).length = values.length := by
  induction l generalizing values with
  | nil => rfl
  | cons a l ih =>
    refine (ih _).trans ?_
    cases a <;> simp [Access.apply]

/-- The writes make the result, whatever the array held before. -/
lemma replay_rangesAccesses {values : List ℤ} (h : values.length = 2 * size) :
    replay (rangesAccesses mask size) values = rangesInMask mask size := by
  rw [rangesAccesses, replay_append, replay_init (by omega), replay_loopAccesses]
  rfl

/-- A range takes two entries of `values` and at least two of the mask, but for a range of one
entry at the end. -/
lemma lt_of_write_mem {fuel k currentValue bound : ℕ}
    (hroom : currentValue + (size + 1 - k) ≤ bound) {i : ℕ} {v : ℤ}
    (h : .write i v ∈ loopAccesses mask size fuel k currentValue) : i < bound := by
  induction fuel generalizing k currentValue with
  | zero => cases h
  | succ fuel ih =>
    rw [loopAccesses] at h
    by_cases hk : k < size
    · by_cases hmask : mask k = true
      · obtain ⟨hlt, hle, -⟩ := skipRange_of_set hk hmask
        simp only [hk, hmask, if_true, List.mem_cons, List.mem_append, reduceCtorEq, false_or,
          mem_skipAccesses, false_and, exists_false, Access.write.injEq] at h
        rcases h with ⟨rfl, -⟩ | ⟨rfl, -⟩ | h
        · omega
        · omega
        · exact ih (by omega) h
      · simp only [hk, hmask, if_true, List.mem_cons, reduceCtorEq, false_or] at h
        exact ih (by omega) h
    · simp [hk] at h

/-- **No write leaves the array.** -/
lemma lt_of_write_mem_rangesAccesses {n i : ℕ} {v : ℤ}
    (h : .write i v ∈ rangesAccesses mask n) : i < 2 * n := by
  rcases List.mem_append.mp h with h | h
  · simp only [List.mem_map, List.mem_range, Access.write.injEq] at h
    obtain ⟨i, hi, rfl, -⟩ := h
    omega
  · rcases Nat.eq_zero_or_pos n with rfl | hn
    · cases h
    · exact lt_of_write_mem (by omega) h

/-! ### The reads -/

/-- The loop reads the entry beyond the mask if the last range ends at the end, and never
anything further. -/
lemma read_mem_loopAccesses {fuel k currentValue i : ℕ} (hfuel : size - k ≤ fuel)
    (hi : size ≤ i) :
    .read i ∈ loopAccesses mask size fuel k currentValue ↔
      i = size ∧ k < size ∧ mask (size - 1) = true := by
  induction fuel generalizing k currentValue with
  | zero =>
    simp only [loopAccesses, List.not_mem_nil, false_iff]
    omega
  | succ fuel ih =>
    rw [loopAccesses]
    by_cases hk : k < size
    · have hne : i ≠ k := by omega
      by_cases hmask : mask k = true
      · obtain ⟨hlt, hle, hset, hstop⟩ := skipRange_of_set hk hmask
        simp only [hk, hmask, if_true, List.mem_cons, List.mem_append, Access.read.injEq, hne,
          false_or, mem_skipAccesses, exists_eq_left', reduceCtorEq, true_and]
        rw [ih (by omega)]
        generalize skipRange mask size size k = e at *
        constructor
        · rintro (⟨h₁, h₂⟩ | ⟨h₁, -, h₂⟩)
          · exact ⟨by omega, hset _ (by omega) (by omega)⟩
          · exact ⟨h₁, h₂⟩
        · rintro ⟨rfl, hlast⟩
          rcases Nat.lt_or_ge e i with he | he
          · -- the range does not reach the end, so its next entry is not the last one
            refine .inr ⟨rfl, ?_, hlast⟩
            by_contra hge
            rw [show i - 1 = e by omega, hstop he] at hlast
            cases hlast
          · exact .inl ⟨hk, he⟩
      · simp only [hk, hmask, if_true, List.mem_cons, Access.read.injEq, hne, false_or, true_and,
          Bool.false_eq_true, if_false]
        rw [ih (by omega)]
        constructor
        · rintro ⟨h₁, -, h₂⟩
          exact ⟨h₁, h₂⟩
        · rintro ⟨h₁, hlast⟩
          refine ⟨h₁, ?_, hlast⟩
          by_contra hge
          obtain rfl : k = size - 1 := by omega
          exact hmask hlast
    · simp [hk]

/-! ### Main results -/

/-- **The output of `ranges_in_mask`**: the maximal runs of the mask in increasing order, a gap
between each and the next, and -1 in the entries that are left. This is so whatever the array
held before and whatever comes after the mask. -/
theorem ranges_maximal (mask : ℕ → Bool) (n : ℕ) (values : List ℤ)
    (hvalues : values.length = 2 * n) :
    ∃ bs : List (ℕ × ℕ),
      replay (rangesAccesses mask n) values =
        flat bs ++ List.replicate (2 * n - 2 * bs.length) (-1) ∧
      (replay (rangesAccesses mask n) values).length = 2 * n ∧
      (∀ i j, (i, j) ∈ bs ↔ MaximalRun mask n i j) ∧
      bs.Pairwise (fun a b => ∃ x, a.2 < x ∧ x < b.1 ∧ mask x = false) ∧
      (∀ i v, .write i v ∈ rangesAccesses mask n → i < 2 * n) := by
  rw [replay_rangesAccesses hvalues]
  obtain ⟨bs, hbs, heq⟩ := rangesInMask_spec mask n
  refine ⟨bs, heq, ?_, fun i j => hbs.mem_iff_maximalRun, hbs.separated,
    fun i v h => lt_of_write_mem_rangesAccesses h⟩
  rw [← replay_rangesAccesses hvalues, length_replay, hvalues]

/-- Three runs, the last of them at the end. -/
theorem ranges_maximal_three : ∃ bs : List (ℕ × ℕ),
    replay (rangesAccesses (fun i => i ≠ 1 ∧ i ≠ 4) 6) (List.replicate 12 7) =
      flat bs ++ List.replicate (2 * 6 - 2 * bs.length) (-1) ∧
    (∀ i j, (i, j) ∈ bs ↔ MaximalRun (fun i => i ≠ 1 ∧ i ≠ 4) 6 i j) := by
  obtain ⟨bs, h, -, hmem, -⟩ := ranges_maximal (fun i => i ≠ 1 ∧ i ≠ 4) 6
    (List.replicate 12 7) (by decide)
  exact ⟨bs, h, hmem⟩

/-- **The scan stays within its arrays exactly if the last entry of the mask is not set.** For a
coloured region that entry is the lowest bit of its colours (`getMask_eq`). -/
theorem scan_inBounds_iff (mask : ℕ → Bool) (n : ℕ) (hn : 1 ≤ n) :
    (∀ a ∈ rangesAccesses mask n, a.InBounds n) ↔ mask (n - 1) = false := by
  have hread {i : ℕ} (hi : n ≤ i) : .read i ∈ rangesAccesses mask n ↔
      i = n ∧ mask (n - 1) = true := by
    rw [rangesAccesses, List.mem_append, read_mem_loopAccesses (by omega) hi]
    simp only [List.mem_map, reduceCtorEq, and_false, exists_false, false_or]
    exact ⟨fun h => ⟨h.1, h.2.2⟩, fun h => ⟨h.1, hn, h.2⟩⟩
  constructor
  · intro h
    by_contra hlast
    have := h _ ((hread (Nat.le_refl n)).mpr ⟨rfl, by simpa using hlast⟩)
    exact Nat.lt_irrefl n this
  · intro hlast a ha
    cases a with
    | read i =>
      by_contra hi
      have := ((hread (by simpa [Access.InBounds] using hi)).mp ha).2
      rw [hlast] at this
      cases this
    | write i v => exact lt_of_write_mem_rangesAccesses ha

/-- The colours `0b0110` of four. -/
theorem scan_inBounds_iff_inner :
    (∀ a ∈ rangesAccesses (fun i => i = 1 ∨ i = 2) 4, a.InBounds 4) ∧
      .write 1 2 ∈ rangesAccesses (fun i => i = 1 ∨ i = 2) 4 :=
  ⟨(scan_inBounds_iff (fun i => i = 1 ∨ i = 2) 4 (by decide)).mpr (by decide), by decide⟩

/-- One colour, owned by the region. -/
theorem scan_leaves_mask : ¬ ∀ a ∈ rangesAccesses (fun i => i = 0) 1, a.InBounds 1 := by decide

end FpMemSched.Coloring
