import Mathlib.Algebra.Order.Ring.Nat
import Mathlib.Data.BitVec
import Mathlib.Data.Finset.Card
import Mathlib.Data.Finset.Range
import Mathlib.Logic.Function.Basic

/-!
Bitmaps: bits in an array of words of `w` bits.

A bit is set or cleared in its word; the other bits stay. A zero is looked for in a word at a
time, with the bits before the start of the search masked out. The set bits below a bound are
counted.
-/

namespace FpMemSched.Lib.Bitmaps

variable {w : ℕ} {m m' : ℕ → BitVec w} {p q : ℕ}

def bit (m : ℕ → BitVec w) (p : ℕ) : Bool := (m (p / w)).getLsbD (p % w)

def setBit (p : ℕ) (m : ℕ → BitVec w) : ℕ → BitVec w :=
  Function.update m (p / w) (m (p / w) ||| 1#w <<< (p % w))

def clearBit (p : ℕ) (m : ℕ → BitVec w) : ℕ → BitVec w :=
  Function.update m (p / w) (m (p / w) &&& ~~~(1#w <<< (p % w)))

/-- Another bit is in another word or at another place. -/
lemma place_ne (h : q ≠ p) (hw : q / w = p / w) : q % w ≠ p % w := by
  intro hm
  rw [← Nat.div_add_mod q w, ← Nat.div_add_mod p w, hw, hm] at h
  exact h rfl

lemma getLsbD_one_shift (hw : 0 < w) (i : ℕ) :
    (1#w <<< (p % w)).getLsbD i = decide (i = p % w) := by
  rw [← BitVec.twoPow_eq, BitVec.getLsbD_twoPow]
  simp [Nat.mod_lt p hw, eq_comm]

lemma bit_setBit (hw : 0 < w) : bit (setBit p m) q = (decide (q = p) || bit m q) := by
  rw [bit, setBit]
  by_cases hword : q / w = p / w
  · rw [hword, Function.update_self, BitVec.getLsbD_or, getLsbD_one_shift hw, bit, hword,
      Bool.or_comm]
    congr 1
    refine decide_eq_decide.mpr ⟨fun h => ?_, fun h => by rw [h]⟩
    by_contra hne
    exact place_ne hne hword h
  · have hne : q ≠ p := fun h => hword (by rw [h])
    rw [Function.update_of_ne hword, decide_eq_false hne, Bool.false_or, bit]

lemma bit_clearBit (hw : 0 < w) : bit (clearBit p m) q = (!decide (q = p) && bit m q) := by
  rw [bit, clearBit]
  by_cases hword : q / w = p / w
  · rw [hword, Function.update_self, BitVec.getLsbD_and, BitVec.getLsbD_not,
      getLsbD_one_shift hw, decide_eq_true (Nat.mod_lt q hw), Bool.true_and, bit, hword,
      Bool.and_comm]
    congr 2
    refine decide_eq_decide.mpr ⟨fun h => ?_, fun h => by rw [h]⟩
    by_contra hne
    exact place_ne hne hword h
  · have hne : q ≠ p := fun h => hword (by rw [h])
    rw [Function.update_of_ne hword, decide_eq_false hne, Bool.not_false, Bool.true_and, bit]

/-! ### The first zero of a word -/

def firstZero (x : BitVec w) : ℕ := ((List.range w).find? fun i => !x.getLsbD i).getD 0

lemma firstZero_spec {x : BitVec w} (h : x ≠ BitVec.allOnes w) :
    firstZero x < w ∧ x.getLsbD (firstZero x) = false ∧
      ∀ i < firstZero x, x.getLsbD i = true := by
  rw [firstZero]
  cases hf : (List.range w).find? fun i => !x.getLsbD i with
  | none =>
    have hall : x = BitVec.allOnes w := by
      refine BitVec.eq_of_getLsbD_eq fun i hi => ?_
      simpa [hi] using List.find?_eq_none.mp hf i (List.mem_range.mpr hi)
    exact absurd hall h
  | some k =>
    obtain ⟨hk, hkw, hbefore⟩ := List.find?_range_eq_some.mp hf
    refine ⟨List.mem_range.mp hkw, by simpa using hk, fun i hi => ?_⟩
    simpa using hbefore i hi

/-- All bits below the start of a search. -/
lemma getLsbD_startMask {r : ℕ} (hr : r < w) (i : ℕ) :
    (BitVec.allOnes w >>> (w - r)).getLsbD i = decide (i < r) := by
  rw [BitVec.getLsbD_ushiftRight, BitVec.getLsbD_allOnes]
  refine decide_eq_decide.mpr ⟨fun h => by omega, fun h => by omega⟩

/-! ### Counting -/

/-- The number of set bits below `n`. -/
def count (n : ℕ) (m : ℕ → BitVec w) : ℕ := ((Finset.range n).filter fun p => bit m p).card

lemma count_setBit {n : ℕ} (hw : 0 < w) (hp : p < n) (hfree : bit m p = false) :
    count n (setBit p m) = count n m + 1 := by
  have hset : (Finset.range n).filter (fun q => bit (setBit p m) q) =
      insert p ((Finset.range n).filter fun q => bit m q) := by
    ext q
    simp only [Finset.mem_filter, Finset.mem_range, Finset.mem_insert, bit_setBit hw,
      Bool.or_eq_true, decide_eq_true_eq]
    constructor
    · rintro ⟨hq, rfl | hb⟩
      · exact .inl rfl
      · exact .inr ⟨hq, hb⟩
    · rintro (rfl | ⟨hq, hb⟩)
      · exact ⟨hp, .inl rfl⟩
      · exact ⟨hq, .inr hb⟩
  rw [count, hset, Finset.card_insert_of_notMem (by simp [hfree]), count]

lemma count_clearBit {n : ℕ} (hw : 0 < w) (hp : p < n) (hused : bit m p = true) :
    count n (clearBit p m) + 1 = count n m := by
  have hfree : bit (clearBit p m) p = false := by simp [bit_clearBit hw]
  rw [← count_setBit hw hp hfree, count, count]
  congr 2
  funext q
  rw [bit_setBit hw, bit_clearBit hw]
  by_cases hq : q = p
  · simp [hq, hused]
  · simp [hq]

end FpMemSched.Lib.Bitmaps
