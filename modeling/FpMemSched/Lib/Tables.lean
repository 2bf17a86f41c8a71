import Mathlib.Data.List.Basic
import Mathlib.Logic.Function.Basic

/-!
Tables: the first `n` entries of an array.

An entry is put in by moving the entries from its index on up by one, the last one first. It is
taken out by moving the entries behind it down. On the list of the entries this inserts and
removes.
-/

namespace FpMemSched.Lib.Tables

variable {α : Type*} {a b : ℕ → α} {i n : ℕ} {x : α}

def listed (n : ℕ) (a : ℕ → α) : List α := (List.range n).map a

@[simp] lemma length_listed (n : ℕ) (a : ℕ → α) : (listed n a).length = n := by simp [listed]

lemma mem_listed : x ∈ listed n a ↔ ∃ j < n, a j = x := by simp [listed]

lemma getElem?_listed {j : ℕ} (hj : j < n) : (listed n a)[j]? = some (a j) := by
  simp [listed, hj]

lemma listed_congr (h : ∀ j < n, a j = b j) : listed n a = listed n b :=
  List.map_congr_left fun j hj => h j (List.mem_range.mp hj)

lemma listed_add (i k : ℕ) (a : ℕ → α) :
    listed (i + k) a = listed i a ++ listed k fun j => a (i + j) := by
  rw [listed, List.range_add, List.map_append, List.map_map]
  rfl

lemma listed_succ' (k : ℕ) (a : ℕ → α) : listed (k + 1) a = a 0 :: listed k fun j => a (j + 1) := by
  rw [listed, List.range_succ_eq_map, List.map_cons, List.map_map]
  rfl

/-- An order on the list is one on the entries. -/
lemma pairwise_listed {R : α → α → Prop} :
    (listed n a).Pairwise R ↔ ∀ i j, i < j → j < n → R (a i) (a j) := by
  rw [listed, List.pairwise_map, List.pairwise_iff_getElem]
  simp only [List.length_range, List.getElem_range]
  exact ⟨fun h i j hij hj => h i j (by omega) hj hij, fun h i j _ hj hij => h i j hij hj⟩

/-! ### Moving up -/

/-- Copy the entries below `n` up, down to the one at `i`. -/
def shiftUp (i : ℕ) : ℕ → (ℕ → α) → ℕ → α
  | 0, a => a
  | n + 1, a => if i < n + 1 then shiftUp i n (Function.update a (n + 1) (a n)) else a

lemma shiftUp_apply (j : ℕ) :
    shiftUp i n a j = if i < j ∧ j ≤ n then a (j - 1) else a j := by
  induction n generalizing a with
  | zero =>
    rw [shiftUp, if_neg (by omega)]
  | succ n ih =>
    rw [shiftUp]
    split
    · rw [ih]
      rcases Nat.lt_trichotomy j (n + 1) with hj | rfl | hj
      · rw [Function.update_of_ne (by omega), Function.update_of_ne (by omega)]
        split_ifs <;> first | rfl | omega
      · rw [if_neg (by omega), if_pos (by omega), Function.update_self, Nat.add_sub_cancel]
      · rw [if_neg (by omega), if_neg (by omega), Function.update_of_ne (by omega)]
    · rw [if_neg (by omega)]

/-- **Insertion.** -/
theorem listed_insert (hi : i ≤ n) (x : α) :
    ∃ l r, listed n a = l ++ r ∧ l.length = i ∧
      listed (n + 1) (Function.update (shiftUp i n a) i x) = l ++ x :: r := by
  obtain ⟨k, rfl⟩ := Nat.exists_eq_add_of_le hi
  refine ⟨listed i a, listed k fun j => a (i + j), listed_add i k a, length_listed i a, ?_⟩
  rw [Nat.add_assoc, listed_add, listed_succ']
  congr 1
  · refine listed_congr fun j hj => ?_
    rw [Function.update_of_ne (by omega), shiftUp_apply, if_neg (by omega)]
  · congr 1
    · exact Function.update_self _ _ _
    · refine listed_congr fun j hj => ?_
      rw [Function.update_of_ne (by omega), shiftUp_apply, if_pos (by omega)]
      congr 1

/-! ### Moving down -/

/-- Copy the entries behind `i` down, up to the one at `n`. -/
def shiftDown (n : ℕ) : ℕ → ℕ → (ℕ → α) → ℕ → α
  | 0, _, a => a
  | fuel + 1, i, a =>
    if i < n then shiftDown n fuel (i + 1) (Function.update a i (a (i + 1))) else a

lemma shiftDown_apply {fuel : ℕ} (hfuel : n - i ≤ fuel) (j : ℕ) :
    shiftDown n fuel i a j = if i ≤ j ∧ j < n then a (j + 1) else a j := by
  induction fuel generalizing i a with
  | zero =>
    rw [shiftDown, if_neg (by omega)]
  | succ fuel ih =>
    rw [shiftDown]
    split
    · rw [ih (by omega)]
      rcases Nat.lt_trichotomy j i with hj | rfl | hj
      · rw [if_neg (by omega), if_neg (by omega), Function.update_of_ne (by omega)]
      · rw [if_neg (by omega), if_pos (by omega), Function.update_self]
      · rw [Function.update_of_ne (by omega), Function.update_of_ne (by omega)]
        split_ifs <;> first | rfl | omega
    · rw [if_neg (by omega)]

/-- **Removal.** -/
theorem listed_remove {fuel : ℕ} (hi : i < n) (hfuel : n - i ≤ fuel) :
    ∃ l r, listed n a = l ++ a i :: r ∧ l.length = i ∧
      listed (n - 1) (shiftDown n fuel i a) = l ++ r := by
  obtain ⟨k, rfl⟩ : ∃ k, n = i + (k + 1) := ⟨n - i - 1, by omega⟩
  refine ⟨listed i a, listed k fun j => a (i + (j + 1)), ?_, length_listed i a, ?_⟩
  · rw [listed_add, listed_succ']
    rfl
  · rw [show i + (k + 1) - 1 = i + k by omega, listed_add]
    congr 1
    · refine listed_congr fun j hj => ?_
      rw [shiftDown_apply hfuel, if_neg (by omega)]
    · refine listed_congr fun j hj => ?_
      rw [shiftDown_apply hfuel, if_pos (by omega)]
      rfl

end FpMemSched.Lib.Tables
