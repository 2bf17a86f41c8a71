import Mathlib.Data.List.Basic
import Mathlib.Logic.Function.Basic

/-!
A queue kept in an array of `N` slots.

The entries stand from `head` up to `tail`, round the end of the array. One slot stays free, so
that `head = tail` means that there are none. Read in this order the slots are a list: writing
at `tail` appends to it and moving `head` takes its first entry off.
-/

namespace FpMemSched.Lib.Ring

variable {α : Type*} {N head tail : ℕ}

def next (N i : ℕ) : ℕ := (i + 1) % N

/-- The number of entries. -/
def used (N head tail : ℕ) : ℕ := if head ≤ tail then tail - head else tail + N - head

def entries (N : ℕ) (slots : ℕ → α) (head tail : ℕ) : List α :=
  (List.range (used N head tail)).map fun i => slots ((head + i) % N)

@[simp] lemma length_entries (slots : ℕ → α) :
    (entries N slots head tail).length = used N head tail := by
  simp [entries]

lemma next_lt (hN : 0 < N) (i : ℕ) : next N i < N := Nat.mod_lt _ hN

/-- The slot after the last one is the first. -/
lemma next_eq {i : ℕ} (hi : i < N) : next N i = if i + 1 = N then 0 else i + 1 := by
  rw [next]
  split
  · rename_i h
    rw [h, Nat.mod_self]
  · exact Nat.mod_eq_of_lt (by omega)

lemma used_lt (hh : head < N) (ht : tail < N) : used N head tail < N := by
  rw [used]
  split <;> omega

lemma used_eq_zero (hh : head < N) : used N head tail = 0 ↔ head = tail := by
  rw [used]
  split <;> omega

/-- The slot before `head` stays free. -/
lemma next_eq_head (hh : head < N) (ht : tail < N) :
    next N tail = head ↔ used N head tail = N - 1 := by
  rw [next_eq ht, used]
  split <;> split <;> omega

lemma entries_eq_nil (slots : ℕ → α) (hh : head < N) :
    entries N slots head tail = [] ↔ head = tail := by
  rw [← List.length_eq_zero_iff, length_entries, used_eq_zero hh]

lemma used_push (hh : head < N) (ht : tail < N) (hfree : next N tail ≠ head) :
    used N head (next N tail) = used N head tail + 1 := by
  rw [next_eq ht] at hfree ⊢
  unfold used
  split_ifs at * <;> omega

lemma used_pop (hh : head < N) (ht : tail < N) (hne : head ≠ tail) :
    used N head tail = used N (next N head) tail + 1 := by
  rw [next_eq hh]
  unfold used
  split_ifs <;> omega

/-- The slot behind the entries is the one at `tail`. -/
lemma head_add_used (hh : head < N) (ht : tail < N) : (head + used N head tail) % N = tail := by
  rw [used]
  split
  · rw [show head + (tail - head) = tail by omega, Nat.mod_eq_of_lt ht]
  · rw [show head + (tail + N - head) = tail + N by omega, Nat.add_mod_right,
      Nat.mod_eq_of_lt ht]

/-- The slots of the entries are not the one at `tail`. -/
lemma slot_ne_tail (hh : head < N) (ht : tail < N) {i : ℕ} (hi : i < used N head tail) :
    (head + i) % N ≠ tail := by
  rw [used] at hi
  intro he
  split at hi
  · rw [Nat.mod_eq_of_lt (by omega)] at he
    omega
  · rcases Nat.lt_or_ge (head + i) N with hlt | hge
    · rw [Nat.mod_eq_of_lt hlt] at he
      omega
    · rw [Nat.mod_eq_sub_mod hge, Nat.mod_eq_of_lt (by omega)] at he
      omega

theorem entries_push (slots : ℕ → α) (x : α) (hh : head < N) (ht : tail < N)
    (hfree : next N tail ≠ head) :
    entries N (Function.update slots tail x) head (next N tail) =
      entries N slots head tail ++ [x] := by
  rw [entries, used_push hh ht hfree, List.range_succ, List.map_append, List.map_singleton,
    head_add_used hh ht, Function.update_self, entries]
  congr 1
  refine List.map_congr_left fun i hi => ?_
  exact Function.update_of_ne (slot_ne_tail hh ht (List.mem_range.mp hi)) _ _

theorem entries_pop (slots : ℕ → α) (hh : head < N) (ht : tail < N) (hne : head ≠ tail) :
    entries N slots head tail = slots head :: entries N slots (next N head) tail := by
  rw [entries, used_pop hh ht hne, List.range_succ_eq_map, List.map_cons, List.map_map,
    Nat.add_zero, Nat.mod_eq_of_lt hh, entries]
  congr 1
  refine List.map_congr_left fun i _ => ?_
  simp only [Function.comp_apply, next, Nat.mod_add_mod]
  congr 2
  omega

end FpMemSched.Lib.Ring
