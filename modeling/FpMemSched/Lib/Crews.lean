import FpMemSched.Lib.Runs
import Mathlib.Algebra.Order.BigOperators.Group.Finset

/-!
A finite crew of agents, each with a state of its own.

How many of them satisfy a predicate, and how that changes when one agent moves. A machine
whose steps all raise a measure has no long runs.
-/

namespace FpMemSched.Lib.Crews

open FpMemSched.Lib.Runs

variable {ι β : Type*} (A : Finset ι) (P : β → Prop) [DecidablePred P] {f : ι → β} {i : ι} {b : β}

/-- The number of agents of `A` in a state that satisfies `P`. -/
def tally (f : ι → β) : ℕ := (A.filter fun i => P (f i)).card

lemma tally_le (f : ι → β) : tally A P f ≤ A.card := Finset.card_filter_le _ _

variable {A P}

lemma tally_eq_card_iff : tally A P f = A.card ↔ ∀ i ∈ A, P (f i) := Finset.card_filter_eq_iff

lemma tally_eq_zero_iff : tally A P f = 0 ↔ ∀ i ∈ A, ¬ P (f i) := by
  rw [tally, Finset.card_eq_zero, Finset.filter_eq_empty_iff]

variable [DecidableEq ι]

lemma tally_update_of_iff (h : P b ↔ P (f i)) : tally A P (Function.update f i b) = tally A P f := by
  unfold tally
  congr 1
  refine Finset.filter_congr fun j _ => ?_
  by_cases hj : j = i
  · subst hj
    simp [h]
  · simp [hj]

lemma tally_update_enter (hi : i ∈ A) (h : ¬ P (f i)) (hb : P b) :
    tally A P (Function.update f i b) = tally A P f + 1 := by
  have hset : (A.filter fun j => P (Function.update f i b j)) =
      insert i (A.filter fun j => P (f j)) := by
    ext j
    by_cases hj : j = i
    · subst hj
      simp [hi, hb]
    · simp [hj]
  rw [tally, hset, Finset.card_insert_of_notMem (by simp [h]), tally]

/-! ### Measures -/

lemma sum_update_lt {r : β → ℕ} (hi : i ∈ A) (h : r (f i) < r b) :
    ∑ j ∈ A, r (f j) < ∑ j ∈ A, r (Function.update f i b j) := by
  refine Finset.sum_lt_sum (fun j _ => ?_) ⟨i, hi, by simpa using h⟩
  by_cases hj : j = i
  · subst hj
    simpa using h.le
  · simp [hj]

/-- A run is no longer than what its steps raise the measure by. -/
lemma exec_length_le {σ α : Type*} {step : σ → α → Option σ} {μ : σ → ℕ}
    (h : ∀ s a t, step s a = some t → μ s < μ t) {s t : σ} {as : List α}
    (he : exec step s as = some t) : as.length + μ s ≤ μ t := by
  induction as generalizing s with
  | nil =>
    obtain rfl : s = t := by simpa using he
    simp
  | cons a as ih =>
    obtain ⟨u, hu, he⟩ := (exec_cons step).mp he
    have := h s a u hu
    have := ih he
    rw [List.length_cons]
    omega

end FpMemSched.Lib.Crews
