import Mathlib.Data.List.Sort
import Mathlib.Data.Nat.Basic
import Mathlib.Order.Basic

/-!
Distances on a circle of `M + 1` points.

A counter runs through the values `0` to `M` and starts again. The distance of a point from
the counter is the number of points it passes before it gets there: none for the next one, `M`
for the one where the counter stands. A tick takes one off all distances. A list that is
ordered by the distance stays so when an element is inserted behind those that are no farther.
-/

namespace FpMemSched.Lib.Circular

variable {M v x : ℕ}

def dist (M v x : ℕ) : ℕ := (x + M - v) % (M + 1)

/-- The value after the next tick. -/
def advance (M v : ℕ) : ℕ := if M ≤ v then 0 else v + 1

/-- The point that the counter reaches in `d` ticks. -/
def ahead (M v d : ℕ) : ℕ := if v + d ≤ M then v + d else v + d - (M + 1)

lemma dist_le (M v x : ℕ) : dist M v x ≤ M := Nat.le_of_lt_succ (Nat.mod_lt _ (Nat.succ_pos M))

lemma dist_of_lt (h : v < x) (hx : x ≤ M) : dist M v x = x - v - 1 := by
  have he : x + M - v = (x - v - 1) + (M + 1) := by omega
  rw [dist, he, Nat.add_mod_right, Nat.mod_eq_of_lt (by omega)]

lemma dist_of_le (h : x ≤ v) (hv : v ≤ M) : dist M v x = x + M - v := by
  rw [dist, Nat.mod_eq_of_lt (by omega)]

lemma advance_le (hv : v ≤ M) : advance M v ≤ M := by
  unfold advance
  split_ifs <;> omega

lemma ahead_le (d : ℕ) (hv : v ≤ M) (hd : d ≤ M) : ahead M v d ≤ M := by
  unfold ahead
  split_ifs <;> omega

/-- The next point is the only one at no distance. -/
lemma dist_eq_zero (hv : v ≤ M) (hx : x ≤ M) : dist M v x = 0 ↔ x = advance M v := by
  unfold advance
  rcases Nat.lt_or_ge v x with h | h
  · rw [dist_of_lt h hx]
    split_ifs <;> omega
  · rw [dist_of_le h hv]
    split_ifs <;> omega

/-- The point where the counter stands is the farthest. -/
lemma dist_eq_max (hv : v ≤ M) (hx : x ≤ M) : dist M v x = M ↔ x = v := by
  rcases Nat.lt_or_ge v x with h | h
  · rw [dist_of_lt h hx]
    omega
  · rw [dist_of_le h hv]
    omega

/-- A tick takes one off the distance. -/
lemma dist_advance (hv : v ≤ M) (hx : x ≤ M) (h : dist M v x ≠ 0) :
    dist M (advance M v) x + 1 = dist M v x := by
  have hne : x ≠ advance M v := fun he => h ((dist_eq_zero hv hx).mpr he)
  have hv' : advance M v ≤ M := advance_le hv
  rcases Nat.lt_or_ge (advance M v) x with h₁ | h₁
  · rw [dist_of_lt h₁ hx]
    rcases Nat.lt_or_ge v x with h₂ | h₂
    · rw [dist_of_lt h₂ hx]
      unfold advance at *
      split_ifs at * <;> omega
    · rw [dist_of_le h₂ hv]
      unfold advance at *
      split_ifs at * <;> omega
  · rw [dist_of_le h₁ hv']
    rcases Nat.lt_or_ge v x with h₂ | h₂
    · rw [dist_of_lt h₂ hx]
      unfold advance at *
      split_ifs at * <;> omega
    · rw [dist_of_le h₂ hv]
      unfold advance at *
      split_ifs at * <;> omega

lemma dist_ahead {d : ℕ} (hv : v ≤ M) (hd : 0 < d) (hd' : d ≤ M) :
    dist M v (ahead M v d) + 1 = d := by
  unfold ahead
  split_ifs with h
  · rw [dist_of_lt (by omega) h]
    omega
  · rw [dist_of_le (by omega) hv]
    omega

/-- Which of two points is farther, told by comparisons: the points above the counter come
first, in order, then those up to it. -/
lemma dist_le_iff {y : ℕ} (hv : v ≤ M) (hx : x ≤ M) (hy : y ≤ M) :
    dist M v x ≤ dist M v y ↔ if v < x then x ≤ y ∨ y ≤ v else y ≤ v ∧ x ≤ y := by
  rcases Nat.lt_or_ge v x with h₁ | h₁ <;> rcases Nat.lt_or_ge v y with h₂ | h₂
  · rw [dist_of_lt h₁ hx, dist_of_lt h₂ hy, if_pos h₁]
    omega
  · rw [dist_of_lt h₁ hx, dist_of_le h₂ hv, if_pos h₁]
    omega
  · rw [dist_of_le h₁ hv, dist_of_lt h₂ hy, if_neg (by omega)]
    omega
  · rw [dist_of_le h₁ hv, dist_of_le h₂ hv, if_neg (by omega)]
    omega

/-- Points at the same distance are the same. -/
lemma dist_inj {y : ℕ} (hv : v ≤ M) (hx : x ≤ M) (hy : y ≤ M) (h : dist M v x = dist M v y) :
    x = y := by
  rcases Nat.lt_or_ge v x with h₁ | h₁ <;> rcases Nat.lt_or_ge v y with h₂ | h₂
  · rw [dist_of_lt h₁ hx, dist_of_lt h₂ hy] at h
    omega
  · rw [dist_of_lt h₁ hx, dist_of_le h₂ hv] at h
    omega
  · rw [dist_of_le h₁ hv, dist_of_lt h₂ hy] at h
    omega
  · rw [dist_of_le h₁ hv, dist_of_le h₂ hv] at h
    omega

/-! ### Moving a point -/

variable {k : ℕ}

/-- The point `k` before `x`. -/
def behind (M x k : ℕ) : ℕ := if k ≤ x then x - k else x + (M + 1) - k

lemma behind_le (hx : x ≤ M) : behind M x k ≤ M := by
  unfold behind
  split_ifs <;> omega

lemma dist_behind (hv : v ≤ M) (hx : x ≤ M) (hk : k ≤ dist M v x) :
    dist M v (behind M x k) + k = dist M v x := by
  unfold behind
  rcases Nat.lt_or_ge v x with h | h
  · rw [dist_of_lt h hx] at hk ⊢
    rw [if_pos (by omega), dist_of_lt (by omega) (by omega)]
    omega
  · rw [dist_of_le h hv] at hk ⊢
    split_ifs with hkx
    · rw [dist_of_le (by omega) hv]
      omega
    · rw [dist_of_lt (by omega) (by omega)]
      omega

/-- A point is moved towards the counter by `k` exactly if it is not passed. -/
lemma dist_add_eq_iff {y : ℕ} (hv : v ≤ M) (hx : x ≤ M) (hy : y ≤ M) :
    dist M v y + k = dist M v x ↔ k ≤ dist M v x ∧ y = behind M x k := by
  constructor
  · intro h
    have hk : k ≤ dist M v x := by omega
    refine ⟨hk, dist_inj hv hy (behind_le hx) ?_⟩
    have := dist_behind hv hx hk
    omega
  · rintro ⟨hk, rfl⟩
    exact dist_behind hv hx hk

/-- A point is moved away from the counter by `k` exactly if the counter is not passed. -/
lemma dist_eq_add_iff {y : ℕ} (hv : v ≤ M) (hx : x ≤ M) (hy : y ≤ M) :
    dist M v y = dist M v x + k ↔ dist M v x + k ≤ M ∧ y = ahead M x k := by
  have hahead : dist M v x + k ≤ M → dist M v (ahead M x k) = dist M v x + k := by
    intro hk
    unfold ahead
    rcases Nat.lt_or_ge v x with h | h
    · rw [dist_of_lt h hx] at hk ⊢
      split_ifs with hxk
      · rw [dist_of_lt (by omega) hxk]
        omega
      · rw [dist_of_le (by omega) hv]
        omega
    · rw [dist_of_le h hv] at hk ⊢
      rw [if_pos (by omega), dist_of_le (by omega) hv]
      omega
  constructor
  · intro h
    have hk : dist M v x + k ≤ M := h ▸ dist_le M v y
    refine ⟨hk, dist_inj hv hy (ahead_le k hx (by omega)) ?_⟩
    rw [h, hahead hk]
  · rintro ⟨hk, rfl⟩
    exact hahead hk

/-! ### Time -/

variable {t d : ℕ}

/-- The counter after `t + d` ticks, told from the one after `t`. -/
lemma mod_add (hd : d ≤ M + 1) : (t + d) % (M + 1) =
    if t % (M + 1) + d ≤ M then t % (M + 1) + d else t % (M + 1) + d - (M + 1) := by
  have hv : t % (M + 1) < M + 1 := Nat.mod_lt _ (Nat.succ_pos M)
  rw [← Nat.mod_add_mod]
  split_ifs with h
  · exact Nat.mod_eq_of_lt (by omega)
  · rw [Nat.mod_eq_sub_mod (by omega), Nat.mod_eq_of_lt (by omega)]

lemma advance_mod : advance M (t % (M + 1)) = (t + 1) % (M + 1) := by
  have hv : t % (M + 1) < M + 1 := Nat.mod_lt _ (Nat.succ_pos M)
  rw [mod_add (by omega)]
  unfold advance
  split_ifs <;> omega

lemma ahead_mod (hd : d ≤ M) : ahead M (t % (M + 1)) d = (t + d) % (M + 1) := by
  rw [mod_add (by omega), ahead]

lemma dist_mod (hd : 0 < d) (hd' : d ≤ M + 1) :
    dist M (t % (M + 1)) ((t + d) % (M + 1)) + 1 = d := by
  have hv : t % (M + 1) < M + 1 := Nat.mod_lt _ (Nat.succ_pos M)
  rw [mod_add hd']
  split_ifs with h
  · rw [dist_of_lt (by omega) h]
    omega
  · rw [dist_of_le (by omega) (by omega)]
    omega

/-- The point that is reached after its distance. -/
lemma mod_dist (hx : x ≤ M) : (t + (dist M (t % (M + 1)) x + 1)) % (M + 1) = x := by
  have hv : t % (M + 1) < M + 1 := Nat.mod_lt _ (Nat.succ_pos M)
  have hd := dist_le M (t % (M + 1)) x
  rw [mod_add (by omega)]
  rcases Nat.lt_or_ge (t % (M + 1)) x with h | h
  · rw [dist_of_lt h hx]
    split_ifs <;> omega
  · rw [dist_of_le h (by omega)]
    split_ifs <;> omega

/-! ### Ordered lists -/

variable {α : Type*} {key : α → ℕ} {l : List α} {a : α}

/-- Smallest key first. -/
def Ascending (key : α → ℕ) (l : List α) : Prop := l.Pairwise fun x y => key x ≤ key y

/-- The place behind all elements of no larger key. -/
lemma Ascending.insert {p : α → Bool} (h : Ascending key l)
    (hp : ∀ x ∈ l, p x = true ↔ key x ≤ key a) :
    Ascending key (l.takeWhile p ++ a :: l.dropWhile p) := by
  induction l with
  | nil => exact List.pairwise_singleton _ _
  | cons x l ih =>
    obtain ⟨hx, hl⟩ := List.pairwise_cons.mp h
    have hpx := hp x List.mem_cons_self
    by_cases hle : p x = true
    · rw [List.takeWhile_cons_of_pos hle, List.dropWhile_cons_of_pos hle, List.cons_append]
      refine List.pairwise_cons.mpr ⟨fun y hy => ?_,
        ih hl fun y hy => hp y (List.mem_cons_of_mem _ hy)⟩
      rw [List.mem_append, List.mem_cons] at hy
      rcases hy with hy | rfl | hy
      · exact hx y (List.takeWhile_subset _ hy)
      · exact hpx.mp hle
      · exact hx y (List.dropWhile_subset _ hy)
    · rw [List.takeWhile_cons_of_neg hle, List.dropWhile_cons_of_neg hle, List.nil_append]
      rw [hpx] at hle
      refine List.pairwise_cons.mpr ⟨fun y hy => ?_, h⟩
      rcases List.mem_cons.mp hy with rfl | hy
      · omega
      · have := hx y hy
        omega

/-- The elements of the smallest possible key are in front. -/
lemma Ascending.rest {p : α → Bool} (h : Ascending key l)
    (hp : ∀ x ∈ l, p x = true ↔ key x = 0) : ∀ x ∈ l.dropWhile p, key x ≠ 0 := by
  induction l with
  | nil => simp
  | cons x l ih =>
    obtain ⟨hx, hl⟩ := List.pairwise_cons.mp h
    have hpx := hp x List.mem_cons_self
    by_cases h0 : p x = true
    · rw [List.dropWhile_cons_of_pos h0]
      exact ih hl fun y hy => hp y (List.mem_cons_of_mem _ hy)
    · rw [List.dropWhile_cons_of_neg h0]
      rw [hpx] at h0
      intro y hy
      rcases List.mem_cons.mp hy with rfl | hy
      · exact h0
      · have := hx y hy
        omega

end FpMemSched.Lib.Circular
