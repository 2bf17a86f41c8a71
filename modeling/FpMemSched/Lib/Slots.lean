import Mathlib.Algebra.Order.Group.Nat
import Mathlib.Order.Bounds.Defs
import Mathlib.Tactic.Ring

/-!
A cycle of `n` slots of length `p` each, repeated for ever from time `0`.

A slot is given by the cycle it lies in and its place there; the two lemmas say that
`cycleStart` and `slotAt` compute the slot a time lies in.
-/

namespace FpMemSched.Lib.Slots

variable {n p t : ℕ}

def slotAt (n p t : ℕ) : ℕ := t / p % n

def cycleStart (n p t : ℕ) : ℕ := t / (p * n) * (p * n)

/-- Slot `k` of cycle `q` starts here. -/
def slotStart (n p q k : ℕ) : ℕ := q * (p * n) + k * p

lemma slotStart_succ (q k : ℕ) : slotStart n p q (k + 1) = slotStart n p q k + p := by
  unfold slotStart; ring

/-- The slot after the last one of a cycle is the first one of the next. -/
lemma slotStart_last (q : ℕ) : slotStart n p q n = slotStart n p (q + 1) 0 := by
  unfold slotStart; ring

/-- A cycle later. -/
lemma slotStart_cycle (q k : ℕ) : slotStart n p (q + 1) k = slotStart n p q k + p * n := by
  unfold slotStart; ring

lemma slotStart_mono (q : ℕ) {j k : ℕ} (h : j ≤ k) : slotStart n p q j ≤ slotStart n p q k := by
  have := Nat.mul_le_mul_right p h
  unfold slotStart; omega

lemma cycleStart_add (k : ℕ) :
    cycleStart n p t + k * p = slotStart n p (t / (p * n)) k := rfl

/-- **The slot a time lies in.** -/
lemma slotAt_spec (hp : 0 < p) :
    slotStart n p (t / (p * n)) (slotAt n p t) ≤ t ∧
      t < slotStart n p (t / (p * n)) (slotAt n p t) + p := by
  have hs : slotStart n p (t / (p * n)) (slotAt n p t) = p * (t / p) := by
    have hdm : n * (t / p / n) + t / p % n = t / p := Nat.div_add_mod (t / p) n
    unfold slotStart slotAt
    rw [← Nat.div_div_eq_div_mul]
    calc t / p / n * (p * n) + t / p % n * p = p * (n * (t / p / n) + t / p % n) := by ring
      _ = p * (t / p) := by rw [hdm]
  have hdm := Nat.div_add_mod t p
  have hlt := Nat.mod_lt t hp
  rw [hs]
  omega

/-- **A time in slot `k` of some cycle is in slot `k`.** -/
lemma slotAt_eq {q k : ℕ} (hk : k < n) (h₁ : slotStart n p q k ≤ t)
    (h₂ : t < slotStart n p q k + p) : slotAt n p t = k := by
  have hs : slotStart n p q k = (q * n + k) * p := by unfold slotStart; ring
  have hd : t / p = q * n + k := by
    rw [hs] at h₁ h₂
    refine Nat.div_eq_of_lt_le h₁ ?_
    rw [Nat.add_mul _ 1, Nat.one_mul]
    exact h₂
  rw [slotAt, hd, Nat.mul_add_mod', Nat.mod_eq_of_lt hk]

/-! ### Where a slot begins -/

/-- Slot `k` of some cycle begins at `u`. -/
def Begins (n p k u : ℕ) : Prop := u % p = 0 ∧ u / p % n = k

variable {k q u : ℕ}

lemma slotStart_eq (q k : ℕ) : slotStart n p q k = (q * n + k) * p := by
  unfold slotStart; ring

lemma begins_slotStart (hp : 0 < p) (hk : k < n) : Begins n p k (slotStart n p q k) := by
  rw [slotStart_eq]
  refine ⟨Nat.mul_mod_left _ _, ?_⟩
  rw [Nat.mul_div_cancel _ hp, Nat.mul_add_mod', Nat.mod_eq_of_lt hk]

lemma Begins.eq_slotStart (h : Begins n p k u) : ∃ q, u = slotStart n p q k := by
  refine ⟨u / p / n, ?_⟩
  have hp := Nat.div_add_mod' u p
  have hn := Nat.div_add_mod' (u / p) n
  rw [h.1, Nat.add_zero] at hp
  rw [h.2] at hn
  rw [slotStart_eq, hn, hp]

lemma slotStart_le_slotStart {q' : ℕ} (h : q ≤ q') : slotStart n p q k ≤ slotStart n p q' k := by
  have := Nat.mul_le_mul_right (p * n) h
  unfold slotStart
  omega

/-- **The next begin of a slot**: in this cycle if the slot is still to come, in the next one
if it is over. -/
lemma isLeast_begins (hp : 0 < p) (hk : k < n) (hne : slotAt n p t ≠ k) :
    IsLeast {u | t < u ∧ Begins n p k u}
      (slotStart n p (if slotAt n p t < k then t / (p * n) else t / (p * n) + 1) k) := by
  obtain ⟨hlo, hhi⟩ := slotAt_spec (n := n) (t := t) hp
  rw [← slotStart_succ] at hhi
  split_ifs with hlt
  · refine ⟨⟨hhi.trans_le (slotStart_mono _ hlt), begins_slotStart hp hk⟩, ?_⟩
    rintro u ⟨hu, hb⟩
    obtain ⟨q, rfl⟩ := hb.eq_slotStart
    apply slotStart_le_slotStart
    -- the slots of earlier cycles are over
    by_contra hq
    have h₁ : slotStart n p q k ≤ slotStart n p (q + 1) 0 := by
      rw [← slotStart_last]
      exact slotStart_mono q hk.le
    have h₂ := slotStart_le_slotStart (n := n) (p := p) (k := 0)
      (show q + 1 ≤ t / (p * n) by omega)
    have h₃ := slotStart_mono (n := n) (p := p) (t / (p * n)) (Nat.zero_le (slotAt n p t))
    omega
  · have hgt : k + 1 ≤ slotAt n p t := by omega
    have hnext : slotStart n p (t / (p * n)) (slotAt n p t + 1) ≤
        slotStart n p (t / (p * n) + 1) k := by
      have hs : slotAt n p t < n := Nat.mod_lt _ (by omega)
      have h₁ := slotStart_mono (n := n) (p := p) (t / (p * n)) hs
      rw [Nat.succ_eq_add_one, slotStart_last] at h₁
      exact h₁.trans (slotStart_mono _ (Nat.zero_le k))
    refine ⟨⟨hhi.trans_le hnext, begins_slotStart hp hk⟩, ?_⟩
    rintro u ⟨hu, hb⟩
    obtain ⟨q, rfl⟩ := hb.eq_slotStart
    apply slotStart_le_slotStart
    by_contra hq
    have h₁ := slotStart_le_slotStart (n := n) (p := p) (k := k)
      (show q ≤ t / (p * n) by omega)
    have h₂ := slotStart_mono (n := n) (p := p) (t / (p * n)) (show k ≤ slotAt n p t by omega)
    omega

/-- The next begin of a slot is at most a cycle away. -/
lemma next_le (hp : 0 < p) (hk : k < n) :
    slotStart n p (if slotAt n p t < k then t / (p * n) else t / (p * n) + 1) k ≤ t + p * n := by
  obtain ⟨hlo, -⟩ := slotAt_spec (n := n) (t := t) hp
  split_ifs with hlt
  · have h₁ := slotStart_mono (n := n) (p := p) (t / (p * n)) hk.le
    have h₂ := slotStart_mono (n := n) (p := p) (t / (p * n)) (Nat.zero_le (slotAt n p t))
    rw [slotStart_last, slotStart_cycle] at h₁
    omega
  · have h₁ := slotStart_mono (n := n) (p := p) (t / (p * n)) (show k ≤ slotAt n p t by omega)
    rw [slotStart_cycle]
    omega

/-- **The end of a slot** is the next multiple of its length. -/
lemma isLeast_multiple (hp : 0 < p) :
    IsLeast {u | t < u ∧ p ∣ u} (slotStart n p (t / (p * n)) (slotAt n p t + 1)) := by
  obtain ⟨hlo, hhi⟩ := slotAt_spec (n := n) (t := t) hp
  rw [← slotStart_succ] at hhi
  refine ⟨⟨hhi, ?_⟩, ?_⟩
  · rw [slotStart_eq]
    exact Nat.dvd_mul_left _ _
  · rintro u ⟨hu, m, rfl⟩
    rw [slotStart_eq] at hlo
    rw [slotStart_eq, Nat.mul_comm p m]
    apply Nat.mul_le_mul_right
    by_contra hm
    have := Nat.mul_le_mul_left p
      (show m ≤ t / (p * n) * n + slotAt n p t by omega)
    rw [Nat.mul_comm p (_ + _)] at this
    omega

end FpMemSched.Lib.Slots
