import FpMemSched.Tdma

/-!
Where `tdma_timer_start` sets the timer, for any number of slots.
-/

namespace FpMemSched.TdmaExact

open FpMemSched.Lib.Slots FpMemSched.Tdma

variable {n p t k : ℕ} {c : PerCpu}

/-- `tdma_timer_start` with `n` slots. -/
def timerStart (n p timerCount : ℕ) (c : PerCpu) : PerCpu × Bool :=
  let slotId := u8 c.slotId
  let cyclePeriod := u64 (p * n)
  let currentSlotId := timerCount / p % n % 256
  let cycleStart := u64 (timerCount / cyclePeriod * cyclePeriod)
  if currentSlotId = slotId then
    (c.arm (u64 (cycleStart + (slotId + 1) * p)) .stop, true)
  else if currentSlotId < slotId then
    (c.arm (u64 (cycleStart + slotId * p)) .start, false)
  else
    (c.arm (u64 (cycleStart + slotId * p + cyclePeriod)) .start, false)

lemma tdmaTimerStart_eq (p timerCount : ℕ) (c : PerCpu) :
    tdmaTimerStart p timerCount c = timerStart tdmaNumSlots p timerCount c := rfl

/-- **What arming the timer does**: while the slot is on the timer is set to its end, otherwise
to the next start of the slot. -/
lemma timerStart_cases (hp : 0 < p) (hn : n ≤ 255) (ht : t + n * p < 2 ^ 64)
    (hc : u8 c.slotId = k) (hk : k < n) :
    (slotAt n p t = k ∧ timerStart n p t c =
      (c.arm (slotStart n p (t / (p * n)) (slotAt n p t + 1)) .stop, true)) ∨
    (slotAt n p t ≠ k ∧ timerStart n p t c =
      (c.arm (slotStart n p (if slotAt n p t < k then t / (p * n) else t / (p * n) + 1) k) .start,
        false)) := by
  rw [Nat.mul_comm] at ht
  -- nothing wraps around
  have hslot : slotAt n p t < n := Nat.mod_lt _ (by omega)
  have hcp : u64 (p * n) = p * n := Nat.mod_eq_of_lt (by omega)
  have hcur : t / p % n % 256 = slotAt n p t := Nat.mod_eq_of_lt (by unfold slotAt at hslot; omega)
  have hcs : u64 (t / (p * n) * (p * n)) = cycleStart n p t :=
    Nat.mod_eq_of_lt (by have := Nat.div_mul_le_self t (p * n); omega)
  have hu : ∀ q, slotStart n p (t / (p * n)) q ≤ t + p * n →
      u64 (cycleStart n p t + q * p) = slotStart n p (t / (p * n)) q := by
    intro q hq
    rw [cycleStart_add, u64, Nat.mod_eq_of_lt (by omega)]
  obtain ⟨hlo, -⟩ := slotAt_spec (n := n) (t := t) hp
  have hzero : slotStart n p (t / (p * n)) 0 ≤ t :=
    (slotStart_mono _ (Nat.zero_le _)).trans hlo
  have hcycle : ∀ q ≤ n, slotStart n p (t / (p * n)) q ≤ t + p * n := by
    intro q hq
    have h₁ := slotStart_mono (n := n) (p := p) (t / (p * n)) hq
    rw [slotStart_last, slotStart_cycle] at h₁
    omega
  unfold timerStart
  simp only [hcp, hcur, hcs, hc]
  rcases Nat.lt_trichotomy (slotAt n p t) k with hlt | rfl | hgt
  · refine Or.inr ⟨by omega, ?_⟩
    rw [if_neg (by omega), if_pos hlt, if_pos hlt, hu k (hcycle k hk.le)]
  · refine Or.inl ⟨rfl, ?_⟩
    rw [if_pos rfl, hu _ (hcycle _ hslot)]
  · refine Or.inr ⟨by omega, ?_⟩
    have hle := slotStart_mono (n := n) (p := p) (t / (p * n)) hgt.le
    rw [if_neg (by omega), if_neg (by omega), if_neg (by omega), cycleStart_add, slotStart_cycle,
      u64, Nat.mod_eq_of_lt (by omega)]

/-- **`tdma_timer_start` is exact**: it tells whether the slot is on, and sets the timer to the end
of the slot or to its next begin. -/
theorem timer_start_exact (n p t s : ℕ) (c : PerCpu) (hp : 0 < p) (hn : 1 ≤ n) (hn' : n ≤ 255)
    (ht : t + n * p < 2 ^ 64) (hs : s < n) (hc : u8 c.slotId = s) :
    let r := timerStart n p t c
    (r.2 = true ↔ t / p % n = s) ∧ t < r.1.cmp ∧ r.1.cmp ≤ t + n * p ∧
      (r.2 = true → IsLeast {u | t < u ∧ p ∣ u} r.1.cmp ∧ r.1.target = .stop) ∧
      (r.2 = false →
        IsLeast {u | t < u ∧ u % p = 0 ∧ u / p % n = s} r.1.cmp ∧ r.1.target = .start) := by
  intro r
  rcases timerStart_cases hp hn' ht hc hs with ⟨hon, he⟩ | ⟨hoff, he⟩
  · have hleast := isLeast_multiple (n := n) (t := t) hp
    have hr : r = _ := he
    have hbound : slotStart n p (t / (p * n)) (slotAt n p t + 1) ≤ t + n * p := by
      have hlo := (slotAt_spec (n := n) (t := t) hp).1
      have hone := Nat.mul_le_mul_right p hn
      rw [slotStart_succ]
      omega
    rw [hr]
    exact ⟨⟨fun _ => hon, fun _ => rfl⟩, hleast.1.1, hbound, fun _ => ⟨hleast, rfl⟩, nofun⟩
  · have hleast := isLeast_begins (t := t) hp hs hoff
    have hr : r = _ := he
    have hbound : slotStart n p (if slotAt n p t < s then t / (p * n) else t / (p * n) + 1) s ≤
        t + n * p := by
      rw [Nat.mul_comm n p]
      exact next_le hp hs
    rw [hr]
    exact ⟨⟨nofun, fun h => absurd h hoff⟩, hleast.1.1, hbound, nofun, fun _ => ⟨hleast, rfl⟩⟩

/-- The second of three slots of ten ticks, asked in the third one. -/
theorem timer_start_exact_lastSlot :
    (timerStart 3 10 25 (tdmaOnCellCreate 2)).2 = false ∧
      IsLeast {u | 25 < u ∧ u % 10 = 0 ∧ u / 10 % 3 = 1}
        (timerStart 3 10 25 (tdmaOnCellCreate 2)).1.cmp := by
  have h := timer_start_exact 3 10 25 1 (tdmaOnCellCreate 2) (by decide) (by decide) (by decide)
    (by decide) (by decide) (by decide)
  exact ⟨by decide, (h.2.2.2.2 (by decide)).1⟩

end FpMemSched.TdmaExact
