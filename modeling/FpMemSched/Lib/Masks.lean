import Mathlib.Algebra.Order.Ring.Nat
import Mathlib.Data.List.Basic
import Mathlib.Data.List.Pairwise

/-!
The maximal blocks of set positions of a mask.

`Blocks p n k bs` says that `bs` lists, from position `k` on, the blocks `(i, j)` of positions
`i ≤ x ≤ j` at which `p` holds, up to `n`.
-/

namespace FpMemSched.Lib.Masks

inductive Blocks (p : ℕ → Bool) (n : ℕ) : ℕ → List (ℕ × ℕ) → Prop
  | done {k : ℕ} : n ≤ k → Blocks p n k []
  | skip {k : ℕ} {bs : List (ℕ × ℕ)} : k < n → p k = false → Blocks p n (k + 1) bs →
    Blocks p n k bs
  /-- The position after a block is no set one, so the next block starts beyond it. -/
  | take {k j : ℕ} {bs : List (ℕ × ℕ)} : k ≤ j → j < n → (∀ x, k ≤ x → x ≤ j → p x = true) →
    (j + 1 < n → p (j + 1) = false) → Blocks p n (j + 2) bs → Blocks p n k ((k, j) :: bs)

variable {p : ℕ → Bool} {n k : ℕ} {bs : List (ℕ × ℕ)}

lemma Blocks.bounds (h : Blocks p n k bs) : ∀ b ∈ bs, k ≤ b.1 ∧ b.1 ≤ b.2 ∧ b.2 < n := by
  induction h with
  | done => simp
  | skip _ _ _ ih =>
    intro b hb
    have := ih b hb
    omega
  | take hkj hjn _ _ _ ih =>
    intro b hb
    rcases List.mem_cons.mp hb with rfl | hb
    · exact ⟨(Nat.le_refl _), hkj, hjn⟩
    · have := ih b hb
      omega

/-- The blocks hold exactly the set positions. -/
lemma Blocks.mem_iff (h : Blocks p n k bs) {x : ℕ} (hx : k ≤ x) :
    (∃ b ∈ bs, b.1 ≤ x ∧ x ≤ b.2) ↔ x < n ∧ p x = true := by
  induction h with
  | done hn =>
    simp only [List.not_mem_nil, false_and, exists_false, false_iff, not_and]
    omega
  | @skip k bs hk hp _ ih =>
    rcases Nat.eq_or_lt_of_le hx with rfl | hx
    · have hnot : ¬ ∃ b ∈ bs, b.1 ≤ k ∧ k ≤ b.2 := by
        rintro ⟨b, hb, h₁, -⟩
        have := (Blocks.bounds ‹_› b hb).1
        omega
      simp [hnot, hp]
    · exact ih hx
  | @take k j bs hkj hjn hset hstop hrest ih =>
    simp only [List.exists_mem_cons_iff]
    by_cases hj : x ≤ j
    · simp only [hx, hj, and_self, true_or, true_iff]
      exact ⟨by omega, hset x hx hj⟩
    · have hhead : ¬ (k ≤ x ∧ x ≤ j) := by omega
      simp only [hhead, false_or]
      rcases Nat.lt_or_ge x (j + 2) with hx' | hx'
      · obtain rfl : x = j + 1 := by omega
        have hnot : ¬ ∃ b ∈ bs, b.1 ≤ j + 1 ∧ j + 1 ≤ b.2 := by
          rintro ⟨b, hb, h₁, -⟩
          have := (hrest.bounds b hb).1
          omega
        simp only [hnot, false_iff, not_and, Bool.not_eq_true]
        exact hstop
      · exact ih hx'

/-- There is a gap between a block and the blocks after it. -/
lemma Blocks.pairwise (h : Blocks p n k bs) : bs.Pairwise fun a b => a.2 + 1 < b.1 := by
  induction h with
  | done => exact List.Pairwise.nil
  | skip _ _ _ ih => exact ih
  | take _ _ _ _ hrest ih =>
    refine List.pairwise_cons.mpr ⟨fun b hb => ?_, ih⟩
    have := (hrest.bounds b hb).1
    simp only
    omega

/-- A run of set positions that cannot be made longer on either side. -/
structure MaximalRun (p : ℕ → Bool) (n i j : ℕ) : Prop where
  le : i ≤ j
  lt : j < n
  set : ∀ x, i ≤ x → x ≤ j → p x = true
  before : 0 < i → p (i - 1) = false
  after : j + 1 < n → p (j + 1) = false

/-- Two blocks that share a position are one. -/
lemma Blocks.eq_of_mem (h : Blocks p n k bs) {a b : ℕ × ℕ} (ha : a ∈ bs) (hb : b ∈ bs)
    (hab : a.1 ≤ b.2 + 1) (hba : b.1 ≤ a.2 + 1) : a = b := by
  by_contra hne
  have hsymm : Std.Symm fun a b : ℕ × ℕ => a.2 + 1 < b.1 ∨ b.2 + 1 < a.1 := ⟨fun _ _ => Or.symm⟩
  have hgap : bs.Pairwise fun a b => a.2 + 1 < b.1 ∨ b.2 + 1 < a.1 := h.pairwise.imp Or.inl
  have := hgap.forall ha hb hne
  omega

/-- The blocks are the maximal runs. -/
theorem Blocks.mem_iff_maximalRun (h : Blocks p n 0 bs) {i j : ℕ} :
    (i, j) ∈ bs ↔ MaximalRun p n i j := by
  have hmem {x : ℕ} := h.mem_iff (Nat.zero_le x)
  constructor
  · intro hb
    have hbd := h.bounds _ hb
    have hout {x : ℕ} (hx : x < n) (hb' : x + 1 = i ∨ x = j + 1) : p x = false := by
      by_contra hp
      obtain ⟨c, hc, hxc⟩ := hmem.mpr ⟨hx, by simpa using hp⟩
      obtain rfl : c = (i, j) := h.eq_of_mem hc hb (by simp only; omega) (by simp only; omega)
      simp only at hxc
      omega
    exact ⟨hbd.2.1, hbd.2.2, fun x hi hj => (hmem.mp ⟨_, hb, hi, hj⟩).2,
      fun hi => hout (by simp only at hbd; omega) (.inl (by omega)),
      fun hj => hout hj (.inr rfl)⟩
  · intro hr
    obtain ⟨⟨a, b⟩, hc, hai, hib⟩ := hmem.mpr ⟨Nat.lt_of_le_of_lt hr.le hr.lt,
      hr.set i (Nat.le_refl i) hr.le⟩
    have hbn := (h.bounds _ hc).2.2
    simp only at hai hib hbn
    have hpos {x : ℕ} (ha : a ≤ x) (hb : x ≤ b) : p x = true := (hmem.mp ⟨_, hc, ha, hb⟩).2
    have hi : a = i := by
      by_contra hne
      have := hr.before (by omega)
      rw [hpos (by omega) (by omega)] at this
      cases this
    have hj : b ≤ j := by
      by_contra hlt
      have hij := hr.le
      have := hr.after (by omega)
      rw [hpos (by omega) (by omega)] at this
      cases this
    have hj' : j ≤ b := by
      by_contra hlt
      obtain ⟨c, hc', hcb⟩ := hmem.mpr ⟨by have := hr.lt; omega,
        hr.set (b + 1) (by omega) (by omega)⟩
      obtain rfl : (a, b) = c := h.eq_of_mem hc hc' (by simp only; omega) (by simp only; omega)
      simp only at hcb
      omega
    obtain rfl : b = j := Nat.le_antisymm hj hj'
    rwa [hi] at hc

/-- A block is followed by a position that is not set, before the next one starts. -/
lemma Blocks.separated (h : Blocks p n k bs) :
    bs.Pairwise fun a b => ∃ x, a.2 < x ∧ x < b.1 ∧ p x = false := by
  induction h with
  | done => exact List.Pairwise.nil
  | skip _ _ _ ih => exact ih
  | @take k j bs hkj hjn _ hstop hrest ih =>
    refine List.pairwise_cons.mpr ⟨fun b hb => ?_, ih⟩
    have hb := hrest.bounds b hb
    exact ⟨j + 1, by simp only; omega, by omega, hstop (by omega)⟩

/-- The blocks do not take more room than the mask. -/
lemma Blocks.sum_le (h : Blocks p n k bs) :
    (bs.map fun b => b.2 - b.1 + 1).sum ≤ n - k := by
  induction h with
  | done => simp
  | skip _ _ _ ih => omega
  | take hkj hjn _ _ _ ih =>
    simp only [List.map_cons, List.sum_cons]
    omega

/-- A mask has one list of blocks, whatever stands beyond its end. -/
lemma Blocks.unique {q : ℕ → Bool} {cs : List (ℕ × ℕ)} (h : Blocks p n k bs)
    (hpq : ∀ x, x < n → p x = q x) (h' : Blocks q n k cs) : bs = cs := by
  induction h generalizing cs with
  | done hn =>
    cases h' with
    | done => rfl
    | skip hk => omega
    | take hkj hjn => omega
  | skip hk hp _ ih =>
    cases h' with
    | done hn => omega
    | skip _ _ hrest => exact ih hrest
    | take hkj _ hset =>
      have := hset _ (Nat.le_refl _) hkj
      rw [← hpq _ hk, hp] at this
      simp at this
  | @take k j bs hkj hjn hset hstop _ ih =>
    cases h' with
    | done hn => omega
    | skip hk hq =>
      have := hset _ (Nat.le_refl _) hkj
      rw [hpq _ hk, hq] at this
      simp at this
    | @take _ j' cs hkj' hjn' hset' hstop' hrest' =>
      have hle : j' ≤ j := by
        by_contra hlt
        have hq := hset' (j + 1) (by omega) (by omega)
        rw [← hpq _ (by omega), hstop (by omega)] at hq
        simp at hq
      have hge : j ≤ j' := by
        by_contra hlt
        have hq := hset (j' + 1) (by omega) (by omega)
        rw [hpq _ (by omega), hstop' (by omega)] at hq
        simp at hq
      obtain rfl : j = j' := by omega
      rw [ih hrest']

end FpMemSched.Lib.Masks
