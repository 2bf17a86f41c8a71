import Mathlib.Data.List.Induction
import Mathlib.Order.Lattice

/-!
A left-to-right scan for a largest element.

The scan keeps the best element seen so far and replaces it only by one with a strictly
larger key; an element of key `0` is never taken. What it returns is the first element of
largest key, and nothing exactly when all keys are `0`.
-/

namespace FpMemSched.Lib.Scan

variable {α : Type*} (key : α → ℕ)

/-- The key of the best element so far, `0` for none. -/
def keyOf : Option α → ℕ
  | none => 0
  | some a => key a

/-- One turn of the loop. -/
def pick (b : Option α) (a : α) : Option α := if keyOf key b < key a then some a else b

def scan (b : Option α) (l : List α) : Option α := l.foldl (pick key) b

@[simp] lemma keyOf_none : keyOf key (none : Option α) = 0 := rfl
@[simp] lemma keyOf_some (a : α) : keyOf key (some a) = key a := rfl
@[simp] lemma scan_nil (b : Option α) : scan key b [] = b := rfl
@[simp] lemma scan_cons (b : Option α) (a : α) (l : List α) :
    scan key b (a :: l) = scan key (pick key b a) l := rfl

lemma scan_append (b : Option α) (l m : List α) :
    scan key b (l ++ m) = scan key (scan key b l) m := by
  simp [scan, List.foldl_append]

lemma keyOf_pick (b : Option α) (a : α) :
    keyOf key (pick key b a) = max (keyOf key b) (key a) := by
  unfold pick
  split
  · next h => simp only [keyOf_some]; omega
  · next h => omega

lemma keyOf_le_scan (b : Option α) (l : List α) : keyOf key b ≤ keyOf key (scan key b l) := by
  induction l generalizing b with
  | nil => simp
  | cons a l ih =>
    have := ih (pick key b a)
    rw [keyOf_pick] at this
    rw [scan_cons]; omega

/-- Only the keys of the elements of the list matter. -/
lemma scan_congr {key' : α → ℕ} {l : List α} (h : ∀ a ∈ l, key' a = key a) :
    scan key' none l = scan key none l := by
  suffices hb : ∀ b : Option α, keyOf key' b = keyOf key b → scan key' b l = scan key b l from
    hb none rfl
  induction l with
  | nil => exact fun _ _ => rfl
  | cons c l ih =>
    intro b hb
    have hc := h c (by simp)
    have hpick : pick key' b c = pick key b c := by
      unfold pick
      rw [hb, hc]
    rw [scan_cons, scan_cons, hpick]
    refine ih (fun a ha => h a (List.mem_cons_of_mem _ ha)) _ ?_
    rw [← hpick, keyOf_pick, hpick, keyOf_pick, hb, hc]

/-- No element of the list beats the result. -/
lemma key_le_scan {b : Option α} {l : List α} {a : α} (h : a ∈ l) :
    key a ≤ keyOf key (scan key b l) := by
  induction l generalizing b with
  | nil => simp at h
  | cons c l ih =>
    rw [scan_cons]
    rcases List.mem_cons.mp h with rfl | h
    · have := keyOf_le_scan key (pick key b a) l
      rw [keyOf_pick] at this; omega
    · exact ih h

/-- The result is the starting element or comes from the list, with a positive key and as
the first of its key. -/
lemma scan_cases (b : Option α) (l : List α) :
    scan key b l = b ∨
      ∃ a l₁ l₂, l = l₁ ++ a :: l₂ ∧ scan key b l = some a ∧ 0 < key a ∧
        (∀ x ∈ l₁, key x < key a) ∧ ∀ x ∈ l₂, key x ≤ key a := by
  induction l using List.reverseRecOn with
  | nil => exact Or.inl rfl
  | append_singleton l c ih =>
    have hs : scan key b (l ++ [c]) = pick key (scan key b l) c := by simp [scan_append]
    rw [hs]
    unfold pick
    split
    · next h =>
      refine Or.inr ⟨c, l, [], rfl, rfl, by omega, fun x hx => ?_, by simp⟩
      have := key_le_scan key (b := b) hx
      omega
    · next h =>
      rcases ih with hb | ⟨a, l₁, l₂, rfl, ha, hpos, h₁, h₂⟩
      · exact Or.inl hb
      · refine Or.inr ⟨a, l₁, l₂ ++ [c], by simp, ha, hpos, h₁, fun x hx => ?_⟩
        rw [ha, keyOf_some] at h
        rcases List.mem_append.mp hx with hx | hx
        · exact h₂ x hx
        · rw [List.mem_singleton] at hx; subst hx; omega

/-- **The scan finds nothing** exactly when every key is `0`. -/
lemma scan_none {l : List α} : scan key none l = none ↔ ∀ a ∈ l, key a = 0 := by
  constructor
  · intro h a ha
    have := key_le_scan key (b := none) ha
    rw [h, keyOf_none] at this; omega
  · intro h
    rcases scan_cases key none l with hn | ⟨a, l₁, l₂, rfl, -, hpos, -, -⟩
    · exact hn
    · have := h a (by simp)
      omega

/-- **The scan finds the first element of largest key.** -/
lemma scan_some {l : List α} {a : α} (h : scan key none l = some a) :
    ∃ l₁ l₂, l = l₁ ++ a :: l₂ ∧ 0 < key a ∧ (∀ x ∈ l₁, key x < key a) ∧
      ∀ x ∈ l₂, key x ≤ key a := by
  rcases scan_cases key none l with hn | ⟨b, l₁, l₂, hl, hb, hpos, h₁, h₂⟩
  · rw [h] at hn; simp at hn
  · rw [h] at hb
    obtain rfl : a = b := by simpa using hb
    exact ⟨l₁, l₂, hl, hpos, h₁, h₂⟩

end FpMemSched.Lib.Scan
