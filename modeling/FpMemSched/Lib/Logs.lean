import Mathlib.Algebra.Order.Ring.Nat
import Mathlib.Data.List.Basic
import Mathlib.Logic.Function.Basic
import Mathlib.Tactic.Common

/-!
A log whose last entries are kept in an array.

Entry `q` of the log stands in slot `q % N`. An entry is first stored and then counted, so between
the two the oldest of the `N` entries is lost already. What is cut out of the array in two
pieces, up to its end and from its start, is a segment of the log.
-/

namespace FpMemSched.Lib.Logs

variable {α : Type*} {N lost : ℕ} {slots : ℕ → α} {log : List α} {c : α}

/-- The slots have the last entries of the log, but for some of the oldest. -/
def Keeps (N lost : ℕ) (slots : ℕ → α) (log : List α) : Prop :=
  ∀ q x, log.length + lost ≤ q + N → log[q]? = some x → slots (q % N) = x

lemma keeps_nil : Keeps N lost slots ([] : List α) := by
  intro q x _ h
  cases h

lemma Keeps.mono {m : ℕ} (h : Keeps N lost slots log) (hm : lost ≤ m) : Keeps N m slots log :=
  fun q x hq hx => h q x (by omega) hx

/-- Numbers less than `N` apart have slots of their own. -/
lemma slot_ne {q n : ℕ} (hq : q < n) (hn : n < q + N) : q % N ≠ n % N := by
  intro h
  have hd : N ∣ n - q := Nat.dvd_of_mod_eq_zero (Nat.sub_mod_eq_zero_of_mod_eq h.symm)
  have := Nat.le_of_dvd (by omega) hd
  omega

/-- Storing the next entry spoils none but the oldest one. -/
lemma Keeps.store (h : Keeps N 1 slots log) (c : α) :
    Keeps N 1 (Function.update slots (log.length % N) c) log := by
  intro q x hq hx
  have hlt : q < log.length := (List.getElem?_eq_some_iff.mp hx).1
  rw [Function.update_of_ne (slot_ne hlt (by omega))]
  exact h q x hq hx

/-- The entry that is stored is counted. -/
lemma Keeps.push (h : Keeps N 1 slots log) (hc : slots (log.length % N) = c) :
    Keeps N 0 slots (log ++ [c]) := by
  intro q x hq hx
  rw [List.length_append, List.length_singleton] at hq
  rw [List.getElem?_append] at hx
  split at hx
  · exact h q x (by omega) hx
  · have hl := (List.getElem?_eq_some_iff.mp hx).1
    rw [List.length_singleton] at hl
    obtain rfl : q = log.length := by omega
    rw [Nat.sub_self] at hx
    exact hc.trans (Option.some.inj hx)

/-- A piece of the array. -/
def piece (slots : ℕ → α) (start n : ℕ) : List α := (List.range n).map fun i => slots (start + i)

@[simp] lemma length_piece (start n : ℕ) : (piece slots start n).length = n := by simp [piece]

/-- The entries from number `p` on, round the end of the array. -/
def cut (N : ℕ) (slots : ℕ → α) (p n : ℕ) : List α :=
  if p % N + n > N then piece slots (p % N) (N - p % N) ++ piece slots 0 (n - (N - p % N))
  else piece slots (p % N) n

lemma length_cut (hN : 0 < N) (p n : ℕ) : (cut N slots p n).length = n := by
  have := Nat.mod_lt p hN
  unfold cut
  split
  · rw [List.length_append, length_piece, length_piece]
    omega
  · exact length_piece _ _

lemma piece_getElem? {start n i : ℕ} (hi : i < n) :
    (piece slots start n)[i]? = some (slots (start + i)) := by
  simp [piece, hi]

lemma cut_getElem? (hN : 0 < N) {p n i : ℕ} (hn : n ≤ N) (hi : i < n) :
    (cut N slots p n)[i]? = some (slots ((p + i) % N)) := by
  have hp := Nat.mod_lt p hN
  have hmod : (p + i) % N = (p % N + i) % N := by rw [Nat.mod_add_mod]
  unfold cut
  split
  · rw [List.getElem?_append, length_piece]
    split
    · rename_i hlt
      rw [piece_getElem? hlt, hmod, Nat.mod_eq_of_lt (show p % N + i < N by omega)]
    · have hwrap : (p % N + i) % N = 0 + (i - (N - p % N)) := by
        rw [Nat.mod_eq_sub_mod (by omega), Nat.mod_eq_of_lt (by omega)]
        omega
      rw [piece_getElem? (by omega), hmod, hwrap]
  · rw [piece_getElem? hi, hmod, Nat.mod_eq_of_lt (show p % N + i < N by omega)]

/-- What is cut out is what the log has there, but for the entries that are lost. -/
theorem cut_eq (hN : 0 < N) (h : Keeps N lost slots log) {p n i : ℕ} (hn : n ≤ N) (hi : i < n)
    (hlog : p + n ≤ log.length) (hold : log.length + lost ≤ p + i + N) :
    (cut N slots p n)[i]? = log[p + i]? := by
  have hlt : p + i < log.length := by omega
  rw [cut_getElem? hN hn hi, List.getElem?_eq_getElem hlt]
  exact congrArg some (h (p + i) _ hold (List.getElem?_eq_getElem hlt))

/-! ### Readers of a log -/

/-- What a reader is told: entries, the first of which may be lost, or that it has missed some. -/
inductive Report (α : Type*)
  | entries (xs : List α) (unsure : Bool)
  | missed (n : ℕ)

def Report.length : Report α → ℕ
  | .entries xs _ => xs.length
  | .missed n => n

/-- Where the reader is. -/
def position (rs : List (Report α)) : ℕ := (rs.map Report.length).sum

@[simp] lemma position_nil : position ([] : List (Report α)) = 0 := rfl

lemma position_concat (rs : List (Report α)) (r : Report α) :
    position (rs ++ [r]) = position rs + r.length := by
  simp [position]

/-- The report is what the log has at this place. -/
def Report.fits (log : List α) (p : ℕ) : Report α → Prop
  | .entries xs unsure =>
    p + xs.length ≤ log.length ∧
      ∀ i, i < xs.length → (0 < i ∨ unsure = false) → xs[i]? = log[p + i]?
  | .missed n => p + n ≤ log.length

/-- The reports tell the log from the start on, one after the other. -/
def Tells (log : List α) (rs : List (Report α)) : Prop :=
  ∀ as r bs, rs = as ++ r :: bs → r.fits log (position as)

lemma tells_nil (log : List α) : Tells log ([] : List (Report α)) := by
  intro as r bs h
  simp at h

lemma Report.fits.grow {r : Report α} {p : ℕ} (h : r.fits log p) (c : α) :
    r.fits (log ++ [c]) p := by
  cases r with
  | entries xs unsure =>
    refine ⟨?_, fun i hi hf => ?_⟩
    · have := h.1
      rw [List.length_append]
      omega
    · have := h.1
      rw [h.2 i hi hf, List.getElem?_append_left (by omega)]
  | missed n =>
    have hn : p + n ≤ log.length := h
    change p + n ≤ (log ++ [c]).length
    rw [List.length_append]
    omega

/-- A log only grows. -/
lemma Tells.grow {rs : List (Report α)} (h : Tells log rs) (c : α) : Tells (log ++ [c]) rs :=
  fun as r bs he => (h as r bs he).grow c

lemma Tells.concat {rs : List (Report α)} {r : Report α} (h : Tells log rs)
    (hr : r.fits log (position rs)) : Tells log (rs ++ [r]) := by
  intro as x bs he
  rcases List.eq_nil_or_concat bs with rfl | ⟨cs, y, rfl⟩
  · obtain ⟨rfl, hx⟩ := List.append_inj' he rfl
    obtain rfl : r = x := by simpa using hx
    exact hr
  · have he' : rs ++ [r] = (as ++ x :: cs) ++ [y] := by rw [he]; simp
    obtain ⟨hrs, -⟩ := List.append_inj' he' rfl
    exact h as x cs hrs

/-- The reader is not ahead of the log. -/
lemma Tells.position_le {rs : List (Report α)} (h : Tells log rs) : position rs ≤ log.length := by
  rcases List.eq_nil_or_concat rs with rfl | ⟨as, r, rfl⟩
  · exact Nat.zero_le _
  · rw [List.concat_eq_append, position_concat]
    have hr := h as r [] (List.concat_eq_append ..)
    cases r with
    | entries xs unsure => exact hr.1
    | missed n => exact hr

end FpMemSched.Lib.Logs
