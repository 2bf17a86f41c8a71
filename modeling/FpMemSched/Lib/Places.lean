import Mathlib.Data.List.Basic
import Mathlib.Tactic.SplitIfs

/-!
Things that are at one place each.

How often a thing is found at a place is given by a count; `place` tells where each thing is,
or that it is in hand, out of all places for the moment. A move takes one thing from where it
is to another place, and is described by how the counts change.
-/

namespace FpMemSched.Lib.Places

variable {π α : Type*} [DecidableEq π]

/-- The count that belongs to being at `P`. -/
def ind (P : Option π) (p : π) : ℕ := if P = some p then 1 else 0

@[simp] lemma ind_none (p : π) : ind none p = 0 := by simp [ind]

lemma ind_some (q p : π) : ind (some q) p = if q = p then 1 else 0 := by simp [ind]

/-- Each thing is where `place` says, once, and nowhere else. -/
def Exact (occ : π → α → ℕ) (place : α → Option π) : Prop := ∀ p a, occ p a = ind (place a) p

variable {occ occ' : π → α → ℕ} {place : α → Option π} {a : α} {p : π}

lemma Exact.place_eq (h : Exact occ place) (hp : 0 < occ p a) : place a = some p := by
  rw [h, ind] at hp
  split_ifs at hp with he
  · exact he
  · omega

lemma Exact.occ_eq_one (h : Exact occ place) (hp : place a = some p) : occ p a = 1 := by
  rw [h, hp, ind_some, if_pos rfl]

/-- **A move**: the counts of `a` go from those of its place to those of `P`, the others stay. -/
lemma Exact.move [DecidableEq α] (h : Exact occ place) (P : Option π)
    (hocc : ∀ p b, occ' p b + (if b = a then ind (place a) p else 0) =
      occ p b + (if b = a then ind P p else 0)) :
    Exact occ' (Function.update place a P) := by
  intro p b
  have hb := hocc p b
  by_cases hba : b = a
  · subst hba
    rw [if_pos rfl, if_pos rfl, h] at hb
    rw [Function.update_self]
    omega
  · rw [if_neg hba, if_neg hba, h] at hb
    rw [Function.update_of_ne hba]
    omega

end FpMemSched.Lib.Places
