import Mathlib.Data.Nat.Notation
import Mathlib.Tactic.SplitIfs

/-!
Address spaces that are changed range by range.

An address space takes addresses to addresses. A space that maps some addresses to themselves and
no others is described by the set of these addresses, and mapping and unmapping a range of it
by what they do to this set.
-/

namespace FpMemSched.Lib.Spaces

abbrev Space := ℕ → Option ℕ

/-- Address `x` lies in the `n` addresses from `a` on. -/
def In (a n x : ℕ) : Prop := a ≤ x ∧ x < a + n

instance (a n x : ℕ) : Decidable (In a n x) := inferInstanceAs (Decidable (_ ∧ _))

/-- `n` addresses from `g` on are taken to those from `p` on. -/
def Space.map (sp : Space) (g p n : ℕ) : Space :=
  fun x => if In g n x then some (p + (x - g)) else sp x

def Space.unmap (sp : Space) (g n : ℕ) : Space :=
  fun x => if In g n x then none else sp x

/-- Some address is taken to `p`. -/
def Space.Reaches (sp : Space) (p : ℕ) : Prop := ∃ g, sp g = some p

/-- The space maps the addresses of `P`, each to itself. -/
structure IdOn (P : ℕ → Prop) (sp : Space) : Prop where
  pos : ∀ x, P x → sp x = some x
  neg : ∀ x, ¬ P x → sp x = none

variable {P Q : ℕ → Prop} {sp : Space}

lemma IdOn.reaches_iff (h : IdOn P sp) (p : ℕ) : sp.Reaches p ↔ P p := by
  constructor
  · rintro ⟨g, hg⟩
    by_cases hP : P g
    · rw [h.pos g hP] at hg
      obtain rfl := Option.some.inj hg
      exact hP
    · rw [h.neg g hP] at hg
      cases hg
  · intro hP
    exact ⟨p, h.pos p hP⟩

lemma IdOn.congr (h : IdOn P sp) (hPQ : ∀ x, P x ↔ Q x) : IdOn Q sp :=
  ⟨fun x hx => h.pos x ((hPQ x).mpr hx), fun x hx => h.neg x (mt (hPQ x).mp hx)⟩

/-- Two spaces that map the same addresses to themselves are equal. -/
lemma IdOn.unique {sp' : Space} (h : IdOn P sp) (h' : IdOn P sp') : sp = sp' := by
  funext x
  by_cases hP : P x
  · rw [h.pos x hP, h'.pos x hP]
  · rw [h.neg x hP, h'.neg x hP]

lemma IdOn.map (h : IdOn P sp) (a n : ℕ) : IdOn (fun x => P x ∨ In a n x) (sp.map a a n) := by
  constructor
  · intro x hx
    unfold Space.map
    split_ifs with hin
    · have := hin.1
      congr 1
      omega
    · exact h.pos x (hx.resolve_right hin)
  · intro x hx
    unfold Space.map
    rw [if_neg fun hin => hx (Or.inr hin)]
    exact h.neg x fun hP => hx (Or.inl hP)

lemma IdOn.unmap (h : IdOn P sp) (a n : ℕ) : IdOn (fun x => P x ∧ ¬ In a n x) (sp.unmap a n) := by
  constructor
  · rintro x ⟨hP, hin⟩
    unfold Space.unmap
    rw [if_neg hin]
    exact h.pos x hP
  · intro x hx
    unfold Space.unmap
    split_ifs with hin
    · rfl
    · exact h.neg x fun hP => hx ⟨hP, hin⟩

end FpMemSched.Lib.Spaces
