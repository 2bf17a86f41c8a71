import Mathlib.Data.List.Basic
import Mathlib.Data.List.Nodup
import Mathlib.Logic.Function.Basic

/-!
Singly linked lists that share one `next` field.

A heap has a `next` field for every node and one head for every list. It represents a family
of lists when each head leads through the `next` fields along its list to the null pointer, no
list has a node twice and no two lists share a node. The rules below say what the elementary
assignments of pointer code, to take a node off the front, to push one, to unlink one and to
splice one in, do to the lists.
-/

namespace FpMemSched.Lib.Linked

variable {π ν : Type*}

/-- From `h` the `next` fields lead along the list to the null pointer. -/
def Chain (next : ν → Option ν) : Option ν → List ν → Prop
  | h, [] => h = none
  | h, n :: l => h = some n ∧ Chain next (next n) l

variable {next : ν → Option ν} {h : Option ν} {l a b : List ν} {c n : ν}

instance Chain.decidable [DecidableEq ν] :
    ∀ (h : Option ν) (l : List ν), Decidable (Chain next h l)
  | h, [] => inferInstanceAs (Decidable (h = none))
  | h, n :: l =>
    have : Decidable (Chain next (next n) l) := Chain.decidable (next n) l
    inferInstanceAs (Decidable (h = some n ∧ Chain next (next n) l))

lemma Chain.head_eq (hc : Chain next h l) : h = l.head? := by
  cases l with
  | nil => exact hc
  | cons n l => exact hc.1

/-- A head leads along one list only. -/
lemma Chain.unique {l' : List ν} (hc : Chain next h l) (hc' : Chain next h l') : l = l' := by
  induction l generalizing h l' with
  | nil =>
    cases l' with
    | nil => rfl
    | cons n l' =>
      rw [show h = none from hc] at hc'
      exact absurd hc'.1 (by simp)
  | cons n l ih =>
    cases l' with
    | nil =>
      rw [show h = none from hc'] at hc
      exact absurd hc.1 (by simp)
    | cons n' l' =>
      obtain rfl : n = n' := Option.some.inj (hc.1.symm.trans hc'.1)
      rw [ih hc.2 hc'.2]

lemma Chain.next_eq (hc : Chain next h (a ++ c :: b)) : next c = b.head? := by
  induction a generalizing h with
  | nil => exact hc.2.head_eq
  | cons x a ih => exact ih hc.2

/-- The rest of the list after `c` is replaced. -/
lemma Chain.relink {next' : ν → Option ν} (hc : Chain next h (a ++ c :: b)) (l : List ν)
    (hsame : ∀ m ∈ a, next' m = next m) (hl : Chain next' (next' c) l) :
    Chain next' h (a ++ c :: l) := by
  induction a generalizing h with
  | nil => exact ⟨hc.1, hl⟩
  | cons m a ih =>
    refine ⟨hc.1, ?_⟩
    rw [hsame m (by simp)]
    exact ih hc.2 fun x hx => hsame x (by simp [hx])

lemma Chain.tail (hc : Chain next h (a ++ c :: b)) : Chain next (next c) b := by
  induction a generalizing h with
  | nil => exact hc.2
  | cons x a ih => exact ih hc.2

/-- A node that came twice would lead back to itself and not to the null pointer. -/
lemma Chain.nodup (hc : Chain next h l) : l.Nodup := by
  induction l generalizing h with
  | nil => exact List.nodup_nil
  | cons n l ih =>
    refine List.nodup_cons.mpr ⟨fun hn => ?_, ih hc.2⟩
    obtain ⟨a, b, hl⟩ := List.append_of_mem hn
    have hrest : Chain next (next n) (a ++ n :: b) := hl ▸ hc.2
    have hlen := congrArg List.length (hrest.unique hrest.tail)
    simp only [List.length_append, List.length_cons] at hlen
    omega

/-- The fields of the nodes of the list are all that matters. -/
lemma Chain.congr {next' : ν → Option ν} (hc : Chain next h l)
    (hsame : ∀ m ∈ l, next' m = next m) : Chain next' h l := by
  induction l generalizing h with
  | nil => exact hc
  | cons n l ih =>
    refine ⟨hc.1, ?_⟩
    rw [hsame n List.mem_cons_self]
    exact ih hc.2 fun m hm => hsame m (List.mem_cons_of_mem _ hm)

lemma Chain.notMem (hc : Chain next h (a ++ c :: b)) : c ∉ a ∧ c ∉ b := by
  have hd := hc.nodup
  rw [List.nodup_middle, List.nodup_cons, List.mem_append, not_or] at hd
  exact hd.1

/-- The head is not a node that comes later. -/
lemma Chain.head_ne (hc : Chain next h (a ++ c :: b)) (ha : a ≠ []) : h ≠ some c := by
  cases a with
  | nil => exact absurd rfl ha
  | cons x a =>
    rintro rfl
    have hx : c = x := Option.some.inj hc.1
    exact hc.notMem.1 (by rw [hx]; exact List.mem_cons_self)

variable [DecidableEq ν]

/-- A field of a node outside the list does not matter. -/
lemma Chain.update (hc : Chain next h l) (x : Option ν) (hn : n ∉ l) :
    Chain (Function.update next n x) h l := by
  induction l generalizing h with
  | nil => exact hc
  | cons m l ih =>
    rw [List.mem_cons, not_or] at hn
    refine ⟨hc.1, ?_⟩
    rw [Function.update_of_ne (Ne.symm hn.1)]
    exact ih hc.2 hn.2

/-- Insert a node in front of the rest `b`. -/
lemma Chain.insert (hc : Chain next h (a ++ b)) (hn : n ∉ a ++ b) :
    (a = [] → Chain (Function.update next n b.head?) (some n) (n :: b)) ∧
      ∀ c, a.getLast? = some c → Chain
        (Function.update (Function.update next c (some n)) n b.head?) h (a ++ n :: b) := by
  rw [List.mem_append, not_or] at hn
  refine ⟨fun ha => ?_, fun c hlast => ?_⟩
  · subst ha
    rw [List.nil_append] at hc
    refine ⟨rfl, ?_⟩
    rw [Function.update_self, ← hc.head_eq]
    exact hc.update _ hn.2
  · obtain ⟨a, rfl⟩ := List.getLast?_eq_some_iff.mp hlast
    rw [List.append_assoc, List.singleton_append] at hc ⊢
    have hcn : c ≠ n := by
      rintro rfl
      exact hn.1 (by simp)
    refine hc.relink _ (fun m hm => ?_) ?_
    · have hmn : m ≠ n := fun he => hn.1 (he ▸ List.mem_append_left _ hm)
      have hmc : m ≠ c := fun he => hc.notMem.1 (he ▸ hm)
      rw [Function.update_of_ne hmn, Function.update_of_ne hmc]
    · rw [Function.update_of_ne hcn, Function.update_self]
      refine ⟨rfl, ?_⟩
      rw [Function.update_self, ← hc.tail.head_eq]
      exact (hc.tail.update _ hc.notMem.2).update _ hn.2

/-- Splice a node in after `c`. -/
lemma Chain.splice (hc : Chain next h (a ++ c :: b)) (hn : n ∉ a ++ c :: b) :
    Chain (Function.update (Function.update next n (next c)) c (some n)) h
      (a ++ c :: n :: b) := by
  simp only [List.mem_append, List.mem_cons, not_or] at hn
  refine hc.relink _ (fun m hm => ?_) ?_
  · have hmc : m ≠ c := fun he => hc.notMem.1 (he ▸ hm)
    have hmn : m ≠ n := fun he => hn.1 (he ▸ hm)
    rw [Function.update_of_ne hmc, Function.update_of_ne hmn]
  · rw [Function.update_self]
    refine ⟨rfl, ?_⟩
    rw [Function.update_of_ne hn.2.1, Function.update_self]
    exact (hc.tail.update _ hn.2.2).update _ hc.notMem.2

/-- Take the node after `c` out. -/
lemma Chain.remove (hc : Chain next h (a ++ c :: n :: b)) :
    Chain (Function.update next c (next n)) h (a ++ c :: b) := by
  refine hc.relink _ (fun m hm => ?_) ?_
  · have hmc : m ≠ c := fun he => hc.notMem.1 (he ▸ hm)
    exact Function.update_of_ne hmc ..
  · rw [Function.update_self]
    exact hc.tail.2.update _ fun hm => hc.notMem.2 (List.mem_cons_of_mem _ hm)

/-- Cut the list after `c`. -/
lemma Chain.cut (hc : Chain next h (a ++ c :: b)) :
    Chain (Function.update next c none) h (a ++ [c]) ∧
      Chain (Function.update next c none) b.head? b := by
  refine ⟨hc.relink _ (fun m hm => ?_) ?_, ?_⟩
  · have hmc : m ≠ c := fun he => hc.notMem.1 (he ▸ hm)
    exact Function.update_of_ne hmc ..
  · exact Function.update_self ..
  · rw [← hc.tail.head_eq]
    exact hc.tail.update _ hc.notMem.2

/-! ### Heaps -/

structure Heap (π ν : Type*) where
  next : ν → Option ν
  head : π → Option ν

/-- The heap holds these lists, which are apart from each other. -/
structure Heap.Rep (g : Heap π ν) (lists : π → List ν) : Prop where
  chain : ∀ q, Chain g.next (g.head q) (lists q)
  once : ∀ q, (lists q).Nodup
  apart : ∀ q r m, m ∈ lists q → m ∈ lists r → q = r

/-- In none of the lists. -/
def Loose (lists : π → List ν) (n : ν) : Prop := ∀ q, n ∉ lists q

variable [DecidableEq π] {g : Heap π ν} {lists : π → List ν} {q r : π}

omit [DecidableEq ν] in
lemma mem_update {m : ν} (hm : m ∈ Function.update lists q l r) :
    (r = q ∧ m ∈ l) ∨ (r ≠ q ∧ m ∈ lists r) := by
  by_cases hr : r = q
  · subst hr
    rw [Function.update_self] at hm
    exact Or.inl ⟨rfl, hm⟩
  · rw [Function.update_of_ne hr] at hm
    exact Or.inr ⟨hr, hm⟩

omit [DecidableEq ν] in
/-- One list changes, within its own nodes and a loose one. -/
lemma Heap.Rep.change {g' : Heap π ν} (hg : g.Rep lists)
    (hchain : Chain g'.next (g'.head q) l) (honce : l.Nodup)
    (hmem : ∀ m ∈ l, m ∈ lists q ∨ Loose lists m)
    (hother : ∀ r, r ≠ q → Chain g'.next (g'.head r) (lists r)) :
    g'.Rep (Function.update lists q l) := by
  refine ⟨fun r => ?_, fun r => ?_, fun r₁ r₂ m h₁ h₂ => ?_⟩
  · by_cases hr : r = q
    · subst hr
      rw [Function.update_self]
      exact hchain
    · rw [Function.update_of_ne hr]
      exact hother r hr
  · by_cases hr : r = q
    · subst hr
      rw [Function.update_self]
      exact honce
    · rw [Function.update_of_ne hr]
      exact hg.once r
  · rcases mem_update h₁ with ⟨hr₁, hm₁⟩ | ⟨hr₁, hm₁⟩ <;>
      rcases mem_update h₂ with ⟨hr₂, hm₂⟩ | ⟨hr₂, hm₂⟩
    · rw [hr₁, hr₂]
    · rw [hr₁]
      rcases hmem m hm₁ with hm₁ | hm₁
      · exact hg.apart _ _ m hm₁ hm₂
      · exact absurd hm₂ (hm₁ r₂)
    · rw [hr₂]
      rcases hmem m hm₂ with hm₂ | hm₂
      · exact hg.apart _ _ m hm₁ hm₂
      · exact absurd hm₁ (hm₂ r₁)
    · exact hg.apart _ _ m hm₁ hm₂

omit [DecidableEq ν] in
/-- Take the first node off. -/
lemma Heap.Rep.pop (hg : g.Rep lists) (hq : lists q = n :: l) :
    Heap.Rep ⟨g.next, Function.update g.head q (g.next n)⟩ (Function.update lists q l) ∧
      Loose (Function.update lists q l) n := by
  have hc := hg.chain q
  have ho := hg.once q
  rw [hq] at hc ho
  refine ⟨hg.change (q := q) ?_ (List.nodup_cons.mp ho).2 (fun m hm => Or.inl ?_) fun r hr => ?_,
    fun r hm => ?_⟩
  · dsimp only
    rw [Function.update_self]
    exact hc.2
  · rw [hq]
    exact List.mem_cons_of_mem _ hm
  · dsimp only
    rw [Function.update_of_ne hr]
    exact hg.chain r
  · rcases mem_update hm with ⟨-, hm⟩ | ⟨hr, hm⟩
    · exact (List.nodup_cons.mp ho).1 hm
    · exact hr (hg.apart r q n hm (by rw [hq]; simp))

omit [DecidableEq π] in
/-- A field of a loose node does not matter. -/
lemma Heap.Rep.update (hg : g.Rep lists) (x : Option ν) (hn : Loose lists n) :
    Heap.Rep ⟨Function.update g.next n x, g.head⟩ lists :=
  ⟨fun q => (hg.chain q).update x (hn q), hg.once, hg.apart⟩

/-- Push a loose node. -/
lemma Heap.Rep.push (hg : g.Rep lists) (hn : Loose lists n) (q : π) :
    Heap.Rep ⟨Function.update g.next n (g.head q), Function.update g.head q (some n)⟩
      (Function.update lists q (n :: lists q)) := by
  refine hg.change ?_ (List.nodup_cons.mpr ⟨hn q, hg.once q⟩) (fun m hm => ?_) fun r hr => ?_
  · refine ⟨Function.update_self .., ?_⟩
    dsimp only
    rw [Function.update_self]
    exact (hg.chain q).update _ (hn q)
  · rcases List.mem_cons.mp hm with rfl | hm
    · exact Or.inr hn
    · exact Or.inl hm
  · dsimp only
    rw [Function.update_of_ne hr]
    exact (hg.chain r).update _ (hn r)

/-- Splice a loose node in after `c`. -/
lemma Heap.Rep.splice (hg : g.Rep lists) (hq : lists q = a ++ c :: b) (hn : Loose lists n) :
    Heap.Rep ⟨Function.update (Function.update g.next n (g.next c)) c (some n), g.head⟩
      (Function.update lists q (a ++ c :: n :: b)) := by
  have hc := hg.chain q
  have hnq := hn q
  rw [hq] at hc hnq
  have hs := hc.splice hnq
  refine hg.change hs hs.nodup (fun m hm => ?_) fun r hr => ?_
  · rw [hq]
    simp only [List.mem_append, List.mem_cons] at hm ⊢
    rcases hm with hm | hm | rfl | hm
    · exact Or.inl (Or.inl hm)
    · exact Or.inl (Or.inr (Or.inl hm))
    · exact Or.inr hn
    · exact Or.inl (Or.inr (Or.inr hm))
  · refine ((hg.chain r).update _ (hn r)).update _ fun hm => hr ?_
    exact hg.apart r q c hm (by rw [hq]; simp)

/-- Unlink the node after `c`. -/
lemma Heap.Rep.unlink (hg : g.Rep lists) (hq : lists q = a ++ c :: n :: b) :
    Heap.Rep ⟨Function.update g.next c (g.next n), g.head⟩
        (Function.update lists q (a ++ c :: b)) ∧
      Loose (Function.update lists q (a ++ c :: b)) n := by
  have hc := hg.chain q
  rw [hq] at hc
  have hn : n ∉ a ++ c :: b := by
    have hsplit : a ++ c :: n :: b = (a ++ [c]) ++ n :: b := by simp
    rw [hsplit] at hc
    have := hc.notMem
    simp only [List.mem_append, List.mem_cons, List.not_mem_nil, or_false, not_or] at this ⊢
    exact ⟨this.1.1, this.1.2, this.2⟩
  refine ⟨hg.change hc.remove hc.remove.nodup (fun m hm => Or.inl ?_) fun r hr => ?_,
    fun r hm => ?_⟩
  · rw [hq]
    exact (((List.sublist_cons_self n b).cons_cons c).append_left a).subset hm
  · refine (hg.chain r).update _ fun hm => hr ?_
    exact hg.apart r q c hm (by rw [hq]; simp)
  · rcases mem_update hm with ⟨-, hm⟩ | ⟨hr, hm⟩
    · exact hn hm
    · exact hr (hg.apart r q n hm (by rw [hq]; simp))

end FpMemSched.Lib.Linked
