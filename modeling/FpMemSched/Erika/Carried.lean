import FpMemSched.Erika.Pointers
import Mathlib.Data.List.TakeWhile

/-!
The nodes in memory carry the queues.

What the functions on linked nodes do to the lists that the heads lead along. Each loop is
given enough fuel for the list it runs over.
-/

namespace FpMemSched.Erika.Carried

open FpMemSched.Lib FpMemSched.Lib.Linked FpMemSched.Lib.Runs
open FpMemSched.Erika.Kernel FpMemSched.Erika.Dprem FpMemSched.Erika.Order
open FpMemSched.Erika.Started FpMemSched.Erika.Nodes FpMemSched.Erika.Operations
open FpMemSched.Erika.Pointers (Queue Ccb)

variable {ν : Type} [DecidableEq ν] {κ : Kdb} {fuel : ℕ}

/-! ### Loops -/

section Loops

variable {next : ν → Option ν} {h : Option ν} {a b : List ν} {c n : ν}

lemma listRemoveLoop_eq (hc : Chain next h (a ++ c :: n :: b)) (hf : a.length < fuel) :
    Pointers.listRemoveLoop next n fuel h = some (Function.update next c (next n)) := by
  obtain ⟨k, rfl⟩ : ∃ k, fuel = k + 1 := Nat.exists_eq_succ_of_ne_zero (by omega)
  induction a generalizing h k with
  | nil =>
    obtain ⟨rfl, hn, -⟩ := hc
    rw [Pointers.listRemoveLoop, if_pos hn]
  | cons x a ih =>
    obtain ⟨rfl, hc⟩ := hc
    have hrest : Chain next (next x) ((a ++ [c]) ++ n :: b) := by
      rw [List.append_assoc, List.singleton_append]
      exact hc
    have hx : next x ≠ some n := hrest.head_ne (by simp)
    rw [List.length_cons] at hf
    obtain ⟨k, rfl⟩ : ∃ j, k = j + 1 := Nat.exists_eq_succ_of_ne_zero (by omega)
    rw [Pointers.listRemoveLoop, if_neg hx]
    exact ih hc k (by omega)

/-- The two ways in which `list_remove` takes a node out. -/
lemma listRemove_split {p : Ccb ν} {q : Queue} (hc : Chain p.next (p.head q) (a ++ n :: b))
    (hf : (a ++ n :: b).length < fuel) :
    (a = [] ∧ Pointers.listRemove fuel q n p =
      some { p with head := Function.update p.head q (p.next n) }) ∨
    ∃ a' c, a = a' ++ [c] ∧ Pointers.listRemove fuel q n p =
      some { p with next := Function.update p.next c (p.next n) } := by
  unfold Pointers.listRemove
  rcases a.eq_nil_or_concat with rfl | ⟨a, c, rfl⟩
  · exact Or.inl ⟨rfl, if_pos hc.1⟩
  · rw [List.concat_eq_append] at hc hf ⊢
    have hhead : p.head q ≠ some n := hc.head_ne (by simp)
    rw [List.append_assoc, List.singleton_append] at hc hf
    refine Or.inr ⟨a, c, rfl, ?_⟩
    rw [if_neg hhead, listRemoveLoop_eq hc (by rw [List.length_append] at hf; omega)]
    rfl

/-- A node that is not linked is not found. -/
lemma listRemoveLoop_absent {l : List ν} (hc : Chain next h l) (hn : n ∉ l) (hf : l.length < fuel) :
    Pointers.listRemoveLoop next n fuel h = some next := by
  obtain ⟨k, rfl⟩ : ∃ k, fuel = k + 1 := Nat.exists_eq_succ_of_ne_zero (by omega)
  induction l generalizing h k with
  | nil =>
    rw [show h = none from hc]
    rfl
  | cons x l ih =>
    obtain ⟨rfl, hc⟩ := hc
    rw [List.mem_cons, not_or] at hn
    have hx : next x ≠ some n := fun he => hn.2 (List.mem_of_mem_head? (hc.head_eq ▸ he))
    rw [List.length_cons] at hf
    obtain ⟨k, rfl⟩ : ∃ j, k = j + 1 := Nat.exists_eq_succ_of_ne_zero (by omega)
    rw [Pointers.listRemoveLoop, if_neg hx]
    exact ih hc hn.2 k (by omega)

/-- The loop of `list_insert_before` goes by the nodes in front of which the reference does not
come, and stops before it or at the end. -/
lemma insertBeforeLoop_at {ref : Option ν} (hc : Chain next h (a ++ c :: b))
    (hstop : b.head? = ref ∨ b.head? = none) (hpass : ∀ m ∈ (a ++ [c]).tail, ref ≠ some m)
    (hf : a.length < fuel) :
    Pointers.insertBeforeLoop next n ref fuel h =
      some (Function.update (Function.update next n (next c)) c (some n)) := by
  obtain ⟨k, rfl⟩ : ∃ k, fuel = k + 1 := Nat.exists_eq_succ_of_ne_zero (by omega)
  induction a generalizing h k with
  | nil =>
    have hnext := hc.next_eq
    rw [hc.1, Pointers.insertBeforeLoop, if_pos (hnext ▸ hstop)]
  | cons x a ih =>
    obtain ⟨rfl, hc⟩ := hc
    rw [List.cons_append, List.tail_cons] at hpass
    rw [List.length_cons] at hf
    obtain ⟨k, rfl⟩ : ∃ j, k = j + 1 := Nat.exists_eq_succ_of_ne_zero (by omega)
    obtain ⟨y, l, hy⟩ := List.exists_cons_of_ne_nil (show a ++ [c] ≠ [] by simp)
    have hrest : Chain next (next x) ((a ++ [c]) ++ b) := by
      rw [List.append_assoc, List.singleton_append]
      exact hc
    have hx : next x = some y := by
      rw [hrest.head_eq, hy]
      rfl
    have hgo : ¬ (next x = ref ∨ next x = none) := by
      rw [hx]
      rintro (he | he)
      · exact hpass y (by simp [hy]) he.symm
      · cases he
    rw [Pointers.insertBeforeLoop, if_neg hgo]
    exact ih hc (fun m hm => hpass m (List.mem_of_mem_tail hm)) k (by omega)

lemma insertAfterLoop_at (hc : Chain next h (a ++ c :: b)) (hf : a.length < fuel) :
    Pointers.insertAfterLoop next n (some c) fuel h =
      some (Function.update (Function.update next n (next c)) c (some n)) := by
  obtain ⟨k, rfl⟩ : ∃ k, fuel = k + 1 := Nat.exists_eq_succ_of_ne_zero (by omega)
  induction a generalizing h k with
  | nil => rw [hc.1, Pointers.insertAfterLoop, if_pos rfl]
  | cons x a ih =>
    have hxc : some x ≠ some c := fun he =>
      hc.notMem.1 (by rw [Option.some.inj he]; exact List.mem_cons_self)
    obtain ⟨rfl, hc⟩ := hc
    rw [List.length_cons] at hf
    obtain ⟨k, rfl⟩ : ∃ j, k = j + 1 := Nat.exists_eq_succ_of_ne_zero (by omega)
    rw [Pointers.insertAfterLoop, if_neg hxc]
    exact ih hc k (by omega)

/-- The loop of `list_insert_after` ends without a change if it does not find the reference. -/
lemma insertAfterLoop_absent {l : List ν} {ref : Option ν} (hc : Chain next h l)
    (href : ∀ m ∈ l, ref ≠ some m) (hf : l.length < fuel) :
    Pointers.insertAfterLoop next n ref fuel h = some next := by
  obtain ⟨k, rfl⟩ : ∃ k, fuel = k + 1 := Nat.exists_eq_succ_of_ne_zero (by omega)
  induction l generalizing h k with
  | nil =>
    rw [show h = none from hc]
    rfl
  | cons x l ih =>
    obtain ⟨rfl, hc⟩ := hc
    rw [List.length_cons] at hf
    obtain ⟨k, rfl⟩ : ∃ j, k = j + 1 := Nat.exists_eq_succ_of_ne_zero (by omega)
    rw [Pointers.insertAfterLoop, if_neg (Ne.symm (href x List.mem_cons_self))]
    exact ih hc (fun m hm => href m (List.mem_cons_of_mem _ hm)) k (by omega)

omit [DecidableEq ν] in
/-- The loop stops after the nodes of `a`, which are of the priority of the new one at least. -/
lemma priorityLoop_eq (prio : ν → ℕ) (new : ℕ) (prev : Option ν) (hc : Chain next h (a ++ b))
    (ha : ∀ m ∈ a, new ≤ prio m) (hb : ∀ m ∈ b.head?, prio m < new) (hf : a.length < fuel) :
    Pointers.priorityLoop next prio new fuel prev h = some (a.getLast?.or prev, b.head?) := by
  obtain ⟨k, rfl⟩ : ∃ k, fuel = k + 1 := Nat.exists_eq_succ_of_ne_zero (by omega)
  induction a generalizing h prev k with
  | nil =>
    cases b with
    | nil =>
      rw [show h = none from hc]
      rfl
    | cons m b =>
      obtain ⟨rfl, -⟩ := hc
      have := hb m rfl
      rw [Pointers.priorityLoop, if_neg (by omega)]
      rfl
  | cons x a ih =>
    obtain ⟨rfl, hc⟩ := hc
    rw [List.length_cons] at hf
    obtain ⟨k, rfl⟩ : ∃ j, k = j + 1 := Nat.exists_eq_succ_of_ne_zero (by omega)
    rw [Pointers.priorityLoop, if_pos (ha x (by simp)),
      ih _ hc (fun m hm => ha m (List.mem_cons_of_mem _ hm)) k (by omega)]
    cases a with
    | nil => rfl
    | cons y a =>
      obtain ⟨z, hz⟩ : ∃ z, (y :: a).getLast? = some z := ⟨_, List.getLast?_cons⟩
      rw [List.getLast?_cons_cons, hz]
      rfl

end Loops

section NodeLoops

variable {p : Ccb ν} {h : Option ν} {l : List (Node ν)}

/-- The nodes of the list stand for the tasks it says. -/
def Named (p : Ccb ν) (l : List (Node ν)) : Prop := ∀ m ∈ l, p.tdb m.sn = m.task

omit [DecidableEq ν] in
lemma highestLoop_eq (kind : Tid → Prop) [DecidablePred kind] (best : Option (Node ν))
    (hc : Chain p.next h (l.map Node.sn)) (hl : Named p l)
    (hb : ∀ m ∈ best, p.tdb m.sn = m.task ∧ kind m.task) (hf : l.length < fuel) :
    Pointers.highestLoop kind p fuel (best.map Node.sn) h =
      some ((Scan.scan (fun m => if kind m.task then p.prio m.task + 1 else 0) best l).map
        Node.sn) := by
  obtain ⟨k, rfl⟩ : ∃ k, fuel = k + 1 := Nat.exists_eq_succ_of_ne_zero (by omega)
  induction l generalizing h best k with
  | nil =>
    rw [show h = none from hc]
    rfl
  | cons x l ih =>
    obtain ⟨rfl, hc⟩ := hc
    rw [List.length_cons] at hf
    obtain ⟨k, rfl⟩ : ∃ j, k = j + 1 := Nat.exists_eq_succ_of_ne_zero (by omega)
    have hx : p.tdb x.sn = x.task := hl x (by simp)
    have hpick : (if kind (p.tdb x.sn) ∧
          ∀ b ∈ best.map Node.sn, p.prio (p.tdb b) < p.prio (p.tdb x.sn) then some x.sn
        else best.map Node.sn) =
        (Scan.pick (fun m => if kind m.task then p.prio m.task + 1 else 0) best x).map
          Node.sn := by
      rw [hx]
      unfold Scan.pick
      by_cases hk : kind x.task
      · cases best with
        | none => simp [hk]
        | some y =>
          obtain ⟨hy, hky⟩ := hb y rfl
          by_cases hlt : p.prio y.task < p.prio x.task
          · simp [hk, hky, hy, hlt]
          · simp [hk, hky, hy, hlt]
      · simp [hk]
    rw [Pointers.highestLoop, Scan.scan_cons, hpick]
    refine ih _ hc (fun m hm => hl m (List.mem_cons_of_mem _ hm)) (fun m hm => ?_) k (by omega)
    unfold Scan.pick at hm
    split_ifs at hm with hlt
    · obtain rfl : x = m := Option.some.inj hm
      refine ⟨hx, ?_⟩
      by_contra hk
      simp [hk] at hlt
    · exact hb m hm

omit [DecidableEq ν] in
lemma firstRegularLoop_eq (hc : Chain p.next h (l.map Node.sn)) (hl : Named p l)
    (hf : l.length < fuel) :
    Pointers.firstRegularLoop κ p fuel h = some ((firstRegular κ l).map Node.sn) := by
  obtain ⟨k, rfl⟩ : ∃ k, fuel = k + 1 := Nat.exists_eq_succ_of_ne_zero (by omega)
  induction l generalizing h k with
  | nil =>
    rw [show h = none from hc]
    rfl
  | cons x l ih =>
    obtain ⟨rfl, hc⟩ := hc
    rw [List.length_cons] at hf
    obtain ⟨k, rfl⟩ : ∃ j, k = j + 1 := Nat.exists_eq_succ_of_ne_zero (by omega)
    rw [Pointers.firstRegularLoop, hl x (by simp)]
    unfold firstRegular at ih ⊢
    by_cases hr : (κ.tdb x.task).Regular
    · rw [if_pos hr, List.find?_cons_of_pos (by simpa using hr)]
      rfl
    · rw [if_neg hr, List.find?_cons_of_neg (by simpa using hr)]
      exact ih hc (fun m hm => hl m (List.mem_cons_of_mem _ hm)) k (by omega)

/-- Where the loop of `list_insert_before` puts a node. -/
lemma insertBeforeLoop_eq {n : Node ν} {ref : Option (Node ν)}
    (hc : Chain p.next h (l.map Node.sn)) (hne : l ≠ [])
    (href : ∀ m ∈ l, ∀ r ∈ ref, m.sn = r.sn → m = r) (hf : l.length < fuel) :
    ∃ a c b, l = a ++ c :: b ∧ listInsertBefore n ref l = a ++ c :: n :: b ∧
      Pointers.insertBeforeLoop p.next n.sn (ref.map Node.sn) fuel h =
        some (Function.update (Function.update p.next n.sn (p.next c.sn)) c.sn (some n.sn)) := by
  obtain ⟨k, rfl⟩ : ∃ k, fuel = k + 1 := Nat.exists_eq_succ_of_ne_zero (by omega)
  induction l generalizing h k with
  | nil => exact absurd rfl hne
  | cons x l ih =>
    obtain ⟨rfl, hc⟩ := hc
    rw [List.length_cons] at hf
    obtain ⟨k, rfl⟩ : ∃ j, k = j + 1 := Nat.exists_eq_succ_of_ne_zero (by omega)
    cases l with
    | nil =>
      have hx : p.next x.sn = none := hc
      refine ⟨[], x, [], rfl, rfl, ?_⟩
      rw [Pointers.insertBeforeLoop, if_pos (Or.inr hx)]
    | cons y l =>
      have hy : p.next x.sn = some y.sn := hc.1
      by_cases hr : ref = some y
      · refine ⟨[], x, y :: l, rfl, ?_, ?_⟩
        · rw [listInsertBefore, if_pos hr]
          rfl
        · rw [Pointers.insertBeforeLoop, if_pos (Or.inl (by rw [hy, hr]; rfl))]
      · obtain ⟨a, c, b, hl, hins, hloop⟩ := ih hc (by simp)
          (fun m hm => href m (List.mem_cons_of_mem _ hm)) k (by omega)
        refine ⟨x :: a, c, b, by rw [hl]; rfl, ?_, ?_⟩
        · rw [listInsertBefore, if_neg hr, hins]
          rfl
        · have hne : ¬ (p.next x.sn = ref.map Node.sn ∨ p.next x.sn = none) := by
            rw [hy]
            rintro (he | he)
            · cases ref with
              | none => simp at he
              | some r =>
                refine hr ?_
                rw [href y (by simp) r rfl (by simpa using he)]
            · simp at he
          rw [Pointers.insertBeforeLoop, if_neg hne]
          exact hloop

end NodeLoops

/-! ### Nodes in memory -/

/-- The heads lead along the queues, and the nodes in use stand for the tasks they say. -/
structure Carries (g : Heap Queue ν) (tdb : ν → Tid) (Q : Queue → List (Node ν)) : Prop where
  heap : g.Rep fun q => (Q q).map Node.sn
  tdb : ∀ q, q ≠ .free → ∀ m ∈ Q q, tdb m.sn = m.task

/-- The node is in no queue. -/
def InHand (Q : Queue → List (Node ν)) (n : ν) : Prop := Loose (fun q => (Q q).map Node.sn) n

section Carries

variable {g : Heap Queue ν} {tdb : ν → Tid} {Q : Queue → List (Node ν)} {q : Queue} {n : Node ν}
  {l a b : List (Node ν)} {c : Node ν}

omit [DecidableEq ν] in
lemma map_update (Q : Queue → List (Node ν)) (q : Queue) (l : List (Node ν)) :
    (fun r => (Function.update Q q l r).map Node.sn) =
      Function.update (fun r => (Q r).map Node.sn) q (l.map Node.sn) := by
  funext r
  by_cases hr : r = q
  · subst hr
    simp only [Function.update_self]
  · simp only [Function.update_of_ne hr]

omit [DecidableEq ν] in
lemma tdb_update (h : Carries g tdb Q) (hl : q ≠ .free → ∀ m ∈ l, tdb m.sn = m.task) :
    ∀ r, r ≠ .free → ∀ m ∈ Function.update Q q l r, tdb m.sn = m.task := by
  intro r hr m hm
  by_cases he : r = q
  · subst he
    rw [Function.update_self] at hm
    exact hl hr m hm
  · rw [Function.update_of_ne he] at hm
    exact h.tdb r hr m hm

omit [DecidableEq ν] in
lemma Carries.pop (h : Carries g tdb Q) (hq : Q q = n :: l) :
    Carries ⟨g.next, Function.update g.head q (g.next n.sn)⟩ tdb (Function.update Q q l) ∧
      InHand (Function.update Q q l) n.sn := by
  have hs : (Q q).map Node.sn = n.sn :: l.map Node.sn := by rw [hq]; rfl
  obtain ⟨hrep, hloose⟩ := h.heap.pop hs
  refine ⟨⟨by rw [map_update]; exact hrep, tdb_update h fun hf m hm => ?_⟩, ?_⟩
  · exact h.tdb q hf m (by rw [hq]; exact List.mem_cons_of_mem _ hm)
  · unfold InHand
    rw [map_update]
    exact hloose

lemma Carries.push (h : Carries g tdb Q) (hn : InHand Q n.sn) (q : Queue)
    (ht : q ≠ .free → tdb n.sn = n.task) :
    Carries ⟨Function.update g.next n.sn (g.head q), Function.update g.head q (some n.sn)⟩ tdb
      (Function.update Q q (n :: Q q)) := by
  refine ⟨by rw [map_update]; exact h.heap.push hn q, tdb_update h fun hf m hm => ?_⟩
  rcases List.mem_cons.mp hm with rfl | hm
  · exact ht hf
  · exact h.tdb q hf m hm

lemma Carries.splice (h : Carries g tdb Q) (hn : InHand Q n.sn) (hq : Q q = a ++ c :: b)
    (ht : q ≠ .free → tdb n.sn = n.task) :
    Carries ⟨Function.update (Function.update g.next n.sn (g.next c.sn)) c.sn (some n.sn), g.head⟩
      tdb (Function.update Q q (a ++ c :: n :: b)) := by
  have hs : (Q q).map Node.sn = a.map Node.sn ++ c.sn :: b.map Node.sn := by rw [hq]; simp
  refine ⟨?_, tdb_update h fun hf m hm => ?_⟩
  · rw [map_update]
    simpa using h.heap.splice hs hn
  · have hmem : ∀ x ∈ a ++ c :: b, tdb x.sn = x.task := fun x hx => h.tdb q hf x (by rwa [hq])
    simp only [List.mem_append, List.mem_cons] at hm hmem
    rcases hm with hm | hm | rfl | hm
    · exact hmem m (Or.inl hm)
    · exact hmem m (Or.inr (Or.inl hm))
    · exact ht hf
    · exact hmem m (Or.inr (Or.inr hm))

lemma Carries.unlink (h : Carries g tdb Q) (hq : Q q = a ++ c :: n :: b) :
    Carries ⟨Function.update g.next c.sn (g.next n.sn), g.head⟩ tdb
        (Function.update Q q (a ++ c :: b)) ∧
      InHand (Function.update Q q (a ++ c :: b)) n.sn := by
  have hs : (Q q).map Node.sn = a.map Node.sn ++ c.sn :: n.sn :: b.map Node.sn := by
    rw [hq]; simp
  obtain ⟨hrep, hloose⟩ := h.heap.unlink hs
  refine ⟨⟨?_, tdb_update h fun hf m hm => ?_⟩, ?_⟩
  · rw [map_update]
    simpa using hrep
  · refine h.tdb q hf m ?_
    rw [hq]
    exact (((List.sublist_cons_self n b).cons_cons c).append_left a).subset hm
  · unfold InHand
    rw [map_update]
    simpa using hloose

lemma Carries.scrub (h : Carries g tdb Q) {m : ν} (hm : InHand Q m) (x : Option ν) :
    Carries ⟨Function.update g.next m x, g.head⟩ tdb Q :=
  ⟨h.heap.update x hm, h.tdb⟩

lemma Carries.rename (h : Carries g tdb Q) {m : ν} (hm : InHand Q m) (t : Tid) :
    Carries g (Function.update tdb m t) Q := by
  refine ⟨h.heap, fun q hq x hx => ?_⟩
  have hne : x.sn ≠ m := fun he => hm q (he ▸ List.mem_map_of_mem hx)
  rw [Function.update_of_ne hne]
  exact h.tdb q hq x hx

/-! ### Functions on the lists -/

variable (T : Tcbs ν)

omit [DecidableEq ν] in
/-- Where an ordered insertion puts a node. -/
lemma orderedInsert_split (prio : Tid → ℕ) (n : Node ν) (l : List (Node ν)) :
    ∃ a b, l = a ++ b ∧
      l.orderedInsert (fun x y => prio y.task < prio x.task) n = a ++ n :: b ∧
      (∀ m ∈ a, prio n.task ≤ prio m.task) ∧ ∀ m ∈ b.head?, prio m.task < prio n.task := by
  refine ⟨l.takeWhile fun m => ¬ prio m.task < prio n.task,
    l.dropWhile fun m => ¬ prio m.task < prio n.task, List.takeWhile_append_dropWhile.symm,
    List.orderedInsert_eq_take_drop _ _ _, fun m hm => ?_, fun m hm => ?_⟩
  · have := List.mem_takeWhile_imp hm
    simpa using this
  · have := List.head?_dropWhile_not (fun m => ¬ prio m.task < prio n.task) l
    rw [hm] at this
    simpa using this

lemma snPriorityInsert_eq (prio : Tid → ℕ) (h : Carries g tdb Q) (hn : InHand Q n.sn)
    (hq : q ≠ .free) (ht : tdb n.sn = n.task) (hf : (Q q).length < fuel) :
    ∃ g', Pointers.snPriorityInsert fuel q n.sn prio ⟨T, g, tdb⟩ =
        some (⟨T, g', tdb⟩, match Q q with
          | [] => true
          | m :: _ => decide (prio m.task < prio n.task)) ∧
      Carries g' tdb (Function.update Q q
        ((Q q).orderedInsert (fun x y => prio y.task < prio x.task) n)) := by
  obtain ⟨a, b, hab, hins, ha, hb⟩ := orderedInsert_split prio n (Q q)
  have hc := h.heap.chain q
  have htask := h.tdb q hq
  rw [hab] at hc hf htask
  rw [List.map_append] at hc
  rw [List.length_append] at hf
  have hloop := priorityLoop_eq (fun m => prio (tdb m)) (prio (tdb n.sn)) none hc
    (fun m hm => by
      obtain ⟨x, hx, rfl⟩ := List.mem_map.mp hm
      rw [ht, htask x (by simp [hx])]
      exact ha x hx)
    (fun m hm => by
      rw [List.head?_map] at hm
      obtain ⟨x, hx, rfl⟩ := Option.map_eq_some_iff.mp hm
      rw [ht, htask x (List.mem_append_right _ (List.mem_of_mem_head? hx))]
      exact hb x hx)
    (show (a.map Node.sn).length < fuel by rw [List.length_map]; omega)
  rw [hins]
  unfold Pointers.snPriorityInsert
  dsimp only
  rw [hloop]
  rcases a.eq_nil_or_concat with rfl | ⟨a, c, rfl⟩
  · -- the new node comes first
    have hhead : (b.map Node.sn).head? = g.head q := hc.head_eq.symm
    refine ⟨_, ?_, by rw [List.nil_append, ← List.nil_append b, ← hab]; exact h.push hn q fun _ => ht⟩
    rw [hhead, hab]
    cases b with
    | nil => rfl
    | cons m b => simp [hb m rfl]
  · rw [List.concat_eq_append] at hab hc ha ⊢
    rw [List.append_assoc, List.singleton_append] at hab
    have hcn : c.sn ≠ n.sn := fun he =>
      hn q (he ▸ List.mem_map_of_mem (by rw [hab]; simp))
    have hnext : (b.map Node.sn).head? = g.next c.sn := by
      rw [List.map_append, List.append_assoc] at hc
      exact hc.next_eq.symm
    have hspl := h.splice hn hab fun _ => ht
    rw [Function.update_comm hcn.symm] at hspl
    have hlast : ((a ++ [c]).map Node.sn).getLast? = some c.sn := by simp
    refine ⟨_, ?_, by rw [List.append_assoc, List.singleton_append]; exact hspl⟩
    rw [hnext, hlast, hab]
    cases a with
    | nil =>
      have := ha c (by simp)
      simp [this]
    | cons m a =>
      have := ha m (by simp)
      simp [this]

lemma listRemove_eq (h : Carries g tdb Q) (hq : Q q = a ++ n :: b) (hf : (Q q).length < fuel) :
    ∃ g', Pointers.listRemove fuel q n.sn ⟨T, g, tdb⟩ = some ⟨T, g', tdb⟩ ∧
      Carries g' tdb (Function.update Q q (a ++ b)) ∧
      InHand (Function.update Q q (a ++ b)) n.sn := by
  have hc := h.heap.chain q
  rw [hq, List.map_append, List.map_cons] at hc
  have hlen : (a.map Node.sn ++ n.sn :: b.map Node.sn).length < fuel := by
    rw [hq] at hf
    simpa using hf
  rcases listRemove_split (p := ⟨T, g, tdb⟩) hc hlen with ⟨ha, he⟩ | ⟨a', c', ha, he⟩
  · rw [List.map_eq_nil_iff] at ha
    subst ha
    obtain ⟨hcar, hin⟩ := h.pop hq
    exact ⟨_, he, hcar, hin⟩
  · obtain ⟨a₀, c, rfl⟩ : ∃ a₀ c, a = a₀ ++ [c] := by
      rcases a.eq_nil_or_concat with rfl | ⟨a₀, c, rfl⟩
      · simp at ha
      · exact ⟨a₀, c, List.concat_eq_append ..⟩
    rw [List.map_append] at ha
    obtain rfl : c.sn = c' := by simpa using (List.append_inj' ha rfl).2
    rw [List.append_assoc, List.singleton_append] at hq ⊢
    obtain ⟨hcar, hin⟩ := h.unlink hq
    exact ⟨_, he, hcar, hin⟩

end Carries

/-! ### The scheduler -/

/-- The queue that a head belongs to. -/
def queue (s : Core ν) : Queue → List (Node ν)
  | .free => s.free
  | .rq => s.rq
  | .stk => s.stk
  | .suspended => s.suspended
  | .sem k => s.blocked k

section Scheduler

variable {s : Core ν} {g : Heap Queue ν} {tdb : ν → Tid} {n : Node ν} {l : List (Node ν)}

omit [DecidableEq ν] in
lemma queue_free (l : List (Node ν)) :
    Function.update (queue s) .free l = queue { s with free := l } := by
  funext q
  cases q <;> rfl

omit [DecidableEq ν] in
lemma queue_rq (l : List (Node ν)) :
    Function.update (queue s) .rq l = queue { s with rq := l } := by
  funext q
  cases q <;> rfl

omit [DecidableEq ν] in
lemma queue_stk (l : List (Node ν)) :
    Function.update (queue s) .stk l = queue { s with stk := l } := by
  funext q
  cases q <;> rfl

omit [DecidableEq ν] in
lemma queue_suspended (l : List (Node ν)) :
    Function.update (queue s) .suspended l = queue { s with suspended := l } := by
  funext q
  cases q <;> rfl

omit [DecidableEq ν] in
lemma queue_sem (k : Sem) (l : List (Node ν)) :
    Function.update (queue s) (.sem k) l =
      queue { s with blocked := Function.update s.blocked k l } := by
  funext q
  cases q with
  | sem j =>
    by_cases hj : j = k
    · subst hj
      simp [queue]
    · simp [queue, hj]
  | _ => rfl

omit [DecidableEq ν] in
lemma Carries.head_eq {Q : Queue → List (Node ν)} (h : Carries g tdb Q) (q : Queue) :
    g.head q = ((Q q).head?).map Node.sn := by
  rw [(h.heap.chain q).head_eq, List.head?_map]

omit [DecidableEq ν] in
lemma InHand.mono {Q Q' : Queue → List (Node ν)} {m : ν} (h : InHand Q m)
    (hsub : ∀ q, ∀ x ∈ Q' q, ∃ r, x ∈ Q r) : InHand Q' m := by
  intro q hm
  obtain ⟨x, hx, rfl⟩ := List.mem_map.mp hm
  obtain ⟨r, hr⟩ := hsub q x hx
  exact h r (List.mem_map_of_mem hr)

omit [DecidableEq ν] in
lemma topTask_carried {T : Tcbs ν} (h : Carries g tdb (queue s)) :
    Pointers.topTask κ ⟨T, g, tdb⟩ = topTask κ s.stk := by
  unfold Pointers.topTask
  dsimp only
  rw [h.head_eq]
  rcases hs : s.stk with _ | ⟨n, stk⟩
  · simp [queue, hs, topTask]
  · have := h.tdb .stk (by simp) n (by simp [queue, hs])
    simp [queue, hs, topTask, this]

lemma stkNext_eq {T : Tcbs ν} (h : Carries g tdb (queue s)) (hr : s.rq = n :: l) :
    ∃ g', Pointers.stkNext κ n.sn
        ⟨T, ⟨g.next, Function.update g.head .rq (g.next n.sn)⟩, tdb⟩ =
          ⟨T.dispatch κ n.task, g', tdb⟩ ∧
      Carries g' tdb (queue { s with rq := l, stk := n :: s.stk }) ∧
      ∀ m, InHand (queue s) m → InHand (queue { s with rq := l, stk := n :: s.stk }) m := by
  have hn : tdb n.sn = n.task := h.tdb .rq (by simp) n (by simp [queue, hr])
  obtain ⟨hpop, hin⟩ := h.pop (q := .rq) hr
  rw [queue_rq] at hpop hin
  have hpush := hpop.push hin .stk fun _ => hn
  rw [queue_stk] at hpush
  refine ⟨_, ?_, hpush, fun m hm => hm.mono fun q x hx => ?_⟩
  · unfold Pointers.stkNext
    dsimp only
    rw [hn]
  · cases q with
    | stk =>
      rcases List.mem_cons.mp hx with rfl | hx
      · exact ⟨.rq, by simp [queue, hr]⟩
      · exact ⟨.stk, hx⟩
    | rq => exact ⟨.rq, by rw [queue, hr]; exact List.mem_cons_of_mem _ hx⟩
    | free => exact ⟨.free, hx⟩
    | suspended => exact ⟨.suspended, hx⟩
    | sem k => exact ⟨.sem k, hx⟩

/-- The head of the ready queue preempts the top of the stack in memory as in the queues. -/
lemma rqPreemptStk_eq (h : Carries g tdb (queue s)) :
    ∃ g', Pointers.rqPreemptStk κ ⟨s.toTcbs, g, tdb⟩ =
        (⟨(rqPreemptStk κ s).1.toTcbs, g', tdb⟩, (rqPreemptStk κ s).2) ∧
      Carries g' tdb (queue (rqPreemptStk κ s).1) ∧
      ∀ m, InHand (queue s) m → InHand (queue (rqPreemptStk κ s).1) m := by
  have hstk := h.head_eq .stk
  have hrq := h.head_eq .rq
  rcases hr : s.rq with _ | ⟨n, rq⟩
  · have hk : rqPreemptStk κ s = (s, none) := by
      unfold rqPreemptStk
      rw [hr]
    rw [show queue s .rq = [] from hr] at hrq
    refine ⟨g, ?_, by rw [hk]; exact h, by rw [hk]; exact fun _ => id⟩
    rw [hk]
    unfold Pointers.rqPreemptStk
    dsimp only
    rw [hrq]
    cases g.head .stk <;> rfl
  · rw [show queue s .rq = n :: rq from hr] at hrq
    have hn : tdb n.sn = n.task := h.tdb .rq (by simp) n (by simp [queue, hr])
    rcases hs : s.stk with _ | ⟨top, stk⟩
    · have hk : rqPreemptStk κ s = (stkNext κ n { s with
          rq := rq, status := Function.update s.status κ.idle .readyStacked }, some κ.idle) := by
        unfold rqPreemptStk
        rw [hr, hs]
      rw [show queue s .stk = [] from hs] at hstk
      obtain ⟨g', he, hc, hin⟩ := stkNext_eq (κ := κ) (T := { s.toTcbs with
        status := Function.update s.status κ.idle .readyStacked }) h hr
      rw [hk]
      refine ⟨g', ?_, hc, hin⟩
      unfold Pointers.rqPreemptStk
      dsimp only
      rw [hstk, hrq]
      exact congrArg (·, some κ.idle) he
    · rw [show queue s .stk = top :: stk from hs] at hstk
      have htop : tdb top.sn = top.task := h.tdb .stk (by simp) top (by simp [queue, hs])
      have hprio : s.prio (tdb top.sn) < s.prio (tdb n.sn) ↔ s.prio top.task < s.prio n.task := by
        rw [htop, hn]
      by_cases hp : s.prio top.task < s.prio n.task
      · have hk : rqPreemptStk κ s = (stkNext κ n { s with
            rq := rq, status := Function.update s.status top.task .readyStacked },
            some top.task) := by
          unfold rqPreemptStk
          rw [hr, hs]
          simp only [if_pos hp]
        obtain ⟨g', he, hc, hin⟩ := stkNext_eq (κ := κ) (T := { s.toTcbs with
          status := Function.update s.status top.task .readyStacked }) h hr
        rw [hk]
        refine ⟨g', ?_, hc, hin⟩
        unfold Pointers.rqPreemptStk
        dsimp only
        rw [hstk, hrq]
        dsimp only [Option.map_some, List.head?_cons]
        rw [if_pos (hprio.mpr hp), htop]
        exact congrArg (·, some top.task) he
      · have hk : rqPreemptStk κ s = (s, none) := by
          unfold rqPreemptStk
          rw [hr, hs]
          simp only [if_neg hp]
        refine ⟨g, ?_, by rw [hk]; exact h, by rw [hk]; exact fun _ => id⟩
        rw [hk]
        unfold Pointers.rqPreemptStk
        dsimp only
        rw [hstk, hrq]
        dsimp only [Option.map_some, List.head?_cons]
        rw [if_neg (mt hprio.mp hp)]

/-- The running node is taken off and another one is chosen. -/
lemma popRunning_eq {stk : List (Node ν)} (h : Carries g tdb (queue s))
    (hstk : s.stk = n :: stk) :
    ∃ g', Pointers.popRunning κ ⟨s.toTcbs, g, tdb⟩ =
        some (⟨(settle κ { s with stk := stk }).toTcbs, g', tdb⟩, n.sn) ∧
      Carries g' tdb (queue (settle κ { s with stk := stk })) ∧
      InHand (queue (settle κ { s with stk := stk })) n.sn := by
  have hhead := h.head_eq .stk
  rw [show queue s .stk = n :: stk from hstk] at hhead
  obtain ⟨hpop, hin⟩ := h.pop (q := .stk) hstk
  rw [queue_stk] at hpop hin
  obtain ⟨g', he, hc, hmono⟩ := rqPreemptStk_eq (κ := κ) hpop
  have hin' := hmono _ hin
  have hset : ∃ x, rqPreemptStk κ { s with stk := stk } = x := ⟨_, rfl⟩
  obtain ⟨⟨s', o⟩, hx⟩ := hset
  rw [hx] at he hc hin'
  dsimp only at he hc hin'
  unfold Pointers.popRunning settle
  dsimp only
  rw [hhead, hx]
  dsimp only [Option.map_some, List.head?_cons]
  rw [he]
  cases o with
  | some t => exact ⟨g', rfl, hc, hin'⟩
  | none =>
    refine ⟨g', ?_, hc, hin'⟩
    dsimp only
    rw [topTask_carried hc]

lemma chainedNext_eq (h : Carries g tdb (queue s)) (hr : s.rq ≠ []) :
    ∃ g', Pointers.chainedNext κ ⟨s.toTcbs, g, tdb⟩ =
        some ⟨(settle κ s).toTcbs.switchIn, g', tdb⟩ ∧
      Carries g' tdb (queue (settle κ s)) := by
  obtain ⟨g', he, hc, -⟩ := rqPreemptStk_eq (κ := κ) h
  obtain ⟨⟨s', o⟩, hx⟩ : ∃ x, rqPreemptStk κ s = x := ⟨_, rfl⟩
  unfold Pointers.chainedNext settle
  rw [he, hx]
  rw [hx] at hc
  cases o with
  | some t => exact ⟨g', rfl, hc⟩
  | none =>
    obtain ⟨rfl, hne⟩ := rqPreemptStk_none κ hx
    obtain ⟨n, stk, hstk⟩ := List.exists_cons_of_ne_nil (hne hr)
    have hn : tdb n.sn = n.task := hc.tdb .stk (by simp) n (by simp [queue, hstk])
    have hhead := hc.head_eq .stk
    rw [show queue s' .stk = n :: stk from hstk] at hhead
    refine ⟨g', ?_, hc⟩
    dsimp only at hhead ⊢
    rw [hhead, hstk]
    dsimp only [Option.map_some, List.head?_cons]
    rw [hn]
    rfl

lemma snAlloc_eq {T : Tcbs ν} {m : Node ν} {free : List (Node ν)} (h : Carries g tdb (queue s))
    (hf : s.free = m :: free) :
    ∃ g', Pointers.snAlloc ⟨T, g, tdb⟩ = some (⟨T, g', tdb⟩, m.sn) ∧
      g'.head .stk = g.head .stk ∧ Carries g' tdb (queue { s with free := free }) ∧
      InHand (queue { s with free := free }) m.sn := by
  have hhead := h.head_eq .free
  rw [show queue s .free = m :: free from hf] at hhead
  obtain ⟨hpop, hin⟩ := h.pop (q := .free) hf
  rw [queue_free] at hpop hin
  refine ⟨_, ?_, ?_, hpop.scrub hin none, hin⟩
  · unfold Pointers.snAlloc
    dsimp only
    rw [hhead]
    rfl
  · simp

omit [DecidableEq ν] in
lemma free_nil (h : Carries g tdb (queue s)) (hf : s.free = []) : g.head .free = none := by
  rw [h.head_eq, show queue s .free = [] from hf]
  rfl

lemma snAlloc_nil {T : Tcbs ν} (h : Carries g tdb (queue s)) (hf : s.free = []) :
    Pointers.snAlloc ⟨T, g, tdb⟩ = none := by
  unfold Pointers.snAlloc
  dsimp only
  rw [free_nil h hf]

/-- A node in hand goes to the ready queue. -/
lemma rqInsert_eq {T : Tcbs ν} {m : ν} {t : Tid} (h : Carries g tdb (queue s))
    (hm : InHand (queue s) m) (hf : s.rq.length < fuel) :
    ∃ g', Pointers.rqInsert κ fuel m t ⟨T, g, tdb⟩ =
        some (⟨T, g', Function.update tdb m t⟩, rqHeadChanged κ ⟨m, t⟩ s.rq) ∧
      Carries g' (Function.update tdb m t) (queue { s with rq := rqInsert κ ⟨m, t⟩ s.rq }) := by
  obtain ⟨g', he, hc⟩ := snPriorityInsert_eq (n := ⟨m, t⟩) (q := .rq) T
    (fun t => (κ.tdb t).readyPrio) (h.rename hm t) hm (by simp) (Function.update_self ..) hf
  rw [queue_rq] at hc
  refine ⟨g', ?_, hc⟩
  unfold Pointers.rqInsert
  dsimp only
  rw [he]
  unfold rqHeadChanged queue
  cases s.rq <;> rfl

end Scheduler

end FpMemSched.Erika.Carried
