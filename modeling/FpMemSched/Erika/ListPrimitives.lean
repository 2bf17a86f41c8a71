import FpMemSched.Erika.Selection

/-!
The functions of DPREM on lists of nodes: `list_remove`, `list_insert_before` and
`list_insert_after`, for any list that the head leads along.

The loops look at the node behind the one where they stand, so that the head is a case of its own
for `list_remove` and none for `list_insert_before`.
-/

namespace FpMemSched.Erika.ListPrimitives

open FpMemSched.Lib.Linked
open FpMemSched.Erika.Carried FpMemSched.Erika.Pointers FpMemSched.Erika.Selection

variable {ν : Type} [DecidableEq ν] {fuel : ℕ} {p : Ccb ν} {q : Queue} {l a b : List ν} {c x : ν}
  {ref : Option ν}

/-- The list is acyclic and ends with the null pointer. -/
def Leads (p : Ccb ν) (q : Queue) (l : List ν) : Prop := Chain p.next (p.head q) l ∧ l.Nodup

omit [DecidableEq ν] in
lemma leads_of_chain (hc : Chain p.next (p.head q) l) : Leads p q l := ⟨hc, hc.nodup⟩

omit [DecidableEq ν] in
lemma split_unique {next : ν → Option ν} {h : Option ν} {a' b' : List ν}
    (hc : Chain next h (a ++ c :: b)) (he : a ++ c :: b = a' ++ c :: b') : a = a' ∧ b = b' := by
  obtain ⟨ha, -, hb⟩ := (List.append_cons_inj_of_notMem hc.notMem.1 hc.notMem.2).mp he
  exact ⟨ha, hb⟩

/-! ### Specifications -/

/-- A node of the list is taken out; else nothing changes. -/
def Removes (fuel : ℕ) (p : Ccb ν) (q : Queue) (l : List ν) (x : ν) : Prop :=
  ∃ p', listRemove fuel q x p = some p' ∧
    (∀ a b, l = a ++ x :: b → Leads p' q (a ++ b)) ∧ (x ∉ l → p' = p)

/-- The node comes directly before the reference, and last if that is null or not in the list. -/
def PutsBefore (fuel : ℕ) (p : Ccb ν) (q : Queue) (l : List ν) (x : ν) (ref : Option ν) : Prop :=
  ∃ p', listInsertBefore fuel q x ref p = some p' ∧
    (∀ r a b, ref = some r → l = a ++ r :: b → Leads p' q (a ++ x :: r :: b)) ∧
    ((∀ r, ref = some r → r ∉ l) → Leads p' q (l ++ [x]))

/-- The node comes directly after the reference, and somewhere in any case. -/
def PutsAfter (fuel : ℕ) (p : Ccb ν) (q : Queue) (l : List ν) (x : ν) (ref : Option ν) : Prop :=
  ∃ p' l', listInsertAfter fuel q x ref p = some p' ∧ Leads p' q l' ∧ x ∈ l' ∧
    ∀ r a b, ref = some r → l = a ++ r :: b → l' = a ++ r :: x :: b

/-! ### What the functions do -/

lemma listRemove_absent (hc : Chain p.next (p.head q) l) (hx : x ∉ l) (hf : l.length < fuel) :
    listRemove fuel q x p = some p := by
  unfold listRemove
  have hhead : p.head q ≠ some x := fun he => hx (List.mem_of_mem_head? (hc.head_eq ▸ he))
  rw [if_neg hhead, listRemoveLoop_absent hc hx hf]
  rfl

/-- On the empty list the reference does not matter. -/
lemma listInsertBefore_nil (hc : Chain p.next (p.head q) []) :
    ∃ p', listInsertBefore fuel q x ref p = some p' ∧ Chain p'.next (p'.head q) [x] := by
  unfold listInsertBefore
  rw [show p.head q = none from hc]
  exact ⟨_, rfl, Function.update_self .., Function.update_self ..⟩

lemma listInsertAfter_nil (hc : Chain p.next (p.head q) []) :
    ∃ p', listInsertAfter fuel q x ref p = some p' ∧ Chain p'.next (p'.head q) [x] := by
  unfold listInsertAfter
  rw [show p.head q = none from hc]
  exact ⟨_, rfl, Function.update_self .., Function.update_self ..⟩

/-- The node is spliced in where the loop stops. -/
lemma listInsertBefore_at (hc : Chain p.next (p.head q) (a ++ c :: b)) (hx : x ∉ a ++ c :: b)
    (hstop : b.head? = ref ∨ b.head? = none) (hpass : ∀ m ∈ (a ++ [c]).tail, ref ≠ some m)
    (hf : (a ++ c :: b).length < fuel) :
    ∃ p', listInsertBefore fuel q x ref p = some p' ∧
      Chain p'.next (p'.head q) (a ++ c :: x :: b) := by
  have hloop := insertBeforeLoop_at (n := x) hc hstop hpass
    (by rw [List.length_append] at hf; omega : a.length < fuel)
  obtain ⟨y, hy⟩ : ∃ y, p.head q = some y := by
    rw [hc.head_eq]
    cases a <;> exact ⟨_, rfl⟩
  unfold listInsertBefore
  rw [hloop, hy]
  refine ⟨_, rfl, ?_⟩
  dsimp only
  exact hc.splice hx

/-- **Before a reference that another node leads to.** -/
lemma listInsertBefore_behind {r : ν} (hc : Chain p.next (p.head q) (a ++ c :: r :: b))
    (hx : x ∉ a ++ c :: r :: b) (hf : (a ++ c :: r :: b).length < fuel) :
    ∃ p', listInsertBefore fuel q x (some r) p = some p' ∧
      Chain p'.next (p'.head q) (a ++ c :: x :: r :: b) := by
  refine listInsertBefore_at hc hx (Or.inl rfl) (fun m hm he => ?_) hf
  have hd := hc.nodup
  rw [← List.singleton_append, ← List.append_assoc] at hd
  refine (List.nodup_append.mp hd).2.2 m (List.mem_of_mem_tail hm) r List.mem_cons_self ?_
  exact (Option.some.inj he).symm

/-- **At the end** if no node leads to the reference. -/
lemma listInsertBefore_last (hc : Chain p.next (p.head q) l) (hx : x ∉ l) (hf : l.length < fuel)
    (href : ∀ m ∈ l.tail, ref ≠ some m) :
    ∃ p', listInsertBefore fuel q x ref p = some p' ∧ Chain p'.next (p'.head q) (l ++ [x]) := by
  rcases l.eq_nil_or_concat with rfl | ⟨a, c, rfl⟩
  · exact listInsertBefore_nil hc
  · rw [List.concat_eq_append] at hc hx hf href ⊢
    rw [List.append_assoc, List.singleton_append]
    exact listInsertBefore_at hc hx (Or.inr rfl) href hf

lemma listInsertAfter_at (hc : Chain p.next (p.head q) (a ++ c :: b)) (hx : x ∉ a ++ c :: b)
    (hf : (a ++ c :: b).length < fuel) :
    ∃ p', listInsertAfter fuel q x (some c) p = some p' ∧
      Chain p'.next (p'.head q) (a ++ c :: x :: b) := by
  have hloop := insertAfterLoop_at (n := x) hc
    (by rw [List.length_append] at hf; omega : a.length < fuel)
  obtain ⟨y, hy⟩ : ∃ y, p.head q = some y := by
    rw [hc.head_eq]
    cases a <;> exact ⟨_, rfl⟩
  unfold listInsertAfter
  rw [hloop, hy]
  refine ⟨_, rfl, ?_⟩
  dsimp only
  exact hc.splice hx

lemma listInsertAfter_absent (hc : Chain p.next (p.head q) l) (hne : l ≠ [])
    (href : ∀ m ∈ l, ref ≠ some m) (hf : l.length < fuel) :
    listInsertAfter fuel q x ref p = some p := by
  obtain ⟨y, hy⟩ : ∃ y, p.head q = some y := by
    rw [hc.head_eq]
    cases l with
    | nil => exact absurd rfl hne
    | cons y l => exact ⟨y, rfl⟩
  unfold listInsertAfter
  rw [insertAfterLoop_absent hc href hf, hy]
  rfl

/-! ### When the specifications are met -/

lemma removes (hc : Chain p.next (p.head q) l) (hf : l.length < fuel) : Removes fuel p q l x := by
  by_cases hx : x ∈ l
  · obtain ⟨a, b, rfl⟩ := List.append_of_mem hx
    obtain ⟨next, head, hrem, hchain, -, -⟩ := listRemove_cases hc hf
    refine ⟨_, hrem, fun a' b' he => ?_, fun hn => absurd hx hn⟩
    obtain ⟨rfl, rfl⟩ := split_unique hc he
    exact leads_of_chain hchain
  · refine ⟨p, listRemove_absent hc hx hf, fun a b he => ?_, fun _ => rfl⟩
    exact absurd (by rw [he]; simp) hx

/-- Exactly the head is missed. -/
lemma putsBefore_iff (hc : Chain p.next (p.head q) l) (hx : x ∉ l) (hf : l.length < fuel) :
    PutsBefore fuel p q l x ref ↔ ∀ r, ref = some r → l.head? ≠ some r := by
  constructor
  · rintro ⟨p', hput, hbefore, -⟩ r rfl hhead
    cases l with
    | nil => cases hhead
    | cons y l =>
      obtain rfl : y = r := Option.some.inj hhead
      have hnot : y ∉ l := (List.nodup_cons.mp hc.nodup).1
      have habsent : ∀ m ∈ (y :: l).tail, some y ≠ some m :=
        fun m hm he => hnot (Option.some.inj he ▸ hm)
      obtain ⟨p'', hlast, hchain⟩ := listInsertBefore_last hc hx hf habsent
      obtain rfl : p' = p'' := Option.some.inj (hput.symm.trans hlast)
      have hlists := (hbefore y [] l rfl rfl).1.unique hchain
      exact hx (by simp [(List.cons.inj hlists).1])
  · intro href
    by_cases hin : ∃ r ∈ l, ref = some r
    · obtain ⟨r, hr, rfl⟩ := hin
      obtain ⟨a, b, rfl⟩ := List.append_of_mem hr
      rcases a.eq_nil_or_concat with rfl | ⟨a, c, rfl⟩
      · exact absurd rfl (href r rfl)
      · have hsplit : a.concat c ++ r :: b = a ++ c :: r :: b := by simp
        obtain ⟨p', hput, hchain⟩ := listInsertBefore_behind (hsplit ▸ hc) (hsplit ▸ hx)
          (hsplit ▸ hf)
        refine ⟨p', hput, fun r' a' b' he hl => ?_, fun hno => absurd hr (hno r rfl)⟩
        obtain rfl : r = r' := Option.some.inj he
        obtain ⟨rfl, rfl⟩ := split_unique hc hl
        refine leads_of_chain ?_
        rw [List.concat_eq_append, List.append_assoc]
        exact hchain
    · have hnone : ∀ m ∈ l, ref ≠ some m := fun m hm he => hin ⟨m, hm, he⟩
      obtain ⟨p', hput, hchain⟩ := listInsertBefore_last hc hx hf
        fun m hm => hnone m (List.mem_of_mem_tail hm)
      refine ⟨p', hput, fun r a b he hl => ?_, fun _ => leads_of_chain hchain⟩
      exact absurd he (hnone r (by rw [hl]; simp))

/-- A reference that is not in the list drops the node, unless there is no list yet. -/
lemma putsAfter_iff (hc : Chain p.next (p.head q) l) (hx : x ∉ l) (hf : l.length < fuel) :
    PutsAfter fuel p q l x ref ↔ l = [] ∨ ∃ r ∈ l, ref = some r := by
  constructor
  · rintro ⟨p', l', hput, hlead, hin, -⟩
    by_contra hno
    rw [not_or] at hno
    obtain rfl : p = p' := Option.some.inj ((listInsertAfter_absent hc hno.1
      (fun m hm he => hno.2 ⟨m, hm, he⟩) hf).symm.trans hput)
    rw [hlead.1.unique hc] at hin
    exact hx hin
  · rintro (rfl | ⟨r, hr, rfl⟩)
    · obtain ⟨p', hput, hchain⟩ : ∃ p', listInsertAfter fuel q x ref p = some p' ∧
          Chain p'.next (p'.head q) [x] := listInsertAfter_nil hc
      refine ⟨p', [x], hput, leads_of_chain hchain, List.mem_singleton_self x, ?_⟩
      intro r a b _ hl
      simp at hl
    · obtain ⟨a, b, rfl⟩ := List.append_of_mem hr
      obtain ⟨p', hput, hchain⟩ := listInsertAfter_at hc hx hf
      refine ⟨p', _, hput, leads_of_chain hchain, by simp, fun r' a' b' he hl => ?_⟩
      obtain rfl : r = r' := Option.some.inj he
      obtain ⟨rfl, rfl⟩ := split_unique hc hl
      rfl

/-- **The lists of DPREM**: for every list and node, `list_remove` takes out the node, if it is
there, and nothing else; for a node that is not there, `list_insert_before` puts it where it
should exactly if the reference is not the head, and `list_insert_after` exactly if the reference
is in the list or the list is empty. -/
theorem lists_exact_iff (fuel : ℕ) (p : Ccb ν) (q : Queue) (l : List ν) (x : ν)
    (h : Leads p q l) (hf : l.length < fuel) :
    Removes fuel p q l x ∧
    (x ∉ l → ∀ ref, (PutsBefore fuel p q l x ref ↔ ∀ r, ref = some r → l.head? ≠ some r) ∧
      (PutsAfter fuel p q l x ref ↔ l = [] ∨ ∃ r ∈ l, ref = some r)) :=
  ⟨removes h.1 hf, fun hx _ => ⟨putsBefore_iff h.1 hx hf, putsAfter_iff h.1 hx hf⟩⟩

theorem lists_exact_middle :
    Leads fiveLinked .stk [0, 1, 2] ∧ Removes 4 fiveLinked .stk [0, 1, 2] 1 ∧
      PutsBefore 4 fiveLinked .stk [0, 1, 2] 7 (some 1) ∧
      PutsAfter 4 fiveLinked .stk [0, 1, 2] 7 (some 1) := by
  have h : Leads fiveLinked .stk [0, 1, 2] := ⟨by decide, by decide⟩
  have hputs := (lists_exact_iff 4 fiveLinked .stk [0, 1, 2] 7 h (by decide)).2 (by decide) (some 1)
  refine ⟨h, (lists_exact_iff 4 fiveLinked .stk [0, 1, 2] 1 h (by decide)).1, ?_, ?_⟩
  · exact hputs.1.mpr fun r hr => by
      obtain rfl : 1 = r := Option.some.inj hr
      decide
  · exact hputs.2.mpr (Or.inr ⟨1, by decide, rfl⟩)

/-- A node to be put before the head comes last, and one to be put after a node that is not
there is dropped. -/
theorem lists_go_wrong :
    Leads fiveLinked .stk [0, 1, 2] ∧
      ((listInsertBefore 4 .stk 7 (some 0) fiveLinked).map fun p =>
        decide (Chain p.next (p.head .stk) [0, 1, 2, 7])) = some true ∧
      ¬ PutsBefore 4 fiveLinked .stk [0, 1, 2] 7 (some 0) ∧
      ((listInsertAfter 4 .stk 7 (some 3) fiveLinked).map fun p =>
        decide (Chain p.next (p.head .stk) [0, 1, 2])) = some true ∧
      ¬ PutsAfter 4 fiveLinked .stk [0, 1, 2] 7 (some 3) := by
  have hc : Chain fiveLinked.next (fiveLinked.head .stk) [0, 1, 2] := by decide
  refine ⟨leads_of_chain hc, by decide, fun h => ?_, by decide, fun h => ?_⟩
  · exact (putsBefore_iff hc (by decide) (by decide)).mp h 0 rfl rfl
  · rcases (putsAfter_iff hc (by decide) (by decide)).mp h with hnil | ⟨r, hr, he⟩
    · cases hnil
    · obtain rfl : 3 = r := Option.some.inj he
      exact absurd hr (by decide)

end FpMemSched.Erika.ListPrimitives
