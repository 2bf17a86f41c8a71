import FpMemSched.Erika.Kernel
import Mathlib.Data.List.Nodup
import Mathlib.Data.List.Pairwise

/-!
The order of the stack under memory phases.

The kernel relies on the stack being ordered by priority: it lets the head of the ready queue
run when it exceeds the top alone. Memory phases take started tasks off the stack, put them
back and change priorities. The lemmas here say, for each way the queues change, when the
order is kept.
-/

namespace FpMemSched.Erika.Order

open FpMemSched.Erika.Kernel

variable {ν : Type} {κ : Kdb} {M : Tid → Prop} {prio : Tid → ℕ}
  {stk rq susp : List (Node ν)} {n : Node ν}

/-- Below a regular task on the stack are regular tasks only, and those of `M` have no higher
priority. -/
def Above (κ : Kdb) (M : Tid → Prop) (prio : Tid → ℕ) (x y : Node ν) : Prop :=
  (κ.tdb x.task).Regular →
    (κ.tdb y.task).Regular ∧ (M y.task → prio y.task ≤ prio x.task)

/-- The queues of a core whose stack is in order, as far as the tasks of `M` go. -/
structure Ordered (κ : Kdb) (M : Tid → Prop) (prio : Tid → ℕ) (stk rq susp : List (Node ν)) :
    Prop where
  above : stk.Pairwise (Above κ M prio)
  kind : ∀ n ∈ stk, (κ.tdb n.task).taskType = .isr2 ∨ (κ.tdb n.task).Regular
  ready : ∀ n ∈ rq, (κ.tdb n.task).Regular
  parked : ∀ n ∈ susp, (κ.tdb n.task).Regular ∧ ∀ m ∈ rq, m.task ≠ n.task
  once : ((stk ++ susp).map Node.task).Nodup
  bound : ∀ t, (κ.tdb t).Regular → prio t ≤ maxTaskPriority
  isr : ∀ t, (κ.tdb t).taskType = .isr2 → isr2PrioBit ≤ prio t

lemma not_regular_of_isr2 {t : Tid} (h : (κ.tdb t).taskType = .isr2) : ¬ (κ.tdb t).Regular := by
  rintro (h' | h') <;> rw [h] at h' <;> simp at h'

lemma perm_tasks (a b : List (Node ν)) (n : Node ν) :
    ((a ++ n :: b).map Node.task).Perm (n.task :: (a ++ b).map Node.task) :=
  List.perm_middle.map Node.task

/-- A regular task that exceeds the top of the stack exceeds the whole stack. -/
lemma Ordered.exceeds (h : Ordered κ M prio stk rq susp) {t : Tid} (ht : (κ.tdb t).Regular)
    (hp : ∀ top ∈ stk.head?, prio top.task < prio t) :
    ∀ m ∈ stk, (κ.tdb m.task).Regular ∧ (M m.task → prio m.task < prio t) := by
  cases stk with
  | nil => simp
  | cons top stk =>
    have htop : prio top.task < prio t := hp top (by simp)
    have hb := h.bound t ht
    have hreg : (κ.tdb top.task).Regular := by
      rcases h.kind top (by simp) with hi | hr
      · have := h.isr _ hi
        unfold maxTaskPriority isr2PrioBit at *
        omega
      · exact hr
    intro m hm
    rcases List.mem_cons.mp hm with rfl | hm
    · exact ⟨hreg, fun _ => htop⟩
    · obtain ⟨hmr, hmp⟩ := (List.pairwise_cons.mp h.above).1 m hm hreg
      exact ⟨hmr, fun hM => lt_of_le_of_lt (hmp hM) htop⟩

lemma Ordered.notMem (h : Ordered κ M prio stk rq susp) {t : Tid} (ht : (κ.tdb t).Regular)
    (hp : ∀ top ∈ stk.head?, prio top.task < prio t) (hM : t ∈ stk.map Node.task → M t) :
    t ∉ stk.map Node.task := by
  intro hmem
  obtain ⟨m, hm, rfl⟩ := List.mem_map.mp hmem
  exact lt_irrefl _ ((h.exceeds ht hp m hm).2 (hM hmem))

/-- Priorities of tasks that are not on the stack do not matter to its order. -/
lemma above_congr {prio' : Tid → ℕ} (h : ∀ m ∈ stk, prio' m.task = prio m.task)
    (ha : stk.Pairwise (Above κ M prio)) : stk.Pairwise (Above κ M prio') := by
  refine ha.imp_of_mem fun {x y} hx hy hxy hr => ?_
  rw [h x hx, h y hy]
  exact hxy hr

lemma update_of_notMem {t : Tid} {p : ℕ} (ht : t ∉ stk.map Node.task) :
    ∀ m ∈ stk, Function.update prio t p m.task = prio m.task := by
  intro m hm
  refine Function.update_of_ne (fun he => ht ?_) _ _
  rw [← he]
  exact List.mem_map_of_mem hm

lemma Ordered.setPrio (h : Ordered κ M prio stk rq susp) {t : Tid} {p : ℕ}
    (ht : (κ.tdb t).Regular) (hp : p ≤ maxTaskPriority)
    (ha : stk.Pairwise (Above κ M (Function.update prio t p))) :
    Ordered κ M (Function.update prio t p) stk rq susp := by
  refine ⟨ha, h.kind, h.ready, h.parked, h.once, fun u hu => ?_, fun u hu => ?_⟩
  · by_cases hut : u = t
    · subst hut; simpa using hp
    · rw [Function.update_of_ne hut]; exact h.bound u hu
  · by_cases hut : u = t
    · subst hut; exact absurd ht (not_regular_of_isr2 hu)
    · rw [Function.update_of_ne hut]; exact h.isr u hu

lemma Ordered.setPrio_notMem (h : Ordered κ M prio stk rq susp) {t : Tid} {p : ℕ}
    (ht : (κ.tdb t).Regular) (hp : p ≤ maxTaskPriority) (hm : t ∉ stk.map Node.task) :
    Ordered κ M (Function.update prio t p) stk rq susp :=
  h.setPrio ht hp (above_congr (update_of_notMem hm) h.above)

/-- The task on top of the stack has no other node there, nor among the suspended ones. -/
lemma Ordered.popped (h : Ordered κ M prio (n :: stk) rq susp) :
    n.task ∉ stk.map Node.task ∧ n.task ∉ susp.map Node.task := by
  have := h.once
  rw [List.cons_append, List.map_cons, List.nodup_cons, List.map_append, List.mem_append,
    not_or] at this
  exact this.1

/-- The running task may get any priority that is not below the rest of the stack. -/
lemma Ordered.setPrio_top (h : Ordered κ M prio (n :: stk) rq susp) {p : ℕ}
    (hn : (κ.tdb n.task).Regular) (hp : p ≤ maxTaskPriority)
    (hle : ∀ m ∈ stk, M m.task → prio m.task ≤ p) :
    Ordered κ M (Function.update prio n.task p) (n :: stk) rq susp := by
  have hnot := h.popped.1
  obtain ⟨hn1, hrest⟩ := List.pairwise_cons.mp h.above
  refine h.setPrio hn hp (List.pairwise_cons.mpr ⟨fun m hm hr => ?_,
    above_congr (update_of_notMem hnot) hrest⟩)
  rw [update_of_notMem hnot m hm, Function.update_self]
  exact ⟨(hn1 m hm hn).1, hle m hm⟩

/-- The tasks whose order matters may be fewer, and the running task may become one. -/
lemma Ordered.ofTop {M' : Tid → Prop} (h : Ordered κ M prio (n :: stk) rq susp)
    (hM : ∀ t, M' t → M t ∨ t = n.task) : Ordered κ M' prio (n :: stk) rq susp := by
  refine ⟨?_, h.kind, h.ready, h.parked, h.once, h.bound, h.isr⟩
  have hstk : ∀ y ∈ stk, M' y.task → M y.task := by
    intro y hy hy'
    refine (hM _ hy').resolve_right fun he => h.popped.1 ?_
    rw [← he]
    exact List.mem_map_of_mem hy
  obtain ⟨hn, hrest⟩ := List.pairwise_cons.mp h.above
  refine List.pairwise_cons.mpr ⟨fun y hy hr => ?_, hrest.imp_of_mem fun {x y} _ hy hxy hr => ?_⟩
  · exact ⟨(hn y hy hr).1, fun hy' => (hn y hy hr).2 (hstk y hy hy')⟩
  · exact ⟨(hxy hr).1, fun hy' => (hxy hr).2 (hstk y hy hy')⟩

/-! ### Moving nodes -/

/-- Push a task that exceeds the stack, at this priority or a higher one. -/
lemma Ordered.push (h : Ordered κ M prio stk rq susp) (hn : (κ.tdb n.task).Regular)
    (hp : ∀ top ∈ stk.head?, prio top.task < prio n.task)
    (hM : n.task ∈ stk.map Node.task → M n.task) (hs : n.task ∉ susp.map Node.task) {p : ℕ} (hle : prio n.task ≤ p)
    (hmax : p ≤ maxTaskPriority) :
    Ordered κ M (Function.update prio n.task p) (n :: stk) rq susp := by
  have hnot := h.notMem hn hp hM
  have hset := h.setPrio_notMem hn hmax hnot
  refine ⟨List.pairwise_cons.mpr ⟨fun m hm _ => ?_, hset.above⟩, fun m hm => ?_, h.ready,
    h.parked, ?_, hset.bound, hset.isr⟩
  · obtain ⟨hmr, hmp⟩ := h.exceeds hn hp m hm
    rw [update_of_notMem hnot m hm, Function.update_self]
    exact ⟨hmr, fun hMm => (hmp hMm).le.trans hle⟩
  · rcases List.mem_cons.mp hm with rfl | hm
    · exact Or.inr hn
    · exact h.kind m hm
  · rw [List.cons_append, List.map_cons, List.nodup_cons, List.map_append, List.mem_append]
    exact ⟨fun hm => hm.elim hnot hs, by simpa using h.once⟩

lemma Ordered.pop (h : Ordered κ M prio (n :: stk) rq susp) : Ordered κ M prio stk rq susp := by
  refine ⟨(List.pairwise_cons.mp h.above).2, fun m hm => h.kind m (List.mem_cons_of_mem _ hm),
    h.ready, h.parked, ?_, h.bound, h.isr⟩
  have := h.once
  rw [List.cons_append, List.map_cons, List.nodup_cons] at this
  exact this.2

lemma Ordered.enqueue (h : Ordered κ M prio stk rq susp) (hn : (κ.tdb n.task).Regular)
    (hs : n.task ∉ susp.map Node.task) : Ordered κ M prio stk (rqInsert κ n rq) susp := by
  refine ⟨h.above, h.kind, fun m hm => ?_, fun m hm => ⟨(h.parked m hm).1, fun r hr => ?_⟩,
    h.once, h.bound, h.isr⟩
  · rcases (List.mem_orderedInsert _).mp hm with rfl | hm
    · exact hn
    · exact h.ready m hm
  · rcases (List.mem_orderedInsert _).mp hr with rfl | hr
    · rintro he
      exact hs (he ▸ List.mem_map_of_mem hm)
    · exact (h.parked m hm).2 r hr

lemma Ordered.dequeue (h : Ordered κ M prio stk (n :: rq) susp) : Ordered κ M prio stk rq susp :=
  ⟨h.above, h.kind, fun m hm => h.ready m (List.mem_cons_of_mem _ hm),
    fun m hm => ⟨(h.parked m hm).1, fun r hr => (h.parked m hm).2 r (List.mem_cons_of_mem _ hr)⟩,
    h.once, h.bound, h.isr⟩

lemma Ordered.interrupt (h : Ordered κ M prio stk rq susp)
    (hn : (κ.tdb n.task).taskType = .isr2) (hnot : n.task ∉ stk.map Node.task) :
    Ordered κ M prio (n :: stk) rq susp := by
  refine ⟨List.pairwise_cons.mpr ⟨fun m _ hr => absurd hr (not_regular_of_isr2 hn), h.above⟩,
    fun m hm => ?_, h.ready, h.parked, ?_, h.bound, h.isr⟩
  · rcases List.mem_cons.mp hm with rfl | hm
    · exact Or.inl hn
    · exact h.kind m hm
  · rw [List.cons_append, List.map_cons, List.nodup_cons, List.map_append, List.mem_append]
    refine ⟨fun hm => hm.elim hnot fun hm => ?_, by simpa using h.once⟩
    obtain ⟨m, hm, he⟩ := List.mem_map.mp hm
    exact not_regular_of_isr2 hn (he ▸ (h.parked m hm).1)

/-- A task that is nowhere else and has no further activation is suspended. -/
lemma Ordered.park (h : Ordered κ M prio stk rq susp) (hn : (κ.tdb n.task).Regular)
    (h₁ : n.task ∉ stk.map Node.task) (h₂ : n.task ∉ susp.map Node.task)
    (h₃ : n.task ∉ rq.map Node.task) : Ordered κ M prio stk rq (n :: susp) := by
  refine ⟨h.above, h.kind, h.ready, fun m hm => ?_, ?_, h.bound, h.isr⟩
  · rcases List.mem_cons.mp hm with rfl | hm
    · exact ⟨hn, fun r hr he => h₃ (he ▸ List.mem_map_of_mem hr)⟩
    · exact h.parked m hm
  · rw [(perm_tasks stk susp n).nodup_iff, List.nodup_cons, List.map_append, List.mem_append]
    exact ⟨fun hm => hm.elim h₁ h₂, by simpa using h.once⟩

lemma Ordered.sublist (h : Ordered κ M prio stk rq susp) {stk' : List (Node ν)}
    (hs : stk'.Sublist stk) : Ordered κ M prio stk' rq susp :=
  ⟨h.above.sublist hs, fun m hm => h.kind m (hs.subset hm), h.ready, h.parked,
    h.once.sublist ((hs.append_right susp).map Node.task), h.bound, h.isr⟩

/-- A suspended task is nowhere else. -/
lemma Ordered.unpark {c d : List (Node ν)} (h : Ordered κ M prio stk rq (c ++ n :: d)) :
    Ordered κ M prio stk rq (c ++ d) ∧ (κ.tdb n.task).Regular ∧ n.task ∉ stk.map Node.task ∧
      n.task ∉ (c ++ d).map Node.task ∧ n.task ∉ rq.map Node.task := by
  have hsub : (c ++ d).Sublist (c ++ n :: d) := (List.sublist_cons_self n d).append_left c
  have honce := h.once
  rw [← List.append_assoc, (perm_tasks (stk ++ c) d n).nodup_iff, List.nodup_cons,
    List.append_assoc, List.map_append, List.mem_append, not_or] at honce
  obtain ⟨⟨h₁, h₂⟩, hrest⟩ := honce
  have hn := h.parked n (by simp)
  refine ⟨⟨h.above, h.kind, h.ready, fun m hm => h.parked m (hsub.subset hm), ?_, h.bound,
    h.isr⟩, hn.1, h₁, h₂, fun hm => ?_⟩
  · rwa [List.map_append]
  · obtain ⟨m, hm, he⟩ := List.mem_map.mp hm
    exact hn.2 m hm he

/-- A task that is nowhere else is put at its place in the stack. -/
lemma Ordered.insert {a b : List (Node ν)} (h : Ordered κ M prio (a ++ b) rq susp)
    (hn : (κ.tdb n.task).Regular) (h₁ : n.task ∉ (a ++ b).map Node.task)
    (h₂ : n.task ∉ susp.map Node.task) (ha : ∀ m ∈ a, Above κ M prio m n)
    (hb : ∀ m ∈ b, Above κ M prio n m) : Ordered κ M prio (a ++ n :: b) rq susp := by
  obtain ⟨haa, hbb, hab⟩ := List.pairwise_append.mp h.above
  refine ⟨?_, fun m hm => ?_, h.ready, h.parked, ?_, h.bound, h.isr⟩
  · refine List.pairwise_append.mpr ⟨haa, List.pairwise_cons.mpr ⟨hb, hbb⟩, fun x hx y hy => ?_⟩
    rcases List.mem_cons.mp hy with rfl | hy
    · exact ha x hx
    · exact hab x hx y hy
  · rcases List.mem_append.mp hm with hm | hm
    · exact h.kind m (List.mem_append_left _ hm)
    · rcases List.mem_cons.mp hm with rfl | hm
      · exact Or.inr hn
      · exact h.kind m (List.mem_append_right _ hm)
  · rw [List.append_assoc, List.cons_append, (perm_tasks a (b ++ susp) n).nodup_iff,
      List.nodup_cons, ← List.append_assoc, List.map_append, List.mem_append]
    refine ⟨fun hm => hm.elim h₁ h₂, ?_⟩
    have := h.once
    rwa [List.map_append] at this

/-- ISR2s lie on top of the regular tasks. -/
lemma split_regular
    (ho : stk.Pairwise fun x y => (κ.tdb x.task).Regular → (κ.tdb y.task).Regular)
    (hk : ∀ m ∈ stk, (κ.tdb m.task).taskType = .isr2 ∨ (κ.tdb m.task).Regular) :
    ∃ a b, stk = a ++ b ∧ (∀ m ∈ a, (κ.tdb m.task).taskType = .isr2) ∧
      ∀ m ∈ b, (κ.tdb m.task).Regular := by
  induction stk with
  | nil => exact ⟨[], [], rfl, by simp, by simp⟩
  | cons top stk ih =>
    rw [List.pairwise_cons] at ho
    rcases hk top (by simp) with hi | hr
    · obtain ⟨a, b, rfl, ha, hb⟩ := ih ho.2 fun m hm => hk m (List.mem_cons_of_mem _ hm)
      refine ⟨top :: a, b, rfl, fun m hm => ?_, hb⟩
      rcases List.mem_cons.mp hm with rfl | hm
      · exact hi
      · exact ha m hm
    · refine ⟨[], top :: stk, rfl, by simp, fun m hm => ?_⟩
      rcases List.mem_cons.mp hm with rfl | hm
      · exact hr
      · exact ho.1 m hm hr

lemma Ordered.split (h : Ordered κ M prio stk rq susp) :
    ∃ a b, stk = a ++ b ∧ (∀ m ∈ a, (κ.tdb m.task).taskType = .isr2) ∧
      ∀ m ∈ b, (κ.tdb m.task).Regular :=
  split_regular (h.above.imp fun hxy hr => (hxy hr).1) h.kind

/-- The priority a task starts its next activation with. -/
lemma Ordered.resetPrio (h : Ordered κ M prio stk rq susp) {t : Tid}
    (hm : t ∉ stk.map Node.task) :
    Ordered κ M (Function.update prio t (κ.tdb t).readyPrio) stk rq susp := by
  refine ⟨above_congr (update_of_notMem hm) h.above, h.kind, h.ready, h.parked, h.once,
    fun u hu => ?_, fun u hu => ?_⟩
  · by_cases hut : u = t
    · subst hut; simpa using (κ.regular_prio u hu).2.1
    · rw [Function.update_of_ne hut]; exact h.bound u hu
  · by_cases hut : u = t
    · subst hut; simpa using κ.isr2_prio u hu
    · rw [Function.update_of_ne hut]; exact h.isr u hu

/-! ### Tasks that have not started -/

/-- A task without a node in the list has its ready priority. -/
def Fresh (κ : Kdb) (prio : Tid → ℕ) (l : List (Node ν)) : Prop :=
  ∀ t, (κ.tdb t).Regular → t ∉ l.map Node.task → prio t = (κ.tdb t).readyPrio

variable {l l' : List (Node ν)}

lemma Fresh.mono (h : Fresh κ prio l) (hl : l.map Node.task ⊆ l'.map Node.task) :
    Fresh κ prio l' :=
  fun t ht hm => h t ht fun hmem => hm (hl hmem)

lemma Fresh.update {t : Tid} {p : ℕ} (h : Fresh κ prio l) (ht : t ∈ l.map Node.task) :
    Fresh κ (Function.update prio t p) l := by
  intro u hu hm
  have hne : u ≠ t := by
    rintro rfl
    exact hm ht
  rw [Function.update_of_ne hne]
  exact h u hu hm

lemma Fresh.reset (h : Fresh κ prio (n :: l)) :
    Fresh κ (Function.update prio n.task (κ.tdb n.task).readyPrio) l := by
  intro u hu hm
  by_cases he : u = n.task
  · subst he
    rw [Function.update_self]
  · rw [Function.update_of_ne he]
    refine h u hu fun hmem => ?_
    rcases List.mem_cons.mp hmem with hmem | hmem
    · exact he hmem
    · exact hm hmem

end FpMemSched.Erika.Order
