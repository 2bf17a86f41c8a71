import FpMemSched.Erika.ReadyPrio

/-!
The two ready queues agree.

The multiqueue holds the sorted list, one priority in each queue; `p_next` of the last node of
a queue and of all nodes outside holds anything. With that the kernel with the multiqueue makes
the same moves as the one with the list, as long as ready and current priorities decide alike.
-/

namespace FpMemSched.Erika.QueuesAgree

open FpMemSched.Lib.Runs FpMemSched.Lib.Buckets FpMemSched.Erika.Kernel
open FpMemSched.Erika.Dprem hiding step
open FpMemSched.Erika.Dispatch FpMemSched.Erika.Operations FpMemSched.Erika.Multiqueue
open FpMemSched.Erika.ReadyPrio

variable {w : ℕ} {ν : Type} {κ : Kdb}

/-! ### What the multiqueue holds -/

section Stores

variable {q : Rq w ν} {l : List (Node ν)} {n : Node ν} {a : ν}

/-- The nodes of the tasks of one priority. -/
abbrev level (κ : Kdb) (p : ℕ) (l : List (Node ν)) : List (Node ν) :=
  bucket (fun n => ready κ n.task) p l

structure Stores (κ : Kdb) (q : Rq w ν) (l : List (Node ν)) : Prop where
  queue : ∀ i, Fifo q.next (q.queue i) ((level κ (i + 1) l).map Node.sn)
  mask : ∀ i, q.mask.getLsbD i = (q.queue i).isSome
  tdb : ∀ n ∈ l, q.tdb n.sn = n.task

/-- A list the multiqueue has room for. -/
structure Fits (κ : Kdb) (w : ℕ) (l : List (Node ν)) : Prop where
  sorted : Sorted κ l
  once : (l.map Node.sn).Nodup
  prio : ∀ n ∈ l, 0 < ready κ n.task ∧ ready κ n.task ≤ w

lemma Fits.level_once (h : Fits κ w l) (p : ℕ) : ((level κ p l).map Node.sn).Nodup :=
  h.once.sublist (List.filter_sublist.map _)

lemma Fits.tail (h : Fits κ w (n :: l)) : Fits κ w l :=
  ⟨(List.pairwise_cons.mp h.sorted).2, (List.nodup_cons.mp h.once).2,
    fun m hm => h.prio m (List.mem_cons_of_mem _ hm)⟩

lemma mem_level {p : ℕ} (ha : a ∈ (level κ p l).map Node.sn) : a ∈ l.map Node.sn :=
  (List.filter_sublist.map _).subset ha

/-- A bit is set when the priority has a node. -/
lemma Stores.bit (h : Stores κ q l) (i : ℕ) :
    q.mask.getLsbD i = true ↔ ∃ m ∈ l, ready κ m.task = i + 1 := by
  rw [h.mask, (h.queue i).isSome, Bool.not_eq_true', List.isEmpty_eq_false_iff, ne_eq,
    List.map_eq_nil_iff]
  constructor
  · intro hne
    obtain ⟨m, hm⟩ := List.exists_mem_of_ne_nil _ hne
    exact ⟨m, mem_bucket.mp hm⟩
  · rintro ⟨m, hm⟩
    exact List.ne_nil_of_mem (mem_bucket.mpr hm)

lemma Stores.topBit_cons (h : Stores κ q (n :: l)) (hf : Fits κ w (n :: l)) :
    topBit q.mask = some (ready κ n.task - 1) := by
  have hn := (hf.prio n List.mem_cons_self).1
  refine topBit_eq_some ((h.bit _).mpr ⟨n, List.mem_cons_self, by omega⟩) fun j hj => ?_
  obtain ⟨m, hm, hmj⟩ := (h.bit j).mp hj
  rcases List.mem_cons.mp hm with rfl | hm
  · omega
  · have hle : ready κ m.task ≤ ready κ n.task := (List.pairwise_cons.mp hf.sorted).1 m hm
    omega

lemma Stores.topBit_nil (h : Stores κ q ([] : List (Node ν))) : topBit q.mask = none := by
  rw [topBit_eq_none]
  intro i
  rw [← Bool.not_eq_true, h.bit]
  simp

variable [DecidableEq ν]

/-- The fields of a node outside do not matter. -/
lemma Stores.write (h : Stores κ q l) (ha : a ∉ l.map Node.sn) (x : Option ν) (t : Tid) :
    Stores κ { q with
      next := Function.update q.next a x, tdb := Function.update q.tdb a t } l := by
  refine ⟨fun i => (h.queue i).frame fun b hb => ?_, h.mask, fun m hm => ?_⟩
  · have hne : b ≠ a := fun he => ha (he ▸ mem_level hb)
    exact Function.update_of_ne hne ..
  · have hne : m.sn ≠ a := fun he => ha (he ▸ List.mem_map_of_mem hm)
    exact (Function.update_of_ne hne ..).trans (h.tdb m hm)

lemma Stores.setNext (h : Stores κ q l) (ha : a ∉ l.map Node.sn) (x : Option ν) :
    Stores κ (q.setNext a x) l := by
  have := h.write ha x (q.tdb a)
  rwa [Function.update_eq_self] at this

/-- The head of the queue, as the multiqueue finds it. -/
lemma Stores.top_cons (h : Stores κ q (n :: l)) (hf : Fits κ w (n :: l)) :
    ∃ t, q.top = some (ready κ n.task - 1, n.sn, t) ∧
      Stores κ (q.pop (ready κ n.task - 1) n.sn t) l := by
  have hpos := (hf.prio n List.mem_cons_self).1
  obtain ⟨i, hi⟩ : ∃ i, ready κ n.task = i + 1 := ⟨ready κ n.task - 1, by omega⟩
  have hi' : ready κ n.task - 1 = i := by omega
  have htop := h.topBit_cons hf
  have hfifo := h.queue i
  have honce := hf.level_once (i + 1)
  have hlevel : level κ (i + 1) (n :: l) = n :: level κ (i + 1) l := by
    rw [← hi]
    exact bucket_head
  rw [hlevel, List.map_cons] at hfifo honce
  -- the other queues are the same
  have hother : ∀ j, j ≠ i → level κ (j + 1) (n :: l) = level κ (j + 1) l := by
    intro j hj
    rw [level, bucket_cons, if_neg (by omega)]
  rw [hi'] at htop ⊢
  rcases hq : q.queue i with _ | ⟨x, t⟩
  · rw [hq] at hfifo
    exact absurd hfifo (by simp [Fifo])
  rw [hq] at hfifo
  obtain rfl : n.sn = x := by simpa using hfifo.1
  refine ⟨t, by rw [Rq.top, htop, Option.bind_some, hq]; rfl, ?_⟩
  have htdb : ∀ m ∈ l, q.tdb m.sn = m.task := fun m hm => h.tdb m (List.mem_cons_of_mem _ hm)
  unfold Rq.pop
  by_cases hlast : n.sn = t
  · -- the queue becomes empty
    rw [if_pos hlast]
    subst hlast
    obtain ⟨-, hnil⟩ := hfifo.only honce
    refine ⟨fun j => ?_, fun j => ?_, htdb⟩
    · by_cases hj : j = i
      · subst hj
        dsimp only
        rw [Function.update_self, hnil]
        rfl
      · dsimp only
        rw [Function.update_of_ne hj, ← hother j hj]
        exact h.queue j
    · have hi : i < w := by
        have := (hf.prio n List.mem_cons_self).2
        omega
      dsimp only
      rw [getLsbD_clearBit hi, h.mask]
      by_cases hj : j = i
      · subst hj
        simp
      · rw [Function.update_of_ne hj, decide_eq_false (Ne.symm hj), Bool.not_false, Bool.and_true]
  · rw [if_neg hlast]
    obtain ⟨y, hy, hpop⟩ := hfifo.pop hlast
    rw [hy, Option.map_some]
    refine ⟨fun j => ?_, fun j => ?_, htdb⟩
    · by_cases hj : j = i
      · subst hj
        dsimp only
        rw [Function.update_self]
        exact hpop
      · dsimp only
        rw [Function.update_of_ne hj, ← hother j hj]
        exact h.queue j
    · dsimp only
      by_cases hj : j = i
      · subst hj
        rw [Function.update_self, h.mask, hq]
        rfl
      · rw [Function.update_of_ne hj]
        exact h.mask j

/-- What the insertion does, and that it tells whether the head changed. -/
lemma Stores.insert (h : Stores κ q l) (hf : Fits κ w l) (hn : n.sn ∉ l.map Node.sn)
    (hp : 0 < ready κ n.task ∧ ready κ n.task ≤ w) :
    Stores κ (q.insert κ n).1 (rqInsert κ n l) ∧
      (q.insert κ n).2 = rqHeadChanged κ n l := by
  obtain ⟨i, hi⟩ : ∃ i, ready κ n.task = i + 1 := ⟨ready κ n.task - 1, by omega⟩
  have hi' : (κ.tdb n.task).readyPrio - 1 = i := by
    rw [show (κ.tdb n.task).readyPrio = i + 1 from hi]
    rfl
  have hiw : i < w := by omega
  have hlevel : ∀ j, level κ (j + 1) (rqInsert κ n l) =
      if j = i then level κ (j + 1) l ++ [n] else level κ (j + 1) l := by
    intro j
    have := bucket_insert (fun n : Node ν => ready κ n.task) (n := n) hf.sorted (j + 1)
    rw [hi] at this
    simp only [add_left_inj, eq_comm (a := i)] at this
    exact this
  have htdb : ∀ m ∈ rqInsert κ n l, Function.update q.tdb n.sn n.task m.sn = m.task := by
    intro m hm
    rcases List.mem_cons.mp ((rqInsert_perm n l).mem_iff.mp hm) with rfl | hm
    · exact Function.update_self ..
    · have hne : m.sn ≠ n.sn := fun he => hn (he ▸ List.mem_map_of_mem hm)
      rw [Function.update_of_ne hne]
      exact h.tdb m hm
  unfold Rq.insert
  rw [hi']
  dsimp only
  rcases hq : q.queue i with _ | ⟨x, t⟩
  · have hnil : level κ (i + 1) l = [] := by
      have := h.queue i
      rw [hq] at this
      exact List.map_eq_nil_iff.mp this
    refine ⟨⟨fun j => ?_, fun j => ?_, htdb⟩, ?_⟩
    · dsimp only
      rw [hlevel]
      by_cases hj : j = i
      · subst hj
        rw [if_pos rfl, Function.update_self, hnil]
        exact Fifo.single q.next n.sn
      · rw [if_neg hj, Function.update_of_ne hj]
        exact h.queue j
    · dsimp only
      rw [getLsbD_setBit hiw, h.mask]
      by_cases hj : j = i
      · subst hj
        simp
      · rw [Function.update_of_ne hj, decide_eq_false (Ne.symm hj), Bool.or_false]
    · dsimp only
      rcases l with _ | ⟨m, l⟩
      · rw [h.topBit_nil]
        rfl
      · rw [h.topBit_cons hf]
        have hm := (hf.prio m List.mem_cons_self).1
        show decide (ready κ m.task - 1 < i) = decide (ready κ m.task < ready κ n.task)
        rw [decide_eq_decide]
        omega
  · have hfifo := h.queue i
    rw [hq] at hfifo
    refine ⟨⟨fun j => ?_, fun j => ?_, htdb⟩, ?_⟩
    · dsimp only
      rw [hlevel]
      by_cases hj : j = i
      · subst hj
        rw [if_pos rfl, Function.update_self, List.map_append]
        exact hfifo.append (hf.level_once _)
      · rw [if_neg hj, Function.update_of_ne hj]
        -- the last node of this queue is in no other one
        refine (h.queue j).frame fun b hb => Function.update_of_ne ?_ ..
        rintro rfl
        obtain ⟨m₁, hm₁, h₁⟩ := List.mem_map.mp hb
        obtain ⟨m₂, hm₂, h₂⟩ := List.mem_map.mp (List.mem_of_getLast? hfifo.2.1)
        have hm₁ := mem_bucket.mp hm₁
        have hm₂ := mem_bucket.mp hm₂
        have he : m₁ = m₂ := List.inj_on_of_nodup_map hf.once hm₁.1 hm₂.1 (h₁.trans h₂.symm)
        have hready := hm₁.2.symm.trans ((congrArg (fun m => ready κ m.task) he).trans hm₂.2)
        omega
    · dsimp only
      by_cases hj : j = i
      · subst hj
        rw [Function.update_self, h.mask, hq]
        rfl
      · rw [Function.update_of_ne hj]
        exact h.mask j
    · -- the queue has a node of the same priority, so the head stays
      obtain ⟨m, hm⟩ : ∃ m, m ∈ level κ (i + 1) l := by
        obtain ⟨m, hm, -⟩ := List.mem_map.mp (List.mem_of_getLast? hfifo.2.1)
        exact ⟨m, hm⟩
      obtain ⟨hml, hmp⟩ := mem_bucket.mp hm
      rcases l with _ | ⟨m₀, l⟩
      · simp at hml
      · have hle : ready κ m.task ≤ ready κ m₀.task := by
          rcases List.mem_cons.mp hml with rfl | hml
          · exact le_rfl
          · exact (List.pairwise_cons.mp hf.sorted).1 m hml
        show false = decide (ready κ m₀.task < ready κ n.task)
        rw [eq_comm, decide_eq_false_iff_not]
        omega

end Stores

/-! ### The scheduler -/

section Agree

variable [DecidableEq ν] {q : Rq w ν} {s : Core ν} {n : Node ν} {stk : List (Node ν)} {t : Tid}

/-- The core with the multiqueue in place of the list. -/
def put (s : Core ν) (q : Rq w ν) : Multi w ν := ⟨s.toTcbs, s.free, s.stk, q⟩

/-- The two cores are in the same state. -/
def Agree (κ : Kdb) (m : Multi w ν) (s : Core ν) : Prop :=
  ∃ q, m = put s q ∧ Stores κ q s.rq

omit [DecidableEq ν] in
lemma agree_some {m : Multi w ν} {s' : Core ν} {q' : Rq w ν} (hm : m = put s' q')
    (h : Stores κ q' s'.rq) : Option.Rel (Agree κ) (some m) (some s') :=
  Option.Rel.some ⟨q', hm, h⟩

/-- **A rescheduling is the same** where ready and current priorities decide alike. -/
lemma rqPreemptStk_put (h : Stores κ q s.rq) (hf : Fits κ w s.rq) (hj : Judged κ s) :
    ∃ q', Multi.rqPreemptStk κ (put s q) =
        (put (rqPreemptStk κ s).1 q', (rqPreemptStk κ s).2) ∧
      Stores κ q' (rqPreemptStk κ s).1.rq := by
  unfold Multi.rqPreemptStk rqPreemptStk put
  dsimp only
  rcases hr : s.rq with _ | ⟨n, l⟩
  · rw [hr] at h
    have htop : q.top = none := by
      rw [Rq.top, h.topBit_nil]
      rfl
    rcases hs : s.stk with _ | ⟨top, stk⟩
    · simp only [htop]
      exact ⟨q, rfl, by rw [hr]; exact h⟩
    · simp only [htop]
      exact ⟨q, rfl, by rw [hr]; exact h⟩
  · rw [hr] at h hf
    obtain ⟨t, htop, hpop⟩ := h.top_cons hf
    have htdb : q.tdb n.sn = n.task := h.tdb n List.mem_cons_self
    have hout : n.sn ∉ l.map Node.sn := (List.nodup_cons.mp hf.once).1
    have hpos := (hf.prio n List.mem_cons_self).1
    have hsucc : ready κ n.task - 1 + 1 = ready κ n.task := by omega
    rcases hs : s.stk with _ | ⟨top, stk⟩
    · simp only [htop, htdb]
      exact ⟨_, rfl, hpop.setNext hout _⟩
    · have hdec := hj n (by rw [hr]; rfl) top (by rw [hs]; rfl)
      simp only [htop, htdb, hsucc]
      by_cases hp : s.prio top.task < s.prio n.task
      · simp only [if_pos hp, if_pos (hdec.mp hp)]
        exact ⟨_, rfl, hpop.setNext hout _⟩
      · simp only [if_neg hp, if_neg (fun h => hp (hdec.mpr h))]
        exact ⟨q, by rw [hs], by rw [hr]; exact h⟩

/-- The running node is taken off, and the next task is chosen. -/
lemma popRunning_put (h : Stores κ q s.rq) (hf : Fits κ w s.rq) (hs : s.stk = n :: stk)
    (hj : Judged κ { s with stk := stk }) :
    ∃ q', Multi.popRunning κ (put s q) = some (put (settle κ { s with stk := stk }) q', n) ∧
      Stores κ q' (settle κ { s with stk := stk }).rq := by
  obtain ⟨q', he, hq'⟩ := rqPreemptStk_put (s := { s with stk := stk }) h hf hj
  refine ⟨q', ?_⟩
  unfold Multi.popRunning settle put at *
  rw [hs]
  dsimp only at he ⊢
  rw [he]
  generalize rqPreemptStk κ { s with stk := stk } = x at *
  rcases x with ⟨s', _ | u⟩
  · exact ⟨rfl, hq'⟩
  · exact ⟨rfl, hq'⟩

lemma taskPreemptionPoint_put (h : Stores κ q s.rq) (hf : Fits κ w s.rq) (hj : Judged κ s) :
    Agree κ (Multi.taskPreemptionPoint κ (put s q)) (taskPreemptionPoint κ s) := by
  obtain ⟨q', he, hq'⟩ := rqPreemptStk_put h hf hj
  refine ⟨q', ?_⟩
  unfold Multi.taskPreemptionPoint taskPreemptionPoint
  rw [he]
  generalize rqPreemptStk κ s = x at *
  rcases x with ⟨s', _ | u⟩
  · exact ⟨rfl, hq'⟩
  · exact ⟨rfl, hq'⟩

/-- The nodes to allocate are outside of the ready queue. -/
def FreeApart (s : Core ν) : Prop := ∀ m ∈ s.free, m.sn ∉ s.rq.map Node.sn

lemma taskInsertRq_put (h : Stores κ q s.rq) (hf : Fits κ w s.rq) (ha : FreeApart s)
    (ht : 0 < ready κ t ∧ ready κ t ≤ w) :
    Option.Rel (Agree κ) (Multi.taskInsertRq κ t (put s q)) (taskInsertRq κ t s) := by
  unfold Multi.taskInsertRq taskInsertRq Multi.snAlloc snAlloc put
  dsimp only
  rcases hfree : s.free with _ | ⟨m, free⟩
  · exact Option.Rel.none
  · have hm := ha m (by rw [hfree]; exact List.mem_cons_self)
    exact agree_some rfl ((h.setNext hm none).insert (n := ⟨m.sn, t⟩) hf hm ht).1

lemma schedulerTaskActivated_put (h : Stores κ q s.rq) (hf : Fits κ w s.rq) (ha : FreeApart s)
    (ht : 0 < ready κ t ∧ ready κ t ≤ w) :
    Option.Rel (Agree κ) (Multi.schedulerTaskActivated κ t (put s q))
      (schedulerTaskActivated κ t s) := by
  unfold Multi.schedulerTaskActivated schedulerTaskActivated
  by_cases hp : s.prio s.curr < s.prio t
  · rw [if_pos hp, if_pos (show (put s q).prio (put s q).curr < (put s q).prio t from hp)]
    unfold Multi.snAlloc snAlloc put
    dsimp only
    rcases hfree : s.free with _ | ⟨m, free⟩
    · exact Option.Rel.none
    · have hm := ha m (by rw [hfree]; exact List.mem_cons_self)
      exact agree_some rfl ((h.setNext hm none).write hm _ t)
  · rw [if_neg hp, if_neg (show ¬ (put s q).prio (put s q).curr < (put s q).prio t from hp)]
    exact taskInsertRq_put h hf ha ht

lemma taskSetRunning_put (h : Stores κ q s.rq) (ha : FreeApart s) :
    Option.Rel (Agree κ) (Multi.taskSetRunning t (put s q)) (taskSetRunning t s) := by
  unfold Multi.taskSetRunning taskSetRunning Multi.snAlloc snAlloc put
  dsimp only
  rcases hfree : s.free with _ | ⟨m, free⟩
  · exact Option.Rel.none
  · have hm := ha m (by rw [hfree]; exact List.mem_cons_self)
    exact agree_some rfl ((h.setNext hm none).write hm _ t)

/-! ### Calls -/

section Calls

variable (hw : ∀ t, (κ.tdb t).Regular → ready κ t ≤ w)

include hw in
omit [DecidableEq ν] in
lemma fits_of_steady (h : Steady κ s) : Fits κ w s.rq := by
  refine ⟨h.sorted, ?_, fun n hn => ?_⟩
  · refine h.placed.once.sublist (List.Sublist.map _ ?_)
    exact (List.sublist_append_right _ _).trans (List.sublist_append_right _ _)
  · exact ⟨(κ.regular_prio _ (h.regular n hn)).1, hw _ (h.regular n hn)⟩

omit [DecidableEq ν] in
lemma freeApart_of_steady (h : Steady κ s) : FreeApart s := by
  intro m hm hr
  have honce := h.placed.once
  rw [List.map_append] at honce
  refine (List.nodup_append.mp honce).2.2 m.sn (List.mem_map_of_mem hm) m.sn ?_ rfl
  rw [List.map_append]
  exact List.mem_append_right _ hr

omit [DecidableEq ν] in
lemma stk_notMem (h : Steady κ s) {m : Node ν} (hm : m ∈ s.stk) : m.sn ∉ s.rq.map Node.sn := by
  intro hr
  have honce := h.placed.once
  rw [List.map_append, List.map_append] at honce
  have := (List.nodup_append.mp honce).2.1
  exact (List.nodup_append.mp this).2.2 m.sn (List.mem_map_of_mem hm) m.sn hr rfl

include hw

lemma activateTask_put (h : Stores κ q s.rq) (hc : Steady κ s) (ht : (κ.tdb t).Regular) :
    Option.Rel (Agree κ) (Multi.activateTask κ t (put s q)) (activateTask κ t s) := by
  have hf := fits_of_steady hw hc
  have ha := freeApart_of_steady hc
  unfold Multi.activateTask activateTask put
  dsimp only
  rcases s.toTcbs.taskActivated κ t with _ | tcbs
  · exact agree_some rfl h
  · exact schedulerTaskActivated_put (s := { s with toTcbs := tcbs }) h hf ha
      ⟨(κ.regular_prio t ht).1, hw t ht⟩

lemma insertTask_put (h : Stores κ q s.rq) (hc : Steady κ s) (ht : (κ.tdb t).Regular) :
    Option.Rel (Agree κ) (Multi.insertTask κ t (put s q)) (insertTask κ t s) := by
  have hf := fits_of_steady hw hc
  have ha := freeApart_of_steady hc
  unfold Multi.insertTask insertTask put
  dsimp only
  rcases s.toTcbs.taskActivated κ t with _ | tcbs
  · exact agree_some rfl h
  · exact taskInsertRq_put (s := { s with toTcbs := tcbs }) h hf ha
      ⟨(κ.regular_prio t ht).1, hw t ht⟩

lemma taskTerminated_put (h : Stores κ q s.rq) (hc : Calm κ s) (hi : s.curr ≠ κ.idle) :
    Option.Rel (Agree κ) (Multi.taskTerminated κ (put s q)) (taskTerminated κ s) := by
  obtain ⟨n, stk, hs, hn⟩ := hc.cons hi
  obtain ⟨q', hpop, hq'⟩ := popRunning_put h (fits_of_steady hw hc.toSteady) hs
    (hc.judged_pop hs)
  -- the node is released, so it is not in the ready queue
  have hout := freeApart_of_steady (calm_ended hc.toSteady hs hn).toSteady n List.mem_cons_self
  rw [taskTerminated_cons κ hc.run hs]
  unfold Multi.taskTerminated
  have hrun : (put s q).status (put s q).curr = .running := hc.run
  simp only [hrun, if_true, hpop, Option.map_some]
  exact agree_some rfl (hq'.setNext hout _)

lemma chainSelf_put (h : Stores κ q s.rq) (hc : Calm κ s) (hi : (κ.tdb s.curr).Regular) :
    Option.Rel (Agree κ) (Multi.chainTask κ s.curr (put s q)) (chainTask κ s.curr s) := by
  obtain ⟨n, stk, hs, hn⟩ := hc.cons (ne_idle_of_regular hi)
  have hsteady := hc.toSteady.chained hs hn hi (Function.update s.status s.curr .ready)
    (if s.numOfAct s.curr = 1 then Function.update s.eventMask s.curr 0 else s.eventMask)
  have hins := (h.insert (n := ⟨n.sn, s.curr⟩) (fits_of_steady hw hc.toSteady)
    (stk_notMem hc.toSteady (m := n) (by rw [hs]; exact List.mem_cons_self))
    ⟨(κ.regular_prio _ hi).1, hw _ hi⟩).1
  obtain ⟨q', he, hq'⟩ := rqPreemptStk_put hins (fits_of_steady hw hsteady) hsteady.judged
  rw [chainSelf_cons κ hs]
  unfold Multi.chainTask Multi.taskTerminated settle put at *
  simp only [if_true, Function.update_self, reduceCtorEq, if_false, hs, Function.update_idem] at he ⊢
  rw [he]
  generalize rqPreemptStk κ _ = x at *
  rcases x with ⟨s', _ | u⟩
  · exact agree_some rfl hq'
  · exact agree_some rfl hq'

lemma chainTask_put (h : Stores κ q s.rq) (hc : Calm κ s) (hi : (κ.tdb s.curr).Regular)
    (ht : (κ.tdb t).Regular) (hl : s.ownSn t = none ∨ (κ.tdb t).maxNumOfAct ≤ s.numOfAct t) :
    Option.Rel (Agree κ) (Multi.chainTask κ t (put s q)) (chainTask κ t s) := by
  by_cases htc : t = s.curr
  · rw [htc]
    exact chainSelf_put hw h hc hi
  · have hf := fits_of_steady hw hc.toSteady
    have ha := freeApart_of_steady hc.toSteady
    unfold Multi.chainTask chainTask Tcbs.taskActivated put
    simp only [if_neg htc]
    by_cases hact : s.numOfAct t < (κ.tdb t).maxNumOfAct
    · simp only [if_pos hact]
      refine rel_bind (taskInsertRq_put (s := { s with
        numOfAct := Function.update s.numOfAct t (s.numOfAct t + 1) }) h hf ha
        ⟨(κ.regular_prio t ht).1, hw t ht⟩) fun m s₁ hins hagree => ?_
      obtain ⟨a, free, hfree, rfl⟩ := taskInsertRq_some hins
      obtain ⟨q', rfl, hq'⟩ := hagree
      exact taskTerminated_put hw hq' (calm_insert hc ht (hl.resolve_right (by omega)) hfree)
        (ne_idle_of_regular hi)
    · simp only [if_neg hact]
      exact agree_some rfl h

lemma waitEvent_put {mask : ℕ} (h : Stores κ q s.rq) (hc : Calm κ s)
    (hx : (κ.tdb s.curr).taskType = .extended) :
    Option.Rel (Agree κ) (Multi.waitEvent κ mask (put s q)) (waitEvent κ mask s) := by
  obtain ⟨n, stk, hs, hn⟩ := hc.cons (ne_idle_of_regular (Or.inr hx))
  have hf := fits_of_steady hw hc.toSteady
  obtain ⟨q', hpop, hq'⟩ := popRunning_put (s := { s with
    waitMask := Function.update s.waitMask s.curr mask }) h hf hs (hc.judged_pop hs)
  rw [waitEvent_cons κ hs]
  unfold Multi.waitEvent
  unfold put at hpop ⊢
  dsimp only at hpop ⊢
  by_cases hm : s.eventMask s.curr &&& mask = 0
  · rw [if_pos hm, if_pos hm, hpop]
    exact agree_some rfl hq'
  · rw [if_neg hm, if_neg hm]
    exact agree_some rfl h

lemma setEvent_put {mask : ℕ} (h : Stores κ q s.rq) (hc : Calm κ s) :
    Agree κ (Multi.setEvent κ t mask (put s q)) (setEvent κ t mask s) := by
  unfold Multi.setEvent setEvent
  rw [show (put s q).toTcbs = s.toTcbs from rfl]
  rcases eventSetMask_cases κ t mask s.toTcbs with ⟨em, he⟩ | ⟨em, sn, -, ho, he⟩
  · rw [he]
    exact ⟨q, rfl, h⟩
  · rw [he]
    have hwoken := hc.toSteady.woken ho em
    have hx := hc.waits t (by rw [ho]; simp)
    have hf := fits_of_steady hw hc.toSteady
    have hout : sn ∉ s.rq.map Node.sn := by
      intro hm
      refine hc.placed.kept t sn ho ?_
      rw [List.map_append, List.map_append]
      exact List.mem_append_right _ (List.mem_append_right _ hm)
    obtain ⟨hins, hhead⟩ := h.insert (n := ⟨sn, t⟩) hf hout
      ⟨(κ.regular_prio t (Or.inr hx)).1, hw t (Or.inr hx)⟩
    unfold Multi.release release Multi.taskUnblocked taskUnblocked put
    dsimp only
    rw [hhead]
    generalize (rqHeadChanged κ _ s.rq && _) = b
    rcases b with _ | _
    · exact ⟨_, rfl, hins⟩
    · exact taskPreemptionPoint_put hins (fits_of_steady hw hwoken) hwoken.judged

lemma releaseResource_put {r : Res} (hκ : ∀ t, ready κ t ≤ (κ.tdb t).dispatchPrio)
    (h : Stores κ q s.rq) (hc : Calm κ s) :
    Agree κ (Multi.releaseResource κ r (put s q)) (releaseResource κ r s) := by
  unfold Multi.releaseResource releaseResource put
  dsimp only
  by_cases hr : s.owner r = none ∨ (s.lastM s.curr).head? ≠ some r
  · rw [if_pos hr, if_pos hr]
    exact ⟨q, rfl, h⟩
  · rw [if_neg hr, if_neg hr]
    rw [not_or, not_not] at hr
    have hcalm := hc.released (hκ _) hr.2
    have hf := fits_of_steady hw hcalm.toSteady
    refine taskPreemptionPoint_put ?_ hf hcalm.judged
    exact h

end Calls

omit [DecidableEq ν] in
lemma getResource_put {r : Res} (h : Stores κ q s.rq) :
    Agree κ (Multi.getResource κ r (put s q)) (getResource κ r s) := by
  unfold Multi.getResource getResource put
  dsimp only
  by_cases hr : s.owner r ≠ none ∨ κ.resPrio r < (κ.tdb s.curr).readyPrio
  · rw [if_pos hr, if_pos hr]
    exact ⟨q, rfl, h⟩
  · rw [if_neg hr, if_neg hr]
    exact ⟨q, rfl, h⟩

/-- **A call does the same to both cores.** -/
theorem agree_step {c : Call} (hw : ∀ t, (κ.tdb t).Regular → ready κ t ≤ w)
    (hκ : ∀ t, ready κ t ≤ (κ.tdb t).dispatchPrio) (h : Stores κ q s.rq) (hc : Calm κ s)
    (hl : Lone κ s c) : Option.Rel (Agree κ) (Multi.step κ (put s q) c) (step κ s c) := by
  unfold Multi.step step
  by_cases ha : Allowed κ s.toTcbs c
  · rw [if_pos ha, if_pos (show Allowed κ (put s q).toTcbs c from ha)]
    cases c with
    | activateTask t => exact activateTask_put hw h hc.toSteady ha
    | insertTask t => exact insertTask_put hw h hc.toSteady ha
    | chainTask t => exact chainTask_put hw h hc ha.1 ha.2 hl
    | terminateTask => exact taskTerminated_put hw h hc ha
    | taskNotTerminated =>
      exact taskTerminated_put hw (s := { s with toTcbs := releaseAllM s.curr s.toTcbs }) h
        (calm_releaseAllM hc) ha
    | interrupt i =>
      have hf := freeApart_of_steady hc.toSteady
      exact taskSetRunning_put (s := { s with
        numOfAct := Function.update s.numOfAct i (s.numOfAct i + 1) }) h hf
    | preemptionPoint =>
      exact Option.Rel.some
        (taskPreemptionPoint_put h (fits_of_steady hw hc.toSteady) hc.judged)
    | waitEvent mask => exact waitEvent_put hw h hc ha
    | setEvent t mask => exact Option.Rel.some (setEvent_put hw h hc)
    | getResource r => exact Option.Rel.some (getResource_put h)
    | releaseResource r => exact Option.Rel.some (releaseResource_put hw hκ h hc)
  · rw [if_neg ha, if_neg (show ¬ Allowed κ (put s q).toTcbs c from ha)]
    exact Option.Rel.none

end Agree

/-! ### Runs -/

section Runs

variable [DecidableEq ν]

/-- What is seen of a core: the running task and the statuses. -/
def view (s : Tcbs ν) : Tid × (Tid → TaskStatus) := (s.curr, s.status)

/-- The first node of the highest priority. -/
def Front (κ : Kdb) (l : List (Node ν)) (n : Node ν) : Prop :=
  (∀ m ∈ l, ready κ m.task ≤ ready κ n.task) ∧ (level κ (ready κ n.task) l).head? = some n

/-- How the ready tasks are served: a node arrives behind all others of its priority, both in
the list and in the queue of that priority, and either kernel dispatches the first node of
the highest priority. -/
structure Served (κ : Kdb) (s : Core ν) (m : Multi w ν) : Prop where
  queue : ∀ i, Fifo m.rq.next (m.rq.queue i) ((level κ (i + 1) s.rq).map Node.sn)
  arrive : ∀ n p, level κ p (rqInsert κ n s.rq) =
    if ready κ n.task = p then level κ p s.rq ++ [n] else level κ p s.rq
  list : ∀ s' t, rqPreemptStk κ s = (s', some t) →
    ∃ n, Front κ s.rq n ∧ s'.stk = n :: s.stk ∧ s'.curr = n.task
  multi : ∀ m' t, Multi.rqPreemptStk κ m = (m', some t) →
    ∃ n, Front κ s.rq n ∧ m'.stk = n :: m.stk ∧ m'.curr = n.task

omit [DecidableEq ν] in
lemma front_cons {n : Node ν} {l : List (Node ν)} (h : Sorted κ (n :: l)) :
    Front κ (n :: l) n := by
  refine ⟨fun m hm => ?_, ?_⟩
  · rcases List.mem_cons.mp hm with rfl | hm
    · exact le_rfl
    · exact (List.pairwise_cons.mp h).1 m hm
  · rw [level, bucket_head]
    rfl

omit [DecidableEq ν] in
lemma preempt_front {s s' : Core ν} {t : Tid} (h : Sorted κ s.rq)
    (he : rqPreemptStk κ s = (s', some t)) :
    ∃ n, Front κ s.rq n ∧ s'.stk = n :: s.stk ∧ s'.curr = n.task := by
  have hset : settle κ s = s' := by
    unfold settle
    rw [he]
  rcases settle_cases κ s with ⟨hc, hno⟩ | ⟨n, l, hr, -, hc⟩
  · -- then nothing would preempt
    exfalso
    unfold rqPreemptStk at he
    rcases hr : s.rq with _ | ⟨n, l⟩
    · rcases hs : s.stk with _ | ⟨top, stk⟩ <;> simp [hr, hs] at he
    · obtain ⟨top, stk, hs, hle⟩ := hno n l hr
      simp [hr, hs, Nat.not_lt.mpr hle] at he
  · rw [hr] at h
    rw [← hset, hc]
    refine ⟨n, ?_, rfl, rfl⟩
    rw [hr]
    exact front_cons h

lemma served_of_stores {s : Core ν} {q : Rq w ν}
    (hw : ∀ t, (κ.tdb t).Regular → ready κ t ≤ w) (h : Stores κ q s.rq) (hc : Calm κ s) :
    Served κ s (put s q) := by
  refine ⟨h.queue, fun n p => ?_, fun s' t he => preempt_front hc.sorted he, fun m' t he => ?_⟩
  · exact bucket_insert (fun n : Node ν => ready κ n.task) hc.sorted p
  · obtain ⟨q', hq', -⟩ := rqPreemptStk_put h (fits_of_steady hw hc.toSteady) hc.judged
    rw [hq'] at he
    obtain ⟨hm, ht⟩ := Prod.mk.inj he
    have he : rqPreemptStk κ s = ((rqPreemptStk κ s).1, some t) := Prod.ext rfl ht
    obtain ⟨n, hn, hstk, hcurr⟩ := preempt_front hc.sorted he
    exact ⟨n, hn, hm ▸ hstk, hm ▸ hcurr⟩

/-- **The two ready queues agree**: in a run without a second activation of a waiting task the
kernel with the multiqueue and the one with the sorted list show the same tasks running and
the same statuses, and both serve the ready tasks by priority and then by arrival. -/
theorem queues_agree (κ : Kdb) (w : ℕ)
    (hκ : ∀ t, (κ.tdb t).readyPrio ≤ (κ.tdb t).dispatchPrio)
    (hw : ∀ t, (κ.tdb t).Regular → (κ.tdb t).readyPrio ≤ w) (free : List (Node ν))
    (hf : (free.map Node.sn).Nodup) (next : ν → Option ν) (tdb : ν → Tid) (as : List Call)
    (hl : Along (step κ) (Lone κ) (init κ free) as) :
    trace (Multi.step κ) (fun m => view m.toTcbs) (Multi.init κ free next tdb : Multi w ν) as =
        trace (step κ) (fun s => view s.toTcbs) (init κ free) as ∧
      ∀ s, exec (step κ) (init κ free) as = some s →
        ∃ m, exec (Multi.step κ) (Multi.init κ free next tdb : Multi w ν) as = some m ∧
          Served κ s m := by
  have hstep : ∀ (m : Multi w ν) (s : Core ν) (c : Call), Agree κ m s ∧ Calm κ s → Lone κ s c →
      Option.Rel (fun m s => Agree κ m s ∧ Calm κ s) (Multi.step κ m c) (step κ s c) := by
    rintro m s c ⟨⟨q, rfl, hq⟩, hc⟩ hlone
    exact rel_and (agree_step hw hκ hq hc hlone) fun s' hs =>
      calm_step hc (fun _ _ => hκ _) hlone hs
  have hinit : Agree κ (Multi.init κ free next tdb : Multi w ν) (init κ free) ∧
      Calm κ (init κ free) := by
    refine ⟨⟨_, rfl, fun i => rfl, fun i => ?_, by simp [init]⟩, calm_init κ hf⟩
    simp
  refine ⟨trace_rel (fun m s h => ?_) hstep hinit hl, fun s hs => ?_⟩
  · obtain ⟨⟨q, rfl, -⟩, -⟩ := h
    rfl
  · have hrel := exec_rel hstep hinit hl
    rw [hs] at hrel
    obtain ⟨m, hm, ⟨q, rfl, hq⟩, hc⟩ := rel_some hrel
    exact ⟨put s q, hm, served_of_stores hw hq hc⟩

end Runs

/-- A core with a task `2` that runs at a higher priority than it is ready at, and that may be
activated twice, a task `3` in between and the ISR2 `1`. -/
def raisedKdb : Kdb where
  tdb t :=
    if t = 0 then ⟨.idle, 0, 0, 1⟩
    else if t = 1 then ⟨.isr2, isr2PrioBit, isr2PrioBit, 1⟩
    else if t = 2 then ⟨.extended, 1, 3, 2⟩
    else ⟨.basic, 2, 2, 1⟩
  idle := 0
  startedIsr := 1
  endedIsr := 1
  resPrio r := r + 1
  idle_iff t := by split_ifs with h <;> simp [h]
  idle_prio := rfl
  regular_prio t ht := by
    unfold Tdb.Regular at ht
    unfold maxTaskPriority isr2PrioBit
    split_ifs at ht ⊢ <;> simp at ht ⊢
  isr2_prio t ht := by
    split_ifs at ht ⊢
    exact le_rfl

lemma raisedKdb_prio (t : Tid) : (raisedKdb.tdb t).readyPrio ≤ (raisedKdb.tdb t).dispatchPrio ∧
    ((raisedKdb.tdb t).Regular →
      1 ≤ (raisedKdb.tdb t).readyPrio ∧ (raisedKdb.tdb t).readyPrio ≤ 8) := by
  unfold Tdb.Regular
  simp only [raisedKdb]
  split_ifs <;> simp

def fourNodes : List (Node ℕ) := [⟨0, 0⟩, ⟨1, 0⟩, ⟨2, 0⟩, ⟨3, 0⟩]

/-- Task `2` is dispatched, interrupted and activated again, takes a resource, and task `3` is
ready when it ends. -/
theorem queues_agree_twoActivations :
    ∃ as : List Call, as.length = 11 ∧
      Along (step raisedKdb) (Lone raisedKdb) (init raisedKdb fourNodes) as ∧
      (exec (step raisedKdb) (init raisedKdb fourNodes) as).isSome ∧
      trace (Multi.step raisedKdb) (fun m => view m.toTcbs)
          (Multi.init raisedKdb fourNodes (fun _ => none) (fun _ => 0) : Multi 8 ℕ) as =
        trace (step raisedKdb) (fun s => view s.toTcbs) (init raisedKdb fourNodes) as := by
  refine ⟨[.insertTask 2, .preemptionPoint, .getResource 4, .interrupt 1, .activateTask 2,
    .taskNotTerminated, .insertTask 3, .releaseResource 4, .terminateTask, .preemptionPoint,
    .terminateTask], rfl, by decide +kernel, by decide +kernel, ?_⟩
  exact (queues_agree raisedKdb 8 (fun t => (raisedKdb_prio t).1)
    (fun t ht => ((raisedKdb_prio t).2 ht).2) fourNodes (by decide) _ _ _ (by decide +kernel)).1

/-- Task `2` waits at its dispatch priority while it is activated again; the list then lets it
preempt task `3`, the multiqueue does not. -/
theorem queues_disagree :
    (∀ t, (raisedKdb.tdb t).Regular → 1 ≤ (raisedKdb.tdb t).readyPrio ∧
      (raisedKdb.tdb t).readyPrio ≤ (raisedKdb.tdb t).dispatchPrio ∧
      (raisedKdb.tdb t).readyPrio ≤ 8) ∧
    ∃ as : List Call,
      trace (Multi.step raisedKdb) (fun m => m.curr)
          (Multi.init raisedKdb fourNodes (fun _ => none) (fun _ => 0) : Multi 8 ℕ) as ≠
        trace (step raisedKdb) (fun s => s.curr) (init raisedKdb fourNodes) as := by
  refine ⟨fun t ht => ⟨((raisedKdb_prio t).2 ht).1, (raisedKdb_prio t).1,
    ((raisedKdb_prio t).2 ht).2⟩, [.insertTask 2, .preemptionPoint, .waitEvent 1,
    .insertTask 3, .preemptionPoint, .insertTask 2, .preemptionPoint], ?_⟩
  decide +kernel

end FpMemSched.Erika.QueuesAgree
