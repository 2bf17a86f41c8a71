import FpMemSched.Erika.Dprem
import FpMemSched.Erika.Order

/-!
One started activation per task.

All activations of a task share its control block and its saved context, so the kernel may
not start one while another one is on the stack or suspended. Without memory phases this
follows from the order of the stack. With them it takes two things more: no task is suspended
while it has another activation, and the end of an execution phase respects the order of the
stack, as far as tasks with several activations go.
-/

namespace FpMemSched.Erika.Started

open FpMemSched.Lib FpMemSched.Lib.Runs FpMemSched.Erika.Kernel FpMemSched.Erika.Dprem
open FpMemSched.Erika.Order
open FpMemSched.Arbiter (Reply)
open FpMemSched.GuestProtocol (MemArbitStatus)

variable {ν : Type} {κ : Kdb} {M : Tid → Prop} {stk rq susp : List (Node ν)} {n : Node ν}

/-! ### Activations -/

/-- No task has more nodes than activations, nor more activations than it may have. -/
def Counted (κ : Kdb) (act : Tid → ℕ) (l : List (Node ν)) : Prop :=
  ∀ t, (κ.tdb t).Regular →
    (l.map Node.task).count t ≤ act t ∧ act t ≤ (κ.tdb t).maxNumOfAct

lemma Counted.perm {act : Tid → ℕ} {l l' : List (Node ν)} (h : Counted κ act l)
    (hp : l'.Perm l) : Counted κ act l' := by
  intro t ht
  rw [(hp.map Node.task).count_eq]
  exact h t ht

lemma Counted.start {act : Tid → ℕ} {l : List (Node ν)} (h : Counted κ act l)
    (hn : (κ.tdb n.task).Regular → act n.task < (κ.tdb n.task).maxNumOfAct) :
    Counted κ (Function.update act n.task (act n.task + 1)) (n :: l) := by
  intro t ht
  have hc := h t ht
  rw [List.map_cons, List.count_cons]
  by_cases he : n.task = t
  · subst he
    have := hn ht
    simp only [Function.update_self, beq_self_eq_true, if_true]
    omega
  · rw [Function.update_of_ne (Ne.symm he)]
    simpa [he] using hc

lemma Counted.stop {act : Tid → ℕ} {l : List (Node ν)} (h : Counted κ act (n :: l)) :
    Counted κ (Function.update act n.task (act n.task - 1)) l := by
  intro t ht
  have hc := h t ht
  rw [List.map_cons, List.count_cons] at hc
  by_cases he : n.task = t
  · subst he
    simp only [Function.update_self, beq_self_eq_true, if_true] at hc ⊢
    omega
  · rw [Function.update_of_ne (Ne.symm he)]
    simpa [he] using hc

/-- A task that is both ready and started has several activations. -/
lemma Counted.twice {act : Tid → ℕ} {l₁ l₂ l₃ : List (Node ν)} {t : Tid}
    (h : Counted κ act (l₁ ++ l₂ ++ l₃)) (ht : (κ.tdb t).Regular)
    (h₁ : t ∈ l₁.map Node.task) (h₂ : t ∈ l₂.map Node.task) :
    1 < (κ.tdb t).maxNumOfAct := by
  have hc := h t ht
  rw [List.map_append, List.map_append, List.count_append, List.count_append] at hc
  have := List.count_pos_iff.mpr h₁
  have := List.count_pos_iff.mpr h₂
  omega

/-! ### The core -/

/-- The tasks with several activations. -/
def Multi (κ : Kdb) (t : Tid) : Prop := 1 < (κ.tdb t).maxNumOfAct

instance : DecidablePred (Multi κ) := fun _ => inferInstanceAs (Decidable (_ < _))

structure Good (κ : Kdb) (M : Tid → Prop) (s : Core ν) : Prop where
  ordered : Ordered κ M s.prio s.stk s.rq s.suspended
  acts : Counted κ s.numOfAct (s.stk ++ s.rq ++ s.suspended)
  fresh : Fresh κ s.prio (s.stk ++ s.suspended)
  top : s.curr = topTask κ s.stk
  run : s.status s.curr = .running

lemma dispatch_prio (t : Tid) (s : Tcbs ν) :
    (s.dispatch κ t).prio = Function.update s.prio t (max (s.prio t) (κ.tdb t).dispatchPrio) := by
  unfold Tcbs.dispatch
  split_ifs with h
  · rw [max_eq_right h.le]
  · rw [max_eq_left (by omega), Function.update_eq_self]

/-- **A rescheduling keeps the order** and makes the top of the stack the running task. -/
lemma settle_ordered {s : Core ν} (h : Ordered κ M s.prio s.stk s.rq s.suspended)
    (hM : ∀ n ∈ s.rq, n.task ∈ s.stk.map Node.task → M n.task) :
    Ordered κ M (settle κ s).prio (settle κ s).stk (settle κ s).rq (settle κ s).suspended ∧
      (settle κ s).curr = topTask κ (settle κ s).stk := by
  rcases settle_cases κ s with ⟨he, -⟩ | ⟨n, rq, hr, hp, he⟩
  · rw [he]
    exact ⟨h, rfl⟩
  · rw [he]
    rw [hr] at h hM
    have hn : (κ.tdb n.task).Regular := h.ready n (by simp)
    have hs : n.task ∉ s.suspended.map Node.task := fun hm => by
      obtain ⟨m, hm, hmt⟩ := List.mem_map.mp hm
      exact (h.parked m hm).2 n (by simp) hmt.symm
    refine ⟨?_, rfl⟩
    have := h.dequeue.push hn hp (hM n (by simp)) hs (le_max_left _ (κ.tdb n.task).dispatchPrio)
      (max_le (h.bound _ hn) (κ.regular_prio _ hn).2.2)
    simpa only [stkNext, dispatch_prio] using this

lemma settle_suspended (s : Core ν) : (settle κ s).suspended = s.suspended := by
  rcases settle_cases κ s with ⟨he, -⟩ | ⟨n, rq, -, -, he⟩
  · rw [he]
  · rw [he]; rfl

/-- A task that is not on the stack gets there by a rescheduling only as its new top. -/
lemma settle_notMem {s : Core ν} {t : Tid} (ht : t ∉ s.stk.map Node.task)
    (hne : t ≠ (settle κ s).curr) : t ∉ (settle κ s).stk.map Node.task := by
  rcases settle_cases κ s with ⟨he, -⟩ | ⟨n, rq, -, -, he⟩
  · rw [he]; exact ht
  · rw [he] at hne ⊢
    intro hm
    rcases List.mem_cons.mp (show t ∈ n.task :: s.stk.map Node.task from hm) with hm | hm
    · exact hne hm
    · exact ht hm

/-- A rescheduling touches priorities and statuses only. -/
lemma settle_toTcbs (s : Core ν) : (settle κ s).toTcbs = { s.toTcbs with
    prio := (settle κ s).prio, status := (settle κ s).status, curr := (settle κ s).curr } := by
  rcases settle_cases κ s with ⟨he, -⟩ | ⟨n, rq, -, -, he⟩
  · rw [he]
  · rw [he]; rfl

lemma settle_raised (s : Core ν) (t : Tid) : s.prio t ≤ (settle κ s).prio t := by
  rcases settle_cases κ s with ⟨he, -⟩ | ⟨m, rq, hr, -, he⟩
  · rw [he]
  · rw [he]
    simp only [stkNext, dispatch_prio]
    by_cases htm : t = m.task
    · subst htm
      rw [Function.update_self]
      exact le_max_left _ _
    · rw [Function.update_of_ne htm]

lemma settle_numOfAct (s : Core ν) : (settle κ s).numOfAct = s.numOfAct := by
  rcases settle_cases κ s with ⟨he, -⟩ | ⟨n, rq, -, -, he⟩
  · rw [he]
  · rw [he]; rfl

lemma settle_perm (s : Core ν) :
    ((settle κ s).stk ++ (settle κ s).rq).Perm (s.stk ++ s.rq) := by
  rcases settle_cases κ s with ⟨he, -⟩ | ⟨n, rq, hr, -, he⟩
  · rw [he]
  · rw [he, hr]
    exact List.perm_middle.symm

/-- What is pushed on the stack has started; `l` stands for tasks just taken off. -/
lemma settle_fresh {s : Core ν} {l : List (Node ν)}
    (h : Fresh κ s.prio (l ++ (s.stk ++ s.suspended))) :
    Fresh κ (settle κ s).prio (l ++ ((settle κ s).stk ++ (settle κ s).suspended)) := by
  rcases settle_cases κ s with ⟨he, -⟩ | ⟨m, rq, hr, -, he⟩
  · rw [he]
    exact h
  · rw [he]
    have hm : Fresh κ s.prio (l ++ (m :: s.stk ++ s.suspended)) := by
      refine h.mono (List.map_subset _ fun x hx => ?_)
      simp only [List.cons_append, List.mem_append, List.mem_cons] at hx ⊢
      tauto
    simpa only [stkNext, dispatch_prio] using hm.update (by simp)

lemma settle_nowhere {s : Core ν} {t : Tid} (h₁ : t ∉ s.stk.map Node.task)
    (h₂ : t ∉ s.rq.map Node.task) :
    t ∉ (settle κ s).stk.map Node.task ∧ t ∉ (settle κ s).rq.map Node.task := by
  rw [← not_or, ← List.mem_append, ← List.map_append,
    ((settle_perm s).map Node.task).mem_iff, List.map_append, List.mem_append, not_or]
  exact ⟨h₁, h₂⟩

/-- The nodes after the top of the stack has been taken off and a rescheduling. -/
lemma settle_pop_perm {s : Core ν} (h : s.stk = n :: stk) :
    (n :: ((settle κ { s with stk := stk }).stk ++ (settle κ { s with stk := stk }).rq ++
      (settle κ { s with stk := stk }).suspended)).Perm (s.stk ++ s.rq ++ s.suspended) := by
  rw [settle_suspended, h]
  exact ((settle_perm { s with stk := stk }).append_right s.suspended).cons n

lemma enqueue_perm (stk rq susp : List (Node ν)) (n : Node ν) :
    (stk ++ rqInsert κ n rq ++ susp).Perm (n :: (stk ++ rq ++ susp)) :=
  (((rqInsert_perm n rq).append_left stk).trans List.perm_middle).append_right susp

/-- After a rescheduling the context of the task on top goes on. -/
lemma good_switchIn {tcbs : Tcbs ν} {free : List (Node ν)} {blocked : Sem → List (Node ν)}
    (h : Ordered κ M tcbs.prio stk rq susp) (hc : Counted κ tcbs.numOfAct (stk ++ rq ++ susp))
    (hf : Fresh κ tcbs.prio (stk ++ susp)) (ht : tcbs.curr = topTask κ stk) :
    Good κ M ⟨tcbs.switchIn, free, rq, stk, susp, blocked⟩ :=
  ⟨h, hc, hf, ht, Function.update_self ..⟩

/-- A regular task or an ISR2 runs, so the stack has it on top. -/
lemma Good.cons {s : Core ν} (h : Good κ M s) (hc : (κ.tdb s.curr).taskType ≠ .idle) :
    ∃ n stk, s.stk = n :: stk ∧ n.task = s.curr :=
  cons_of_top κ h.top fun hi => hc ((κ.idle_iff s.curr).mpr hi)

lemma topTask_eq {x : Node ν} (hx : x ∈ stk.head?) : topTask κ stk = x.task := by
  unfold topTask
  rw [hx]
  rfl

lemma topTask_mem {t : Tid} (h : topTask κ stk = t) (ht : t ≠ κ.idle) :
    t ∈ stk.map Node.task := by
  cases stk with
  | nil => exact absurd h.symm ht
  | cons n stk =>
    rw [← h]
    exact List.mem_cons_self

lemma regular_ne_idle {t : Tid} (h : (κ.tdb t).Regular) : (κ.tdb t).taskType ≠ .idle := by
  rcases h with h | h <;> rw [h] <;> simp

lemma isr2_ne_idle {t : Tid} (h : (κ.tdb t).taskType = .isr2) : (κ.tdb t).taskType ≠ .idle := by
  rw [h]; simp

/-- What the top of the stack has to be below for a task to be pushed by its activation. -/
lemma Good.below {s : Core ν} (h : Good κ M s) {t : Tid} (hp : s.prio s.curr < s.prio t) :
    ∀ top ∈ s.stk.head?, s.prio top.task < s.prio t := by
  intro top htop
  have ht := h.top
  rcases hs : s.stk with _ | ⟨n, stk⟩
  · simp [hs] at htop
  · rw [hs] at ht htop
    obtain rfl : n = top := by simpa using htop
    rw [show n.task = s.curr from ht.symm]
    exact hp

lemma Good.again {s : Core ν} (h : Good κ M s) (hM : ∀ t, Multi κ t → M t) :
    ∀ n ∈ s.rq, n.task ∈ s.stk.map Node.task → M n.task :=
  fun n hn hm => hM _ (h.acts.twice (h.ordered.ready n hn) hm (List.mem_map_of_mem hn))

/-- A task on the stack that may be activated again. -/
lemma Good.multi {s : Core ν} {t : Tid} (h : Good κ M s) (ht : (κ.tdb t).Regular)
    (hact : s.numOfAct t < (κ.tdb t).maxNumOfAct) (hm : t ∈ s.stk.map Node.task) :
    Multi κ t := by
  have hc := (h.acts t ht).1
  have := List.count_pos_iff.mpr hm
  rw [List.map_append, List.map_append, List.count_append, List.count_append] at hc
  unfold Multi
  omega

/-! ### Services -/

lemma good_activate {s s' : Core ν} {t : Tid} (hM : ∀ t, Multi κ t → M t) (h : Good κ M s)
    (ht : (κ.tdb t).Regular) (hs : s.numOfAct t < (κ.tdb t).maxNumOfAct →
      t ∉ s.suspended.map Node.task) (he : activateTask κ t s = some s') : Good κ M s' := by
  obtain ⟨hact, he⟩ | rfl := activateTask_some he
  · obtain ⟨m, free, hf, ⟨hp, rfl⟩ | ⟨-, rfl⟩⟩ := schedulerTaskActivated_cases he
    · have hpush := h.ordered.push (n := ⟨m.sn, t⟩) ht (h.below hp)
        (fun hm => hM t (h.multi ht hact hm)) (hs hact) (le_refl _) (h.ordered.bound t ht)
      rw [Function.update_eq_self] at hpush
      exact good_switchIn hpush (h.acts.start (n := ⟨m.sn, t⟩) fun _ => hact)
        (h.fresh.mono (List.map_subset _ (List.subset_cons_self _ _))) rfl
    · refine ⟨h.ordered.enqueue (n := ⟨m.sn, t⟩) ht (hs hact), ?_, h.fresh, h.top,
        makeReady_status h.run (by simp)⟩
      exact (h.acts.start (n := ⟨m.sn, t⟩) fun _ => hact).perm
        (enqueue_perm s.stk s.rq s.suspended _)
  · exact h

lemma good_terminate {s s' : Core ν} (hM : ∀ t, Multi κ t → M t) (h : Good κ M s)
    (hc : (κ.tdb s.curr).taskType ≠ .idle) (he : taskTerminated κ s = some s') :
    Good κ M s' := by
  obtain ⟨n, stk, hstk, hn⟩ := h.cons hc
  rw [taskTerminated_cons κ h.run hstk] at he
  obtain rfl := Option.some.inj he
  have hord := h.ordered
  have hagain := h.again hM
  rw [hstk] at hord hagain
  obtain ⟨hset, htop⟩ := settle_ordered (s := { s with stk := stk }) hord.pop
    fun m hm hmt => hagain m hm (List.mem_cons_of_mem _ hmt)
  have hacts := (h.acts.perm (settle_pop_perm (κ := κ) hstk)).stop
  have hfresh := h.fresh
  rw [hstk] at hfresh
  have hsf := settle_fresh (s := { s with stk := stk }) (l := [n]) hfresh
  rw [List.singleton_append] at hsf
  rw [hn] at hacts
  unfold Tcbs.ended
  split_ifs with hne
  · rw [← hn] at hne
    have hnot := hn ▸ settle_notMem (s := { s with stk := stk }) hord.popped.1 hne
    refine good_switchIn (hset.resetPrio hnot) ?_ (hn ▸ hsf.reset) htop
    simpa only [Tcbs.taskEnd, settle_numOfAct] using hacts
  · have hne : s.curr = (settle κ { s with stk := stk }).curr := not_not.mp hne
    refine good_switchIn hset (by simpa only [settle_numOfAct] using hacts)
      (hsf.mono fun x hx => ?_) htop
    -- the task starts again, with a node of its own
    rcases List.mem_cons.mp hx with rfl | hx
    · refine List.map_subset _ (List.subset_append_left _ _) ?_
      rw [hn]
      exact topTask_mem (htop ▸ hne.symm) fun hi => hc ((κ.idle_iff _).mpr hi)
    · exact hx

lemma good_interrupt {s s' : Core ν} {i : Tid} (h : Good κ M s) (hi : (κ.tdb i).taskType = .isr2)
    (hnot : i ∉ s.stk.map Node.task) (he : activateIsr2 i s = some s') : Good κ M s' := by
  obtain ⟨m, free, hf, rfl⟩ := taskSetRunning_some he
  have hacts := h.acts.start (n := ⟨m.sn, i⟩) fun hr => absurd hr (not_regular_of_isr2 hi)
  exact good_switchIn (h.ordered.interrupt (n := ⟨m.sn, i⟩) hi hnot) hacts
    (h.fresh.mono (List.map_subset _ (List.subset_cons_self _ _))) rfl

/-- A preemption point after a change that keeps the order. -/
lemma good_preemptionPoint {s : Core ν} (hM : ∀ t, Multi κ t → M t) (h : Good κ M s) :
    Good κ M (taskPreemptionPoint κ s) := by
  rcases preemptionPoint_cases κ s h.top with ⟨he, -⟩ | he
  · rw [he]; exact h
  · rw [he]
    obtain ⟨hset, htop⟩ := settle_ordered h.ordered (h.again hM)
    refine good_switchIn hset ?_ (settle_fresh (l := []) h.fresh) htop
    rw [settle_suspended, settle_numOfAct]
    exact h.acts.perm ((settle_perm s).append_right _)

/-! ### Memory phases -/

lemma good_suspendRunning {s s' : Core ν} (hM : ∀ t, Multi κ t → M t) (h : Good κ M s)
    (hr : (κ.tdb s.curr).Regular) (hrq : s.curr ∉ s.rq.map Node.task)
    (he : suspendRunningTask κ s = some s') : Good κ M s' := by
  obtain ⟨n, stk, hstk, hn⟩ := h.cons (regular_ne_idle hr)
  rw [suspendRunningTask_cons κ hstk (hn ▸ hr)] at he
  obtain rfl := Option.some.inj he
  have hord := h.ordered
  have hagain := h.again hM
  rw [hstk] at hord hagain
  obtain ⟨hset, htop⟩ := settle_ordered (s := { s with stk := stk }) hord.pop
    fun m hm hmt => hagain m hm (List.mem_cons_of_mem _ hmt)
  -- the suspended task has no other node
  have hnot := settle_nowhere (κ := κ) (s := { s with stk := stk }) hord.popped.1 (hn ▸ hrq)
  have hsusp : n.task ∉ (settle κ { s with stk := stk }).suspended.map Node.task := by
    rw [settle_suspended]
    exact hord.popped.2
  have hpark := (hset.park (hn ▸ hr) hnot.1 hsusp hnot.2).resetPrio hnot.1
  rw [hn] at hpark
  have hacts := h.acts.perm (List.perm_middle.trans (settle_pop_perm (κ := κ) hstk))
  have hfresh := h.fresh
  rw [hstk] at hfresh
  have hsf := settle_fresh (s := { s with stk := stk }) (l := [n]) hfresh
  rw [List.singleton_append] at hsf
  replace hsf := hsf.reset
  rw [hn] at hsf
  refine good_switchIn hpark (by simpa only [settle_numOfAct] using hacts)
    (hsf.mono (List.map_subset _ fun x hx => ?_)) htop
  simp only [List.mem_append, List.mem_cons] at hx ⊢
  tauto

lemma good_turn {s s' : Core ν} {r : Reply} (hM : ∀ t, Multi κ t → M t) (h : Good κ M s)
    (hr : (κ.tdb s.curr).Regular)
    (hrq : s.memArbitStatus = .requested → s.curr ∉ s.rq.map Node.task)
    (he : beginTurn κ r s = some s') : Good κ M s' := by
  unfold beginTurn at he
  cases hm : s.memArbitStatus with
  | acquired =>
    rw [hm] at he
    obtain rfl := Option.some.inj he
    obtain ⟨top, stk, hstk, htop⟩ := h.cons (regular_ne_idle hr)
    have hord := h.ordered
    rw [hstk] at hord
    obtain ⟨-, hrest⟩ := List.pairwise_cons.mp hord.above
    have hreg := fun m hm => ((List.pairwise_cons.mp hord.above).1 m hm (htop ▸ hr)).1
    have hset := hord.setPrio_top (htop ▸ hr) (le_refl _) fun m hm _ => hord.bound _ (hreg m hm)
    rw [htop, ← hstk] at hset
    refine ⟨hset, h.acts, h.fresh.update ?_, h.top, h.run⟩
    rw [hstk, ← htop]
    simp
  | none =>
    rw [hm] at he
    cases r with
    | ack =>
      obtain rfl := Option.some.inj he
      exact ⟨h.ordered, h.acts, h.fresh, h.top, h.run⟩
    | nack =>
      obtain rfl := Option.some.inj he
      exact ⟨h.ordered, h.acts, h.fresh, h.top, h.run⟩
    | invalid => exact Option.some.inj he ▸ h
  | requested =>
    rw [hm] at he
    exact good_suspendRunning hM h hr (hrq hm) he

lemma good_endMemory {s : Core ν} {r : Reply} (h : Good κ M s) :
    Good κ M (endMemoryPhase r s) := by
  cases r <;> exact ⟨h.ordered, h.acts, h.fresh, h.top, h.run⟩

/-- Moving a node between the stack and the suspended ones. -/
lemma move_perm (a b c d rq : List (Node ν)) (n : Node ν) :
    (a ++ n :: b ++ rq ++ (c ++ d)).Perm (a ++ b ++ rq ++ (c ++ n :: d)) := by
  have h₁ : (a ++ n :: b ++ rq ++ (c ++ d)).Perm (n :: (a ++ b ++ rq ++ (c ++ d))) :=
    (List.perm_middle.append_right rq).append_right (c ++ d)
  have h₂ : (a ++ b ++ rq ++ (c ++ n :: d)).Perm (n :: (a ++ b ++ rq ++ (c ++ d))) :=
    (List.perm_middle.append_left _).trans List.perm_middle
  exact h₁.trans h₂.symm

section Isr

variable [DecidableEq ν]

/-- Where the started routine, which runs as an ISR2 on top of the stack, puts a task. -/
lemma Good.insertBefore {s : Core ν} (h : Good κ M s) (hi : (κ.tdb s.curr).taskType = .isr2)
    (n : Node ν) :
    ∃ x a b, s.stk = x :: a ++ b ∧ (∀ m ∈ x :: a, (κ.tdb m.task).taskType = .isr2) ∧
      (∀ m ∈ b, (κ.tdb m.task).Regular) ∧
      listInsertBefore n (firstRegular κ s.stk) s.stk = x :: a ++ n :: b := by
  obtain ⟨a, b, hstk, ha, hb⟩ := h.ordered.split
  have hane : a ≠ [] := by
    rintro rfl
    obtain ⟨m, stk, hm, hmt⟩ := h.cons (isr2_ne_idle hi)
    refine not_regular_of_isr2 hi (hmt ▸ hb m ?_)
    rw [← List.nil_append b, ← hstk, hm]
    simp
  obtain ⟨x, a, rfl⟩ := List.exists_cons_of_ne_nil hane
  refine ⟨x, a, b, hstk, ha, hb, ?_⟩
  rw [hstk]
  exact listInsertBefore_split hane (fun m hm => not_regular_of_isr2 (ha m hm)) hb

lemma good_started {s : Core ν} (h : Good κ M s) (hi : (κ.tdb s.curr).taskType = .isr2) :
    Good κ M (memoryPhaseStartedIsr κ s) := by
  rcases startedIsr_cases (κ := κ) (s := s) with ⟨-, he⟩ | ⟨-, -, he⟩ | ⟨-, n, hn, he⟩
  · rw [he]; exact h
  · rw [he]
    exact ⟨h.ordered, h.acts, h.fresh, h.top, h.run⟩
  · rw [he]
    obtain ⟨c, d, hs, hrem, -, -⟩ := highestSuspended_some hn
    obtain ⟨x, a, b, hstk, ha, hb, hins⟩ := h.insertBefore hi n
    rw [hins, hrem]
    have hord := h.ordered
    rw [hs] at hord
    obtain ⟨hrest, hreg, h₁, h₂, -⟩ := hord.unpark
    have hset := hrest.setPrio_notMem hreg (le_refl _) h₁
    rw [hstk] at hset h₁
    refine ⟨hset.insert hreg h₁ h₂ (fun m hm hr => ?_) (fun m hm _ => ⟨hb m hm, fun _ => ?_⟩),
      ?_, ?_, ?_, h.run⟩
    · exact absurd hr (not_regular_of_isr2 (ha m hm))
    · rw [Function.update_self]
      exact hset.bound _ (hb m hm)
    · have hacts := h.acts
      rw [hs, hstk] at hacts
      exact hacts.perm (move_perm (x :: a) b c d s.rq n)
    · have hfresh := h.fresh
      rw [hs, hstk] at hfresh
      refine (hfresh.mono (List.map_subset _ fun y hy => ?_)).update (by simp)
      exact mem_moved (a := x :: a) |>.mpr hy
    · have htop := h.top
      rw [hstk] at htop
      exact htop

lemma good_ended {s : Core ν} (h : Good κ M s) (hi : (κ.tdb s.curr).taskType = .isr2)
    (hrq : s.memArbitStatus = .acquired →
      ∀ n ∈ highestStacked κ s, n.task ∉ s.rq.map Node.task) :
    Good κ M (memoryPhaseEndedIsr κ s) := by
  rcases endedIsr_cases (κ := κ) (s := s) with ⟨-, he⟩ | ⟨-, -, he⟩ | ⟨hm, n, hn, he⟩
  · rw [he]; exact h
  · rw [he]
    exact ⟨h.ordered, h.acts, h.fresh, h.top, h.run⟩
  · rw [he]
    obtain ⟨a, b, hstk, hreg, hrem, -, -⟩ := highestStacked_some hn
    rw [hrem]
    have hord := h.ordered
    have hacts := h.acts
    rw [hstk] at hord hacts
    have honce := hord.once
    rw [List.append_assoc, List.cons_append, (perm_tasks a (b ++ s.suspended) n).nodup_iff,
      List.nodup_cons, ← List.append_assoc, List.map_append, List.mem_append, not_or] at honce
    have hsub : (a ++ b).Sublist (a ++ n :: b) := (List.sublist_cons_self n b).append_left a
    refine ⟨(hord.sublist hsub).park hreg honce.1.1 honce.1.2 (hrq hm n hn),
      hacts.perm (move_perm a b [] s.suspended s.rq n).symm,
      h.fresh.mono (List.map_subset _ fun x hx => ?_), ?_, h.run⟩
    · rw [hstk] at hx
      exact mem_moved (c := []) |>.mp hx
    -- the top of the stack is the ISR2, which stays
    have htop := h.top
    rw [hstk] at htop
    cases a with
    | nil =>
      rw [show s.curr = n.task from htop] at hi
      exact absurd hreg (not_regular_of_isr2 hi)
    | cons x a => exact htop

/-- What the end of an execution phase has to respect: the priority of the running task goes
down to its dispatch priority, and the suspended task of highest priority gets in between it
and the rest of the stack. -/
def Fits (κ : Kdb) (M : Tid → Prop) (s : Core ν) : Prop :=
  (∀ m ∈ s.stk.tail, M m.task → s.prio m.task ≤ (κ.tdb s.curr).dispatchPrio) ∧
    ∀ n ∈ highestSuspended s, (M n.task → s.prio n.task ≤ (κ.tdb s.curr).dispatchPrio) ∧
      ∀ m ∈ s.stk.tail, M m.task → s.prio m.task ≤ s.prio n.task

lemma good_endExecution {s : Core ν} (h : Good κ M s) (hr : (κ.tdb s.curr).Regular)
    (hf : Fits κ M s) : Good κ M (endExecutionPhase κ s) := by
  obtain ⟨top, stk, hstk, htop⟩ := h.cons (regular_ne_idle hr)
  obtain ⟨hbelow, hfit⟩ := hf
  have hord := h.ordered
  have hacts := h.acts
  rw [hstk] at hord hbelow hfit hacts
  have hset : Ordered κ M (Function.update s.prio s.curr (κ.tdb s.curr).dispatchPrio)
      (top :: stk) s.rq s.suspended := by
    rw [← htop] at hr hbelow ⊢
    exact hord.setPrio_top hr (κ.regular_prio _ hr).2.2 hbelow
  have hcurr : ∀ m ∈ s.suspended, m.task ≠ s.curr := by
    rintro m hm he
    exact hord.popped.2 (htop ▸ he ▸ List.mem_map_of_mem hm)
  have hmem : s.curr ∈ (s.stk ++ s.suspended).map Node.task := by
    rw [hstk, ← htop]
    simp
  rcases endExecutionPhase_cases (κ := κ) hstk hcurr with ⟨-, he⟩ | ⟨n, hn, he⟩
  · rw [he]
    rw [← hstk] at hset
    exact ⟨hset, h.acts, h.fresh.update hmem, h.top, h.run⟩
  · rw [he]
    obtain ⟨c, d, hs, hrem, -, -⟩ := highestSuspended_some hn
    rw [hrem]
    rw [hs] at hset hacts
    obtain ⟨hrest, hreg, h₁, h₂, -⟩ := hset.unpark
    have hne : n.task ≠ s.curr := hcurr n (highestSuspended_mem hn)
    obtain ⟨hle, hge⟩ := hfit n hn
    have habove := List.pairwise_cons.mp hrest.above
    refine ⟨hrest.insert (a := [top]) hreg h₁ h₂ ?_ ?_, hacts.perm (move_perm [top] stk c d s.rq n),
      (h.fresh.update hmem).mono (List.map_subset _ fun x hx => ?_), by rw [htop.symm]; rfl, h.run⟩
    · intro m hm _
      rw [List.mem_singleton.mp hm, htop, Function.update_self, Function.update_of_ne hne]
      exact ⟨hreg, hle⟩
    · intro m hm _
      have hmne : m.task ≠ s.curr := by
        rintro he
        exact hord.popped.1 (htop ▸ he ▸ List.mem_map_of_mem hm)
      rw [Function.update_of_ne hne, Function.update_of_ne hmne]
      exact ⟨(habove.1 m hm (htop ▸ hr)).1, hge m hm⟩
    · rw [hs, hstk] at hx
      exact mem_moved (a := [top]) |>.mpr hx

/-! ### Runs -/

/-- Activations, terminations, interrupts and memory phases. -/
def Plain : Action → Bool
  | .activateTask _ | .terminate | .interrupt _ | .startedIsr | .endedIsr
  | .beginMemoryPhase | .beginTurn _ | .endMemoryPhase _ | .endExecutionPhase => true
  | _ => false

/-- No task is suspended while it has another activation, and the end of an execution phase
respects the order of the stack. -/
def Orderly (κ : Kdb) (M : Tid → Prop) (s : Core ν) : Action → Prop
  | .activateTask t =>
    s.numOfAct t < (κ.tdb t).maxNumOfAct → t ∉ s.suspended.map Node.task
  | .beginTurn _ => s.memArbitStatus = .requested → s.curr ∉ s.rq.map Node.task
  | .endedIsr => s.memArbitStatus = .acquired →
    ∀ n ∈ highestStacked κ s, n.task ∉ s.rq.map Node.task
  | .endExecutionPhase => Fits κ M s
  | _ => True

instance [DecidablePred M] (s : Core ν) : Decidable (Fits κ M s) :=
  inferInstanceAs (Decidable (_ ∧ _))

instance [DecidablePred M] (s : Core ν) : ∀ a, Decidable (Orderly κ M s a)
  | .activateTask _ | .beginTurn _ | .endedIsr => inferInstanceAs (Decidable (_ → _))
  | .endExecutionPhase => inferInstanceAs (Decidable (Fits κ M s))
  | .terminate | .chainTask _ | .interrupt _ | .startedIsr | .waitEvent _ | .setEvent _ _
  | .waitSem _ | .postSem _ | .getResource _ | .releaseResource _ | .beginMemoryPhase
  | .endMemoryPhase _ => isTrue trivial

lemma good_step (hM : ∀ t, Multi κ t → M t) {s s' : Core ν} {a : Action} (h : Good κ M s)
    (hp : Plain a) (ho : Orderly κ M s a) (he : step κ s a = some s') : Good κ M s' := by
  cases a with
  | activateTask t =>
    obtain ⟨⟨-, ht⟩, he⟩ := Option.ite_none_right_eq_some.mp he
    exact good_activate hM h ht ho he
  | terminate =>
    obtain ⟨hc, he⟩ := Option.ite_none_right_eq_some.mp he
    refine good_terminate hM h ?_ he
    rcases hc with hi | hr
    · exact isr2_ne_idle hi
    · exact regular_ne_idle hr.1
  | interrupt i =>
    obtain ⟨⟨-, hi, hnot⟩, he⟩ := Option.ite_none_right_eq_some.mp he
    exact good_interrupt h hi hnot he
  | startedIsr =>
    obtain ⟨⟨hi, -⟩, he⟩ := Option.ite_none_right_eq_some.mp he
    exact Option.some.inj he ▸ good_started h hi
  | endedIsr =>
    obtain ⟨⟨hi, -⟩, he⟩ := Option.ite_none_right_eq_some.mp he
    exact Option.some.inj he ▸ good_ended h hi ho
  | beginMemoryPhase =>
    obtain ⟨-, he⟩ := Option.ite_none_right_eq_some.mp he
    obtain rfl := Option.some.inj he
    exact ⟨h.ordered, h.acts, h.fresh, h.top, h.run⟩
  | beginTurn r =>
    obtain ⟨hr, he⟩ := Option.ite_none_right_eq_some.mp he
    exact good_turn hM h (hr.elim And.left And.left) ho he
  | endMemoryPhase r =>
    obtain ⟨-, he⟩ := Option.ite_none_right_eq_some.mp he
    exact Option.some.inj he ▸ good_endMemory h
  | endExecutionPhase =>
    obtain ⟨hr, he⟩ := Option.ite_none_right_eq_some.mp he
    exact Option.some.inj he ▸ good_endExecution h hr.1 ho
  | _ => simp [Plain] at hp

omit [DecidableEq ν] in
lemma good_init (free : List (Node ν)) : Good κ M (init κ free) where
  ordered :=
    { above := List.Pairwise.nil
      kind := by simp [init]
      ready := by simp [init]
      parked := by simp [init]
      once := List.nodup_nil
      bound := fun t ht => (κ.regular_prio t ht).2.1
      isr := fun t ht => κ.isr2_prio t ht }
  acts := fun t _ => ⟨le_refl _, Nat.zero_le _⟩
  fresh := fun t _ _ => rfl
  top := rfl
  run := if_pos rfl

/-- **One started activation per task**: in every run in which no task is suspended while it
has another activation, and in which the ends of execution phases respect the order of the
stack as far as tasks with several activations go, no task has two nodes on the stack and
among the suspended ones. -/
theorem one_started {free : List (Node ν)} {as : List Action} {s : Core ν}
    (hc : Along (step κ) (fun s a => Plain a ∧ Orderly κ (Multi κ) s a) (init κ free) as)
    (he : exec (step κ) (init κ free) as = some s) :
    ((s.stk ++ s.suspended).map Node.task).Nodup := by
  have hgood : Good κ (Multi κ) s :=
    exec_inv_along (fun s a t h ha ht => good_step (fun _ => id) h ha.1 ha.2 ht)
      (good_init free) hc he
  exact hgood.ordered.once

/-- Ten free nodes. -/
def tenNodes : List (Node ℕ) := (List.range 10).map fun i => ⟨i, 0⟩

/-- A task is suspended and resumed, is activated again while it is in its memory phase, and
starts anew when it ends. -/
def queuedRun : List Action :=
  [.activateTask 4, .beginMemoryPhase, .beginTurn .nack, .beginTurn .ack,
    .interrupt 1, .startedIsr, .terminate, .beginTurn .ack, .activateTask 4,
    .endMemoryPhase .ack, .endExecutionPhase, .terminate]

theorem one_started_queuedRun :
    ∃ s, exec (step (smallKdb 2)) (init (smallKdb 2) tenNodes) queuedRun = some s ∧
      s.stk.map Node.task = [4] ∧ ((s.stk ++ s.suspended).map Node.task).Nodup := by
  have hc : Along (step (smallKdb 2))
      (fun s a => Plain a ∧ Orderly (smallKdb 2) (Multi (smallKdb 2)) s a)
      (init (smallKdb 2) tenNodes) queuedRun := by decide
  exact ⟨_, rfl, rfl, one_started hc rfl⟩

/-- The same task is activated again while it is suspended. -/
def secondActivationRun : List Action :=
  [.activateTask 4, .beginMemoryPhase, .beginTurn .nack, .beginTurn .ack,
    .interrupt 3, .activateTask 4, .terminate]

theorem second_activation_started :
    (∀ a ∈ secondActivationRun, Plain a) ∧
    ∃ s, exec (step (smallKdb 2)) (init (smallKdb 2) tenNodes) secondActivationRun = some s ∧
      s.stk.map Node.task = [4] ∧ s.suspended.map Node.task = [4] ∧
      ¬ ((s.stk ++ s.suspended).map Node.task).Nodup :=
  ⟨by decide, _, rfl, rfl, rfl, by decide⟩

end Isr

end FpMemSched.Erika.Started
