import FpMemSched.Erika.ReadyPrio

/-!
What the calls of a kernel without memory phases leave alone.

A call neither looks at the nodes that waiting tasks have left, unless it is about an event, nor
touches the priority of a task that is neither running nor ready; and after it no ready task
exceeds the one that runs.
-/

namespace FpMemSched.Erika.Bystanders

open FpMemSched.Lib.Runs FpMemSched.Erika.Kernel
open FpMemSched.Erika.Dprem hiding step
open FpMemSched.Erika.Started FpMemSched.Erika.Dispatch FpMemSched.Erika.Operations
open FpMemSched.Erika.Multiqueue FpMemSched.Erika.ReadyPrio

variable {ν : Type} {κ : Kdb} {s s' : Core ν} {n : Node ν} {stk : List (Node ν)} {t : Tid}

/-! ### A rescheduling does not look at the nodes of waiting tasks -/

section SetOwn

variable (own : Tid → Option ν)

/-- The core with other nodes in `p_own_sn`. -/
abbrev setOwn (s : Core ν) : Core ν := { s with ownSn := own }

lemma rqPreemptStk_setOwn (s : Core ν) : rqPreemptStk κ (setOwn own s) =
    (setOwn own (rqPreemptStk κ s).1, (rqPreemptStk κ s).2) := by
  unfold rqPreemptStk
  rcases hr : s.rq with _ | ⟨m, rq⟩
  · rcases hs : s.stk with _ | ⟨top, stk⟩ <;> simp
  · rcases hs : s.stk with _ | ⟨top, stk⟩
    · simp [stkNext, Tcbs.dispatch]
    · by_cases hp : s.prio top.task < s.prio m.task
      · simp [hp, stkNext, Tcbs.dispatch]
      · simp [hp]

lemma taskPreemptionPoint_setOwn (s : Core ν) :
    taskPreemptionPoint κ (setOwn own s) = setOwn own (taskPreemptionPoint κ s) := by
  unfold taskPreemptionPoint
  rw [rqPreemptStk_setOwn]
  rcases rqPreemptStk κ s with ⟨s', _ | t⟩ <;> rfl

lemma popRunning_setOwn (s : Core ν) : popRunning κ (setOwn own s) =
    (popRunning κ s).map fun p => (setOwn own p.1, p.2) := by
  unfold popRunning
  rcases hs : s.stk with _ | ⟨n, stk⟩
  · rfl
  · have h := rqPreemptStk_setOwn (κ := κ) own { s with stk := stk }
    dsimp only [setOwn] at h ⊢
    rw [h]
    rcases rqPreemptStk κ { s with stk := stk } with ⟨s', _ | t⟩ <;> rfl

lemma taskInsertRq_setOwn (t : Tid) (s : Core ν) :
    taskInsertRq κ t (setOwn own s) = (taskInsertRq κ t s).map (setOwn own) := by
  unfold taskInsertRq snAlloc
  rcases hf : s.free with _ | ⟨m, free⟩ <;> rfl

lemma ended_setOwn (t : Tid) (s : Core ν) : Tcbs.switchIn ((setOwn own s).toTcbs.ended κ t) =
    { (s.toTcbs.ended κ t).switchIn with ownSn := own } := by
  unfold Tcbs.ended
  dsimp only
  split_ifs <;> rfl

lemma taskTerminated_setOwn (s : Core ν) :
    taskTerminated κ (setOwn own s) = (taskTerminated κ s).map (setOwn own) := by
  unfold taskTerminated
  dsimp only
  by_cases hrun : s.status s.curr = .running
  · simp only [if_pos hrun]
    have h := popRunning_setOwn (κ := κ) own s
    dsimp only [setOwn] at h
    rw [h, Option.map_map, Option.map_map]
    congr 1
    funext p
    exact congrArg (Core.mk · (p.2 :: p.1.free) p.1.rq p.1.stk p.1.suspended p.1.blocked)
      (ended_setOwn own s.curr p.1)
  · simp only [if_neg hrun]
    rcases hs : s.stk with _ | ⟨n, stk⟩
    · rfl
    · have h := rqPreemptStk_setOwn (κ := κ) own { s with
        stk := stk
        prio := Function.update s.prio s.curr (κ.tdb s.curr).readyPrio
        status := Function.update s.status s.curr .ready
        eventMask := if s.numOfAct s.curr = 1 then Function.update s.eventMask s.curr 0
          else s.eventMask
        rq := rqInsert κ ⟨n.sn, s.curr⟩ s.rq }
      dsimp only [setOwn] at h ⊢
      rw [h]
      rcases rqPreemptStk κ _ with ⟨s', _ | t⟩ <;> rfl

lemma activateTask_setOwn (t : Tid) (s : Core ν) :
    activateTask κ t (setOwn own s) = (activateTask κ t s).map (setOwn own) := by
  unfold activateTask Tcbs.taskActivated
  dsimp only
  by_cases hact : s.numOfAct t < (κ.tdb t).maxNumOfAct
  · simp only [if_pos hact]
    unfold schedulerTaskActivated
    dsimp only
    by_cases hp : s.prio s.curr < s.prio t
    · simp only [if_pos hp]
      unfold snAlloc
      rcases hf : s.free with _ | ⟨m, free⟩ <;> rfl
    · simp only [if_neg hp]
      exact taskInsertRq_setOwn own t { s with
        numOfAct := Function.update s.numOfAct t (s.numOfAct t + 1) }
  · simp only [if_neg hact]
    rfl

lemma insertTask_setOwn (t : Tid) (s : Core ν) :
    insertTask κ t (setOwn own s) = (insertTask κ t s).map (setOwn own) := by
  unfold insertTask Tcbs.taskActivated
  dsimp only
  by_cases hact : s.numOfAct t < (κ.tdb t).maxNumOfAct
  · simp only [if_pos hact]
    exact taskInsertRq_setOwn own t { s with
      numOfAct := Function.update s.numOfAct t (s.numOfAct t + 1) }
  · simp only [if_neg hact]
    rfl

lemma chainTask_setOwn (t : Tid) (s : Core ν) :
    chainTask κ t (setOwn own s) = (chainTask κ t s).map (setOwn own) := by
  unfold chainTask Tcbs.taskActivated
  dsimp only
  by_cases ht : t = s.curr
  · simp only [if_pos ht]
    exact taskTerminated_setOwn own { s with status := Function.update s.status s.curr .chained }
  · simp only [if_neg ht]
    by_cases hact : s.numOfAct t < (κ.tdb t).maxNumOfAct
    · simp only [if_pos hact]
      have h := taskInsertRq_setOwn (κ := κ) own t { s with
        numOfAct := Function.update s.numOfAct t (s.numOfAct t + 1) }
      dsimp only [setOwn] at h
      rw [h, Option.bind_map, Option.map_bind]
      congr 1
      funext s₁
      exact taskTerminated_setOwn own s₁
    · simp only [if_neg hact]
      rfl

lemma releaseResource_setOwn (r : Res) (s : Core ν) :
    releaseResource κ r (setOwn own s) = setOwn own (releaseResource κ r s) := by
  unfold releaseResource
  dsimp only
  by_cases hr : s.owner r = none ∨ (s.lastM s.curr).head? ≠ some r
  · simp only [if_pos hr]
  · simp only [if_neg hr]
    exact taskPreemptionPoint_setOwn own { s with
      lastM := Function.update s.lastM s.curr (s.lastM s.curr).tail
      prio := Function.update s.prio s.curr
        (if (s.lastM s.curr).tail ≠ [] then s.prevPrio r else (κ.tdb s.curr).dispatchPrio)
      owner := Function.update s.owner r none }

lemma release_setOwn (n : Node ν) (s : Core ν) :
    release κ n (setOwn own s) = setOwn own (release κ n s) := by
  rw [release_eq, release_eq]
  by_cases hp : (taskUnblocked κ n s).2 = true
  · rw [if_pos (show (taskUnblocked κ n (setOwn own s)).2 = true from hp), if_pos hp]
    exact taskPreemptionPoint_setOwn own (unblocked κ n s)
  · rw [if_neg (show ¬ (taskUnblocked κ n (setOwn own s)).2 = true from hp), if_neg hp]
    rfl

lemma release_ownSn (n : Node ν) (s : Core ν) : (release κ n s).ownSn = s.ownSn := by
  have h := congrArg (fun s : Core ν => s.ownSn) (release_setOwn (κ := κ) s.ownSn n s)
  exact h

lemma waitEvent_setOwn {mask : ℕ} (hs : s.stk = n :: stk)
    (hm : s.eventMask s.curr &&& mask = 0) (he : waitEvent κ mask s = some s') :
    waitEvent κ mask (setOwn own s) =
        some (setOwn (Function.update own s.curr (some n.sn)) s') ∧
      s'.ownSn = Function.update s.ownSn s.curr (some n.sn) := by
  have hset := settle_setOwn (κ := κ) own { s with
    waitMask := Function.update s.waitMask s.curr mask, stk := stk }
  rw [waitEvent_cons κ hs, if_pos hm] at he
  rw [waitEvent_cons κ (show (setOwn own s).stk = n :: stk from hs), if_pos hm,
    ← Option.some.inj he]
  dsimp only [setOwn] at hset ⊢
  rw [hset]
  refine ⟨rfl, ?_⟩
  exact congrArg (Function.update · s.curr (some n.sn)) (settle_ownSn (κ := κ) { s with
    waitMask := Function.update s.waitMask s.curr mask, stk := stk })

/-- Whether the call looks at the nodes of waiting tasks. -/
def Blind : Call → Prop
  | .waitEvent _ | .setEvent _ _ => False
  | _ => True

lemma step_setOwn {c : Call} (hc : Blind c) (he : Multiqueue.step κ s c = some s') :
    Multiqueue.step κ (setOwn own s) c = some (setOwn own s') := by
  obtain ⟨ha, he⟩ := Option.ite_none_right_eq_some.mp he
  refine (if_pos ha).trans ?_
  cases c with
  | activateTask t => exact (activateTask_setOwn own t s).trans (congrArg (Option.map (setOwn own)) he)
  | insertTask t => exact (insertTask_setOwn own t s).trans (congrArg (Option.map (setOwn own)) he)
  | chainTask t => exact (chainTask_setOwn own t s).trans (congrArg (Option.map (setOwn own)) he)
  | terminateTask => exact (taskTerminated_setOwn own s).trans (congrArg (Option.map (setOwn own)) he)
  | taskNotTerminated =>
    exact (taskTerminated_setOwn own { s with toTcbs := releaseAllM s.curr s.toTcbs }).trans
      (congrArg (Option.map (setOwn own)) he)
  | interrupt i =>
    obtain ⟨m, free, hf, rfl⟩ := taskSetRunning_some he
    unfold activateIsr2 taskSetRunning snAlloc
    dsimp only at hf ⊢
    rw [hf]
    rfl
  | preemptionPoint =>
    rw [← Option.some.inj he]
    exact congrArg some (taskPreemptionPoint_setOwn own s)
  | getResource r =>
    rw [← Option.some.inj he]
    unfold getResource
    dsimp only
    split_ifs <;> rfl
  | releaseResource r =>
    rw [← Option.some.inj he]
    exact congrArg some (releaseResource_setOwn own r s)
  | waitEvent mask => exact hc.elim
  | setEvent t mask => exact hc.elim

lemma step_ownSn {c : Call} (hc : Blind c) (he : Multiqueue.step κ s c = some s') :
    s'.ownSn = s.ownSn := by
  have h : Multiqueue.step κ s c = some (setOwn s.ownSn s') := step_setOwn s.ownSn hc he
  rw [Option.some.inj (he.symm.trans h)]

end SetOwn

/-! ### What runs is not exceeded by what is ready -/

def Highest (κ : Kdb) (s : Core ν) : Prop := ∀ m ∈ s.rq, ready κ m.task ≤ s.prio s.curr

lemma settle_highest (hs : Sorted κ s.rq) (hl : ∀ t, ready κ t ≤ s.prio t) :
    Highest κ (settle κ s) := by
  intro m hm
  rcases settle_cases κ s with ⟨he, hkeep⟩ | ⟨q, rq, hrq, -, he⟩
  · rw [he] at hm ⊢
    obtain ⟨q, rq, hrq⟩ := List.exists_cons_of_ne_nil (List.ne_nil_of_mem hm)
    obtain ⟨top, stk, hstk, hle⟩ := hkeep q rq hrq
    have hcurr : topTask κ s.stk = top.task := by
      rw [hstk]
      rfl
    show ready κ m.task ≤ s.prio (topTask κ s.stk)
    rw [hcurr]
    rw [hrq] at hm hs
    calc ready κ m.task ≤ ready κ q.task := by
          rcases List.mem_cons.mp hm with rfl | hm
          · exact le_rfl
          · exact (List.pairwise_cons.mp hs).1 m hm
      _ ≤ s.prio q.task := hl q.task
      _ ≤ s.prio top.task := hle
  · rw [he] at hm ⊢
    rw [hrq] at hs
    simp only [stkNext, dispatch_prio]
    show ready κ m.task ≤ Function.update s.prio q.task
      (max (s.prio q.task) (κ.tdb q.task).dispatchPrio) q.task
    rw [Function.update_self]
    calc ready κ m.task ≤ ready κ q.task := (List.pairwise_cons.mp hs).1 m hm
      _ ≤ s.prio q.task := hl q.task
      _ ≤ max (s.prio q.task) (κ.tdb q.task).dispatchPrio := le_max_left _ _

/-- The same at a preemption point. -/
lemma preemptionPoint_highest (hs : Sorted κ s.rq) (hl : ∀ t, ready κ t ≤ s.prio t)
    (ht : s.curr = topTask κ s.stk) : Highest κ (taskPreemptionPoint κ s) := by
  have h := settle_highest hs hl
  rcases preemptionPoint_cases κ s ht with ⟨he, hset⟩ | he
  · rw [he, ← hset]
    exact h
  · rw [he]
    exact h

/-- A task that is woken preempts, or it is behind another one, or what runs is no lower. -/
lemma release_highest (h : Highest κ s) (hs : Sorted κ s.rq) (hl : ∀ t, ready κ t ≤ s.prio t)
    (ht : s.curr = topTask κ s.stk) (hn : s.curr ≠ n.task) : Highest κ (release κ n s) := by
  have hself : (unblocked κ n s).prio n.task = ready κ n.task := Function.update_self ..
  have hl' : ∀ t, ready κ t ≤ (unblocked κ n s).prio t := by
    intro t
    by_cases he : t = n.task
    · rw [he, hself]
    · exact (hl t).trans (Function.update_of_ne he ..).ge
  rw [release_eq]
  split_ifs with hpre
  · exact preemptionPoint_highest hs.insert hl' ht
  · have hcurr : (unblocked κ n s).prio s.curr = s.prio s.curr := Function.update_of_ne hn ..
    -- the new node is behind the head of the queue, unless it is too low itself
    have hnew : ready κ n.task ≤ s.prio s.curr := by
      by_contra hlt
      rw [not_le] at hlt
      have hhead : rqHeadChanged κ n s.rq = false := by
        have hp : decide ((unblocked κ n s).prio s.curr < (unblocked κ n s).prio n.task) = true := by
          rw [decide_eq_true_eq, hcurr, hself]
          exact hlt
        rw [← Bool.not_eq_true]
        intro hch
        exact hpre (by rw [taskUnblocked, hch]; exact hp)
      rcases hrq : s.rq with _ | ⟨q, rq⟩
      · rw [hrq] at hhead
        simp [rqHeadChanged] at hhead
      · rw [hrq] at hhead
        have hle := h q (by rw [hrq]; simp)
        have hq : ¬ ready κ q.task < ready κ n.task := by simpa [rqHeadChanged] using hhead
        omega
    intro m hm
    show ready κ m.task ≤ (unblocked κ n s).prio s.curr
    rw [hcurr]
    rcases List.mem_cons.mp ((rqInsert_perm n s.rq).mem_iff.mp hm) with rfl | hm
    · exact hnew
    · exact h m hm

/-! ### Tasks that are away -/

/-- The tasks of `W` are neither running nor ready, and a further activation of them is
refused. -/
structure Away (κ : Kdb) (W : Tid → Prop) (s : Core ν) : Prop where
  curr : ∀ t, W t → t ≠ s.curr
  rq : ∀ t, W t → t ∉ s.rq.map Node.task
  own : ∀ t, W t → s.ownSn t = none
  full : ∀ t, W t → (κ.tdb t).maxNumOfAct ≤ s.numOfAct t

/-- The semaphores and what matters of the tasks of `W` stay as they are. -/
structure Frame (W : Tid → Prop) (s s' : Core ν) : Prop where
  blocked : s'.blocked = s.blocked
  semCount : s'.semCount = s.semCount
  own : ∀ t, W t → s'.ownSn t = s.ownSn t
  prio : ∀ t, W t → s'.prio t = s.prio t

variable {W : Tid → Prop}

lemma Frame.trans {u : Core ν} (h : Frame W s u) (h' : Frame W u s') : Frame W s s' :=
  ⟨h'.blocked.trans h.blocked, h'.semCount.trans h.semCount,
    fun t ht => (h'.own t ht).trans (h.own t ht), fun t ht => (h'.prio t ht).trans (h.prio t ht)⟩

lemma frame_settle (h : ∀ t, W t → t ∉ s.rq.map Node.task) : Frame W s (settle κ s) := by
  refine ⟨settle_blocked s, by rw [settle_toTcbs], fun t _ => by rw [settle_ownSn],
    fun t ht => ?_⟩
  rcases settle_cases κ s with ⟨he, -⟩ | ⟨q, rq, hrq, -, he⟩
  · rw [he]
  · rw [he]
    simp only [stkNext, dispatch_prio]
    refine Function.update_of_ne ?_ ..
    rintro rfl
    exact h _ ht (by rw [hrq]; simp)

/-- The running task alone changes its priority. -/
lemma Away.update_prio (h : Away κ W s) (p : ℕ) (t : Tid) (ht : W t) :
    Function.update s.prio s.curr p t = s.prio t := Function.update_of_ne (h.curr t ht) ..

lemma frame_preemptionPoint (h : ∀ t, W t → t ∉ s.rq.map Node.task)
    (ht : s.curr = topTask κ s.stk) : Frame W s (taskPreemptionPoint κ s) := by
  rcases preemptionPoint_cases κ s ht with ⟨he, -⟩ | he
  · rw [he]
    exact ⟨rfl, rfl, fun _ _ => rfl, fun _ _ => rfl⟩
  · rw [he]
    exact (frame_settle h).trans ⟨rfl, rfl, fun _ _ => rfl, fun _ _ => rfl⟩

lemma Away.insert (h : Away κ W s) {t : Tid} (ht : ¬ W t) (a : ν) :
    ∀ u, W u → u ∉ (rqInsert κ ⟨a, t⟩ s.rq).map Node.task := by
  intro u hu hm
  obtain ⟨m, hmem, rfl⟩ := List.mem_map.mp hm
  rcases List.mem_cons.mp ((rqInsert_perm _ s.rq).mem_iff.mp hmem) with rfl | hmem
  · exact ht hu
  · exact h.rq _ hu (List.mem_map_of_mem hmem)

/-- A woken task is none of them. -/
lemma frame_release (h : Away κ W s) (ht : s.curr = topTask κ s.stk) (hn : ¬ W n.task) :
    Frame W s (release κ n s) := by
  have hun : Frame W s (unblocked κ n s) := by
    refine ⟨rfl, rfl, fun _ _ => rfl, fun t hW => Function.update_of_ne ?_ ..⟩
    rintro rfl
    exact hn hW
  rw [release_eq]
  split_ifs
  · exact hun.trans (frame_preemptionPoint (h.insert hn n.sn) ht)
  · exact hun

lemma frame_terminated (h : Away κ W s) (hrun : s.status s.curr = .running)
    (hs : s.stk = n :: stk) (he : taskTerminated κ s = some s') : Frame W s s' := by
  rw [taskTerminated_cons κ hrun hs] at he
  rw [← Option.some.inj he]
  have hset : Frame W { s with stk := stk } (settle κ { s with stk := stk }) := frame_settle h.rq
  refine ⟨hset.blocked, ?_, fun t ht => ?_, fun t ht => ?_⟩
  · rw [ended_eq]
    exact hset.semCount
  · rw [ended_eq]
    exact hset.own t ht
  · show ((settle κ { s with stk := stk }).toTcbs.ended κ s.curr).prio t = s.prio t
    rw [ended_prio]
    split_ifs
    · exact hset.prio t ht
    · rw [Function.update_of_ne (h.curr t ht)]
      exact hset.prio t ht

lemma Away.running (h : Away κ W s) : ¬ W s.curr := fun hW => h.curr _ hW rfl

/-- A task that is accepted for an activation is none of them. -/
lemma Away.accepted (h : Away κ W s) (ht : s.numOfAct t < (κ.tdb t).maxNumOfAct) : ¬ W t :=
  fun hW => absurd (h.full t hW) (by omega)

lemma Away.inserted (h : Away κ W s) (ht : s.numOfAct t < (κ.tdb t).maxNumOfAct) (m : Node ν)
    (free : List (Node ν)) :
    Away κ W ⟨Tcbs.makeReady t { s.toTcbs with
        numOfAct := Function.update s.numOfAct t (s.numOfAct t + 1) },
      free, rqInsert κ ⟨m.sn, t⟩ s.rq, s.stk, s.suspended, s.blocked⟩ := by
  refine ⟨h.curr, h.insert (h.accepted ht) m.sn, h.own, fun u hu => (h.full u hu).trans ?_⟩
  have hne : u ≠ t := by
    rintro rfl
    exact h.accepted ht hu
  exact (Function.update_of_ne hne ..).ge

lemma frame_chain (hrun : s.status s.curr = .running) (hs : s.stk = n :: stk)
    (h : Away κ W s) (he : chainTask κ t s = some s') : Frame W s s' := by
  by_cases ht : t = s.curr
  · rw [ht, chainSelf_cons κ hs] at he
    rw [← Option.some.inj he]
    refine Frame.trans (u := { s with
      stk := stk
      prio := Function.update s.prio s.curr (κ.tdb s.curr).readyPrio
      status := Function.update s.status s.curr .ready
      eventMask := if s.numOfAct s.curr = 1 then Function.update s.eventMask s.curr 0
        else s.eventMask
      rq := rqInsert κ ⟨n.sn, s.curr⟩ s.rq })
      ⟨rfl, rfl, fun _ _ => rfl, h.update_prio _⟩ ?_
    exact (frame_settle (h.insert h.running n.sn)).trans ⟨rfl, rfl, fun _ _ => rfl, fun _ _ => rfl⟩
  · obtain ⟨hact, s₁, hins, he⟩ | rfl := chainTask_some ht he
    · obtain ⟨m, free, hf, rfl⟩ := taskInsertRq_some hins
      refine Frame.trans (u := ⟨Tcbs.makeReady t { s.toTcbs with
          numOfAct := Function.update s.numOfAct t (s.numOfAct t + 1) },
        free, rqInsert κ ⟨m.sn, t⟩ s.rq, s.stk, s.suspended, s.blocked⟩)
        ⟨rfl, rfl, fun _ _ => rfl, fun _ _ => rfl⟩ ?_
      exact frame_terminated (h.inserted hact m free) (makeReady_status hrun (by simp)) hs he
    · exact ⟨rfl, rfl, fun _ _ => rfl, fun _ _ => rfl⟩

/-- **What a call without semaphores leaves alone.** -/
lemma frame_call {own : Tid → Option ν} {c : Call} (hc : Calm κ (setOwn own s))
    (h : Away κ W s) (he : Multiqueue.step κ s c = some s') : Frame W s s' := by
  obtain ⟨ha, he⟩ := Option.ite_none_right_eq_some.mp he
  have hsame : Frame W s s := ⟨rfl, rfl, fun _ _ => rfl, fun _ _ => rfl⟩
  cases c with
  | activateTask t =>
    obtain ⟨hact, he⟩ | rfl := activateTask_some he
    · obtain ⟨m, free, -, ⟨-, rfl⟩ | ⟨-, rfl⟩⟩ := schedulerTaskActivated_cases he
      · exact ⟨rfl, rfl, fun _ _ => rfl, fun _ _ => rfl⟩
      · exact ⟨rfl, rfl, fun _ _ => rfl, fun _ _ => rfl⟩
    · exact hsame
  | insertTask t =>
    obtain ⟨hact, he⟩ | rfl := insertTask_some he
    · obtain ⟨m, free, -, rfl⟩ := taskInsertRq_some he
      exact ⟨rfl, rfl, fun _ _ => rfl, fun _ _ => rfl⟩
    · exact hsame
  | chainTask t =>
    obtain ⟨n, stk, hs, -⟩ := hc.cons (ne_idle_of_regular ha.1)
    exact frame_chain hc.run hs h he
  | terminateTask =>
    obtain ⟨n, stk, hs, -⟩ := hc.cons ha
    exact frame_terminated h hc.run hs he
  | taskNotTerminated =>
    obtain ⟨n, stk, hs, -⟩ := hc.cons ha
    refine Frame.trans (u := { s with toTcbs := releaseAllM s.curr s.toTcbs })
      ⟨rfl, rfl, fun _ _ => rfl, fun _ _ => rfl⟩ ?_
    exact frame_terminated ⟨h.curr, h.rq, h.own, h.full⟩ hc.run hs he
  | interrupt i =>
    obtain ⟨m, free, -, rfl⟩ := taskSetRunning_some he
    exact ⟨rfl, rfl, fun _ _ => rfl, fun _ _ => rfl⟩
  | preemptionPoint => exact Option.some.inj he ▸ frame_preemptionPoint h.rq hc.top
  | waitEvent mask =>
    obtain ⟨n, stk, hs, -⟩ := hc.cons (ne_idle_of_regular (Or.inr ha))
    have hs : s.stk = n :: stk := hs
    have he : waitEvent κ mask s = some s' := he
    rw [waitEvent_cons κ hs] at he
    split_ifs at he
    · rw [← Option.some.inj he]
      have hset : Frame W { s with
          waitMask := Function.update s.waitMask s.curr mask, stk := stk } (settle κ { s with
          waitMask := Function.update s.waitMask s.curr mask, stk := stk }) := frame_settle h.rq
      exact ⟨hset.blocked, hset.semCount,
        fun t ht => (Function.update_of_ne (h.curr t ht) ..).trans (hset.own t ht), hset.prio⟩
    · exact Option.some.inj he ▸ hsame
  | setEvent t mask =>
    rw [← Option.some.inj he]
    rcases setEvent_cases κ t mask s with ⟨em, he⟩ | ⟨em, sn, -, ho, he⟩
    · rw [he]
      exact ⟨rfl, rfl, fun _ _ => rfl, fun _ _ => rfl⟩
    · rw [he]
      have hW : ¬ W t := fun hW => by rw [h.own t hW] at ho; simp at ho
      have hne : ∀ u, W u → Function.update s.ownSn t none u = s.ownSn u := by
        intro u hu
        refine Function.update_of_ne ?_ ..
        rintro rfl
        exact hW hu
      refine Frame.trans (u := { s with
        eventMask := em, ownSn := Function.update s.ownSn t none })
        ⟨rfl, rfl, hne, fun _ _ => rfl⟩ ?_
      exact frame_release ⟨h.curr, h.rq, fun u hu => (hne u hu).trans (h.own u hu), h.full⟩
        hc.top hW
  | getResource r =>
    rw [← Option.some.inj he, getResource_eq]
    split_ifs
    · exact hsame
    · exact ⟨rfl, rfl, fun _ _ => rfl, h.update_prio _⟩
  | releaseResource r =>
    rw [← Option.some.inj he]
    rcases releaseResource_cases κ r s with he | ⟨rest, -, he⟩
    · rw [he]
      exact hsame
    · rw [he]
      refine Frame.trans (u := { s with
        lastM := Function.update s.lastM s.curr rest
        prio := Function.update s.prio s.curr
          (if rest ≠ [] then s.prevPrio r else (κ.tdb s.curr).dispatchPrio)
        owner := Function.update s.owner r none })
        ⟨rfl, rfl, fun _ _ => rfl, h.update_prio _⟩ ?_
      exact frame_preemptionPoint h.rq hc.top

lemma highest_terminated (hsort : Sorted κ s.rq) (hl : ∀ t, ready κ t ≤ s.prio t)
    (hrun : s.status s.curr = .running) (hs : s.stk ≠ [])
    (he : taskTerminated κ s = some s') : Highest κ s' := by
  obtain ⟨n, stk, hs⟩ := List.exists_cons_of_ne_nil hs
  rw [taskTerminated_cons κ hrun hs] at he
  rw [← Option.some.inj he]
  have h : Highest κ (settle κ { s with stk := stk }) := settle_highest hsort hl
  generalize settle κ { s with stk := stk } = s₁ at *
  intro m hm
  have hle := h m hm
  have hcurr : (s₁.toTcbs.ended κ s.curr).curr = s₁.curr := by rw [ended_eq]
  show ready κ m.task ≤ (s₁.toTcbs.ended κ s.curr).prio (s₁.toTcbs.ended κ s.curr).curr
  rw [hcurr, ended_prio]
  split_ifs with hne
  · exact hle
  · rw [Function.update_of_ne (Ne.symm hne)]
    exact hle

lemma highest_chain {own : Tid → Option ν} (hc : Calm κ (setOwn own s)) (h : Highest κ s)
    (hr : (κ.tdb s.curr).Regular) (he : chainTask κ t s = some s') : Highest κ s' := by
  obtain ⟨n, stk, hs, hn⟩ := hc.cons (ne_idle_of_regular hr)
  have hs : s.stk = n :: stk := hs
  by_cases ht : t = s.curr
  · rw [ht, chainSelf_cons κ hs] at he
    rw [← Option.some.inj he]
    have hst := hc.toSteady.chained hs hn hr (Function.update s.status s.curr .ready)
      (if s.numOfAct s.curr = 1 then Function.update s.eventMask s.curr 0 else s.eventMask)
    exact settle_highest (s := { s with
      stk := stk
      prio := Function.update s.prio s.curr (κ.tdb s.curr).readyPrio
      status := Function.update s.status s.curr .ready
      eventMask := if s.numOfAct s.curr = 1 then Function.update s.eventMask s.curr 0
        else s.eventMask
      rq := rqInsert κ ⟨n.sn, s.curr⟩ s.rq }) hst.sorted hst.levels.low
  · obtain ⟨hact, s₁, hins, he⟩ | rfl := chainTask_some ht he
    · obtain ⟨m, free, hf, rfl⟩ := taskInsertRq_some hins
      refine highest_terminated ?_ ?_ ?_ ?_ he
      · exact hc.sorted.insert
      · exact hc.levels.low
      · exact makeReady_status hc.run (by simp)
      · exact List.ne_nil_of_mem (hs ▸ List.mem_cons_self)
    · exact h

/-- The calls after which the kernel has rescheduled. The resources are those of tasks whose
dispatch priority is not below the ready priority. -/
def Reschedules (κ : Kdb) (s : Core ν) : Call → Prop
  | .insertTask _ => False
  | .releaseResource _ => ready κ s.curr ≤ (κ.tdb s.curr).dispatchPrio
  | _ => True

lemma Calm.highest_released {own : Tid → Option ν} {r : Res} (hc : Calm κ (setOwn own s))
    (h : Highest κ s) (hκ : ready κ s.curr ≤ (κ.tdb s.curr).dispatchPrio) :
    Highest κ (releaseResource κ r s) := by
  rcases releaseResource_cases κ r s with he | ⟨rest, hlast, he⟩
  · rw [he]
    exact h
  · rw [he]
    refine preemptionPoint_highest hc.sorted (fun t => ?_) hc.top
    by_cases ht : t = s.curr
    · rw [ht]
      dsimp only
      rw [Function.update_self]
      split_ifs
      · exact hc.held.prev s.curr r (by dsimp only; rw [hlast]; simp)
      · exact hκ
    · exact (hc.levels.low t).trans (Function.update_of_ne ht ..).ge

/-- **What runs is not exceeded by what is ready.** -/
lemma highest_call {own : Tid → Option ν} {c : Call} (hc : Calm κ (setOwn own s))
    (hr : Reschedules κ s c) (hown : ∀ t a, s.ownSn t = some a → own t = some a)
    (h : Highest κ s) (he : Multiqueue.step κ s c = some s') : Highest κ s' := by
  obtain ⟨ha, he⟩ := Option.ite_none_right_eq_some.mp he
  cases c with
  | activateTask t =>
    obtain ⟨hact, he⟩ | rfl := activateTask_some he
    · obtain ⟨m, free, -, ⟨hp, rfl⟩ | ⟨hp, rfl⟩⟩ := schedulerTaskActivated_cases he
      · exact fun q hq => (h q hq).trans (le_of_lt hp)
      · intro q hq
        rcases List.mem_cons.mp ((rqInsert_perm _ s.rq).mem_iff.mp hq) with rfl | hq
        · exact (hc.levels.low t).trans (not_lt.mp hp)
        · exact h q hq
    · exact h
  | insertTask t => exact hr.elim
  | chainTask t => exact highest_chain hc h ha.1 he
  | terminateTask =>
    obtain ⟨n, stk, hs, -⟩ := hc.cons ha
    exact highest_terminated (s := s) hc.sorted hc.levels.low hc.run (by rw [hs]; simp) he
  | taskNotTerminated =>
    obtain ⟨n, stk, hs, -⟩ := hc.cons ha
    exact highest_terminated (s := { s with toTcbs := releaseAllM s.curr s.toTcbs }) hc.sorted
      hc.levels.low hc.run (by rw [hs]; simp) he
  | interrupt i =>
    obtain ⟨m, free, -, rfl⟩ := taskSetRunning_some he
    intro q hq
    calc ready κ q.task ≤ s.prio s.curr := h q hq
      _ ≤ ready κ i := le_of_lt ha.2
      _ ≤ s.prio i := hc.levels.low i
  | preemptionPoint =>
    exact Option.some.inj he ▸ preemptionPoint_highest hc.sorted hc.levels.low hc.top
  | waitEvent mask =>
    obtain ⟨n, stk, hs, -⟩ := hc.cons (ne_idle_of_regular (Or.inr ha))
    have hs : s.stk = n :: stk := hs
    have he : waitEvent κ mask s = some s' := he
    rw [waitEvent_cons κ hs] at he
    split_ifs at he
    · rw [← Option.some.inj he]
      exact settle_highest (s := { s with
        waitMask := Function.update s.waitMask s.curr mask, stk := stk }) hc.sorted hc.levels.low
    · exact Option.some.inj he ▸ h
  | setEvent t mask =>
    rw [← Option.some.inj he]
    rcases setEvent_cases κ t mask s with ⟨em, he⟩ | ⟨em, sn, -, ho, he⟩
    · rw [he]
      exact h
    · rw [he]
      exact release_highest (s := { s with
        eventMask := em, ownSn := Function.update s.ownSn t none }) h hc.sorted hc.levels.low
        hc.top (hc.ne_of_own (hown t sn ho))
  | getResource r =>
    rw [← Option.some.inj he, getResource_eq]
    split_ifs
    · exact h
    · intro q hq
      dsimp only
      rw [Function.update_self]
      exact (h q hq).trans (le_max_left _ _)
  | releaseResource r => exact Option.some.inj he ▸ Calm.highest_released hc h hr

/-! ### The number of activations -/

lemma ended_numOfAct (t u : Tid) (s : Tcbs ν) : (s.ended κ t).numOfAct u ≤ s.numOfAct u := by
  rw [ended_eq]
  by_cases hu : u = t
  · rw [hu]
    dsimp only
    rw [Function.update_self]
    exact Nat.sub_le _ _
  · exact (Function.update_of_ne hu ..).le

lemma terminated_numOfAct (hrun : s.status s.curr = .running) (hs : s.stk ≠ [])
    (he : taskTerminated κ s = some s') (u : Tid) : s'.numOfAct u ≤ s.numOfAct u := by
  obtain ⟨n, stk, hs⟩ := List.exists_cons_of_ne_nil hs
  rw [taskTerminated_cons κ hrun hs] at he
  rw [← Option.some.inj he]
  refine (ended_numOfAct (κ := κ) s.curr u (settle κ { s with stk := stk }).toTcbs).trans ?_
  rw [settle_numOfAct]

lemma preemptionPoint_numOfAct (ht : s.curr = topTask κ s.stk) :
    (taskPreemptionPoint κ s).numOfAct = s.numOfAct := by
  rcases preemptionPoint_cases κ s ht with ⟨he, -⟩ | he
  · rw [he]
  · rw [he]
    exact settle_numOfAct s

lemma release_numOfAct (ht : s.curr = topTask κ s.stk) :
    (release κ n s).numOfAct = s.numOfAct := by
  rw [release_eq]
  split_ifs
  · exact preemptionPoint_numOfAct (s := unblocked κ n s) ht
  · rfl

/-- An activation is accepted below the maximum only. -/
lemma update_numOfAct {u : Tid} (ht : s.numOfAct t < (κ.tdb t).maxNumOfAct) :
    Function.update s.numOfAct t (s.numOfAct t + 1) u ≤
      max (s.numOfAct u) (κ.tdb u).maxNumOfAct := by
  by_cases hu : u = t
  · rw [hu, Function.update_self]
    exact le_max_of_le_right ht
  · rw [Function.update_of_ne hu]
    exact le_max_left _ _

lemma call_numOfAct {own : Tid → Option ν} {c : Call} (hc : Calm κ (setOwn own s))
    (he : Multiqueue.step κ s c = some s') {u : Tid} (hu : (κ.tdb u).taskType ≠ .isr2) :
    s'.numOfAct u ≤ max (s.numOfAct u) (κ.tdb u).maxNumOfAct := by
  obtain ⟨ha, he⟩ := Option.ite_none_right_eq_some.mp he
  have hsame : s.numOfAct u ≤ max (s.numOfAct u) (κ.tdb u).maxNumOfAct := le_max_left _ _
  cases c with
  | activateTask t =>
    obtain ⟨hact, he⟩ | rfl := activateTask_some he
    · obtain ⟨m, free, -, ⟨-, rfl⟩ | ⟨-, rfl⟩⟩ := schedulerTaskActivated_cases he
      · exact update_numOfAct hact
      · exact update_numOfAct hact
    · exact hsame
  | insertTask t =>
    obtain ⟨hact, he⟩ | rfl := insertTask_some he
    · obtain ⟨m, free, -, rfl⟩ := taskInsertRq_some he
      exact update_numOfAct hact
    · exact hsame
  | chainTask t =>
    obtain ⟨n, stk, hs, -⟩ := hc.cons (ne_idle_of_regular ha.1)
    have hs : s.stk = n :: stk := hs
    have he : chainTask κ t s = some s' := he
    by_cases ht : t = s.curr
    · rw [ht, chainSelf_cons κ hs] at he
      rw [← Option.some.inj he]
      refine le_of_eq_of_le ?_ hsame
      exact congrFun (settle_numOfAct _) u
    · obtain ⟨hact, s₁, hins, he⟩ | rfl := chainTask_some ht he
      · obtain ⟨m, free, hf, rfl⟩ := taskInsertRq_some hins
        refine (terminated_numOfAct ?_ ?_ he u).trans (update_numOfAct hact)
        · exact makeReady_status hc.run (by simp)
        · exact List.ne_nil_of_mem (hs ▸ List.mem_cons_self)
      · exact hsame
  | terminateTask =>
    obtain ⟨n, stk, hs, -⟩ := hc.cons ha
    exact (terminated_numOfAct (s := s) hc.run (by rw [hs]; simp) he u).trans hsame
  | taskNotTerminated =>
    obtain ⟨n, stk, hs, -⟩ := hc.cons ha
    exact (terminated_numOfAct (s := { s with toTcbs := releaseAllM s.curr s.toTcbs }) hc.run
      (by rw [hs]; simp) he u).trans hsame
  | interrupt i =>
    obtain ⟨m, free, -, rfl⟩ := taskSetRunning_some he
    have hne : u ≠ i := by
      rintro rfl
      exact hu ha.1
    exact (Function.update_of_ne hne ..).le.trans hsame
  | preemptionPoint =>
    rw [← Option.some.inj he, preemptionPoint_numOfAct (s := s) hc.top]
    exact hsame
  | waitEvent mask =>
    obtain ⟨n, stk, hs, -⟩ := hc.cons (ne_idle_of_regular (Or.inr ha))
    have hs : s.stk = n :: stk := hs
    have he : waitEvent κ mask s = some s' := he
    rw [waitEvent_cons κ hs] at he
    split_ifs at he
    · rw [← Option.some.inj he]
      refine le_of_eq_of_le ?_ hsame
      exact congrFun (settle_numOfAct _) u
    · exact Option.some.inj he ▸ hsame
  | setEvent t mask =>
    rw [← Option.some.inj he]
    rcases setEvent_cases κ t mask s with ⟨em, he⟩ | ⟨em, sn, -, ho, he⟩
    · rw [he]
      exact hsame
    · rw [he, release_numOfAct (s := { s with
        eventMask := em, ownSn := Function.update s.ownSn t none }) hc.top]
      exact hsame
  | getResource r =>
    rw [← Option.some.inj he, getResource_eq]
    split_ifs
    · exact hsame
    · exact hsame
  | releaseResource r =>
    rw [← Option.some.inj he]
    rcases releaseResource_cases κ r s with he | ⟨rest, -, he⟩
    · rw [he]
      exact hsame
    · rw [he, preemptionPoint_numOfAct (s := { s with
        lastM := Function.update s.lastM s.curr rest
        prio := Function.update s.prio s.curr
          (if rest ≠ [] then s.prevPrio r else (κ.tdb s.curr).dispatchPrio)
        owner := Function.update s.owner r none }) hc.top]
      exact hsame

end FpMemSched.Erika.Bystanders
