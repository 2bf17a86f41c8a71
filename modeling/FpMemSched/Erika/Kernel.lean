import FpMemSched.GuestProtocol
import Mathlib.Data.List.Sort

/-!
The Erika kernel of one core: descriptors, control blocks and the partitioned scheduler
(`ee_oo_scheduler.c`, `ee_oo_sched_partitioned.c`, `ee_oo_kernel.c`,
`ee_oo_sched_entry_points.c`).

The queues of scheduler nodes are lists, first node first; how the kernel keeps them in
linked nodes is the subject of `Erika.Pointers`. The fields of the task control blocks are
maps from the task. A function that would follow a null pointer has no result.
-/

namespace FpMemSched.Erika.Kernel

open FpMemSched.GuestProtocol (MemArbitStatus)

abbrev Tid := ℕ
abbrev Sem := ℕ
abbrev Res := ℕ

inductive TaskType
  | basic | extended | isr2 | idle
  deriving DecidableEq

inductive TaskStatus
  | suspended | ready | readyStacked | waiting | running | chained
  deriving DecidableEq

def isr2PrioBit : ℕ := 2 ^ 7
def maxTaskPriority : ℕ := isr2PrioBit - 1

structure Tdb where
  taskType : TaskType
  readyPrio : ℕ
  dispatchPrio : ℕ
  maxNumOfAct : ℕ

/-- A task proper, no ISR2 and not the idle task. -/
def Tdb.Regular (d : Tdb) : Prop := d.taskType = .basic ∨ d.taskType = .extended

instance (d : Tdb) : Decidable d.Regular := inferInstanceAs (Decidable (_ ∨ _))

/-- The descriptors of the core. `osEE_create_task` clears the interrupt bit in the
priorities of a task, refuses the ready priority `0`, and sets the bit for an ISR2. -/
structure Kdb where
  tdb : Tid → Tdb
  idle : Tid
  startedIsr : Tid
  endedIsr : Tid
  resPrio : Res → ℕ
  idle_iff : ∀ t, (tdb t).taskType = .idle ↔ t = idle
  idle_prio : (tdb idle).readyPrio = 0
  regular_prio : ∀ t, (tdb t).Regular → 0 < (tdb t).readyPrio ∧
    (tdb t).readyPrio ≤ maxTaskPriority ∧ (tdb t).dispatchPrio ≤ maxTaskPriority
  isr2_prio : ∀ t, (tdb t).taskType = .isr2 → isr2PrioBit ≤ (tdb t).readyPrio

/-- A small core: the idle task `0`, the ISR2s `1` to `3`, and the tasks `4`, `5`, … of
priorities `1`, `2`, …. -/
def smallKdb (acts : ℕ) : Kdb where
  tdb t :=
    if t = 0 then ⟨.idle, 0, 0, 1⟩
    else if t < 4 then ⟨.isr2, isr2PrioBit + 1, isr2PrioBit + 1, 1⟩
    else ⟨.extended, min (t - 3) maxTaskPriority, min (t - 3) maxTaskPriority, acts⟩
  idle := 0
  startedIsr := 1
  endedIsr := 2
  resPrio r := r + 1
  idle_iff t := by split_ifs with h₁ h₂ <;> simp [h₁]
  idle_prio := rfl
  regular_prio t ht := by
    unfold Tdb.Regular at ht
    have hmax : 0 < maxTaskPriority := by unfold maxTaskPriority isr2PrioBit; omega
    split_ifs at ht ⊢ with h₁ h₂
    · simp at ht
    · simp at ht
    · have h₄ : 3 < t := Nat.not_lt.mp h₂
      exact ⟨lt_min (Nat.sub_pos_of_lt h₄) hmax, min_le_right _ _, min_le_right _ _⟩
  isr2_prio t ht := by
    split_ifs at ht ⊢ with h₁ h₂
    · exact Nat.le_succ _

lemma smallKdb_dispatchPrio (acts : ℕ) (t : Tid) :
    ((smallKdb acts).tdb t).readyPrio = ((smallKdb acts).tdb t).dispatchPrio := by
  simp only [smallKdb]
  split_ifs <;> rfl

/-- A scheduler node with the task it stands for. -/
structure Node (ν : Type) where
  sn : ν
  task : Tid
  deriving DecidableEq

/-- Where a task stands in its memory phases. -/
inductive Phase
  | outside
  /-- In the loop of `DPREM_begin_memory_phase`. -/
  | loop
  /-- In that loop with the token granted: it leaves the loop when it runs next. -/
  | returning
  | memory
  | execution
  deriving DecidableEq

/-- The control blocks, without the queues. -/
structure Tcbs (ν : Type) where
  prio : Tid → ℕ
  status : Tid → TaskStatus
  numOfAct : Tid → ℕ
  eventMask : Tid → ℕ
  waitMask : Tid → ℕ
  ownSn : Tid → Option ν
  /-- The resources held, last one taken first. -/
  lastM : Tid → List Res
  curr : Tid
  memArbitStatus : MemArbitStatus
  semCount : Sem → ℕ
  owner : Res → Option Tid
  prevPrio : Res → ℕ
  phase : Tid → Phase
  /-- The task is inside the wait of `WaitEvent`. -/
  inWait : Tid → Bool

structure Core (ν : Type) extends Tcbs ν where
  free : List (Node ν)
  rq : List (Node ν)
  stk : List (Node ν)
  suspended : List (Node ν)
  blocked : Sem → List (Node ν)

variable {ν : Type} (κ : Kdb)

/-- Before the first activation: the idle task runs and all nodes are free. -/
def init (free : List (Node ν)) : Core ν where
  prio t := (κ.tdb t).readyPrio
  status t := if t = κ.idle then .running else .suspended
  numOfAct _ := 0
  eventMask _ := 0
  waitMask _ := 0
  ownSn _ := none
  lastM _ := []
  curr := κ.idle
  memArbitStatus := .none
  semCount _ := 0
  owner _ := none
  prevPrio _ := 0
  phase _ := .outside
  inWait _ := false
  free := free
  rq := []
  stk := []
  suspended := []
  blocked _ := []

/-! ### Control blocks -/

/-- The context of `curr` goes on where it was saved, which may be inside `WaitEvent`, or
starts anew. -/
def Tcbs.switchIn (s : Tcbs ν) : Tcbs ν :=
  let waited := s.status s.curr = .readyStacked ∧ s.inWait s.curr
  { s with
    status := Function.update s.status s.curr .running
    waitMask := if waited then Function.update s.waitMask s.curr 0 else s.waitMask
    inWait := if waited then Function.update s.inWait s.curr false else s.inWait }

def Tcbs.taskEnd (t : Tid) (s : Tcbs ν) : Tcbs ν :=
  { s with
    prio := Function.update s.prio t (κ.tdb t).readyPrio
    numOfAct := Function.update s.numOfAct t (s.numOfAct t - 1)
    status := Function.update s.status t (if s.numOfAct t - 1 = 0 then .suspended else .ready) }

/-- `t` has ended and `curr` is next, which may be a further activation of `t`. -/
def Tcbs.ended (t : Tid) (s : Tcbs ν) : Tcbs ν :=
  if t ≠ s.curr then s.taskEnd κ t
  else { s with numOfAct := Function.update s.numOfAct t (s.numOfAct t - 1) }

/-- The activation counter; `none` is `E_OS_LIMIT`. -/
def Tcbs.taskActivated (t : Tid) (s : Tcbs ν) : Option (Tcbs ν) :=
  if s.numOfAct t < (κ.tdb t).maxNumOfAct then
    some { s with numOfAct := Function.update s.numOfAct t (s.numOfAct t + 1) }
  else none

/-- The status of a newly activated task: only a suspended one becomes ready. -/
def Tcbs.makeReady (t : Tid) (s : Tcbs ν) : Tcbs ν :=
  { s with
    status := if s.status t = .suspended then Function.update s.status t .ready else s.status
    eventMask := if s.status t = .suspended then Function.update s.eventMask t 0
      else s.eventMask }

/-- The new top of the stack is `t`, at its dispatch priority at least. -/
def Tcbs.dispatch (t : Tid) (s : Tcbs ν) : Tcbs ν :=
  { s with
    curr := t
    prio := if s.prio t < (κ.tdb t).dispatchPrio then
        Function.update s.prio t (κ.tdb t).dispatchPrio
      else s.prio }

/-- `osEE_task_event_set_mask`, with the node to release. -/
def Tcbs.eventSetMask (t : Tid) (mask : ℕ) (s : Tcbs ν) : Tcbs ν × Option ν :=
  if (κ.tdb t).taskType ≠ .extended ∨ s.status t = .suspended then (s, none)
  else
    let s' := { s with eventMask := Function.update s.eventMask t (s.eventMask t ||| mask) }
    if s.waitMask t &&& mask ≠ 0 then
      ({ s' with ownSn := Function.update s.ownSn t none }, s.ownSn t)
    else (s', none)

/-! ### The scheduler -/

def rqInsert (n : Node ν) (rq : List (Node ν)) : List (Node ν) :=
  rq.orderedInsert (fun a b => (κ.tdb b.task).readyPrio < (κ.tdb a.task).readyPrio) n

/-- Push a node from the ready queue on the stack. -/
def stkNext (n : Node ν) (s : Core ν) : Core ν :=
  { s with toTcbs := s.toTcbs.dispatch κ n.task, stk := n :: s.stk }

/-- Let the head of the ready queue preempt the top of the stack; tells the preempted task. -/
def rqPreemptStk (s : Core ν) : Core ν × Option Tid :=
  match s.stk, s.rq with
  | _, [] => (s, none)
  | top :: _, n :: rq =>
    if s.prio top.task < s.prio n.task then
      (stkNext κ n { s with
        rq := rq, status := Function.update s.status top.task .readyStacked }, some top.task)
    else (s, none)
  | [], n :: rq =>
    (stkNext κ n { s with
      rq := rq, status := Function.update s.status κ.idle .readyStacked }, some κ.idle)

/-- The task on top of the stack, the idle task when it is empty. -/
def topTask (stk : List (Node ν)) : Tid := (stk.head?.map Node.task).getD κ.idle

/-- Take the running node off the stack and choose the next task. -/
def popRunning (s : Core ν) : Option (Core ν × Node ν) :=
  match s.stk with
  | [] => none
  | n :: stk =>
    match rqPreemptStk κ { s with stk := stk } with
    | (s', some _) => some (s', n)
    | (s', none) => some ({ s' with curr := topTask κ s'.stk }, n)

def snAlloc (t : Tid) (s : Core ν) : Option (Core ν × Node ν) :=
  match s.free with
  | [] => none
  | n :: free => some ({ s with free := free }, ⟨n.sn, t⟩)

def taskInsertRq (t : Tid) (s : Core ν) : Option (Core ν) :=
  (snAlloc t { s with toTcbs := s.toTcbs.makeReady t }).map fun (s, n) =>
    { s with rq := rqInsert κ n s.rq }

def schedulerTaskActivated (t : Tid) (s : Core ν) : Option (Core ν) :=
  if s.prio s.curr < s.prio t then
    (snAlloc t s).map fun (s, n) =>
      let s' := { s with
        status := Function.update s.status s.curr .readyStacked
        stk := n :: s.stk
        curr := t
        eventMask := Function.update s.eventMask t 0 }
      { s' with toTcbs := s'.toTcbs.switchIn }
  else taskInsertRq κ t s

def taskPreemptionPoint (s : Core ν) : Core ν :=
  match rqPreemptStk κ s with
  | (s', some _) => { s' with toTcbs := s'.toTcbs.switchIn }
  | (s', none) => s'

/-- An ISR2 is entered. -/
def taskSetRunning (t : Tid) (s : Core ν) : Option (Core ν) :=
  (snAlloc t s).map fun (s, n) =>
    let status := if s.status s.curr = .running then
        Function.update s.status s.curr .readyStacked
      else s.status
    let s' := { s with status := status, curr := t, stk := n :: s.stk }
    { s' with toTcbs := s'.toTcbs.switchIn }

def taskTerminated (s : Core ν) : Option (Core ν) :=
  let term := s.curr
  if s.status term = .running then
    (popRunning κ s).map fun (s', n) =>
      { s' with toTcbs := (s'.toTcbs.ended κ term).switchIn, free := n :: s'.free }
  else
    match s.stk with
    | [] => none
    | n :: stk =>
      let s₁ := { s with
        stk := stk
        prio := Function.update s.prio term (κ.tdb term).readyPrio
        status := Function.update s.status term .ready
        eventMask := if s.numOfAct term = 1 then Function.update s.eventMask term 0
          else s.eventMask
        rq := rqInsert κ ⟨n.sn, term⟩ s.rq }
      match rqPreemptStk κ s₁ with
      | (s', some _) => some { s' with toTcbs := s'.toTcbs.switchIn }
      | (s', none) =>
        let s'' := { s' with curr := topTask κ s'.stk }
        some { s'' with toTcbs := s''.toTcbs.switchIn }

/-- Whether the insertion changes the head of the queue. -/
def rqHeadChanged (n : Node ν) : List (Node ν) → Bool
  | [] => true
  | m :: _ => (κ.tdb m.task).readyPrio < (κ.tdb n.task).readyPrio

/-- A blocked task is ready again; tells whether a preemption is due. -/
def taskUnblocked (n : Node ν) (s : Core ν) : Core ν × Bool :=
  let s' := { s with
    status := Function.update s.status n.task .readyStacked
    prio := Function.update s.prio n.task (κ.tdb n.task).readyPrio
    rq := rqInsert κ n s.rq }
  (s', rqHeadChanged κ n s.rq && decide (s'.prio s'.curr < s'.prio n.task))

/-! ### What a rescheduling does -/

/-- Choose the next task for a stack whose top may have changed. -/
def settle (s : Core ν) : Core ν :=
  match rqPreemptStk κ s with
  | (s', some _) => s'
  | (s', none) => { s' with curr := topTask κ s'.stk }

lemma popRunning_cons {s : Core ν} {n : Node ν} {stk : List (Node ν)} (h : s.stk = n :: stk) :
    popRunning κ s = some (settle κ { s with stk := stk }, n) := by
  unfold popRunning settle
  rw [h]
  dsimp only
  rcases rqPreemptStk κ { s with stk := stk } with ⟨s', _ | t⟩ <;> rfl

lemma taskTerminated_cons {s : Core ν} {n : Node ν} {stk : List (Node ν)}
    (hrun : s.status s.curr = .running) (h : s.stk = n :: stk) :
    taskTerminated κ s = some
      { settle κ { s with stk := stk } with
        toTcbs := ((settle κ { s with stk := stk }).toTcbs.ended κ s.curr).switchIn
        free := n :: (settle κ { s with stk := stk }).free } := by
  unfold taskTerminated
  simp only [hrun, if_true]
  rw [popRunning_cons κ h, Option.map_some]

/-- **The two outcomes of a rescheduling**: the stack keeps its top, which the head of the
ready queue does not exceed, or that head is pushed on the stack and preempts its top. -/
lemma settle_cases (s : Core ν) :
    (settle κ s = { s with curr := topTask κ s.stk } ∧
      ∀ n rq, s.rq = n :: rq → ∃ top stk, s.stk = top :: stk ∧
        s.prio n.task ≤ s.prio top.task) ∨
    ∃ n rq, s.rq = n :: rq ∧ (∀ top ∈ s.stk.head?, s.prio top.task < s.prio n.task) ∧
      settle κ s = stkNext κ n { s with
        rq := rq, status := Function.update s.status (topTask κ s.stk) .readyStacked } := by
  unfold settle rqPreemptStk
  rcases hr : s.rq with _ | ⟨n, rq⟩
  · left
    refine ⟨?_, by simp⟩
    rcases hs : s.stk with _ | ⟨top, stk⟩ <;> simp [hs, hr]
  · rcases hs : s.stk with _ | ⟨top, stk⟩
    · right
      exact ⟨n, rq, rfl, by simp, rfl⟩
    · by_cases hp : s.prio top.task < s.prio n.task
      · right
        exact ⟨n, rq, rfl, by simpa using hp, by simp [hp, topTask]⟩
      · left
        refine ⟨by simp [hp, hs, hr], fun n' rq' he => ?_⟩
        obtain ⟨rfl, -⟩ := List.cons_eq_cons.mp he
        exact ⟨top, stk, rfl, by omega⟩

/-- Nothing preempts the stack only if it is not empty or nothing is ready. -/
lemma rqPreemptStk_none {s s' : Core ν} (h : rqPreemptStk κ s = (s', none)) :
    s' = s ∧ (s.rq ≠ [] → s.stk ≠ []) := by
  unfold rqPreemptStk at h
  split at h
  · next hr => exact ⟨(Prod.mk.inj h).1.symm, fun hne => absurd hr hne⟩
  · next hs hr =>
    split_ifs at h
    · simp at h
    · exact ⟨(Prod.mk.inj h).1.symm, fun _ => by rw [hs]; simp⟩
  · simp at h

/-- If the task of the top of the stack is not the idle one, there is a top. -/
lemma cons_of_top {s : Core ν} (h : s.curr = topTask κ s.stk) (hc : s.curr ≠ κ.idle) :
    ∃ n stk, s.stk = n :: stk ∧ n.task = s.curr := by
  rcases hs : s.stk with _ | ⟨n, stk⟩
  · rw [hs] at h
    exact absurd h hc
  · rw [hs] at h
    exact ⟨n, stk, rfl, h.symm⟩

lemma preemptionPoint_cases (s : Core ν) (h : s.curr = topTask κ s.stk) :
    (taskPreemptionPoint κ s = s ∧ settle κ s = s) ∨
      taskPreemptionPoint κ s = { settle κ s with toTcbs := (settle κ s).toTcbs.switchIn } := by
  unfold taskPreemptionPoint settle
  rcases hp : rqPreemptStk κ s with ⟨s', _ | t⟩
  · left
    obtain ⟨rfl, -⟩ := rqPreemptStk_none κ hp
    refine ⟨rfl, ?_⟩
    dsimp only
    rw [← h]
  · right
    rfl

/-! ### What an event does -/

lemma eventSetMask_cases (t : Tid) (mask : ℕ) (s : Tcbs ν) :
    (∃ em, s.eventSetMask κ t mask = ({ s with eventMask := em }, none)) ∨
    ∃ em sn, s.waitMask t ≠ 0 ∧ s.ownSn t = some sn ∧ s.eventSetMask κ t mask =
      ({ s with eventMask := em, ownSn := Function.update s.ownSn t none }, some sn) := by
  unfold Tcbs.eventSetMask
  by_cases hc : (κ.tdb t).taskType ≠ .extended ∨ s.status t = .suspended
  · exact Or.inl ⟨s.eventMask, by simp only [if_pos hc]⟩
  · by_cases hm : s.waitMask t &&& mask ≠ 0
    · simp only [if_neg hc, if_pos hm]
      rcases ho : s.ownSn t with _ | sn
      · refine Or.inl ⟨Function.update s.eventMask t (s.eventMask t ||| mask), ?_⟩
        rw [← ho, Function.update_eq_self]
      · refine Or.inr ⟨_, sn, fun h0 => hm ?_, rfl, rfl⟩
        rw [h0, Nat.zero_and]
    · exact Or.inl ⟨Function.update s.eventMask t (s.eventMask t ||| mask),
        by simp only [if_neg hc, if_neg hm]⟩

/-! ### What an activation does -/

section Activation

variable {κ}

lemma rqInsert_perm (n : Node ν) (rq : List (Node ν)) : (rqInsert κ n rq).Perm (n :: rq) :=
  List.perm_orderedInsert _ _ _

lemma snAlloc_some {t : Tid} {s s' : Core ν} {n : Node ν} (h : snAlloc t s = some (s', n)) :
    ∃ m free, s.free = m :: free ∧ n = ⟨m.sn, t⟩ ∧ s' = { s with free := free } := by
  unfold snAlloc at h
  rcases hf : s.free with _ | ⟨m, free⟩
  · simp [hf] at h
  · simp only [hf, Option.some.injEq, Prod.mk.injEq] at h
    exact ⟨m, free, rfl, h.2.symm, h.1.symm⟩

lemma taskInsertRq_some {t : Tid} {s s' : Core ν} (h : taskInsertRq κ t s = some s') :
    ∃ m free, s.free = m :: free ∧
      s' = ⟨s.toTcbs.makeReady t, free, rqInsert κ ⟨m.sn, t⟩ s.rq, s.stk, s.suspended,
        s.blocked⟩ := by
  obtain ⟨⟨s₁, n⟩, ha, rfl⟩ := Option.map_eq_some_iff.mp h
  obtain ⟨m, free, hf, rfl, rfl⟩ := snAlloc_some ha
  exact ⟨m, free, hf, rfl⟩

/-- **The two outcomes of an activation**: the task runs at once, or it is ready. -/
lemma schedulerTaskActivated_cases {t : Tid} {s s' : Core ν}
    (h : schedulerTaskActivated κ t s = some s') :
    ∃ m free, s.free = m :: free ∧
      ((s.prio s.curr < s.prio t ∧
        s' = ⟨Tcbs.switchIn { s.toTcbs with
            status := Function.update s.status s.curr .readyStacked
            curr := t
            eventMask := Function.update s.eventMask t 0 },
          free, s.rq, ⟨m.sn, t⟩ :: s.stk, s.suspended, s.blocked⟩) ∨
      (¬ s.prio s.curr < s.prio t ∧
        s' = ⟨s.toTcbs.makeReady t, free, rqInsert κ ⟨m.sn, t⟩ s.rq, s.stk, s.suspended,
          s.blocked⟩)) := by
  unfold schedulerTaskActivated at h
  split_ifs at h with hp
  · obtain ⟨⟨s₁, n⟩, ha, rfl⟩ := Option.map_eq_some_iff.mp h
    obtain ⟨m, free, hf, rfl, rfl⟩ := snAlloc_some ha
    exact ⟨m, free, hf, Or.inl ⟨hp, rfl⟩⟩
  · obtain ⟨m, free, hf, rfl⟩ := taskInsertRq_some h
    exact ⟨m, free, hf, Or.inr ⟨hp, rfl⟩⟩

lemma taskSetRunning_some {i : Tid} {s s' : Core ν} (h : taskSetRunning i s = some s') :
    ∃ m free, s.free = m :: free ∧
      s' = ⟨Tcbs.switchIn { s.toTcbs with
          status := if s.status s.curr = .running then
              Function.update s.status s.curr .readyStacked
            else s.status
          curr := i },
        free, s.rq, ⟨m.sn, i⟩ :: s.stk, s.suspended, s.blocked⟩ := by
  obtain ⟨⟨s₁, n⟩, ha, rfl⟩ := Option.map_eq_some_iff.mp h
  obtain ⟨m, free, hf, rfl, rfl⟩ := snAlloc_some ha
  exact ⟨m, free, hf, rfl⟩

/-- Only a suspended task becomes ready by an activation. -/
lemma makeReady_status {t u : Tid} {s : Tcbs ν} {x : TaskStatus} (h : s.status u = x)
    (hx : x ≠ .suspended) : (s.makeReady t).status u = x := by
  unfold Tcbs.makeReady
  by_cases hst : s.status t = .suspended
  · have hne : u ≠ t := by
      rintro rfl
      exact hx (h ▸ hst)
    simp only [if_pos hst]
    rw [Function.update_of_ne hne]
    exact h
  · simpa only [if_neg hst] using h

end Activation

end FpMemSched.Erika.Kernel
