import FpMemSched.Erika.Dprem
import FpMemSched.Lib.Buckets

/-!
The kernel with `OSEE_RQ_MULTIQUEUE`: the ready queue is a bit mask and one queue for each
priority (`ee_oo_scheduler.c`).

The scheduler nodes have their fields `p_next` and `p_tdb` here, since the queues are threaded
through them: all writes to `p_next` are made, those for the stack and for the free nodes
included. The rest of the kernel (`ee_oo_sched_partitioned.c`) is the same for both ready
queues, and so are the calls, which are without memory phases.
-/

namespace FpMemSched.Erika.Multiqueue

open FpMemSched.Lib FpMemSched.Erika.Kernel
open FpMemSched.Lib.Buckets (topBit)

/-- The fields of the scheduler nodes, and the ready queue. A queue has its first and its last
node, or is empty. -/
structure Rq (w : ℕ) (ν : Type) where
  next : ν → Option ν
  tdb : ν → Tid
  mask : BitVec w
  queue : ℕ → Option (ν × ν)

structure Multi (w : ℕ) (ν : Type) extends Tcbs ν where
  free : List (Node ν)
  stk : List (Node ν)
  rq : Rq w ν

variable {w : ℕ} {ν : Type} [DecidableEq ν] (κ : Kdb)

/-- Before the first activation; the fields of the nodes hold anything. -/
def Multi.init (free : List (Node ν)) (next : ν → Option ν) (tdb : ν → Tid) : Multi w ν where
  toTcbs := (Kernel.init κ free).toTcbs
  free := free
  stk := []
  rq := ⟨next, tdb, 0, fun _ => none⟩

/-! ### The ready queue -/

def Rq.setNext (n : ν) (x : Option ν) (q : Rq w ν) : Rq w ν :=
  { q with next := Function.update q.next n x }

/-- Tells whether the head of the queue changed. -/
def Rq.insert (n : Node ν) (q : Rq w ν) : Rq w ν × Bool :=
  let i := (κ.tdb n.task).readyPrio - 1
  let q' := { q with tdb := Function.update q.tdb n.sn n.task }
  match q.queue i with
  | none =>
    ({ q' with
        queue := Function.update q.queue i (some (n.sn, n.sn))
        mask := q.mask ||| BitVec.twoPow w i },
      match topBit q.mask with
      | none => true
      | some j => decide (j < i))
  | some (h, t) =>
    -- `p_next` of the new node is left as it is
    ({ q' with
        next := Function.update q.next t (some n.sn)
        queue := Function.update q.queue i (some (h, n.sn)) }, false)

/-- The queue of highest priority, with its first and its last node. -/
def Rq.top (q : Rq w ν) : Option (ℕ × ν × ν) :=
  (topBit q.mask).bind fun i => (q.queue i).map fun ht => (i, ht)

/-- Take the first node `h` of the queue `i` off. -/
def Rq.pop (i : ℕ) (h t : ν) (q : Rq w ν) : Rq w ν :=
  if h = t then
    { q with
      queue := Function.update q.queue i none
      mask := q.mask &&& ~~~BitVec.twoPow w i }
  else { q with queue := Function.update q.queue i ((q.next h).map (·, t)) }

/-! ### The scheduler -/

def Multi.stkNext (n : Node ν) (m : Multi w ν) : Multi w ν :=
  { m with
    toTcbs := m.toTcbs.dispatch κ n.task
    stk := n :: m.stk
    rq := m.rq.setNext n.sn (m.stk.head?.map Node.sn) }

/-- The index of the queue plus one is the ready priority of its tasks. -/
def Multi.rqPreemptStk (m : Multi w ν) : Multi w ν × Option Tid :=
  match m.stk, m.rq.top with
  | _, none => (m, none)
  | top :: _, some (i, h, t) =>
    if m.prio top.task < i + 1 then
      (Multi.stkNext κ ⟨h, m.rq.tdb h⟩ { m with
        rq := m.rq.pop i h t
        status := Function.update m.status top.task .readyStacked }, some top.task)
    else (m, none)
  | [], some (i, h, t) =>
    (Multi.stkNext κ ⟨h, m.rq.tdb h⟩ { m with
      rq := m.rq.pop i h t
      status := Function.update m.status κ.idle .readyStacked }, some κ.idle)

def Multi.popRunning (m : Multi w ν) : Option (Multi w ν × Node ν) :=
  match m.stk with
  | [] => none
  | n :: stk =>
    match Multi.rqPreemptStk κ { m with stk := stk } with
    | (m', some _) => some (m', n)
    | (m', none) => some ({ m' with curr := topTask κ m'.stk }, n)

def Multi.snAlloc (t : Tid) (m : Multi w ν) : Option (Multi w ν × Node ν) :=
  match m.free with
  | [] => none
  | n :: free => some ({ m with free := free, rq := m.rq.setNext n.sn none }, ⟨n.sn, t⟩)

def Multi.snRelease (n : Node ν) (m : Multi w ν) : Multi w ν :=
  { m with free := n :: m.free, rq := m.rq.setNext n.sn (m.free.head?.map Node.sn) }

/-- Push a new node on the stack. -/
def Multi.stkPush (n : Node ν) (m : Multi w ν) : Multi w ν :=
  { m with
    stk := n :: m.stk
    rq := { m.rq with
      tdb := Function.update m.rq.tdb n.sn n.task
      next := Function.update m.rq.next n.sn (m.stk.head?.map Node.sn) } }

def Multi.taskInsertRq (t : Tid) (m : Multi w ν) : Option (Multi w ν) :=
  (Multi.snAlloc t { m with toTcbs := m.toTcbs.makeReady t }).map fun (m, n) =>
    { m with rq := (m.rq.insert κ n).1 }

def Multi.schedulerTaskActivated (t : Tid) (m : Multi w ν) : Option (Multi w ν) :=
  if m.prio m.curr < m.prio t then
    (Multi.snAlloc t m).map fun (m, n) =>
      let m' := { Multi.stkPush n m with
        status := Function.update m.status m.curr .readyStacked
        curr := t
        eventMask := Function.update m.eventMask t 0 }
      { m' with toTcbs := m'.toTcbs.switchIn }
  else Multi.taskInsertRq κ t m

def Multi.taskPreemptionPoint (m : Multi w ν) : Multi w ν :=
  match Multi.rqPreemptStk κ m with
  | (m', some _) => { m' with toTcbs := m'.toTcbs.switchIn }
  | (m', none) => m'

def Multi.taskSetRunning (t : Tid) (m : Multi w ν) : Option (Multi w ν) :=
  (Multi.snAlloc t m).map fun (m, n) =>
    let status := if m.status m.curr = .running then
        Function.update m.status m.curr .readyStacked
      else m.status
    let m' := { Multi.stkPush n m with status := status, curr := t }
    { m' with toTcbs := m'.toTcbs.switchIn }

def Multi.taskTerminated (m : Multi w ν) : Option (Multi w ν) :=
  let term := m.curr
  if m.status term = .running then
    (Multi.popRunning κ m).map fun (m', n) =>
      Multi.snRelease n { m' with toTcbs := (m'.toTcbs.ended κ term).switchIn }
  else
    match m.stk with
    | [] => none
    | n :: stk =>
      let m₁ := { m with
        stk := stk
        prio := Function.update m.prio term (κ.tdb term).readyPrio
        status := Function.update m.status term .ready
        eventMask := if m.numOfAct term = 1 then Function.update m.eventMask term 0
          else m.eventMask
        rq := (m.rq.insert κ ⟨n.sn, term⟩).1 }
      match Multi.rqPreemptStk κ m₁ with
      | (m', some _) => some { m' with toTcbs := m'.toTcbs.switchIn }
      | (m', none) =>
        let m'' := { m' with curr := topTask κ m'.stk }
        some { m'' with toTcbs := m''.toTcbs.switchIn }

def Multi.taskUnblocked (n : Node ν) (m : Multi w ν) : Multi w ν × Bool :=
  let m' := { m with
    status := Function.update m.status n.task .readyStacked
    prio := Function.update m.prio n.task (κ.tdb n.task).readyPrio
    rq := (m.rq.insert κ n).1 }
  (m', (m.rq.insert κ n).2 && decide (m'.prio m'.curr < m'.prio n.task))

/-! ### Services -/

def Multi.activateTask (t : Tid) (m : Multi w ν) : Option (Multi w ν) :=
  match m.toTcbs.taskActivated κ t with
  | none => some m
  | some tcbs => Multi.schedulerTaskActivated κ t { m with toTcbs := tcbs }

def Multi.insertTask (t : Tid) (m : Multi w ν) : Option (Multi w ν) :=
  match m.toTcbs.taskActivated κ t with
  | none => some m
  | some tcbs => Multi.taskInsertRq κ t { m with toTcbs := tcbs }

def Multi.chainTask (t : Tid) (m : Multi w ν) : Option (Multi w ν) :=
  if t = m.curr then
    Multi.taskTerminated κ { m with status := Function.update m.status m.curr .chained }
  else match m.toTcbs.taskActivated κ t with
    | none => some m
    | some tcbs =>
      (Multi.taskInsertRq κ t { m with toTcbs := tcbs }).bind (Multi.taskTerminated κ)

def Multi.activateIsr2 (i : Tid) (m : Multi w ν) : Option (Multi w ν) :=
  Multi.taskSetRunning i { m with numOfAct := Function.update m.numOfAct i (m.numOfAct i + 1) }

def Multi.waitEvent (mask : ℕ) (m : Multi w ν) : Option (Multi w ν) :=
  let t := m.curr
  if m.eventMask t &&& mask = 0 then
    (Multi.popRunning κ { m with waitMask := Function.update m.waitMask t mask }).map
      fun (m', n) =>
        let m'' := { m' with
          ownSn := Function.update m'.ownSn t (some n.sn)
          status := Function.update m'.status t .waiting
          inWait := Function.update m'.inWait t true }
        { m'' with toTcbs := m''.toTcbs.switchIn }
  else some m

def Multi.release (n : Node ν) (m : Multi w ν) : Multi w ν :=
  match Multi.taskUnblocked κ n m with
  | (m', true) => Multi.taskPreemptionPoint κ m'
  | (m', false) => m'

def Multi.setEvent (t : Tid) (mask : ℕ) (m : Multi w ν) : Multi w ν :=
  match m.toTcbs.eventSetMask κ t mask with
  | (tcbs, some sn) => Multi.release κ ⟨sn, t⟩ { m with toTcbs := tcbs }
  | (tcbs, none) => { m with toTcbs := tcbs }

def Multi.getResource (r : Res) (m : Multi w ν) : Multi w ν :=
  let t := m.curr
  if m.owner r ≠ none ∨ κ.resPrio r < (κ.tdb t).readyPrio then m
  else { m with
    prio := if m.prio t < κ.resPrio r then Function.update m.prio t (κ.resPrio r) else m.prio
    owner := Function.update m.owner r (some t)
    prevPrio := Function.update m.prevPrio r (m.prio t)
    lastM := Function.update m.lastM t (r :: m.lastM t) }

def Multi.releaseResource (r : Res) (m : Multi w ν) : Multi w ν :=
  let t := m.curr
  if m.owner r = none ∨ (m.lastM t).head? ≠ some r then m
  else
    let rest := (m.lastM t).tail
    Multi.taskPreemptionPoint κ { m with
      lastM := Function.update m.lastM t rest
      prio := Function.update m.prio t
        (if rest ≠ [] then m.prevPrio r else (κ.tdb t).dispatchPrio)
      owner := Function.update m.owner r none }

/-! ### Runs of either kernel -/

/-- What a task or an ISR2 holds is given back when it returns from its entry function. -/
def releaseAllM (t : Tid) (s : Tcbs ν) : Tcbs ν :=
  { s with
    owner := fun r => if r ∈ s.lastM t then none else s.owner r
    lastM := Function.update s.lastM t [] }

/-- What an alarm does with a task: it is activated but does not run at once. -/
def insertTask (t : Tid) (s : Core ν) : Option (Core ν) :=
  match s.toTcbs.taskActivated κ t with
  | none => some s
  | some tcbs => taskInsertRq κ t { s with toTcbs := tcbs }

omit [DecidableEq ν] in
variable {κ} in
lemma insertTask_some {t : Tid} {s s' : Core ν} (h : insertTask κ t s = some s') :
    (s.numOfAct t < (κ.tdb t).maxNumOfAct ∧
      taskInsertRq κ t { s with
        numOfAct := Function.update s.numOfAct t (s.numOfAct t + 1) } = some s') ∨ s' = s := by
  unfold insertTask Tcbs.taskActivated at h
  by_cases hact : s.numOfAct t < (κ.tdb t).maxNumOfAct
  · simp only [if_pos hact] at h
    exact Or.inl ⟨hact, h⟩
  · simp only [if_neg hact, Option.some.injEq] at h
    exact Or.inr h.symm

inductive Call
  | activateTask (t : Tid)
  | insertTask (t : Tid)
  | chainTask (t : Tid)
  | terminateTask
  /-- A task or an ISR2 returns from its entry function. -/
  | taskNotTerminated
  | interrupt (i : Tid)
  | preemptionPoint
  | waitEvent (mask : ℕ)
  | setEvent (t : Tid) (mask : ℕ)
  | getResource (r : Res)
  | releaseResource (r : Res)
  deriving DecidableEq

/-- Who may make a call. The interrupts up to the priority of what runs are masked. -/
def Allowed (s : Tcbs ν) : Call → Prop
  | .activateTask t | .insertTask t => (κ.tdb t).Regular
  | .chainTask t => (κ.tdb s.curr).Regular ∧ (κ.tdb t).Regular
  | .terminateTask | .taskNotTerminated => s.curr ≠ κ.idle
  | .interrupt i => (κ.tdb i).taskType = .isr2 ∧ s.prio s.curr < (κ.tdb i).readyPrio
  | .waitEvent _ => (κ.tdb s.curr).taskType = .extended
  | .preemptionPoint | .setEvent _ _ | .getResource _ | .releaseResource _ => True

instance (s : Tcbs ν) : DecidablePred (Allowed κ s)
  | .activateTask t | .insertTask t => inferInstanceAs (Decidable (κ.tdb t).Regular)
  | .chainTask _ => inferInstanceAs (Decidable (_ ∧ _))
  | .terminateTask | .taskNotTerminated => inferInstanceAs (Decidable (s.curr ≠ κ.idle))
  | .interrupt _ => inferInstanceAs (Decidable (_ ∧ _))
  | .waitEvent _ => inferInstanceAs (Decidable (_ = _))
  | .preemptionPoint | .setEvent _ _ | .getResource _ | .releaseResource _ =>
    inferInstanceAs (Decidable True)

/-- The kernel with the sorted list. -/
def step (s : Core ν) (c : Call) : Option (Core ν) :=
  if Allowed κ s.toTcbs c then
    match c with
    | .activateTask t => Dprem.activateTask κ t s
    | .insertTask t => insertTask κ t s
    | .chainTask t => Dprem.chainTask κ t s
    | .terminateTask => Kernel.taskTerminated κ s
    | .taskNotTerminated =>
      Kernel.taskTerminated κ { s with toTcbs := releaseAllM s.curr s.toTcbs }
    | .interrupt i => Dprem.activateIsr2 i s
    | .preemptionPoint => some (Kernel.taskPreemptionPoint κ s)
    | .waitEvent mask => Dprem.waitEvent κ mask s
    | .setEvent t mask => some (Dprem.setEvent κ t mask s)
    | .getResource r => some (Dprem.getResource κ r s)
    | .releaseResource r => some (Dprem.releaseResource κ r s)
  else none

/-- The kernel with the multiqueue. -/
def Multi.step (m : Multi w ν) (c : Call) : Option (Multi w ν) :=
  if Allowed κ m.toTcbs c then
    match c with
    | .activateTask t => Multi.activateTask κ t m
    | .insertTask t => Multi.insertTask κ t m
    | .chainTask t => Multi.chainTask κ t m
    | .terminateTask => Multi.taskTerminated κ m
    | .taskNotTerminated =>
      Multi.taskTerminated κ { m with toTcbs := releaseAllM m.curr m.toTcbs }
    | .interrupt i => Multi.activateIsr2 i m
    | .preemptionPoint => some (Multi.taskPreemptionPoint κ m)
    | .waitEvent mask => Multi.waitEvent κ mask m
    | .setEvent t mask => some (Multi.setEvent κ t mask m)
    | .getResource r => some (Multi.getResource κ r m)
    | .releaseResource r => some (Multi.releaseResource κ r m)
  else none

end FpMemSched.Erika.Multiqueue
