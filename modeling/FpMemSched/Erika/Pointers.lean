import FpMemSched.Erika.Operations
import FpMemSched.Lib.Linked

/-!
The scheduler nodes as the kernel has them.

A node has a field `p_next` and a field `p_tdb`; a queue is given by the pointer to its first
node. Functions that read through a null pointer have no result, and neither have loops that
take more than `fuel` turns.
-/

namespace FpMemSched.Erika.Pointers

open FpMemSched.Lib.Linked
open FpMemSched.Erika.Kernel (Tid Sem Res Kdb Tcbs)
open FpMemSched.Erika.Operations (Op)

/-- What a `struct OsEE_SN_tag **` of the code may point to. -/
inductive Queue
  | free | rq | stk | suspended
  | sem (k : Sem)
  deriving DecidableEq

/-- The control blocks with the nodes; `tdb` is the field `p_tdb`. -/
structure Ccb (ν : Type) extends Tcbs ν, Heap Queue ν where
  tdb : ν → Tid

variable {ν : Type} [DecidableEq ν] (κ : Kdb) (fuel : ℕ)

/-! ### Lists -/

def snAlloc (p : Ccb ν) : Option (Ccb ν × ν) :=
  match p.head .free with
  | none => none
  | some n => some ({ p with
      head := Function.update p.head .free (p.next n)
      next := Function.update p.next n none }, n)

/-- `osEE_sn_release` and `list_push_to_head`. -/
def listPushToHead (q : Queue) (n : ν) (p : Ccb ν) : Ccb ν :=
  { p with
    next := Function.update p.next n (p.head q)
    head := Function.update p.head q (some n) }

def listRemoveLoop (next : ν → Option ν) (n : ν) : ℕ → Option ν → Option (ν → Option ν)
  | 0, _ => none
  | _ + 1, none => some next
  | k + 1, some c =>
    if next c = some n then some (Function.update next c (next n))
    else listRemoveLoop next n k (next c)

def listRemove (q : Queue) (n : ν) (p : Ccb ν) : Option (Ccb ν) :=
  if p.head q = some n then some { p with head := Function.update p.head q (p.next n) }
  else (listRemoveLoop p.next n fuel (p.head q)).map fun next => { p with next := next }

def insertBeforeLoop (next : ν → Option ν) (n : ν) (ref : Option ν) :
    ℕ → Option ν → Option (ν → Option ν)
  | 0, _ => none
  | _ + 1, none => some next
  | k + 1, some c =>
    if next c = ref ∨ next c = none then
      some (Function.update (Function.update next n (next c)) c (some n))
    else insertBeforeLoop next n ref k (next c)

def listInsertBefore (q : Queue) (n : ν) (ref : Option ν) (p : Ccb ν) : Option (Ccb ν) :=
  match p.head q with
  | none => some { p with
      next := Function.update p.next n none
      head := Function.update p.head q (some n) }
  | some _ => (insertBeforeLoop p.next n ref fuel (p.head q)).map fun next =>
      { p with next := next }

def insertAfterLoop (next : ν → Option ν) (n : ν) (ref : Option ν) :
    ℕ → Option ν → Option (ν → Option ν)
  | 0, _ => none
  | _ + 1, none => some next
  | k + 1, some c =>
    if some c = ref then
      some (Function.update (Function.update next n (next c)) c (some n))
    else insertAfterLoop next n ref k (next c)

def listInsertAfter (q : Queue) (n : ν) (ref : Option ν) (p : Ccb ν) : Option (Ccb ν) :=
  match p.head q with
  | none => some { p with
      next := Function.update p.next n none
      head := Function.update p.head q (some n) }
  | some _ => (insertAfterLoop p.next n ref fuel (p.head q)).map fun next =>
      { p with next := next }

/-- The loop of `osEE_sn_priority_insert`: the nodes `p_prev` and `p_curr` it stops at. -/
def priorityLoop (next : ν → Option ν) (prio : ν → ℕ) (new : ℕ) :
    ℕ → Option ν → Option ν → Option (Option ν × Option ν)
  | 0, _, _ => none
  | _ + 1, prev, none => some (prev, none)
  | k + 1, prev, some c =>
    if new ≤ prio c then priorityLoop next prio new k (some c) (next c)
    else some (prev, some c)

/-- Tells whether the head has changed. -/
def snPriorityInsert (q : Queue) (n : ν) (prio : Tid → ℕ) (p : Ccb ν) :
    Option (Ccb ν × Bool) :=
  (priorityLoop p.next (fun m => prio (p.tdb m)) (prio (p.tdb n)) fuel none (p.head q)).map
    fun (prev, curr) =>
      match prev with
      | some c => ({ p with
          next := Function.update (Function.update p.next c (some n)) n curr }, false)
      | none => ({ p with
          head := Function.update p.head q (some n)
          next := Function.update p.next n curr }, true)

/-! ### The scheduler -/

def rqInsert (n : ν) (t : Tid) (p : Ccb ν) : Option (Ccb ν × Bool) :=
  snPriorityInsert fuel .rq n (fun t => (κ.tdb t).readyPrio)
    { p with tdb := Function.update p.tdb n t }

def stkNext (n : ν) (p : Ccb ν) : Ccb ν :=
  { p with
    toTcbs := p.toTcbs.dispatch κ (p.tdb n)
    next := Function.update p.next n (p.head .stk)
    head := Function.update p.head .stk (some n) }

def rqPreemptStk (p : Ccb ν) : Ccb ν × Option Tid :=
  match p.head .stk, p.head .rq with
  | _, none => (p, none)
  | some top, some n =>
    if p.prio (p.tdb top) < p.prio (p.tdb n) then
      (stkNext κ n { p with
        head := Function.update p.head .rq (p.next n)
        status := Function.update p.status (p.tdb top) .readyStacked }, some (p.tdb top))
    else (p, none)
  | none, some n =>
    (stkNext κ n { p with
      head := Function.update p.head .rq (p.next n)
      status := Function.update p.status κ.idle .readyStacked }, some κ.idle)

/-- The task on top of the stack, the idle task when it is empty. -/
def topTask (p : Ccb ν) : Tid :=
  match p.head .stk with
  | some n => p.tdb n
  | none => κ.idle

def popRunning (p : Ccb ν) : Option (Ccb ν × ν) :=
  match p.head .stk with
  | none => none
  | some n =>
    match rqPreemptStk κ { p with head := Function.update p.head .stk (p.next n) } with
    | (p', some _) => some (p', n)
    | (p', none) => some ({ p' with curr := topTask κ p' }, n)

def taskInsertRq (t : Tid) (p : Ccb ν) : Option (Ccb ν) :=
  (snAlloc { p with toTcbs := p.toTcbs.makeReady t }).bind fun (p, n) =>
    (rqInsert κ fuel n t p).map Prod.fst

def schedulerTaskActivated (t : Tid) (p : Ccb ν) : Option (Ccb ν) :=
  if p.prio p.curr < p.prio t then
    (snAlloc p).map fun (p, n) =>
      let p' := { p with
        status := Function.update p.status p.curr .readyStacked
        tdb := Function.update p.tdb n t
        next := Function.update p.next n (p.head .stk)
        head := Function.update p.head .stk (some n)
        curr := t
        eventMask := Function.update p.eventMask t 0 }
      { p' with toTcbs := p'.toTcbs.switchIn }
  else taskInsertRq κ fuel t p

def taskPreemptionPoint (p : Ccb ν) : Ccb ν :=
  match rqPreemptStk κ p with
  | (p', some _) => { p' with toTcbs := p'.toTcbs.switchIn }
  | (p', none) => p'

def taskSetRunning (t : Tid) (p : Ccb ν) : Option (Ccb ν) :=
  let preempted := p.head .stk
  let status := if p.status p.curr = .running then
      Function.update p.status p.curr .readyStacked
    else p.status
  (snAlloc { p with status := status, curr := t }).map fun (p, n) =>
    let p' := { p with
      head := Function.update p.head .stk (some n)
      tdb := Function.update p.tdb n t
      next := Function.update p.next n preempted }
    { p' with toTcbs := p'.toTcbs.switchIn }

/-- The end of a chained termination: the ready queue is not empty, so a stack that is not
preempted has a top. -/
def chainedNext (p : Ccb ν) : Option (Ccb ν) :=
  match rqPreemptStk κ p with
  | (p', some _) => some { p' with toTcbs := p'.toTcbs.switchIn }
  | (p', none) =>
    (p'.head .stk).map fun n =>
      let p'' := { p' with curr := p'.tdb n }
      { p'' with toTcbs := p''.toTcbs.switchIn }

def taskTerminated (p : Ccb ν) : Option (Ccb ν) :=
  let term := p.curr
  if p.status term = .running then
    (popRunning κ p).map fun (p', n) =>
      let p'' := listPushToHead .free n { p' with toTcbs := p'.toTcbs.ended κ term }
      { p'' with toTcbs := p''.toTcbs.switchIn }
  else
    match p.head .stk with
    | none => none
    | some n =>
      (rqInsert κ fuel n term { p with
        head := Function.update p.head .stk (p.next n)
        prio := Function.update p.prio term (κ.tdb term).readyPrio
        status := Function.update p.status term .ready
        eventMask := if p.numOfAct term = 1 then Function.update p.eventMask term 0
          else p.eventMask }).bind fun (p', _) => chainedNext κ p'

def taskUnblocked (n : ν) (p : Ccb ν) : Option (Ccb ν × Bool) :=
  let t := p.tdb n
  (rqInsert κ fuel n t { p with
    status := Function.update p.status t .readyStacked
    prio := Function.update p.prio t (κ.tdb t).readyPrio }).map fun (p', changed) =>
      (p', changed && decide (p'.prio p'.curr < p'.prio t))

/-! ### Services -/

def activateTask (t : Tid) (p : Ccb ν) : Option (Ccb ν) :=
  match p.toTcbs.taskActivated κ t with
  | none => some p
  | some tcbs => schedulerTaskActivated κ fuel t { p with toTcbs := tcbs }

def chainTask (t : Tid) (p : Ccb ν) : Option (Ccb ν) :=
  if t = p.curr then
    taskTerminated κ fuel { p with status := Function.update p.status p.curr .chained }
  else match p.toTcbs.taskActivated κ t with
    | none => some p
    | some tcbs => (taskInsertRq κ fuel t { p with toTcbs := tcbs }).bind (taskTerminated κ fuel)

def activateIsr2 (i : Tid) (p : Ccb ν) : Option (Ccb ν) :=
  taskSetRunning i { p with numOfAct := Function.update p.numOfAct i (p.numOfAct i + 1) }

def waitEvent (mask : ℕ) (p : Ccb ν) : Option (Ccb ν) :=
  let t := p.curr
  if p.eventMask t &&& mask = 0 then
    (popRunning κ { p with waitMask := Function.update p.waitMask t mask }).map fun (p', n) =>
      let p'' := { p' with
        ownSn := Function.update p'.ownSn t (some n)
        status := Function.update p'.status t .waiting
        inWait := Function.update p'.inWait t true }
      { p'' with toTcbs := p''.toTcbs.switchIn }
  else some p

def release (n : ν) (p : Ccb ν) : Option (Ccb ν) :=
  (taskUnblocked κ fuel n p).map fun (p', preempts) =>
    if preempts then taskPreemptionPoint κ p' else p'

def setEvent (t : Tid) (mask : ℕ) (p : Ccb ν) : Option (Ccb ν) :=
  match p.toTcbs.eventSetMask κ t mask with
  | (tcbs, some n) => release κ fuel n { p with toTcbs := tcbs }
  | (tcbs, none) => some { p with toTcbs := tcbs }

def waitSem (k : Sem) (p : Ccb ν) : Option (Ccb ν) :=
  let t := p.curr
  if p.semCount k ≠ 0 then
    some { p with semCount := Function.update p.semCount k (p.semCount k - 1) }
  else
    (popRunning κ p).bind fun (p', n) =>
      (snPriorityInsert fuel (.sem k) n p'.prio
        { p' with status := Function.update p'.status t .waiting }).map fun (p'', _) =>
          { p'' with toTcbs := p''.toTcbs.switchIn }

def postSem (k : Sem) (p : Ccb ν) : Option (Ccb ν) :=
  match p.head (.sem k) with
  | some n => release κ fuel n { p with head := Function.update p.head (.sem k) (p.next n) }
  | none => some { p with semCount := Function.update p.semCount k (p.semCount k + 1) }

def getResource (r : Res) (p : Ccb ν) : Ccb ν :=
  let t := p.curr
  if p.owner r ≠ none ∨ κ.resPrio r < (κ.tdb t).readyPrio then p
  else { p with
    prio := if p.prio t < κ.resPrio r then Function.update p.prio t (κ.resPrio r) else p.prio
    owner := Function.update p.owner r (some t)
    prevPrio := Function.update p.prevPrio r (p.prio t)
    lastM := Function.update p.lastM t (r :: p.lastM t) }

def releaseResource (r : Res) (p : Ccb ν) : Ccb ν :=
  let t := p.curr
  if p.owner r = none ∨ (p.lastM t).head? ≠ some r then p
  else
    let rest := (p.lastM t).tail
    taskPreemptionPoint κ { p with
      lastM := Function.update p.lastM t rest
      prio := Function.update p.prio t
        (if rest ≠ [] then p.prevPrio r else (κ.tdb t).dispatchPrio)
      owner := Function.update p.owner r none }

/-! ### Memory phases -/

/-- The loop for the task of highest current priority among those of a kind. -/
def highestLoop (kind : Tid → Prop) [DecidablePred kind] (p : Ccb ν) :
    ℕ → Option ν → Option ν → Option (Option ν)
  | 0, _, _ => none
  | _ + 1, best, none => some best
  | k + 1, best, some c =>
    let better := kind (p.tdb c) ∧ ∀ b ∈ best, p.prio (p.tdb b) < p.prio (p.tdb c)
    highestLoop kind p k (if better then some c else best) (p.next c)

def highestStacked (p : Ccb ν) : Option (Option ν) :=
  highestLoop (fun t => (κ.tdb t).Regular) p fuel none (p.head .stk)

def highestSuspended (p : Ccb ν) : Option (Option ν) :=
  highestLoop (fun _ => True) p fuel none (p.head .suspended)

def firstRegularLoop (p : Ccb ν) : ℕ → Option ν → Option (Option ν)
  | 0, _ => none
  | _ + 1, none => some none
  | k + 1, some c =>
    if (κ.tdb (p.tdb c)).Regular then some (some c) else firstRegularLoop p k (p.next c)

def suspendHighestPriorityActiveTaskFromIsr (p : Ccb ν) : Option (Ccb ν) :=
  (highestStacked κ fuel p).bind fun best =>
    match best with
    | none => some p
    | some n => (listRemove fuel .stk n p).map (listPushToHead .suspended n)

def resumeHighestPriorityTaskFromIsr (p : Ccb ν) : Option (Ccb ν) :=
  (highestSuspended fuel p).bind fun best =>
    (firstRegularLoop κ p fuel (p.head .stk)).bind fun first =>
      match best with
      | none => some p
      | some n =>
        -- `list_push_to_tail` is the insertion before no node
        (listRemove fuel .suspended n
          { p with prio := Function.update p.prio (p.tdb n) Kernel.maxTaskPriority }).bind
            (listInsertBefore fuel .stk n first)

def resumeHighestPriorityTask (p : Ccb ν) : Option (Ccb ν) :=
  (highestSuspended fuel p).bind fun best =>
    match best with
    | none => some p
    | some n =>
      (listRemove fuel .suspended n p).bind fun p' =>
        listInsertAfter fuel .stk n (p'.head .stk) p'

def suspendRunningTask (p : Ccb ν) : Option (Ccb ν) :=
  let t := p.curr
  match p.head .stk with
  | none => some p
  | some top =>
    if (κ.tdb (p.tdb top)).Regular then
      (popRunning κ p).map fun (p', n) =>
        let p'' := listPushToHead .suspended n
          { p' with ownSn := Function.update p'.ownSn t (some n) }
        let p₃ := { p'' with
          status := Function.update p''.status t .readyStacked
          prio := Function.update p''.prio t (κ.tdb t).readyPrio }
        { p₃ with toTcbs := p₃.toTcbs.switchIn }
    else some p

/-! ### Runs -/

def perform (p : Ccb ν) : Op → Option (Ccb ν)
  | .activateTask t => if (κ.tdb t).Regular then activateTask κ fuel t p else none
  | .chainTask t =>
    if (κ.tdb p.curr).Regular ∧ (κ.tdb t).Regular then chainTask κ fuel t p else none
  | .terminate => if p.curr ≠ κ.idle then taskTerminated κ fuel p else none
  | .interrupt i => if (κ.tdb i).taskType = .isr2 then activateIsr2 i p else none
  | .preemptionPoint => some (taskPreemptionPoint κ p)
  | .waitEvent mask =>
    if (κ.tdb p.curr).taskType = .extended then waitEvent κ mask p else none
  | .setEvent t mask => setEvent κ fuel t mask p
  | .waitSem k => if (κ.tdb p.curr).taskType = .extended then waitSem κ fuel k p else none
  | .postSem k => postSem κ fuel k p
  | .suspendRunningTask => suspendRunningTask κ p
  | .suspendHighestPriorityActiveTaskFromIsr =>
    if (κ.tdb p.curr).taskType = .isr2 then suspendHighestPriorityActiveTaskFromIsr κ fuel p
    else none
  | .resumeHighestPriorityTaskFromIsr =>
    if (κ.tdb p.curr).taskType = .isr2 then resumeHighestPriorityTaskFromIsr κ fuel p else none
  | .resumeHighestPriorityTask =>
    if (κ.tdb p.curr).Regular then resumeHighestPriorityTask fuel p else none
  | .setPrio t x => some { p with prio := Function.update p.prio t x }

end FpMemSched.Erika.Pointers
