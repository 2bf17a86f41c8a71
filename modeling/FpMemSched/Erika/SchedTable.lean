import FpMemSched.Erika.Alarm

/-!
Schedule tables (`ee_ar_sched_table.c` and the handler of their triggers in `ee_oo_counter.c`).

A schedule table has a list of expiry points, each at an offset from the start of the table. Its
trigger waits in the queue of the counter for the next point. When it expires the handler
processes that point and all those at the same offset, and puts the trigger back for the next
one; after the last point of a repeating table it waits for the end of the round and begins
another. The actions of a point run outside of the critical section.
-/

namespace FpMemSched.Erika.SchedTable

open FpMemSched.Erika.Alarm

inductive SynchStrategy
  | none | implicit | explicit
  deriving DecidableEq

inductive StStatus
  | stopped | next | running | runningAndSynchronous
  deriving DecidableEq

/-- The bits of `SCHEDULETABLE_RUNNING` are set. -/
def StStatus.isRunning : StStatus → Bool
  | .stopped | .next => false
  | .running | .runningAndSynchronous => true

structure SchedTabDb (w : ℕ) where
  /-- The offsets of the expiry points. -/
  expiryPoints : List (BitVec w)
  syncStrategy : SynchStrategy
  duration : BitVec w
  repeated : Bool

def SchedTabDb.offset {w : ℕ} (t : SchedTabDb w) (i : ℕ) : BitVec w := t.expiryPoints.getD i 0

structure Tables (w : ℕ) (α : Type) where
  counter : Counter w α
  nextTable : α → Option α
  start : α → BitVec w
  stStatus : α → StStatus
  /-- The expiry point to be processed; none for `INVALID_SCHEDULETABLE_POSITION`. -/
  position : α → Option ℕ
  /-- The expiry point whose actions run. -/
  acting : Option ℕ

variable {w : ℕ} {α : Type} [DecidableEq α]

def init : Tables w α where
  counter := Alarm.init
  nextTable _ := none
  start _ := 0
  stStatus _ := .stopped
  position _ := some 0
  acting := none

variable [Fintype α]

/-! ### Starts -/

def stStartRel (db : CounterDb w) (σ : α → SchedTabDb w) (a : α) (offset : BitVec w)
    (s : Tables w α) : Option (Tables w α × StatusType) :=
  let s' := { s with
    nextTable := Function.update s.nextTable a none
    position := Function.update s.position a (some 0)
    stStatus := Function.update s.stStatus a .running
    start := Function.update s.start a (counterEvalWhen db offset s.counter) }
  match s.counter.status a with
  | .active | .expired | .reenabled => some (s, .eOsState)
  | .canceled => some
      ({ s' with counter := { s.counter with
          when := Function.update s.counter.when a (counterEvalWhen db offset s.counter)
          status := Function.update s.counter.status a .reenabled } }, .eOk)
  | .inactive =>
    (counterInsertRelTrigger db a (offset + (σ a).offset 0)
      { s.counter with status := Function.update s.counter.status a .active }).map
      fun c => ({ s' with counter := c }, .eOk)

def stStartAbs (σ : α → SchedTabDb w) (a : α) (start : BitVec w) (s : Tables w α) :
    Option (Tables w α × StatusType) :=
  let s' := { s with
    nextTable := Function.update s.nextTable a none
    position := Function.update s.position a (some 0)
    stStatus := Function.update s.stStatus a
      (if (σ a).syncStrategy = SynchStrategy.implicit then .runningAndSynchronous else .running)
    start := Function.update s.start a start }
  match s.counter.status a with
  | .active | .expired | .reenabled => some (s, .eOsState)
  | .canceled => some
      ({ s' with counter := { s.counter with
          when := Function.update s.counter.when a start
          status := Function.update s.counter.status a .reenabled } }, .eOk)
  | .inactive =>
    (counterInsertAbsTrigger a (start + (σ a).offset 0)
      { s.counter with status := Function.update s.counter.status a .active }).map
      fun c => ({ s' with counter := c }, .eOk)

def startScheduleTableRel (db : CounterDb w) (σ : α → SchedTabDb w) (a : α) (offset : BitVec w)
    (s : Tables w α) : Option (Tables w α × StatusType) :=
  if (σ a).syncStrategy = SynchStrategy.implicit then some (s, .eOsId)
  else if offset = 0 ∨ db.maxallowedvalue < offset then some (s, .eOsValue)
  else if s.stStatus a ≠ .stopped then some (s, .eOsState)
  else stStartRel db σ a offset s

def startScheduleTableAbs (db : CounterDb w) (σ : α → SchedTabDb w) (a : α) (start : BitVec w)
    (s : Tables w α) : Option (Tables w α × StatusType) :=
  if db.maxallowedvalue < start then some (s, .eOsValue)
  else if s.stStatus a ≠ .stopped then some (s, .eOsState)
  else stStartAbs σ a start s

/-! ### Expiry points -/

/-- The trigger goes back in the queue, and its handling ends. -/
def reinsert (a : α) (nextWhen : BitVec w) (s : Tables w α) : Option (Tables w α) :=
  (counterInsertAbsTrigger a nextWhen
    { s.counter with status := Function.update s.counter.status a .active }).map
    fun c => { s with counter := { c with handled := none } }

omit [DecidableEq α] [Fintype α] in
/-- The handling of the trigger ends. -/
def Tables.leave (s : Tables w α) : Tables w α :=
  { s with counter := { s.counter with handled := none } }

/-- The handler up to the actions of an expiry point. -/
def handleStExpiryPoint (σ : α → SchedTabDb w) (a : α) (s : Tables w α) : Option (Tables w α) :=
  if s.counter.status a = .expired then
    match s.position a with
    | none =>
      match s.nextTable a with
      | some b =>
        let s := { s with
          stStatus := Function.update (Function.update s.stStatus a .stopped) b .running
          counter := { s.counter with
            status := Function.update s.counter.status a .inactive
            handled := some b }
          position := Function.update s.position b (some 0)
          start := Function.update s.start b s.counter.value }
        if 0 < (σ b).offset 0 then reinsert b (s.start b + (σ b).offset 0) s
        -- else the first expiry point is handled immediately
        else some s
      | none =>
        let s := { s with
          position := Function.update s.position a (some 0)
          start := Function.update s.start a s.counter.value }
        if 0 < (σ a).offset 0 then reinsert a (s.start a + (σ a).offset 0) s
        else some s
    | some i => some { s with acting := some i }
  else some s.leave

/-- The handler after the actions of the expiry point. -/
def expiryPointHandled (σ : α → SchedTabDb w) (a : α) (i : ℕ) (s : Tables w α) :
    Option (Tables w α) :=
  let s := { s with acting := none }
  if s.counter.status a = .expired then
    if i + 1 = (σ a).expiryPoints.length then
      if s.nextTable a = none ∧ (σ a).repeated = false then
        some { s with
          stStatus := Function.update s.stStatus a .stopped
          counter := { s.counter with
            status := Function.update s.counter.status a .inactive
            handled := none } }
      else
        let s := { s with position := Function.update s.position a none }
        if (σ a).offset i < (σ a).duration then reinsert a (s.start a + (σ a).duration) s
        else some s
    else
      let s := { s with position := Function.update s.position a (some (i + 1)) }
      if (σ a).offset i < (σ a).offset (i + 1) then
        reinsert a (s.start a + (σ a).offset (i + 1)) s
      -- else handle the next expiry point immediately
      else some s
  else some s.leave

/-! ### Stop and next -/

omit [Fintype α] in
/-- The next table of this one, if there is one, does not wait for it any more. -/
def Tables.stopNext (a : α) (s : Tables w α) : α → StStatus :=
  match s.nextTable a with
  | some b => Function.update s.stStatus b .stopped
  | none => s.stStatus

def stStop (a : α) (s : Tables w α) : Option (Tables w α × StatusType) :=
  let s' := { s with stStatus := Function.update (s.stopNext a) a .stopped }
  match s.counter.status a with
  | .inactive | .canceled => some (s, .eOsNofunc)
  | .expired | .reenabled => some
      ({ s' with counter := { s.counter with
          status := Function.update s.counter.status a .canceled } }, .eOk)
  | .active =>
    (counterCancelTrigger a
      { s.counter with status := Function.update s.counter.status a .inactive }).map
      fun c => ({ s' with counter := c }, .eOk)

omit [Fintype α] in
/-- All the tables have the same counter. -/
def nextScheduleTable (σ : α → SchedTabDb w) (a b : α) (s : Tables w α) :
    Tables w α × StatusType :=
  if (σ a).syncStrategy ≠ (σ b).syncStrategy then (s, .eOsId)
  else if s.stStatus a = .stopped ∨ s.stStatus a = .next then (s, .eOsNofunc)
  else if s.stStatus b ≠ .stopped then (s, .eOsState)
  else
    ({ s with
      nextTable := Function.update s.nextTable a (some b)
      stStatus := Function.update (s.stopNext a) b .next }, .eOk)

/-! ### Runs -/

/-- A step of the counter and its schedule tables: a call, or a part of the handling of an
expired trigger. -/
inductive Step (w : ℕ) (α : Type)
  | startRel (a : α) (offset : BitVec w)
  | startAbs (a : α) (start : BitVec w)
  | increment
  | handle (a : α)
  | point
  | handled
  deriving DecidableEq

def step (db : CounterDb w) (σ : α → SchedTabDb w) (s : Tables w α) :
    Step w α → Option (Tables w α)
  | .startRel a offset => (startScheduleTableRel db σ a offset s).map Prod.fst
  | .startAbs a start => (startScheduleTableAbs db σ a start s).map Prod.fst
  | .increment =>
    if s.counter.Quiet then
      (counterIncrement db s.counter).map fun c => { s with counter := c }
    else none
  | .handle a =>
    if s.counter.triggered = some a ∧ s.counter.handled = none then
      some { s with counter := { s.counter with
        triggered := s.counter.next a
        handled := some a } }
    else none
  | .point =>
    match s.counter.handled, s.acting with
    | some a, none => handleStExpiryPoint σ a s
    | _, _ => none
  | .handled =>
    match s.counter.handled, s.acting with
    | some a, some i => expiryPointHandled σ a i s
    | _, _ => none

end FpMemSched.Erika.SchedTable
