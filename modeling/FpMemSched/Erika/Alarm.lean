import Mathlib.Data.BitVec
import Mathlib.Data.Fintype.Card
import Mathlib.Logic.Function.Basic

/-!
Counters and alarms (`ee_oo_counter.c`, `ee_oo_alarm.c`).

A counter has the triggers of its running alarms in a queue that is linked through `p_next`,
ordered by when they expire. A tick takes the triggers that expire off the queue, still linked,
and then handles one after the other: their actions run outside of the critical section, so
that alarms may be set and cancelled meanwhile, and a cyclic alarm is put back in the queue. The
calls that other cores make before an increment has the lock are in `TwoCores`. The loops over the
queue have as many turns as there are alarms; a loop that needs more has no result, and neither
has a function that would follow a null pointer.
-/

namespace FpMemSched.Erika.Alarm

inductive TriggerStatus
  | inactive | canceled | active | expired | reenabled
  deriving DecidableEq

inductive StatusType
  | eOk | eOsId | eOsState | eOsNofunc | eOsValue
  deriving DecidableEq

/-- The constants of a counter. A counter without prescaler has one tick for each increment. -/
structure CounterDb (w : ℕ) where
  maxallowedvalue : BitVec w
  ticksperbase : BitVec w

structure Counter (w : ℕ) (α : Type) where
  value : BitVec w
  prescaler : BitVec w
  triggerQueue : Option α
  next : α → Option α
  when : α → BitVec w
  status : α → TriggerStatus
  cycle : α → BitVec w
  /-- `p_triggered_db`: the expired trigger to be handled next. -/
  triggered : Option α
  /-- The trigger whose action runs. -/
  handled : Option α

variable {w : ℕ} {α : Type}

def init : Counter w α where
  value := 0
  prescaler := 0
  triggerQueue := none
  next _ := none
  when _ := 0
  status _ := .inactive
  cycle _ := 0
  triggered := none
  handled := none

/-! ### The queue -/

def counterEvalWhen (db : CounterDb w) (delta : BitVec w) (c : Counter w α) : BitVec w :=
  if c.value ≤ db.maxallowedvalue - delta then c.value + delta
  else delta - (db.maxallowedvalue - c.value) - 1

/-- The new trigger comes after the current one. -/
def Counter.Passes (c : Counter w α) (new : BitVec w) (cur : α) : Prop :=
  if c.value < c.when cur then
    -- this loop of the counter
    c.when cur ≤ new ∨ new ≤ c.value
  else
    -- the next loop
    new ≤ c.value ∧ c.when cur ≤ new

instance (c : Counter w α) (new : BitVec w) (cur : α) : Decidable (c.Passes new cur) :=
  inferInstanceAs (Decidable (ite _ _ _))

def Counter.insertLoop (c : Counter w α) (new : BitVec w) :
    ℕ → Option α → Option α → Option (Option α × Option α)
  | 0, _, _ => none
  | _ + 1, prev, none => some (prev, none)
  | k + 1, prev, some cur =>
    if c.Passes new cur then c.insertLoop new k (some cur) (c.next cur)
    else some (prev, some cur)

variable [DecidableEq α]

def Counter.cancelLoop (c : Counter w α) (a : α) : ℕ → α → Option (α × Option α)
  | 0, _ => none
  | k + 1, prev =>
    match c.next prev with
    | none => some (prev, none)
    | some cur => if cur = a then some (prev, some cur) else c.cancelLoop a k cur

/-- Mark the triggers that expire now; tells the last one and the one after it. -/
def Counter.expireLoop (c : Counter w α) : ℕ → α → Option (Counter w α × α × Option α)
  | 0, _ => none
  | k + 1, cur =>
    let c' := { c with status := Function.update c.status cur .expired }
    match c.next cur with
    | none => some (c', cur, none)
    | some n => if c.when n = c.value then c'.expireLoop k n else some (c', cur, some n)

variable [Fintype α]

def counterInsertAbsTrigger (a : α) (when : BitVec w) (c : Counter w α) : Option (Counter w α) :=
  let c := { c with when := Function.update c.when a when }
  (c.insertLoop when (Fintype.card α + 1) none c.triggerQueue).map fun (prev, cur) =>
    let c' := match prev with
      | some p => { c with next := Function.update c.next p (some a) }
      | none => { c with triggerQueue := some a }
    { c' with next := Function.update c'.next a cur }

def counterInsertRelTrigger (db : CounterDb w) (a : α) (delta : BitVec w) (c : Counter w α) :
    Option (Counter w α) :=
  counterInsertAbsTrigger a (counterEvalWhen db delta c) c

def counterCancelTrigger (a : α) (c : Counter w α) : Option (Counter w α) :=
  match c.triggerQueue with
  | none => none
  | some h =>
    if h = a then some { c with triggerQueue := c.next a }
    else (c.cancelLoop a (Fintype.card α + 1) h).map fun (prev, cur) =>
      match cur with
      | some _ => { c with next := Function.update c.next prev (c.next a) }
      | none => c

/-! ### Alarms -/

def alarmSetRel (db : CounterDb w) (a : α) (increment cycle : BitVec w) (c : Counter w α) :
    Option (Counter w α × StatusType) :=
  match c.status a with
  | .active | .expired | .reenabled => some (c, .eOsState)
  | .canceled => some
      ({ c with
        cycle := Function.update c.cycle a cycle
        when := Function.update c.when a (counterEvalWhen db increment c)
        status := Function.update c.status a .reenabled }, .eOk)
  | .inactive =>
    (counterInsertRelTrigger db a increment { c with
      cycle := Function.update c.cycle a cycle
      status := Function.update c.status a .active }).map (·, .eOk)

def alarmSetAbs (a : α) (start cycle : BitVec w) (c : Counter w α) :
    Option (Counter w α × StatusType) :=
  match c.status a with
  | .active | .expired | .reenabled => some (c, .eOsState)
  | .canceled => some
      ({ c with
        cycle := Function.update c.cycle a cycle
        when := Function.update c.when a start
        status := Function.update c.status a .reenabled }, .eOk)
  | .inactive =>
    (counterInsertAbsTrigger a start { c with
      cycle := Function.update c.cycle a cycle
      status := Function.update c.status a .active }).map (·, .eOk)

def alarmCancel (a : α) (c : Counter w α) : Option (Counter w α × StatusType) :=
  match c.status a with
  | .inactive | .canceled => some (c, .eOsNofunc)
  | .expired | .reenabled => some
      ({ c with status := Function.update c.status a .canceled }, .eOk)
  | .active =>
    (counterCancelTrigger a { c with status := Function.update c.status a .inactive }).map
      (·, .eOk)

/-! ### Ticks -/

/-- The prescaler; tells whether the increment is a tick of the counter. -/
def Counter.prescale (db : CounterDb w) (c : Counter w α) : Counter w α × Bool :=
  if 1 < db.ticksperbase then
    if db.ticksperbase ≤ c.prescaler + 1 then ({ c with prescaler := 0 }, true)
    else ({ c with prescaler := c.prescaler + 1 }, false)
  else (c, true)

/-- The first part of the increment, before the critical section: the prescaler and the value. -/
def Counter.incrementValue (db : CounterDb w) (c : Counter w α) : Counter w α × Bool :=
  match c.prescale db with
  | (c, false) => (c, false)
  | (c, true) =>
    ({ c with value := if db.maxallowedvalue ≤ c.value then 0 else c.value + 1 }, true)

/-- Pop all triggered from the trigger queue. -/
def Counter.popTriggered (c : Counter w α) : Option (Counter w α) :=
  match c.triggerQueue with
  | none => some c
  | some h =>
    if c.when h = c.value then
      (c.expireLoop (Fintype.card α + 1) h).map fun (c, prev, cur) =>
        { c with
          next := Function.update c.next prev none
          triggerQueue := cur
          triggered := some h }
    else some c

/-- The increment up to the handling of the triggers that have expired, with no call of another
core before the critical section. -/
def counterIncrement (db : CounterDb w) (c : Counter w α) : Option (Counter w α) :=
  match c.incrementValue db with
  | (c, false) => some c
  | (c, true) => c.popTriggered

/-- What follows the action of an alarm. -/
def counterHandleAlarm (db : CounterDb w) (a : α) (c : Counter w α) : Option (Counter w α) :=
  if c.status a = .expired then
    if 0 < c.cycle a then
      counterInsertRelTrigger db a (c.cycle a)
        { c with status := Function.update c.status a .active }
    else some { c with status := Function.update c.status a .inactive }
  else some c

/-! ### Runs -/

/-- A step of the counter: a call, the begin of the action of an expired alarm, or its end. -/
inductive Step (w : ℕ) (α : Type)
  | setRel (a : α) (increment cycle : BitVec w)
  | setAbs (a : α) (start cycle : BitVec w)
  | cancel (a : α)
  | increment
  | action (a : α)
  | finish
  deriving DecidableEq

/-- The triggers of the last tick have all been handled. -/
def Counter.Quiet (c : Counter w α) : Prop := c.triggered = none ∧ c.handled = none

instance (c : Counter w α) : Decidable c.Quiet := inferInstanceAs (Decidable (_ ∧ _))

/-- The calls come with values that the API lets pass, `E_OS_VALUE`. -/
def step (db : CounterDb w) (c : Counter w α) : Step w α → Option (Counter w α)
  | .setRel a increment cycle =>
    if 0 < increment ∧ increment ≤ db.maxallowedvalue ∧ cycle ≤ db.maxallowedvalue then
      (alarmSetRel db a increment cycle c).map Prod.fst
    else none
  | .setAbs a start cycle =>
    if start ≤ db.maxallowedvalue ∧ cycle ≤ db.maxallowedvalue then
      (alarmSetAbs a start cycle c).map Prod.fst
    else none
  | .cancel a => (alarmCancel a c).map Prod.fst
  | .increment => if c.Quiet then counterIncrement db c else none
  | .action a =>
    -- the next trigger is read before the action, which may change `p_next`
    if c.triggered = some a ∧ c.handled = none then
      some { c with triggered := c.next a, handled := some a }
    else none
  | .finish =>
    match c.handled with
    | none => none
    | some a => (counterHandleAlarm db a c).map fun c => { c with handled := none }

end FpMemSched.Erika.Alarm
