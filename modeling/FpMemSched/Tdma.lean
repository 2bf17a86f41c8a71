import FpMemSched.Arbiter
import FpMemSched.Lib.Slots

/-!
The TDMA arbiter of the hypervisor (`tdma.c`).

Time is cut into cycles of `tdmaNumSlots` slots, one for each cell id from 1 on. Every CPU
has its own state, its own slot and its own compare timer; they share the counter. The
64-bit and 8-bit conversions of the source are written out.
-/

namespace FpMemSched.Tdma

open FpMemSched.Lib FpMemSched.Lib.Runs FpMemSched.Arbiter

def tdmaNumSlots : ℕ := 3
def tdmaSlotPeriodUs : ℕ := 2 * 1000000

def u64 (x : ℕ) : ℕ := x % 2 ^ 64
/-- Stored in an `s8`. -/
def s8 (x : ℤ) : ℤ := x.bmod 256
/-- Read as a `u8`. -/
def u8 (x : ℤ) : ℕ := (x % 256).toNat

/-- Counter ticks of one slot, from the counter frequency `CNTFRQ_EL0`. -/
def tdmaSlotPeriod (freq : ℕ) : ℕ := u64 (tdmaSlotPeriodUs * freq) / 1000000

inductive TimerTarget
  | start | stop
  deriving DecidableEq

inductive TdmaState
  | computing | memory | waiting | blocked
  deriving DecidableEq

/-- The TDMA fields of `struct per_cpu` and the compare timer of the CPU. -/
structure PerCpu where
  slotId : ℤ
  state : TdmaState
  suspendedFrom : TdmaState
  target : TimerTarget
  cmp : ℕ
  enabled : Bool
  deriving DecidableEq

/-- The state after `tdma_timer_init`, which leaves the timer off, and `tdma_on_cell_create`
for a cell other than the root cell. -/
def tdmaOnCellCreate (id : ℕ) : PerCpu :=
  let slotId := s8 (id - 1)
  { slotId := if slotId ≥ tdmaNumSlots then -1 else slotId
    state := .computing
    suspendedFrom := .computing
    target := .start
    cmp := 2 ^ 64 - 1
    enabled := false }

/-- Set the compare value and the target, and enable the timer. -/
def PerCpu.arm (c : PerCpu) (cmp : ℕ) (target : TimerTarget) : PerCpu :=
  { c with cmp := cmp, target := target, enabled := true }

/-- Arm the timer for the next border of the own slot; tells whether the slot is on. -/
def tdmaTimerStart (p timerCount : ℕ) (c : PerCpu) : PerCpu × Bool :=
  let slotId := u8 c.slotId
  let cyclePeriod := u64 (p * tdmaNumSlots)
  let currentSlotId := timerCount / p % tdmaNumSlots % 256
  let cycleStart := u64 (timerCount / cyclePeriod * cyclePeriod)
  if currentSlotId = slotId then
    (c.arm (u64 (cycleStart + (slotId + 1) * p)) .stop, true)
  else if currentSlotId < slotId then
    (c.arm (u64 (cycleStart + slotId * p)) .start, false)
  else
    (c.arm (u64 (cycleStart + slotId * p + cyclePeriod)) .start, false)

/-- The timer interrupt, with the interrupts it raises for the CPU. -/
def tdmaTimerIsr (p timerCount : ℕ) (c : PerCpu) : PerCpu × List ℕ :=
  match c.target with
  | .start =>
    let c := if c.state = .blocked then { c with state := c.suspendedFrom } else c
    if c.state = .waiting then
      ({ (tdmaTimerStart p timerCount c).1 with state := .memory }, [])
    else (c, [])
  | .stop =>
    if c.state ≠ .memory then (c, [])
    else
      ({ (tdmaTimerStart p timerCount c).1 with state := .waiting }, [sgiMemoryPhaseEnded])

def tdmaHypercall (p timerCount actionCode : ℕ) (c : PerCpu) : PerCpu × Reply :=
  if actionCode = beginMemPhase then
    if c.state = .computing then
      let (c', currentlyInMemPhase) := tdmaTimerStart p timerCount c
      if currentlyInMemPhase then ({ c' with state := .memory }, .ack)
      else ({ c' with state := .waiting }, .nack)
    else (c, .invalid)
  else if actionCode = endMemPhase then
    if c.state = .computing then (c, .invalid)
    else ({ c with enabled := false, state := .computing }, .ack)
  else (c, .invalid)

/-! ### The system -/

section System

variable {ι : Type*} [DecidableEq ι]

/-- The CPUs of the cells, the counter, and the interrupts raised so far. -/
structure Sys (ι : Type*) where
  time : ℕ
  cpu : ι → PerCpu
  raised : List (ι × ℕ)

def init (id : ι → ℕ) : Sys ι := ⟨0, fun c => tdmaOnCellCreate (id c), []⟩

def Sys.setCpu (s : Sys ι) (c : ι) (d : PerCpu) (raised : List ℕ) : Sys ι :=
  { s with cpu := Function.update s.cpu c d, raised := s.raised ++ raised.map (c, ·) }

inductive Action (ι : Type*)
  | tick (t : ℕ)
  | beginPhase (c : ι)
  | endPhase (c : ι)
  | timer (c : ι)

/-- The timer interrupt of the CPU is due. -/
def PerCpu.due (c : PerCpu) (t : ℕ) : Prop := c.enabled = true ∧ c.cmp ≤ t

instance (c : PerCpu) (t : ℕ) : Decidable (c.due t) := inferInstanceAs (Decidable (_ ∧ _))

def step (p : ℕ) (s : Sys ι) : Action ι → Option (Sys ι)
  | .tick t => if s.time ≤ t then some { s with time := t } else none
  | .beginPhase c =>
    some (s.setCpu c (tdmaHypercall p s.time beginMemPhase (s.cpu c)).1 [])
  | .endPhase c =>
    some (s.setCpu c (tdmaHypercall p s.time endMemPhase (s.cpu c)).1 [])
  | .timer c =>
    if (s.cpu c).due s.time then
      let (c', raised) := tdmaTimerIsr p s.time (s.cpu c)
      some (s.setCpu c c' raised)
    else none

/-- A timer interrupt is handled within the slot that begins at its compare value. -/
def Timely (p : ℕ) (s : Sys ι) : Action ι → Prop
  | .timer c => s.time < (s.cpu c).cmp + p
  | _ => True

instance (p : ℕ) (s : Sys ι) : ∀ a, Decidable (Timely p s a)
  | .timer c => inferInstanceAs (Decidable (s.time < (s.cpu c).cmp + p))
  | .tick _ | .beginPhase _ | .endPhase _ => isTrue trivial

end System

end FpMemSched.Tdma
