import Mathlib.Data.Nat.Notation

/-!
How the hypervisor stops and restarts a CPU (`arch/arm-common/control.c`, `psci.c`).

A management command suspends the CPUs of a cell, leaves its request in their per-CPU data and
lets them go on. A CPU carries the request out in `check_events` before it returns to its
guest, so that the guest does not run in between.
-/

namespace FpMemSched.CpuControl

/-- The control fields of `struct per_cpu`. -/
structure Control where
  park : Bool
  reset : Bool
  waitForPoweron : Bool
  failed : Bool
  /-- `none` is `PSCI_INVALID_ADDRESS`. -/
  cpuOnEntry : Option ℕ
  deriving DecidableEq

/-- The guest of the CPU runs. -/
def Control.Running (c : Control) : Prop :=
  c.park = false ∧ c.reset = false ∧ c.waitForPoweron = false

instance (c : Control) : Decidable c.Running := inferInstanceAs (Decidable (_ ∧ _))

def enterCpuOff (c : Control) : Control := { c with park := false, waitForPoweron := true }

/-- Also what `PSCI_CPU_OFF` does. -/
def armCpuPark (c : Control) : Control := enterCpuOff c

def archResetCpu (c : Control) : Control := { c with reset := true }

/-- The arbiter is told separately. -/
def archParkCpu (c : Control) : Control := { c with park := true }

def panicPark (c : Control) : Control := armCpuPark { c with failed := true }

/-- The part of `psci_emulate_cpu_on` that concerns the target. -/
def psciEmulateCpuOn (entry : ℕ) (c : Control) : Control :=
  if c.waitForPoweron then { c with cpuOnEntry := some entry, reset := true } else c

/-- How a CPU leaves `check_events`: back to its guest, to the parking code, or to the entry
address of its guest. The last two reset the CPU. -/
inductive Outcome
  | resumed | parked | restarted
  deriving DecidableEq

/-- `check_events` of a CPU that is not suspended any more. A park request comes first and
leaves a reset request pending. -/
def checkEvents (c : Control) : Control × Outcome :=
  if c.park then (armCpuPark (enterCpuOff c), .parked)
  else if c.reset then
    let c := { c with reset := false }
    if c.cpuOnEntry ≠ none then ({ c with waitForPoweron := false }, .restarted)
    else (armCpuPark (enterCpuOff c), .parked)
  else if c.waitForPoweron then (armCpuPark c, .parked)
  else (c, .resumed)

lemma checkEvents_cases (c : Control) :
    ((checkEvents c).2 = .restarted ∧ c.park = false ∧ c.reset = true ∧
      (checkEvents c).1 = { c with reset := false, waitForPoweron := false }) ∨
    ((checkEvents c).2 = .parked ∧ (c.park ∨ c.reset ∨ c.waitForPoweron) ∧
      (checkEvents c).1.waitForPoweron = true ∧ (checkEvents c).1.park = false ∧
      (checkEvents c).1.failed = c.failed) ∨
    ((checkEvents c).2 = .resumed ∧ c.Running ∧ (checkEvents c).1 = c) := by
  unfold checkEvents
  by_cases hp : c.park = true
  · exact Or.inr (Or.inl (by simp [hp, armCpuPark, enterCpuOff]))
  by_cases hr : c.reset = true
  · by_cases he : c.cpuOnEntry = none
    · exact Or.inr (Or.inl (by simp [hp, hr, he, armCpuPark, enterCpuOff]))
    · exact Or.inl (by simp [hp, hr, he])
  by_cases hw : c.waitForPoweron = true
  · exact Or.inr (Or.inl (by simp [hp, hr, hw, armCpuPark, enterCpuOff]))
  · exact Or.inr (Or.inr (by simp [hp, hr, hw, Control.Running]))

end FpMemSched.CpuControl
