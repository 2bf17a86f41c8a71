import FpMemSched.GuestProtocol

/-!
The way of an interrupt into a guest (`irqchip.c`, `gic-v2.c`), for one target CPU.

An interrupt raised by another CPU is queued in the ring of the target, which the target
empties into its list registers; one raised on the target itself goes to a list register at
once and is queued only when they are all taken. The ring is the list of the entries from
`head` to `tail`.
-/

namespace FpMemSched.Irqchip

open FpMemSched.Lib FpMemSched.Lib.Runs FpMemSched.GuestProtocol
open FpMemSched.Arbiter hiding init

/-- An interrupt with the CPU that raised it. -/
structure Irq where
  id : ℕ
  sender : ℕ
  deriving DecidableEq

/-- A list register. -/
inductive Lr
  | free
  | pending (q : Irq)
  | active (q : Irq)
  deriving DecidableEq

def Lr.holds (id : ℕ) : Lr → Bool
  | .free => false
  | .pending q | .active q => q.id = id

def Lr.isActive : Lr → Bool
  | .active _ => true
  | _ => false

def maxPendingIrqs : ℕ := 256

structure Target where
  ring : List Irq
  lrs : List Lr
  /-- The maintenance interrupt is on. -/
  maint : Bool

inductive Inject
  | done (lrs : List Lr)
  | eexist
  | ebusy
  deriving DecidableEq

/-- Write a pending interrupt to the first list register that is free. -/
def fill (q : Irq) : List Lr → Option (List Lr)
  | [] => none
  | .free :: l => some (.pending q :: l)
  | r :: l => (fill q l).map (r :: ·)

def gicv2InjectIrq (q : Irq) (lrs : List Lr) : Inject :=
  if lrs.any (Lr.holds q.id) then .eexist
  else match fill q lrs with
    | some lrs' => .done lrs'
    | none => .ebusy

/-- Append to the ring. One slot stays empty, and a full ring takes no entry. -/
def enqueue (q : Irq) (t : Target) : Target :=
  if t.ring.length < maxPendingIrqs - 1 then { t with ring := t.ring ++ [q] } else t

def irqchipSetPending (localInjection : Bool) (q : Irq) (t : Target) : Target :=
  if localInjection then
    match gicv2InjectIrq q t.lrs with
    | .done lrs => { t with lrs := lrs }
    | .eexist => t
    | .ebusy => { enqueue q t with maint := true }
  else enqueue q t

/-- The loop of `irqchip_inject_pending` over what is in the ring. -/
def irqchipInjectPending : List Irq → List Lr → Target
  | [], lrs => ⟨[], lrs, false⟩
  | q :: ring, lrs =>
    match gicv2InjectIrq q lrs with
    | .done lrs' => irqchipInjectPending ring lrs'
    | .eexist => irqchipInjectPending ring lrs
    | .ebusy => ⟨q :: ring, lrs, true⟩

/-! ### The target CPU and its guest -/

/-- The CPU, the status of its guest, and the last of the two notifications that was raised
and that was handled. -/
structure Sys where
  target : Target
  status : MemArbitStatus
  lastRaised : Option ℕ
  lastHandled : Option ℕ

def init (numLr : ℕ) (st : MemArbitStatus) : Sys :=
  ⟨⟨[], List.replicate numLr .free, false⟩, st, none, none⟩

/-- One of the two notifications. -/
def IsNote (id : ℕ) : Prop := id = sgiMemoryPhaseStarted ∨ id = sgiMemoryPhaseEnded

instance (id : ℕ) : Decidable (IsNote id) := inferInstanceAs (Decidable (_ ∨ _))

inductive Action
  | raise (localInjection : Bool) (q : Irq)
  | inject
  /-- The guest acknowledges a list register and handles its interrupt. With all interrupts
  at one priority this waits for the completion of the one before. -/
  | ack (i : ℕ)
  | complete (i : ℕ)

def note (id : ℕ) (last : Option ℕ) : Option ℕ := if IsNote id then some id else last

def step (s : Sys) : Action → Option Sys
  | .raise loc q =>
    some { s with target := irqchipSetPending loc q s.target, lastRaised := note q.id s.lastRaised }
  | .inject => some { s with target := irqchipInjectPending s.target.ring s.target.lrs }
  | .ack i =>
    match s.target.lrs[i]? with
    | some (.pending q) =>
      if s.target.lrs.any Lr.isActive then none
      else some
        { s with
          target := { s.target with lrs := s.target.lrs.set i (.active q) }
          status := isrStatus q.id s.status
          lastHandled := note q.id s.lastHandled }
    | _ => none
  | .complete i =>
    match s.target.lrs[i]? with
    | some (.active _) =>
      some { s with target := { s.target with lrs := s.target.lrs.set i .free } }
    | _ => none

end FpMemSched.Irqchip
