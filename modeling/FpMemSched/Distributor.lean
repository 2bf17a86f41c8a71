import Mathlib.Data.BitVec
import Mathlib.Logic.Function.Basic

/-!
Guest accesses to the distributor (`irqchip.c`, `gic-v2.c`, `mmio_perform_access`).

The distributor has, for each kind of setting, registers of 32 bits that each hold the bits of
several interrupts. Enable, pending and active bits are set by writes to one bank of registers
and cleared by writes to another; the rest is plain. The hypervisor restricts an access of a
guest to the interrupts of its cell. Registers that do not belong to single interrupts are left
out.
-/

namespace FpMemSched.Distributor

/-! ### The distributor -/

inductive Kind
  | enable | pending | active | group | config | priority | targets
  deriving DecidableEq

/-- The bits of an interrupt in the registers of a kind. -/
def Kind.bits : Kind → ℕ
  | .enable | .pending | .active | .group => 1
  | .config => 2
  | .priority | .targets => 8

/-- What a write does to the bits of a register. -/
inductive Effect
  | plain | set | clear
  deriving DecidableEq

/-- A bank of registers. -/
structure Bank where
  base : ℕ
  words : ℕ
  kind : Kind
  effect : Effect
  deriving DecidableEq

def igroupr : Bank := ⟨0x80, 32, .group, .plain⟩
def isenabler : Bank := ⟨0x100, 32, .enable, .set⟩
def icenabler : Bank := ⟨0x180, 32, .enable, .clear⟩
def ispendr : Bank := ⟨0x200, 32, .pending, .set⟩
def icpendr : Bank := ⟨0x280, 32, .pending, .clear⟩
def isactiver : Bank := ⟨0x300, 32, .active, .set⟩
def icactiver : Bank := ⟨0x380, 32, .active, .clear⟩
def ipriorityr : Bank := ⟨0x400, 255, .priority, .plain⟩
def itargetsr : Bank := ⟨0x800, 256, .targets, .plain⟩
def icfgr : Bank := ⟨0xc00, 64, .config, .plain⟩

def banks : List Bank :=
  [igroupr, isenabler, icenabler, ispendr, icpendr, isactiver, icactiver, ipriorityr, itargetsr,
    icfgr]

/-- The bank and the register of an address. -/
def decode (address : ℕ) : Option (Bank × ℕ) :=
  (banks.find? fun b => decide (b.base ≤ address ∧ address < b.base + 4 * b.words)).map
    fun b => (b, (address - b.base) / 4)

/-- The registers of each kind. -/
abbrev Dist := Kind → ℕ → BitVec 32

structure MmioAccess where
  address : ℕ
  size : ℕ
  isWrite : Bool
  value : BitVec 64
  deriving DecidableEq

inductive MmioResult
  | handled | error
  deriving DecidableEq

/-- The register after bits of it are written; `reach` marks those that the access addresses. -/
def Effect.apply (e : Effect) (old reach bits : BitVec 32) : BitVec 32 :=
  match e with
  | .plain => (old &&& ~~~reach) ||| (bits &&& reach)
  | .set => old ||| (bits &&& reach)
  | .clear => old &&& ~~~(bits &&& reach)

/-- Ones for the bytes of the register that are accessed. -/
def reach (m : MmioAccess) : BitVec 32 :=
  ((BitVec.allOnes (8 * m.size)).setWidth 32) <<< (8 * (m.address % 4))

def mmioPerformAccess (d : Dist) (m : MmioAccess) : Dist × MmioAccess :=
  match decode m.address with
  | none => (d, m)
  | some (b, k) =>
    if m.isWrite then
      (Function.update d b.kind (Function.update (d b.kind) k
        (b.effect.apply (d b.kind k) (reach m)
          ((m.value <<< (8 * (m.address % 4))).setWidth 32))), m)
    else
      (d, { m with value :=
        (((d b.kind k) >>> (8 * (m.address % 4))).setWidth (8 * m.size)).setWidth 64 })

/-! ### The hypervisor -/

structure Cell where
  irqBitmap : ℕ → BitVec 32
  ownsCpu : ℕ → Bool

def irqchipIrqInCell (cell : Cell) (irq : ℕ) : Bool :=
  if 1024 ≤ irq then false else (cell.irqBitmap (irq / 32)).getLsbD (irq % 32)

/-- The position of the least significant one. -/
def ffsl (x : ℕ) : ℕ := ((List.range 64).find? fun i => x.testBit i).getD 0

def accessMask (cell : Cell) (regIndex bitsPerIrq : ℕ) : BitVec 64 :=
  let irqsPerReg := 32 >>> ffsl bitsPerIrq
  let irqBits : BitVec 64 := (1 <<< bitsPerIrq) - 1
  (List.range irqsPerReg).foldl (fun mask irq =>
    if irqchipIrqInCell cell (regIndex * irqsPerReg + irq) then
      mask ||| (irqBits <<< (irq * bitsPerIrq))
    else mask) 0

def restrictBitmaskAccess (cell : Cell) (d : Dist) (m : MmioAccess) (regIndex bitsPerIrq : ℕ)
    (isPoke : Bool) : MmioResult × Dist × MmioAccess :=
  let mask := accessMask cell regIndex bitsPerIrq
  if m.isWrite = false then
    let (d, m) := mmioPerformAccess d m
    (.handled, d, { m with value := m.value &&& mask })
  else if isPoke = false then
    -- read the register, and write it back with the bits of the cell
    let (d, r) := mmioPerformAccess d { m with isWrite := false }
    let m := { r with isWrite := true, value := (r.value &&& ~~~mask) ||| (m.value &&& mask) }
    (.handled, mmioPerformAccess d m)
  else (.handled, mmioPerformAccess d { m with value := m.value &&& mask })

def isSpi (irq : ℕ) : Prop := 31 < irq ∧ irq < 1020

instance (irq : ℕ) : Decidable (isSpi irq) := inferInstanceAs (Decidable (_ ∧ _))

/-- The targets name no CPU of another cell. -/
def gicv2TargetsInCell (targetCpuMap : List (BitVec 8)) (cell : Cell) (targets : BitVec 8) :
    Bool :=
  targetCpuMap.zipIdx.all fun p => decide (targets &&& p.1 = 0) || cell.ownsCpu p.2

/-- An interrupt of the cell in this word would be routed outside of the cell. -/
def routedOutside (targetCpuMap : List (BitVec 8)) (cell : Cell) (irqBase : ℕ)
    (value : BitVec 64) : Bool :=
  (List.range 4).any fun n => irqchipIrqInCell cell (irqBase + n) &&
    !gicv2TargetsInCell targetCpuMap cell ((value >>> (8 * n)).setWidth 8)

def gicv2HandleIrqTarget (targetCpuMap : List (BitVec 8)) (cell : Cell) (d : Dist)
    (m : MmioAccess) (irq : ℕ) : MmioResult × Dist × MmioAccess :=
  let irqBase := irq - irq % 4
  if ¬ isSpi irq then (.handled, mmioPerformAccess d m)
  else
    -- always a word access
    let m := { m with
      address := m.address - m.address % 4
      value := m.value <<< (8 * (irq % 4))
      size := 4 }
    let mask : BitVec 32 := (List.range 4).foldl (fun mask n =>
      if irqchipIrqInCell cell (irqBase + n) then mask ||| ((0xff : BitVec 32) <<< (8 * n))
      else mask) 0
    if m.isWrite then
      if routedOutside targetCpuMap cell irqBase m.value then (.error, d, m)
      else
        let old := d .targets (irqBase / 4)
        (.handled, mmioPerformAccess d { m with
          value := (m.value &&& mask.setWidth 64) ||| (old &&& ~~~mask).setWidth 64 })
    else
      let (d, m) := mmioPerformAccess d m
      (.handled, d, { m with value := m.value &&& mask.setWidth 64 })

/-- The registers of the bank, up to the first byte of the last one. -/
def regRange (b : Bank) (size reg : ℕ) : Prop :=
  b.base ≤ reg ∧ reg ≤ b.base + (4 * b.words / size - 1) * size

instance (b : Bank) (size reg : ℕ) : Decidable (regRange b size reg) :=
  inferInstanceAs (Decidable (_ ∧ _))

def gicHandleDistAccess (targetCpuMap : List (BitVec 8)) (cell : Cell) (d : Dist)
    (m : MmioAccess) : MmioResult × Dist × MmioAccess :=
  let reg := m.address
  if regRange itargetsr 1 reg then
    gicv2HandleIrqTarget targetCpuMap cell d m (reg - itargetsr.base)
  else if regRange icenabler 4 reg ∨ regRange isenabler 4 reg ∨ regRange icpendr 4 reg ∨
      regRange ispendr 4 reg ∨ regRange icactiver 4 reg ∨ regRange isactiver 4 reg then
    restrictBitmaskAccess cell d m (reg % 0x80 / 4) 1 true
  else if regRange igroupr 4 reg then
    restrictBitmaskAccess cell d m (reg % 0x80 / 4) 1 false
  else if regRange icfgr 4 reg then restrictBitmaskAccess cell d m (reg % 0x100 / 4) 2 false
  else if regRange ipriorityr 4 reg then
    restrictBitmaskAccess cell d m (reg % 0x400 / 4) 8 false
  -- ignore access
  else (.handled, d, m)

end FpMemSched.Distributor
