import FpMemSched.Distributor

/-!
The interrupts of the cells (`irqchip_cell_init`, `irqchip_cell_exit`).

A configuration lists pins in descriptors of four words each, which start at any multiple of 32.
A new cell copies the words of its descriptors and takes its pins from the root cell; at its end
the root cell gets them back, as far as they were its own. What the interrupt controller itself
does for a cell is left out.
-/

namespace FpMemSched.CellIrqs

open FpMemSched.Distributor

structure Irqchip where
  address : ℕ
  pinBase : ℕ
  pinBitmap : Fin 4 → BitVec 32

structure Platform where
  gicdBase : ℕ
  maintenanceIrq : ℕ

/-- A cell with the descriptors of its configuration. -/
structure ConfiguredCell extends Cell where
  irqchips : List Irqchip

inductive Errno
  | einval
  deriving DecidableEq

/-- Combines the words of a descriptor with those of a bitmap. -/
def overPins (f : BitVec 32 → BitVec 32 → BitVec 32) (chip : Irqchip) (bitmap : ℕ → BitVec 32) :
    ℕ → BitVec 32 :=
  (List.finRange 4).foldl (fun bitmap (pos : Fin 4) =>
    Function.update bitmap (chip.pinBase / 32 + pos)
      (f (bitmap (chip.pinBase / 32 + pos)) (chip.pinBitmap pos))) bitmap

/-- The loop over the descriptors of the distributor. -/
def forEachIrqchip (p : Platform) (f : BitVec 32 → BitVec 32 → BitVec 32) (chips : List Irqchip)
    (bitmap : ℕ → BitVec 32) : ℕ → BitVec 32 :=
  chips.foldl (fun bitmap chip =>
    if chip.address ≠ p.gicdBase then bitmap else overPins f chip bitmap) bitmap

def sgiInject : ℕ := 0
def sgiEvent : ℕ := 1

/-- The descriptor has whole words within the bitmap. -/
def Irqchip.valid (chip : Irqchip) : Prop :=
  chip.pinBase % 32 = 0 ∧ chip.pinBase + 4 * 32 ≤ 1024

instance (chip : Irqchip) : Decidable chip.valid := inferInstanceAs (Decidable (_ ∧ _))

def copyPins (p : Platform) (chips : List Irqchip) (bitmap : ℕ → BitVec 32) :
    Except Errno (ℕ → BitVec 32) :=
  chips.foldlM (fun bitmap chip =>
    if chip.address ≠ p.gicdBase then .ok bitmap
    else if ¬ chip.valid then .error .einval
    else .ok (overPins (fun _ pins => pins) chip bitmap)) bitmap

/-- The first half of `irqchip_cell_init`, all that is done for the root cell. -/
def ownPins (p : Platform) (cell : ConfiguredCell) : Except Errno ConfiguredCell :=
  (copyPins p cell.irqchips cell.irqBitmap).map fun bitmap =>
    -- all SGIs and PPIs except for those of the hypervisor
    { cell with
      irqBitmap := Function.update bitmap 0
        (~~~((1#32 <<< sgiInject) ||| (1#32 <<< sgiEvent) ||| (1#32 <<< p.maintenanceIrq))) }

/-- The root cell and the new cell. -/
def irqchipCellInit (p : Platform) (root cell : ConfiguredCell) :
    Except Errno (ConfiguredCell × ConfiguredCell) :=
  (ownPins p cell).map fun cell =>
    ({ root with irqBitmap :=
        forEachIrqchip p (fun old pins => old &&& ~~~pins) cell.irqchips root.irqBitmap }, cell)

/-- The root cell after the end of the cell. -/
def irqchipCellExit (p : Platform) (root cell : ConfiguredCell) : ConfiguredCell :=
  -- set all pins of the old cell in the root cell
  let bitmap := forEachIrqchip p (fun old pins => old ||| pins) cell.irqchips root.irqBitmap
  -- mask out pins again that actually didn't belong to the root cell
  { root with irqBitmap := forEachIrqchip p (fun old pins => old &&& pins) root.irqchips bitmap }

/-! ### The system -/

structure System where
  root : ConfiguredCell
  cells : ℕ → Option ConfiguredCell

inductive Act
  | create (id : ℕ) (irqchips : List Irqchip) (ownsCpu : ℕ → Bool)
  | destroy (id : ℕ)

/-- A cell as it is allocated. -/
def fresh (irqchips : List Irqchip) (ownsCpu : ℕ → Bool) : ConfiguredCell :=
  ⟨⟨fun _ => 0#32, ownsCpu⟩, irqchips⟩

/-- The system after it is enabled, with the root cell alone. -/
def boot (p : Platform) (irqchips : List Irqchip) (ownsCpu : ℕ → Bool) : Option System :=
  (ownPins p (fresh irqchips ownsCpu)).toOption.map fun root => ⟨root, fun _ => none⟩

/-- Creations and destructions that succeed. -/
def step (p : Platform) (s : System) : Act → Option System
  | .create id irqchips ownsCpu =>
    if (s.cells id).isSome then none
    else (irqchipCellInit p s.root (fresh irqchips ownsCpu)).toOption.map fun r =>
      ⟨r.1, Function.update s.cells id (some r.2)⟩
  | .destroy id =>
    (s.cells id).map fun cell =>
      ⟨irqchipCellExit p s.root cell, Function.update s.cells id none⟩

end FpMemSched.CellIrqs
