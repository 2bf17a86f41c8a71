import FpMemSched.Coloring
import FpMemSched.CellLoad
import FpMemSched.Lib.Spaces

/-!
The memory of cells under the management commands (`control.c`, `mmu_cell.c`).

`cell_create` takes the regions of a cell from the root cell, `cell_destroy` gives them back.
In between, `cell_set_loadable` opens the loadable regions to the root cell and `cell_start`
closes them. Plain regions and the fragments of coloured ones are treated alike.

A mapping may fail; the command says which of its mappings do.
-/

namespace FpMemSched.CellMemory

open FpMemSched.Coloring FpMemSched.CellLoad FpMemSched.Lib.Spaces

def eNoent : ℤ := -2
def eNomem : ℤ := -12
def eExist : ℤ := -17

/-- The configuration of a cell. -/
structure CellConfig where
  id : ℕ
  memoryRegions : List Memory
  memoryRegionsColored : List MemoryColored
  deriving DecidableEq

/-- The configuration of the system. `stack` is what the walks find in uninitialized arrays. -/
structure Platform where
  colorDesc : ColorDesc
  stack : ℕ → Bool
  rootRegions : List Memory
  rootCommPage : ℕ

/-- What happens to the mappings of a command, by number. A mapping that fails may have mapped
some bytes before. -/
structure Faults where
  map : ℕ → Option ℕ
  unmap : ℕ → Bool

/-- The address spaces a command works on, and the number of changes made so far. -/
structure Maps where
  root : Space
  cell : Space
  calls : ℕ

/-- What does not change during a command. -/
structure Context where
  rootRegions : List Memory
  rootCommPage : ℕ
  commPage : ℕ
  faults : Faults

/-! ### Mapping -/

def archMapMemoryRegion (fault : Option ℕ) (commPage : ℕ) (mem : Memory) (sp : Space) :
    Space × ℤ :=
  let physStart := if mem.flags.commRegion then commPage else mem.physStart
  match fault with
  | none => (sp.map mem.virtStart physStart mem.size, 0)
  | some n => (sp.map mem.virtStart physStart (min n mem.size), eNomem)

def archUnmapMemoryRegion (fault : Bool) (mem : Memory) (sp : Space) : Space × ℤ :=
  if fault then (sp, eNomem) else (sp.unmap mem.virtStart mem.size, 0)

variable (k : Context)

def mapCell (mem : Memory) (s : Maps) : Maps × ℤ :=
  let o := archMapMemoryRegion (k.faults.map s.calls) k.commPage mem s.cell
  ({ s with cell := o.1, calls := s.calls + 1 }, o.2)

def unmapCell (mem : Memory) (s : Maps) : Maps × ℤ :=
  let o := archUnmapMemoryRegion (k.faults.unmap s.calls) mem s.cell
  ({ s with cell := o.1, calls := s.calls + 1 }, o.2)

def mapRoot (mem : Memory) (s : Maps) : Maps × ℤ :=
  let o := archMapMemoryRegion (k.faults.map s.calls) k.rootCommPage mem s.root
  ({ s with root := o.1, calls := s.calls + 1 }, o.2)

def unmapRoot (mem : Memory) (s : Maps) : Maps × ℤ :=
  let o := archUnmapMemoryRegion (k.faults.unmap s.calls) mem s.root
  ({ s with root := o.1, calls := s.calls + 1 }, o.2)

/-- Subpages are dispatched by the MMIO code and have no mapping. -/
def mmioSubpage (_ : Memory) (s : Maps) : Maps × ℤ := (s, 0)

/-- The root cell is unmapped at the physical address. -/
def unmapFromRootCell (mem : Memory) (s : Maps) : Maps × ℤ :=
  let tmp := { mem with virtStart := mem.physStart }
  if tmp.isSubpage then mmioSubpage tmp s else unmapRoot k tmp s

def addressInRegion (addr : ℕ) (region : Memory) : Bool :=
  decide (region.physStart ≤ addr ∧ addr < u64 (region.physStart + region.size))

/-- A part of a region of the root cell. -/
def rootPart (rootMem : Memory) (physStart size : ℕ) : Memory :=
  ⟨physStart, sub64 (u64 (rootMem.virtStart + physStart)) rootMem.physStart, size, rootMem.flags⟩

/-- The part of a region that lies in a region of the root cell. -/
def overlap (mem rootMem : Memory) : Option Memory :=
  if addressInRegion mem.physStart rootMem then
    some (rootPart rootMem mem.physStart
      (min (sub64 rootMem.size (sub64 mem.physStart rootMem.physStart)) mem.size))
  else if addressInRegion rootMem.physStart mem then
    some (rootPart rootMem rootMem.physStart
      (min (sub64 mem.size (sub64 rootMem.physStart mem.physStart)) rootMem.size))
  else none

inductive FailureMode
  | abortOnError | warnOnError
  deriving DecidableEq

/-- The loop over the regions of the root cell. -/
def remapLoop (mode : FailureMode) (mem : Memory) : List Memory → ℤ → Maps → Maps × ℤ
  | [], err, s => (s, err)
  | rootMem :: rootMems, err, s =>
    match overlap mem rootMem with
    | none => remapLoop mode mem rootMems err s
    | some part =>
      let o := if part.isSubpage then mmioSubpage part s else mapRoot k part s
      if o.2 ≠ 0 ∧ mode = .abortOnError then o else remapLoop mode mem rootMems o.2 o.1

def remapToRootCell (mode : FailureMode) (mem : Memory) (s : Maps) : Maps × ℤ :=
  remapLoop k mode mem k.rootRegions 0 s

/-- The functions the commands give to `manage_colored_regions`. -/
def manageFunctions (mode : FailureMode) : ManageFunctions Maps where
  map := mapCell k
  subpage := mmioSubpage
  unmap := unmapCell k
  unmapRoot := unmapFromRootCell k
  remapRoot := remapToRootCell k mode
  flush := fun _ _ s => s

/-! ### The loops of the commands -/

/-- A loop that ends with the first error. -/
def untilError {α σ : Type*} (body : α → σ → σ × ℤ) : List α → σ → σ × ℤ
  | [], s => (s, 0)
  | a :: as, s => let o := body a s; if o.2 ≠ 0 then o else untilError body as o.1

variable (p : Platform) (cfg : CellConfig)

/-- The two loops of a command, over plain regions, with the body that `manage_colored_regions`
has for fragments, and over coloured ones. -/
def eachRegion (mode : FailureMode) (type : ColOperation) (s : Maps) : Maps × ℤ :=
  let o := untilError (visit (manageFunctions k mode) type) cfg.memoryRegions s
  if o.2 ≠ 0 then o
  else untilError (fun colMem => manageColoredRegions (manageFunctions k mode) p.colorDesc p.stack
    colMem type) cfg.memoryRegionsColored o.1

/-- What `cell_destroy_internal` does with a plain region. -/
def destroyRegion (s : Maps) (mem : Memory) : Maps :=
  let s := if mem.isSubpage then s else (unmapCell k mem s).1
  if mem.flags.commRegion || mem.flags.rootshared then s
  else (remapToRootCell k .warnOnError mem s).1

/-- The memory part of `cell_destroy_internal`. No error stops it, except between the fragments
of one region. -/
def cellDestroyInternal (s : Maps) : Maps :=
  cfg.memoryRegionsColored.foldl (fun s colMem =>
    (manageColoredRegions (manageFunctions k .warnOnError) p.colorDesc p.stack colMem .destroy
      s).1) (cfg.memoryRegions.foldl (destroyRegion k) s)

/-! ### The commands -/

/-- A cell other than the root cell. -/
structure LiveCell where
  config : CellConfig
  commPage : ℕ
  loadable : Bool
  space : Space

structure Sys where
  root : Space
  cells : List LiveCell

def Platform.context (p : Platform) (commPage : ℕ) (faults : Faults) : Context :=
  ⟨p.rootRegions, p.rootCommPage, commPage, faults⟩

/-- `early` is the error code of all that comes before the memory is touched, except for the check
of the ids. -/
def cellCreate (cfg : CellConfig) (commPage : ℕ) (early : ℤ) (faults : Faults) (s : Sys) :
    Sys × ℤ :=
  if early ≠ 0 then (s, early)
  else if s.cells.any (·.config.id = cfg.id) then (s, eExist)
  else
    let k := p.context commPage faults
    let o := eachRegion k p cfg .abortOnError .create ⟨s.root, fun _ => none, 0⟩
    if o.2 ≠ 0 then ({ s with root := (cellDestroyInternal k p cfg o.1).root }, o.2)
    else (⟨o.1.root, s.cells ++ [⟨cfg, commPage, false, o.1.cell⟩]⟩, 0)

/-- `cell_management_prologue`: find the cell, unless something stands against it. -/
def cellManagementPrologue (id : ℕ) (early : ℤ) (s : Sys) : Except ℤ LiveCell :=
  if early ≠ 0 then .error early
  else match s.cells.find? (·.config.id = id) with
    | none => .error eNoent
    | some c => .ok c

/-- The state after the mappings of the root cell and the flag of a cell have changed. -/
def Sys.setLoadable (s : Sys) (id : ℕ) (root : Space) (loadable : Bool) : Sys :=
  ⟨root, s.cells.map fun c => if c.config.id = id then { c with loadable := loadable } else c⟩

def cellStart (id : ℕ) (early : ℤ) (faults : Faults) (s : Sys) : Sys × ℤ :=
  match cellManagementPrologue id early s with
  | .error err => (s, err)
  | .ok c =>
    if c.loadable then
      let o := eachRegion (p.context c.commPage faults) p c.config .abortOnError .start
        ⟨s.root, c.space, 0⟩
      if o.2 ≠ 0 then ({ s with root := o.1.root }, o.2)
      else (s.setLoadable id o.1.root false, 0)
    else (s, 0)

def cellSetLoadable (id : ℕ) (early : ℤ) (faults : Faults) (s : Sys) : Sys × ℤ :=
  match cellManagementPrologue id early s with
  | .error err => (s, err)
  | .ok c =>
    if c.loadable then (s, 0)
    else
      let o := eachRegion (p.context c.commPage faults) p c.config .abortOnError .loadable
        ⟨s.root, c.space, 0⟩
      (s.setLoadable id o.1.root true, o.2)

def cellDestroy (id : ℕ) (early : ℤ) (faults : Faults) (s : Sys) : Sys × ℤ :=
  match cellManagementPrologue id early s with
  | .error err => (s, err)
  | .ok c =>
    let o := cellDestroyInternal (p.context c.commPage faults) p c.config ⟨s.root, c.space, 0⟩
    (⟨o.root, s.cells.filter (·.config.id ≠ id)⟩, 0)

/-- The root cell gets its regions before there are other cells. -/
def init : Sys :=
  ⟨p.rootRegions.foldl (fun sp mem => (archMapMemoryRegion none p.rootCommPage mem sp).1)
    fun _ => none, []⟩

inductive Command
  | create (cfg : CellConfig) (commPage : ℕ) (early : ℤ) (faults : Faults)
  | setLoadable (id : ℕ) (early : ℤ) (faults : Faults)
  | start (id : ℕ) (early : ℤ) (faults : Faults)
  | destroy (id : ℕ) (early : ℤ) (faults : Faults)

/-- The state and the return value of a command. -/
def perform (s : Sys) : Command → Sys × ℤ
  | .create cfg commPage early faults => cellCreate p cfg commPage early faults s
  | .setLoadable id early faults => cellSetLoadable p id early faults s
  | .start id early faults => cellStart p id early faults s
  | .destroy id early faults => cellDestroy p id early faults s

def step (s : Sys) (a : Command) : Option Sys := some (perform p s a).1

end FpMemSched.CellMemory
