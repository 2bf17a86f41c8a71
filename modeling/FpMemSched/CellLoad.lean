import FpMemSched.ColoringExact

/-!
How the driver loads images into a cell (`driver/cell.c`).

An image goes to the first coloured region that may take it, fragment by fragment from the
target address on; if that fails in any way, it goes to the plain region that holds the target
address. Copies from user space and the mapping of memory may fail at any time.
-/

namespace FpMemSched.CellLoad

open FpMemSched.Coloring

structure PreloadImage where
  targetAddress : ℕ
  size : ℕ
  deriving DecidableEq

/-- The memory of `struct cell`. -/
structure Cell where
  memoryRegions : List Memory
  memoryRegionsColored : List MemoryColored
  deriving DecidableEq

/-- What happens outside the driver while it loads an image: whether the description of the
image can be read, whether a piece of memory can be mapped, and how many bytes
`copy_from_user` leaves out of a piece. -/
structure Env where
  fetch : Bool
  ioremap : ℕ → Bool
  uncopied : ℕ → ℕ

/-- A byte of memory written in place of byte `pos` of the image. What `copy_from_user` cannot
copy it fills with zeros. -/
structure Write where
  pos : ℕ
  addr : ℕ
  fromImage : Bool
  deriving DecidableEq

def eFault : ℤ := -14
def eBusy : ℤ := -16
def eInval : ℤ := -22

/-- Subtraction of `__u64`. -/
def sub64 (x y : ℕ) : ℕ := (x + 2 ^ 64 - y) % 2 ^ 64

/-- The value of `(int)x` when it is read as a `__u64`. -/
def intToU64 (x : ℕ) : ℕ :=
  let n := x % 2 ^ 32
  if n < 2 ^ 31 then n else 2 ^ 64 - 2 ^ 32 + n

/-- `copy_from_user` of `len` bytes to the address `addr`, from position `pos` of the image. -/
def copyFromUser (pos addr len uncopied : ℕ) : List Write :=
  (List.range len).map fun t => ⟨pos + t, u64 (addr + t), t < len - uncopied⟩

/-! ### Coloured regions -/

/-- `MEM_REQ_FLAGS`. -/
def Flags.memReq (flags : Flags) : Bool := flags.write && flags.loadable

/-- `memory_total_size`, as it is compared with the size of the image. -/
def memoryTotalSize (d : ColorDesc) (stack : ℕ → Bool) (colMem : MemoryColored) : ℕ :=
  let regionsPerOffset :=
    ((rangesOf d stack colMem.colors).map fun range => (range.2 - range.1 + 1).toNat).sum
  intToU64 (u64 (d.fragmentUnitSize * regionsPerOffset *
    intToU64 (colMem.memory.size / d.fragmentUnitOffset)))

/-- The checks a region must pass: flags, target address, size. The target is held against the
span of the region in memory, and the size against all its fragments. -/
def mayTake (d : ColorDesc) (stack : ℕ → Bool) (image : PreloadImage) (colMem : MemoryColored) :
    Bool :=
  Flags.memReq colMem.memory.flags &&
    decide (colMem.memory.virtStart ≤ image.targetAddress ∧
      image.targetAddress ≤ u64 (colMem.memory.virtStart + colMem.memory.size)) &&
    decide (image.size ≤ memoryTotalSize d stack colMem)

/-- The variables of the loading loops. -/
structure LoadState where
  fragToLoad : Bool
  firstMemFound : Bool
  mapOffset : ℕ
  err : ℤ
  /-- The number of pieces mapped so far. -/
  piece : ℕ
  writes : List Write

def LoadState.init : LoadState := ⟨false, false, 0, 0, 0, []⟩

/-- The target address lies in the fragment. -/
def hasTarget (image : PreloadImage) (frag : Memory) : Bool :=
  decide (frag.virtStart ≤ image.targetAddress ∧
    image.targetAddress < u64 (frag.virtStart + frag.size))

/-- Map a piece of a fragment and copy to it. -/
def loadPiece (env : Env) (image : PreloadImage) (frag : Memory) (imageOffset : ℕ)
    (s : LoadState) : Except (ℤ × List Write) LoadState :=
  let pageOffs := imageOffset % pageSize
  let physStartC := u64 (frag.physStart + imageOffset) / pageSize * pageSize
  let mapSize := min (sub64 frag.size imageOffset) (sub64 image.size s.mapOffset)
  if env.ioremap s.piece = false then .error (eBusy, s.writes)
  else
    let s := { s with
      fragToLoad := true
      firstMemFound := true
      writes := s.writes ++
        copyFromUser s.mapOffset (physStartC + pageOffs) mapSize (env.uncopied s.piece)
      err := if 0 < min (env.uncopied s.piece) mapSize then eFault else s.err
      mapOffset := u64 (s.mapOffset + mapSize)
      piece := s.piece + 1 }
    if image.size ≤ s.mapOffset then .error (s.err, s.writes) else .ok s

/-- The body of the loading loops; `.error` is a `return`. -/
def loadFragment (env : Env) (image : PreloadImage) (frag : Memory) (s : LoadState) :
    Except (ℤ × List Write) LoadState :=
  if s.fragToLoad = false ∧ hasTarget image frag = false then .ok s
  else if s.firstMemFound = false then
    let imageOffset := sub64 image.targetAddress frag.virtStart
    if image.targetAddress < frag.virtStart ∧ frag.size < imageOffset then
      .error (eInval, s.writes)
    else loadPiece env image frag imageOffset s
  else loadPiece env image frag 0 s

def loadResult : Except (ℤ × List Write) LoadState → ℤ × List Write
  | .error r => r
  | .ok s => (s.err, s.writes)

def loadImageColored (d : ColorDesc) (stack : ℕ → Bool) (env : Env) (cell : Cell)
    (image : PreloadImage) : ℤ × List Write :=
  if env.fetch = false then (eFault, [])
  else if image.size = 0 then (1, [])
  else
    match cell.memoryRegionsColored.find? (mayTake d stack image) with
    | none => (1, [])
    | some colMem =>
      loadResult (walkFragments d stack colMem (loadFragment env image) LoadState.init)

/-! ### Plain regions -/

/-- The target address lies in the region. -/
def Memory.hasTarget (mem : Memory) (image : PreloadImage) : Bool :=
  decide (mem.virtStart ≤ image.targetAddress ∧
    sub64 image.targetAddress mem.virtStart < mem.size)

def loadImage (env : Env) (cell : Cell) (image : PreloadImage) : ℤ × List Write :=
  if env.fetch = false then (eFault, [])
  else if image.size = 0 then (0, [])
  else
    match cell.memoryRegions.find? (Memory.hasTarget · image) with
    | none => (eInval, [])
    | some mem =>
      let imageOffset := sub64 image.targetAddress mem.virtStart
      if sub64 mem.size imageOffset < image.size ∨ Flags.memReq mem.flags = false then
        (eInval, [])
      else
        let physStart := u64 (mem.physStart + imageOffset) / pageSize * pageSize
        let pageOffs := imageOffset % pageSize
        if env.ioremap 0 = false then (eBusy, [])
        else
          (if 0 < min (env.uncopied 0) image.size then eFault else 0,
            copyFromUser 0 (physStart + pageOffs) image.size (env.uncopied 0))

/-! ### The command -/

/-- An image, and what happens while it is loaded to coloured and to plain memory. -/
structure Attempt where
  image : PreloadImage
  colored : Env
  plain : Env

/-- One turn of the loop over the images. -/
def loadOne (d : ColorDesc) (stack : ℕ → Bool) (cell : Cell) (a : Attempt) : ℤ × List Write :=
  let o := if cell.memoryRegionsColored = [] then (1, [])
    else loadImageColored d stack a.colored cell a.image
  if o.1 ≠ 0 then
    let p := loadImage a.plain cell a.image
    (p.1, o.2 ++ p.2)
  else o

/-- The loop, with the writes for each image. -/
def loadAll (d : ColorDesc) (stack : ℕ → Bool) (cell : Cell) :
    List Attempt → ℤ → ℤ × List (List Write)
  | [], err => (err, [])
  | a :: as, _ =>
    let o := loadOne d stack cell a
    if o.1 ≠ 0 then (o.1, [o.2])
    else
      let r := loadAll d stack cell as o.1
      (r.1, o.2 :: r.2)

/-- `prologue` is the error code of all that comes before the loop, `JAILHOUSE_HC_CELL_SET_LOADABLE`
included. -/
def jailhouseCmdCellLoad (d : ColorDesc) (stack : ℕ → Bool) (cell : Cell) (prologue : ℤ)
    (as : List Attempt) : ℤ × List (List Write) :=
  if prologue ≠ 0 then (prologue, []) else loadAll d stack cell as 0

end FpMemSched.CellLoad
