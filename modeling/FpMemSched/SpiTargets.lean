import FpMemSched.DistributorOwned
import FpMemSched.IrqsOwned

/-!
Where the SPIs are routed (`irqchip_config_commit`, `gicv2_adjust_irq_target`).

When a cell is added or removed, the hypervisor goes through the SPIs of that cell and of the root
cell and redirects those that target a CPU that the cell does not have. It reads a register of
four SPIs and writes it back without the lock that the accesses of the guests take, and cells that
are not managed go on meanwhile. Of the creation and the destruction of a cell only what they do to
pins and CPUs is here, and a creation that fails before the CPUs are moved is left out.
-/

namespace FpMemSched.SpiTargets

open FpMemSched.Distributor FpMemSched.DistributorOwned FpMemSched.CellIrqs FpMemSched.IrqsOwned
open FpMemSched.Lib.Runs

/-! ### The model -/

/-- `first_cpu` of a set that has a CPU. -/
def firstCpu (cpuSet : ℕ → Bool) : ℕ := ((List.range 8).find? cpuSet).getD 8

/-- The targets of an SPI in the word that it is in. -/
def targetsOf (word : BitVec 32) (irq : ℕ) : BitVec 8 := (word >>> (irq % 4 * 8)).setWidth 8

/-- The word to be written back, if the targets are not those of the cell. -/
def gicv2AdjustIrqTarget (targetCpuMap : List (BitVec 8)) (cell : Cell) (cpuSet : ℕ → Bool)
    (targets : BitVec 32) (irqId : ℕ) : Option (BitVec 32) :=
  let shift := irqId % 4 * 8
  if gicv2TargetsInCell targetCpuMap cell (targetsOf targets irqId) then none
  else some ((targets &&& ~~~(0xff#32 <<< shift)) |||
    ((targetCpuMap.getD (firstCpu cpuSet) 0).setWidth 32 <<< shift))

/-- A write of a guest to the targets, between the read of the register and the write. -/
structure Pending where
  cpu : ℕ
  id : ℕ
  cell : Cell
  mmio : MmioAccess
  word : ℕ
  itargetsr : BitVec 32

/-- Where `irqchip_config_commit` is; `writes` is the word that an adjustment is about to write. -/
inductive Task
  | idle
  | commit (id : ℕ) (cell : ConfiguredCell) (n : ℕ) (ofRoot : Bool) (writes : Option (BitVec 32))

/-- The CPU set of a cell is in the cell, the cell of a CPU in `owner`. The root cell is cell 0. -/
structure Sys where
  cells : System
  owner : ℕ → Option ℕ
  dist : Dist
  task : Task
  pending : Option Pending

def Sys.member (s : Sys) (id : ℕ) : Option ConfiguredCell :=
  if id = 0 then some s.cells.root else s.cells.cells id

/-- The cell with its CPUs as `per_cpu(cpu)->cell` tells them. -/
def Sys.view (s : Sys) (id : ℕ) (cell : ConfiguredCell) : Cell :=
  ⟨cell.irqBitmap, fun cpu => decide (s.owner cpu = some id)⟩

/-- The cells that are managed are suspended. -/
def Task.suspends : Task → ℕ → Prop
  | .idle, _ => False
  | .commit id _ _ _ _, k => k = 0 ∨ k = id

instance (task : Task) (k : ℕ) : Decidable (task.suspends k) := by
  cases task <;> unfold Task.suspends <;> infer_instance

/-- No CPU of the cell is within an access. -/
def Sys.quiet (s : Sys) (id : ℕ) : Prop := ∀ w ∈ s.pending, w.id ≠ id

instance (s : Sys) (id : ℕ) : Decidable (s.quiet id) :=
  inferInstanceAs (Decidable (∀ w ∈ s.pending, w.id ≠ id))

/-- The CPUs and the pins in `cell_destroy_internal`. -/
def cellDestroyInternal (p : Platform) (s : Sys) (id : ℕ) (cell : ConfiguredCell) : Sys :=
  let root := irqchipCellExit p s.cells.root cell
  { s with
    cells := ⟨{ root with ownsCpu := fun cpu => root.ownsCpu cpu || cell.ownsCpu cpu },
      Function.update s.cells.cells id none⟩
    owner := fun cpu => if cell.ownsCpu cpu then some 0 else s.owner cpu
    task := .commit id cell 32 false none }

/-- The pins and the CPUs are those of the new cell. -/
def assign (s : Sys) (r : System) (id : ℕ) (cell : ConfiguredCell) : Sys :=
  { s with
    cells := { r with root := { r.root with
      ownsCpu := fun cpu => r.root.ownsCpu cpu && !cell.ownsCpu cpu } }
    owner := fun cpu => if cell.ownsCpu cpu then some id else s.owner cpu
    task := .commit id cell 32 false none }

/-- `mapped` tells whether the memory of the cell can be mapped. -/
def cellCreate (p : Platform) (s : Sys) (caller id : ℕ) (irqchips : List Irqchip)
    (cpus : List ℕ) (mapped : Bool) : Option Sys :=
  if s.owner caller ≠ some 0 ∨ id = 0 ∨ caller ∈ cpus ∨
      ¬ ∀ cpu ∈ cpus, s.cells.root.ownsCpu cpu = true then none
  else (CellIrqs.step p s.cells (.create id irqchips fun cpu => decide (cpu ∈ cpus))).bind fun r =>
    (r.cells id).map fun cell =>
      if mapped then assign s r id cell else cellDestroyInternal p (assign s r id cell) id cell

/-- The next turn of the loop, first with the cell and then with the root cell. -/
def nextTurn (id : ℕ) (cell : ConfiguredCell) (n : ℕ) (ofRoot : Bool) : Task :=
  if ofRoot then .commit id cell (n + 1) false none else .commit id cell n true none

/-- The cell of the turn. -/
def turnId (id : ℕ) (ofRoot : Bool) : ℕ := if ofRoot then 0 else id

def turnCell (s : Sys) (cell : ConfiguredCell) (ofRoot : Bool) : ConfiguredCell :=
  if ofRoot then s.cells.root else cell

def irqchipConfigCommit (targetCpuMap : List (BitVec 8)) (s : Sys) : Option Sys :=
  match s.task with
  | .idle => none
  | .commit id cell n ofRoot none =>
    if 1024 ≤ n then some { s with task := .idle }
    else
      let c := turnCell s cell ofRoot
      if irqchipIrqInCell c.toCell n = false then some { s with task := nextTurn id cell n ofRoot }
      else
        match gicv2AdjustIrqTarget targetCpuMap (s.view (turnId id ofRoot) c) c.ownsCpu
          (s.dist .targets (n / 4)) n with
        | none => some { s with task := nextTurn id cell n ofRoot }
        | some targets => some { s with task := .commit id cell n ofRoot (some targets) }
  | .commit id cell n ofRoot (some targets) =>
    some { s with
      dist := Function.update s.dist .targets
        (Function.update (s.dist .targets) (n / 4) targets)
      task := nextTurn id cell n ofRoot }

instance (m : MmioAccess) : Decidable (Aligned m) :=
  decidable_of_iff ((m.size = 1 ∨ m.size = 2 ∨ m.size = 4) ∧ m.address % m.size = 0)
    ⟨fun h => ⟨h.1, h.2⟩, fun h => ⟨h.1, h.2⟩⟩

/-- A write to the targets of SPIs. -/
def writesTargets (m : MmioAccess) : Prop :=
  regRange itargetsr 1 m.address ∧ isSpi (m.address - itargetsr.base) ∧ m.isWrite = true

instance (m : MmioAccess) : Decidable (writesTargets m) := inferInstanceAs (Decidable (_ ∧ _))

/-- The cell of a CPU that runs its guest. -/
def Sys.runs (s : Sys) (cpu : ℕ) : Option (ℕ × ConfiguredCell) :=
  (s.owner cpu).bind fun id =>
    if s.task.suspends id then none else (s.member id).map fun c => (id, c)

/-- A naturally aligned access other than a write to the targets of SPIs. -/
def distAccess (targetCpuMap : List (BitVec 8)) (s : Sys) (cpu : ℕ) (m : MmioAccess) :
    Option Sys :=
  (s.runs cpu).bind fun r =>
    if ¬ Aligned m ∨ (decode m.address).isNone ∨ writesTargets m then none
    else some { s with dist := (gicHandleDistAccess targetCpuMap (s.view r.1 r.2) s.dist m).2.1 }

/-- The first part of a naturally aligned write to the targets, up to the read within
`dist_lock`. -/
def targetBegin (targetCpuMap : List (BitVec 8)) (s : Sys) (cpu : ℕ) (m : MmioAccess) :
    Option Sys :=
  (s.runs cpu).bind fun r =>
    if s.pending.isSome ∨ ¬ Aligned m ∨ ¬ writesTargets m then none
    else
      let k := (m.address - itargetsr.base) / 4
      -- a write that would route an SPI outside of the cell is refused
      if routedOutside targetCpuMap (s.view r.1 r.2) (4 * k) (m.value <<< lowest m) then some s
      else some { s with
        pending := some ⟨cpu, r.1, s.view r.1 r.2, m, k, s.dist .targets k⟩ }

/-- What is written to the register. -/
def Pending.access (w : Pending) : MmioAccess :=
  { wordAccess w.mmio with
    value := ((w.mmio.value <<< lowest w.mmio) &&& (targetMask w.cell (4 * w.word)).setWidth 64) |||
      (w.itargetsr &&& ~~~targetMask w.cell (4 * w.word)).setWidth 64 }

/-- The rest of the write. -/
def targetEnd (s : Sys) : Option Sys :=
  s.pending.map fun w => { s with dist := (mmioPerformAccess s.dist w.access).1, pending := none }

inductive Act
  | create (caller id : ℕ) (irqchips : List Irqchip) (cpus : List ℕ) (mapped : Bool)
  | destroy (id : ℕ)
  | commit
  | access (cpu : ℕ) (m : MmioAccess)
  | begin (cpu : ℕ) (m : MmioAccess)
  | finish

def step (p : Platform) (targetCpuMap : List (BitVec 8)) (s : Sys) : Act → Option Sys
  | .create caller id irqchips cpus mapped =>
    match s.task with
    | .idle =>
      if s.quiet 0 then cellCreate p s caller id irqchips cpus mapped else none
    | .commit .. => none
  | .destroy id =>
    match s.task with
    | .idle =>
      if s.quiet 0 ∧ s.quiet id then (s.cells.cells id).map (cellDestroyInternal p s id) else none
    | .commit .. => none
  | .commit => irqchipConfigCommit targetCpuMap s
  | .access cpu m => distAccess targetCpuMap s cpu m
  | .begin cpu m => targetBegin targetCpuMap s cpu m
  | .finish => targetEnd s

/-- The system at the end of the setup, before the first commit. -/
def boot (p : Platform) (irqchips : List Irqchip) (cpus : List ℕ) (d : Dist) : Option Sys :=
  (CellIrqs.boot p irqchips fun cpu => decide (cpu ∈ cpus)).map fun r =>
    ⟨r, fun cpu => if cpu ∈ cpus then some 0 else none, d, .commit 0 r.root 32 false none, none⟩

/-! ### Targets -/

section Targets

variable {map : List (BitVec 8)} {cell : Cell} {set : ℕ → Bool} {w w' : BitVec 32} {n n' : ℕ}

lemma targetsInCell_iff (t : BitVec 8) : gicv2TargetsInCell map cell t = true ↔
    ∀ cpu < map.length, t &&& map.getD cpu 0 = 0 ∨ cell.ownsCpu cpu = true := by
  unfold gicv2TargetsInCell
  rw [List.all_eq_true]
  constructor
  · intro h cpu hc
    have hm := h (map[cpu], cpu) (List.mem_zipIdx_iff_getElem?.mpr (List.getElem?_eq_getElem hc))
    rw [Bool.or_eq_true, decide_eq_true_iff] at hm
    have hg : map.getD cpu 0 = map[cpu] := by rw [List.getD, List.getElem?_eq_getElem hc]; rfl
    rwa [hg]
  · rintro h ⟨b, cpu⟩ hb
    obtain ⟨hc, hg⟩ := List.getElem?_eq_some_iff.mp (List.mem_zipIdx_iff_getElem?.mp hb)
    have hb : map.getD cpu 0 = b := by rw [List.getD, List.getElem?_eq_getElem hc]; exact hg
    rw [Bool.or_eq_true, decide_eq_true_iff, ← hb]
    exact h cpu hc

lemma targetsOf_bit {j : ℕ} (hj : j < 8) :
    (targetsOf w n).getLsbD j = w.getLsbD (n % 4 * 8 + j) := by
  unfold targetsOf
  rw [BitVec.getLsbD_setWidth, BitVec.getLsbD_ushiftRight, decide_eq_true hj, Bool.true_and]

lemma targetsOf_eq_iff : targetsOf w n = targetsOf w' n' ↔
    ∀ j < 8, w.getLsbD (n % 4 * 8 + j) = w'.getLsbD (n' % 4 * 8 + j) := by
  constructor
  · intro h j hj
    rw [← targetsOf_bit hj, h, targetsOf_bit hj]
  · intro h
    apply BitVec.eq_of_getLsbD_eq
    intro j hj
    rw [targetsOf_bit hj, targetsOf_bit hj, h j hj]

lemma adjust_none : gicv2AdjustIrqTarget map cell set w n = none ↔
    gicv2TargetsInCell map cell (targetsOf w n) = true := by
  unfold gicv2AdjustIrqTarget
  by_cases h : gicv2TargetsInCell map cell (targetsOf w n) = true <;> simp [h]

/-- The adjusted SPI targets the first CPU of the cell. -/
lemma adjust_self (h : gicv2AdjustIrqTarget map cell set w n = some w') :
    targetsOf w' n = map.getD (firstCpu set) 0 := by
  unfold gicv2AdjustIrqTarget at h
  split at h
  · cases h
  obtain rfl := Option.some.inj h
  have hff : (0xff#32) = (BitVec.allOnes 8).setWidth 32 := by decide
  have h4 : n % 4 < 4 := Nat.mod_lt _ (by omega)
  apply BitVec.eq_of_getLsbD_eq
  intro j hj
  have h32 : n % 4 * 8 + j < 32 := by omega
  rw [targetsOf_bit hj, BitVec.getLsbD_or, BitVec.getLsbD_and, BitVec.getLsbD_not,
    BitVec.getLsbD_shiftLeft, BitVec.getLsbD_shiftLeft, Nat.add_sub_cancel_left, hff,
    BitVec.getLsbD_setWidth, BitVec.getLsbD_allOnes, BitVec.getLsbD_setWidth]
  have hj' : j < 32 := by omega
  have hsub : ¬ n % 4 * 8 + j < n % 4 * 8 := by omega
  simp [h32, hj, hj', hsub]

/-- The other SPIs of the word are left alone. -/
lemma adjust_other (h : gicv2AdjustIrqTarget map cell set w n = some w') (hne : n' % 4 ≠ n % 4) :
    targetsOf w' n' = targetsOf w n' := by
  unfold gicv2AdjustIrqTarget at h
  split at h
  · cases h
  obtain rfl := Option.some.inj h
  have hff : (0xff#32) = (BitVec.allOnes 8).setWidth 32 := by decide
  have h4 : n' % 4 < 4 := Nat.mod_lt _ (by omega)
  rw [targetsOf_eq_iff]
  intro j hj
  have h32 : n' % 4 * 8 + j < 32 := by omega
  rw [BitVec.getLsbD_or, BitVec.getLsbD_and, BitVec.getLsbD_not, BitVec.getLsbD_shiftLeft,
    BitVec.getLsbD_shiftLeft, hff, BitVec.getLsbD_setWidth, BitVec.getLsbD_allOnes,
    BitVec.getLsbD_setWidth]
  by_cases hlt : n' % 4 * 8 + j < n % 4 * 8
  · simp [h32, hlt]
  · have h8 : 8 ≤ n' % 4 * 8 + j - n % 4 * 8 := by omega
    have hge : (map.getD (firstCpu set) 0).getLsbD (n' % 4 * 8 + j - n % 4 * 8) = false :=
      BitVec.getLsbD_of_ge _ _ h8
    rw [hge]
    have hno : ¬ n' % 4 * 8 + j - n % 4 * 8 < 8 := by omega
    simp [h32, hno]

lemma firstCpu_spec (h : ∃ cpu < 8, set cpu = true) :
    firstCpu set < 8 ∧ set (firstCpu set) = true := by
  obtain ⟨cpu, hc, hs⟩ := h
  cases hf : (List.range 8).find? set with
  | none =>
    have := List.find?_eq_none.mp hf cpu (List.mem_range.mpr hc)
    exact absurd hs this
  | some i =>
    have hi : firstCpu set = i := by rw [firstCpu, hf]; rfl
    rw [hi]
    exact ⟨List.mem_range.mp (List.mem_of_find?_eq_some hf), List.find?_some hf⟩

/-- Each CPU has bits of its own. -/
def Separate (map : List (BitVec 8)) : Prop :=
  ∀ i j, i ≠ j → map.getD i 0 &&& map.getD j 0 = 0

/-- The first CPU of a cell is one of its targets. -/
lemma first_inCell (hsep : Separate map) (h : ∃ cpu < 8, set cpu = true)
    (hown : ∀ cpu, set cpu = true → cell.ownsCpu cpu = true) :
    gicv2TargetsInCell map cell (map.getD (firstCpu set) 0) = true := by
  rw [targetsInCell_iff]
  intro cpu _
  by_cases hc : firstCpu set = cpu
  · exact .inr (hown _ (hc ▸ (firstCpu_spec h).2))
  · exact .inl (hsep _ _ hc)

end Targets

/-! ### CPUs and pins -/

section Layout

variable {p : Platform} {map : List (BitVec 8)} {s t : Sys} {id k : ℕ} {cell c : ConfiguredCell}

@[simp] lemma member_zero : s.member 0 = some s.cells.root := rfl

lemma member_of_ne (h : id ≠ 0) : s.member id = s.cells.cells id := if_neg h

/-- Which cell has which CPU. -/
structure Cpus (s : Sys) : Prop where
  owns : ∀ id c, s.member id = some c → ∀ cpu, c.ownsCpu cpu = true ↔ s.owner cpu = some id
  few : ∀ cpu id, s.owner cpu = some id → cpu < 8
  known : ∀ cpu id, s.owner cpu = some id → ∃ c, s.member id = some c
  inhabited : ∀ id c, s.member id = some c → ∃ cpu, s.owner cpu = some id

/-- Which cell has which pin. -/
structure Pins (p : Platform) (cells : System) : Prop where
  rootAlone : cells.cells 0 = none
  listed : ∀ id c, cells.cells id = some c → ∀ pin, isSpi pin →
    irqchipIrqInCell c.toCell pin = true → listed p c.irqchips pin = true
  apart : Apart p cells.cells
  root : ∀ pin, isSpi pin → irqchipIrqInCell cells.root.toCell pin = true →
    Unclaimed p cells.cells pin

/-- A pin is in one cell only. -/
lemma Pins.unique (h : Pins p s.cells) {pin : ℕ} (hs : isSpi pin) (hid : s.member id = some cell)
    (hk : s.member k = some c) (hcell : irqchipIrqInCell cell.toCell pin = true)
    (hc : irqchipIrqInCell c.toCell pin = true) : id = k := by
  have hroot : ∀ {j : ℕ} {e : ConfiguredCell}, j ≠ 0 → s.member j = some e →
      irqchipIrqInCell e.toCell pin = true →
      irqchipIrqInCell s.cells.root.toCell pin = true → False := by
    intro j e hj he hin hr
    rw [member_of_ne hj] at he
    have hl := h.listed j e he pin hs hin
    rw [h.root pin hs hr j e he] at hl
    exact absurd hl (by decide)
  by_contra hne
  by_cases hid0 : id = 0
  · subst hid0
    obtain rfl : s.cells.root = cell := Option.some.inj hid
    exact hroot (Ne.symm hne) hk hc hcell
  by_cases hk0 : k = 0
  · subst hk0
    obtain rfl : s.cells.root = c := Option.some.inj hk
    exact hroot hne hid hcell hc
  rw [member_of_ne hid0] at hid
  rw [member_of_ne hk0] at hk
  have hu := h.apart pin hs id cell hid (h.listed id cell hid pin hs hcell) k c
    (by rwa [Function.update_of_ne (Ne.symm hne)])
  rw [h.listed k c hk pin hs hc] at hu
  exact absurd hu (by decide)

/-- The set of a cell has a first CPU. -/
lemma Cpus.hasFirst (h : Cpus s) (hm : s.member id = some c) :
    ∃ cpu < 8, c.ownsCpu cpu = true := by
  obtain ⟨cpu, ho⟩ := h.inhabited id c hm
  exact ⟨cpu, h.few cpu id ho, (h.owns id c hm cpu).mpr ho⟩

lemma Cpus.congr (h : Cpus s) (hc : t.cells = s.cells) (ho : t.owner = s.owner) : Cpus t := by
  obtain ⟨cells, owner, d, task, w⟩ := t
  obtain rfl : cells = s.cells := hc
  obtain rfl : owner = s.owner := ho
  exact ⟨h.owns, h.few, h.known, h.inhabited⟩

/-! ### A new cell -/

/-- The pins of a new cell are not those of other cells, and it has a CPU. -/
def Configured (p : Platform) (s : Sys) (irqchips : List Irqchip) (cpus : List ℕ) : Prop :=
  (∀ pin, isSpi pin → IrqsOwned.listed p irqchips pin = true → Unclaimed p s.cells.cells pin) ∧
    cpus ≠ []

lemma ownPins_cpus (h : ownPins p cell = .ok c) : c.ownsCpu = cell.ownsCpu := by
  unfold ownPins at h
  cases hc : copyPins p cell.irqchips cell.irqBitmap with
  | error e => rw [hc] at h; cases h
  | ok bitmap =>
    rw [hc] at h
    obtain rfl := Except.ok.inj h
    rfl

variable {irqchips : List Irqchip} {cpus : List ℕ} {caller : ℕ} {mapped : Bool} {r : System}

lemma irqchipCellInit_cpus {root : ConfiguredCell} {y : ConfiguredCell × ConfiguredCell}
    (h : irqchipCellInit p root cell = .ok y) :
    y.1.ownsCpu = root.ownsCpu ∧ y.2.ownsCpu = cell.ownsCpu := by
  unfold irqchipCellInit at h
  cases ho : ownPins p cell with
  | error e => rw [ho] at h; cases h
  | ok c =>
    rw [ho] at h
    obtain rfl := Except.ok.inj h
    exact ⟨rfl, ownPins_cpus ho⟩

lemma create_cpus {set : ℕ → Bool} (h : CellIrqs.step p s.cells (.create id irqchips set) = some r)
    (hc : r.cells id = some cell) :
    r.root.ownsCpu = s.cells.root.ownsCpu ∧ cell.ownsCpu = set := by
  simp only [CellIrqs.step] at h
  split at h
  · cases h
  obtain ⟨x, hx, rfl⟩ := Option.map_eq_some_iff.mp h
  simp only [Function.update_self, Option.some.injEq] at hc
  subst hc
  cases hi : irqchipCellInit p s.cells.root (fresh irqchips set) with
  | error e => rw [hi] at hx; cases hx
  | ok y =>
    rw [hi] at hx
    obtain rfl : y = x := Option.some.inj hx
    exact irqchipCellInit_cpus hi

/-- A creation that gets as far as the commit. -/
lemma cellCreate_spec (h : cellCreate p s caller id irqchips cpus mapped = some t) :
    (s.owner caller = some 0 ∧ id ≠ 0 ∧ caller ∉ cpus ∧
      ∀ cpu ∈ cpus, s.cells.root.ownsCpu cpu = true) ∧
    ∃ r cell, CellIrqs.step p s.cells (.create id irqchips fun cpu => decide (cpu ∈ cpus)) = some r ∧
      r.cells id = some cell ∧
      t = if mapped then assign s r id cell else cellDestroyInternal p (assign s r id cell) id cell := by
  unfold cellCreate at h
  split at h
  · cases h
  rename_i hg
  push Not at hg
  obtain ⟨r, hr, h⟩ := Option.bind_eq_some_iff.mp h
  obtain ⟨cell, hc, rfl⟩ := Option.map_eq_some_iff.mp h
  exact ⟨hg, r, cell, hr, hc, rfl⟩

lemma pins_create {set : ℕ → Bool} (h : Pins p s.cells) (hcf : Configured p s irqchips cpus)
    (hid : id ≠ 0) (hst : CellIrqs.step p s.cells (.create id irqchips set) = some r) :
    Pins p r := by
  obtain ⟨hn, cell, hown, hcells, -, hbit⟩ := create_spec hst
  obtain ⟨hchips, hpins⟩ := ownPins_spec hown
  refine ⟨?_, fun k c hk pin hs hin => ?_,
    apart_step (a := .create id irqchips set) h.apart hcf.1 hst, fun pin hs hin => ?_⟩
  · rw [hcells, Function.update_of_ne (Ne.symm hid)]
    exact h.rootAlone
  · rw [hcells] at hk
    by_cases hki : k = id
    · subst hki
      rw [Function.update_self] at hk
      obtain rfl := Option.some.inj hk
      rw [hpins pin hs] at hin
      rw [hchips, listed_eq]
      cases hl : (irqchips.filter (window p · pin)).getLast? with
      | none => rw [hl] at hin; exact absurd hin (by simp)
      | some chip =>
        rw [hl] at hin
        exact List.any_eq_true.mpr ⟨chip, List.mem_of_getLast? hl, hin⟩
    · rw [Function.update_of_ne hki] at hk
      exact h.listed k c hk pin hs hin
  · rw [hbit pin hs, Bool.and_eq_true, Bool.not_eq_true'] at hin
    rw [hcells, unclaimed_update, hchips]
    refine ⟨hin.2, ?_⟩
    rw [← hn, Function.update_eq_self]
    exact h.root pin hs hin.1

lemma pins_assign (h : Pins p r) : Pins p (assign s r id cell).cells :=
  ⟨h.rootAlone, h.listed, h.apart, h.root⟩

lemma assign_member (hr : r.cells id = some cell) (hid : id ≠ 0) :
    (assign s r id cell).member id = some cell := (member_of_ne hid).trans hr

lemma assign_member_of_ne (hr : r.cells = Function.update s.cells.cells id (some cell))
    (hk : k ≠ 0) (hne : k ≠ id) : (assign s r id cell).member k = s.member k := by
  rw [member_of_ne hk, member_of_ne hk]
  change r.cells k = _
  rw [hr, Function.update_of_ne hne]

lemma cpus_assign (h : Cpus s) (hid : id ≠ 0) (hcpus : cpus ≠ [])
    (hca : s.owner caller = some 0) (hno : caller ∉ cpus)
    (hsub : ∀ cpu ∈ cpus, s.cells.root.ownsCpu cpu = true)
    (hst : CellIrqs.step p s.cells (.create id irqchips fun cpu => decide (cpu ∈ cpus)) = some r)
    (hc : r.cells id = some cell) : Cpus (assign s r id cell) := by
  obtain ⟨hroot, hset⟩ := create_cpus hst hc
  obtain ⟨hn, cell', -, hcells, -, -⟩ := create_spec hst
  obtain rfl : cell' = cell := by
    rw [hcells, Function.update_self] at hc
    exact Option.some.inj hc
  have hmem : ∀ cpu, cell'.ownsCpu cpu = true ↔ cpu ∈ cpus := by
    intro cpu
    rw [hset, decide_eq_true_iff]
  have hgiven : ∀ cpu ∈ cpus, (assign s r id cell').owner cpu = some id :=
    fun cpu hx => if_pos ((hmem cpu).mpr hx)
  have hold : ∀ cpu, cpu ∉ cpus → (assign s r id cell').owner cpu = s.owner cpu :=
    fun cpu hx => if_neg fun hc => hx ((hmem cpu).mp hc)
  -- the CPUs were those of the root cell
  have htaken : ∀ cpu ∈ cpus, s.owner cpu = some 0 :=
    fun cpu hx => (h.owns 0 _ rfl cpu).mp (hsub cpu hx)
  have hnone : ∀ cpu, s.owner cpu ≠ some id := by
    intro cpu ho
    obtain ⟨c, hm⟩ := h.known cpu id ho
    rw [member_of_ne hid, hn] at hm
    cases hm
  refine ⟨fun k c hm cpu => ?_, fun cpu k ho => ?_, fun cpu k ho => ?_, fun k c hm => ?_⟩
  · by_cases hk : k = 0
    · subst hk
      obtain rfl := Option.some.inj hm
      change (r.root.ownsCpu cpu && !cell'.ownsCpu cpu) = true ↔ _
      rw [hroot, Bool.and_eq_true, h.owns 0 _ rfl cpu, Bool.not_eq_true', ← Bool.not_eq_true,
        hmem cpu]
      by_cases hx : cpu ∈ cpus
      · rw [hgiven cpu hx]
        simp [hx, hid]
      · rw [hold cpu hx]
        simp [hx]
    · by_cases hki : k = id
      · subst hki
        obtain rfl : cell' = c := Option.some.inj ((assign_member hc hk).symm.trans hm)
        rw [hmem cpu]
        refine ⟨hgiven cpu, fun ho => ?_⟩
        by_contra hx
        rw [hold cpu hx] at ho
        exact hnone cpu ho
      · rw [assign_member_of_ne hcells hk hki] at hm
        rw [h.owns k c hm cpu]
        by_cases hx : cpu ∈ cpus
        · rw [hgiven cpu hx, htaken cpu hx]
          simp [Ne.symm hk, Ne.symm hki]
        · rw [hold cpu hx]
  · by_cases hx : cpu ∈ cpus
    · exact h.few cpu 0 (htaken cpu hx)
    · exact h.few cpu k (hold cpu hx ▸ ho)
  · by_cases hk : k = 0
    · subst hk
      exact ⟨_, rfl⟩
    by_cases hki : k = id
    · subst hki
      exact ⟨_, assign_member hc hk⟩
    · rw [assign_member_of_ne hcells hk hki]
      refine h.known cpu k (hold cpu (fun hx => ?_) ▸ ho)
      rw [hgiven cpu hx] at ho
      exact hki (Option.some.inj ho).symm
  · by_cases hk : k = 0
    · subst hk
      exact ⟨caller, (hold caller hno).trans hca⟩
    by_cases hki : k = id
    · subst hki
      obtain ⟨cpu, hx⟩ := List.exists_mem_of_ne_nil _ hcpus
      exact ⟨cpu, hgiven cpu hx⟩
    · rw [assign_member_of_ne hcells hk hki] at hm
      obtain ⟨cpu, ho⟩ := h.inhabited k c hm
      refine ⟨cpu, (hold cpu fun hx => ?_).trans ho⟩
      rw [htaken cpu hx] at ho
      exact hk (Option.some.inj ho).symm

/-! ### The end of a cell -/

lemma destroy_member_of_ne (hk : k ≠ 0) (hne : k ≠ id) :
    (cellDestroyInternal p s id cell).member k = s.member k := by
  rw [member_of_ne hk, member_of_ne hk]
  exact Function.update_of_ne hne _ _

lemma destroy_member_self (hid : id ≠ 0) : (cellDestroyInternal p s id cell).member id = none :=
  (member_of_ne hid).trans (Function.update_self ..)

lemma pins_destroy (h : Pins p s.cells) (hc : s.cells.cells id = some cell) :
    Pins p (cellDestroyInternal p s id cell).cells := by
  have hst : CellIrqs.step p s.cells (.destroy id) =
      some ⟨irqchipCellExit p s.cells.root cell, Function.update s.cells.cells id none⟩ := by
    simp only [CellIrqs.step, hc, Option.map_some]
  have hap : Apart p (Function.update s.cells.cells id none) :=
    apart_step (a := .destroy id) h.apart trivial hst
  refine ⟨?_, fun k c hk => h.listed k c (of_removed hk).2, hap, fun pin hs hin k c hk => ?_⟩
  · change Function.update s.cells.cells id none 0 = none
    by_cases h0 : 0 = id
    · rw [← h0, Function.update_self]
    · rw [Function.update_of_ne h0, h.rootAlone]
  · have hb : irqchipIrqInCell (irqchipCellExit p s.cells.root cell).toCell pin = _ :=
      irqchipCellExit_spec.2 pin hs
    change irqchipIrqInCell (irqchipCellExit p s.cells.root cell).toCell pin = true at hin
    rw [hb, Bool.and_eq_true, Bool.or_eq_true] at hin
    rcases hin.1 with hr | hl
    · exact h.root pin hs hr k c (of_removed hk).2
    · exact h.apart pin hs id cell hc hl k c hk

lemma cpus_destroy (h : Cpus s) (hid : id ≠ 0) (hm : s.member id = some cell) :
    Cpus (cellDestroyInternal p s id cell) := by
  have hback : ∀ cpu, s.owner cpu = some id →
      (cellDestroyInternal p s id cell).owner cpu = some 0 :=
    fun cpu ho => if_pos ((h.owns id cell hm cpu).mpr ho)
  have hkept : ∀ cpu, s.owner cpu ≠ some id →
      (cellDestroyInternal p s id cell).owner cpu = s.owner cpu :=
    fun cpu ho => if_neg fun hc => ho ((h.owns id cell hm cpu).mp hc)
  refine ⟨fun k c hk cpu => ?_, fun cpu k ho => ?_, fun cpu k ho => ?_, fun k c hk => ?_⟩
  · by_cases hk0 : k = 0
    · subst hk0
      obtain rfl := Option.some.inj hk
      change (s.cells.root.ownsCpu cpu || cell.ownsCpu cpu) = true ↔ _
      rw [Bool.or_eq_true, h.owns 0 _ rfl cpu, h.owns id cell hm cpu]
      by_cases hx : s.owner cpu = some id
      · exact iff_of_true (.inr hx) (hback cpu hx)
      · rw [hkept cpu hx]
        exact or_iff_left hx
    · by_cases hki : k = id
      · subst hki
        rw [destroy_member_self hk0] at hk
        cases hk
      · rw [destroy_member_of_ne hk0 hki] at hk
        rw [h.owns k c hk cpu]
        by_cases hx : s.owner cpu = some id
        · rw [hback cpu hx, hx]
          simp [Ne.symm hk0, Ne.symm hki]
        · rw [hkept cpu hx]
  · by_cases hx : s.owner cpu = some id
    · exact h.few cpu id hx
    · exact h.few cpu k (hkept cpu hx ▸ ho)
  · by_cases hk0 : k = 0
    · subst hk0
      exact ⟨_, rfl⟩
    by_cases hx : s.owner cpu = some id
    · rw [hback cpu hx] at ho
      exact absurd (Option.some.inj ho).symm hk0
    · rw [hkept cpu hx] at ho
      have hki : k ≠ id := by
        rintro rfl
        exact hx ho
      rw [destroy_member_of_ne hk0 hki]
      exact h.known cpu k ho
  · by_cases hk0 : k = 0
    · subst hk0
      obtain ⟨cpu, ho⟩ := h.inhabited id cell hm
      exact ⟨cpu, hback cpu ho⟩
    by_cases hki : k = id
    · subst hki
      rw [destroy_member_self hk0] at hk
      cases hk
    · rw [destroy_member_of_ne hk0 hki] at hk
      obtain ⟨cpu, ho⟩ := h.inhabited k c hk
      refine ⟨cpu, (hkept cpu fun hx => ?_).trans ho⟩
      rw [hx] at ho
      exact hki (Option.some.inj ho).symm

end Layout

end FpMemSched.SpiTargets
