import FpMemSched.Lib.Runs
import FpMemSched.Lib.Scan
import Mathlib.Data.Finset.Max
import Mathlib.Data.Fintype.Basic
import Mathlib.Data.List.Pairwise
import Mathlib.Order.Fin.Basic

/-!
The fixed-priority memory arbiter of the hypervisor (`fixed_priority.c`).

One token stands for the right to access memory. A CPU asks for it with its cell's priority;
the request of a higher priority takes the token away from its owner, and a released token
goes to the highest request left. Every function runs under the spinlock `memory_lock`, so a
call is one step.
-/

namespace FpMemSched.Arbiter

open FpMemSched.Lib

/-- `memory_requests` has one entry for each of the six CPUs. -/
abbrev Cpu := Fin 6

structure Cell where
  id : ℕ
  cpuSet : Finset Cpu
  nonempty : cpuSet.Nonempty
  deriving DecidableEq

def Cell.firstCpu (c : Cell) : Cpu := c.cpuSet.min' c.nonempty

lemma Cell.firstCpu_mem (c : Cell) : c.firstCpu ∈ c.cpuSet := c.cpuSet.min'_mem c.nonempty

/-- The registered cells, root cell first. A CPU belongs to one cell, and `cell_create`
refuses an id that is taken. -/
structure Cells where
  list : List Cell
  disjoint : list.Pairwise fun a b => Disjoint a.cpuSet b.cpuSet
  ids : (list.map Cell.id).Nodup

lemma cell_eq_of_firstCpu {cs : Cells} {c d : Cell} (hc : c ∈ cs.list) (hd : d ∈ cs.list)
    (h : c.firstCpu = d.firstCpu) : c = d := by
  by_contra hne
  have : Std.Symm fun a b : Cell => Disjoint a.cpuSet b.cpuSet := ⟨fun _ _ h => h.symm⟩
  exact Finset.disjoint_left.mp (cs.disjoint.forall hc hd hne) c.firstCpu_mem
    (h ▸ d.firstCpu_mem)

lemma cell_eq_of_id {cs : Cells} {c d : Cell} (hc : c ∈ cs.list) (hd : d ∈ cs.list)
    (h : c.id = d.id) : c = d :=
  List.inj_on_of_nodup_map cs.ids hc hd h

/-- Two cells on one CPU each; the lower id has the higher priority. -/
def cellA : Cell := ⟨1, {2}, by decide⟩
def cellB : Cell := ⟨2, {3}, by decide⟩
def twoCells : Cells := ⟨[cellA, cellB], by decide, by decide⟩

def maxPriority : ℕ := 6
def tokenNullPriority : ℕ := 0

def sgiMemoryPhaseStarted : ℕ := 13
def sgiMemoryPhaseEnded : ℕ := 14

/-- An interrupt handed to `irqchip_set_pending`. -/
structure Sgi where
  target : Cpu
  irqId : ℕ
  deriving DecidableEq

/-- The three shared variables; `none` is `TOKEN_FREE`. -/
structure Arb where
  memoryRequests : Cpu → ℕ
  tokenOwner : Option Cpu
  tokenPriority : ℕ

def init : Arb := ⟨fun _ => tokenNullPriority, none, tokenNullPriority⟩

/-- `MAX_PRIORITY - id` in 32-bit unsigned arithmetic. -/
def priorityOf (id : ℕ) : ℕ := (maxPriority + 2 ^ 32 - id % 2 ^ 32) % 2 ^ 32

/-- A call from `cpuId` of the cell with this id: the new state, the interrupts raised, and
whether the caller has the token. -/
def requestMemory (cpuId : Cpu) (id : ℕ) (s : Arb) : Arb × List Sgi × Bool :=
  let priority := priorityOf id
  let s₁ := { s with memoryRequests := Function.update s.memoryRequests cpuId priority }
  if s₁.tokenPriority < priority then
    let raised := match s₁.tokenOwner with
      | some o => if o ≠ cpuId then [⟨o, sgiMemoryPhaseEnded⟩] else []
      | none => []
    ({ s₁ with tokenOwner := some cpuId, tokenPriority := priority }, raised, true)
  else (s₁, [], decide (s₁.tokenOwner = some cpuId))

/-- One turn of the `for_each_cell` loop. -/
def passToken (s : Arb) (cell : Cell) : Arb :=
  if s.tokenPriority < s.memoryRequests cell.firstCpu then
    { s with tokenPriority := s.memoryRequests cell.firstCpu, tokenOwner := some cell.firstCpu }
  else s

def disableMemoryRequest (cells : List Cell) (cpuId : Cpu) (s : Arb) : Arb × List Sgi :=
  let s₁ := { s with
    memoryRequests := Function.update s.memoryRequests cpuId tokenNullPriority }
  if s₁.tokenOwner = some cpuId then
    let s₂ := cells.foldl passToken
      { s₁ with tokenOwner := none, tokenPriority := tokenNullPriority }
    (s₂, s₂.tokenOwner.toList.map fun o => ⟨o, sgiMemoryPhaseStarted⟩)
  else (s₁, [])

/-- The measurement entry: it raises interrupt 10 and gives the request back at once. -/
def enableMemoryRequestTestArbitrationOverhead (cells : List Cell) (cpuId : Cpu)
    (priority : ℕ) (s : Arb) : Arb × List Sgi :=
  let s₁ := { s with memoryRequests := Function.update s.memoryRequests cpuId priority }
  let (s₂, raised) :=
    if s₁.tokenPriority < priority then
      ({ s₁ with tokenOwner := some cpuId, tokenPriority := priority },
        s₁.tokenOwner.toList.map fun o => (⟨o, 10⟩ : Sgi))
    else (s₁, [])
  let (s₃, passed) := disableMemoryRequest cells cpuId s₂
  (s₃, raised ++ passed)

inductive Reply
  | ack | nack | invalid
  deriving DecidableEq

structure Outcome where
  state : Arb
  raised : List Sgi
  reply : Reply

def beginMemPhase : ℕ := 1
def endMemPhase : ℕ := 2

def fixedPriorityHypercall (cells : List Cell) (cpuId : Cpu) (id actionCode : ℕ) (s : Arb) :
    Outcome :=
  if actionCode = beginMemPhase then
    let (s', raised, res) := requestMemory cpuId id s
    ⟨s', raised, if res then .ack else .nack⟩
  else if actionCode = endMemPhase then
    let (s', raised) := disableMemoryRequest cells cpuId s
    ⟨s', raised, .ack⟩
  else if actionCode = 0xFFFF then
    let (s', raised) := enableMemoryRequestTestArbitrationOverhead cells cpuId 0 s
    ⟨s', raised, .ack⟩
  else ⟨s, [], .invalid⟩

def onArchParkCpu (cells : List Cell) (cpuId : Cpu) (s : Arb) : Arb × List Sgi :=
  disableMemoryRequest cells cpuId s

/-! ### What the calls do -/

lemma priorityOf_eq {id : ℕ} (h : id ≤ 5) : priorityOf id = 6 - id := by
  unfold priorityOf maxPriority
  omega

/-- The two outcomes of a request: the caller takes the token, or nothing but its entry
changes. -/
lemma requestMemory_cases (cpuId : Cpu) (id : ℕ) (s : Arb) :
    (s.tokenPriority < priorityOf id ∧
      requestMemory cpuId id s =
        (⟨Function.update s.memoryRequests cpuId (priorityOf id), some cpuId, priorityOf id⟩,
          (s.tokenOwner.filter (· ≠ cpuId)).toList.map (⟨·, sgiMemoryPhaseEnded⟩), true)) ∨
    (priorityOf id ≤ s.tokenPriority ∧
      requestMemory cpuId id s =
        (⟨Function.update s.memoryRequests cpuId (priorityOf id), s.tokenOwner,
          s.tokenPriority⟩, [], decide (s.tokenOwner = some cpuId))) := by
  unfold requestMemory
  rcases Nat.lt_or_ge s.tokenPriority (priorityOf id) with h | h
  · left
    refine ⟨h, ?_⟩
    simp only [h, if_true]
    rcases hs : s.tokenOwner with _ | o
    · simp
    · by_cases ho : o = cpuId <;> simp [Option.filter, ho]
  · right
    refine ⟨h, ?_⟩
    simp only [if_neg (show ¬ s.tokenPriority < priorityOf id by omega)]

lemma foldl_passToken (m : Cpu → ℕ) (cells : List Cell) (b : Option Cell) :
    cells.foldl passToken
        ⟨m, b.map Cell.firstCpu, Scan.keyOf (fun c : Cell => m c.firstCpu) b⟩ =
      ⟨m, (Scan.scan (fun c : Cell => m c.firstCpu) b cells).map Cell.firstCpu,
        Scan.keyOf (fun c : Cell => m c.firstCpu)
          (Scan.scan (fun c : Cell => m c.firstCpu) b cells)⟩ := by
  induction cells generalizing b with
  | nil => rfl
  | cons c cells ih =>
    rw [List.foldl_cons, Scan.scan_cons, ← ih]
    congr 1
    unfold passToken Scan.pick
    split_ifs <;> rfl

/-- The two outcomes of giving a request back: the owner passes the token on to what the
scan of the cells finds, or nothing but the caller's entry changes. -/
lemma disableMemoryRequest_cases (cells : List Cell) (cpuId : Cpu) (s : Arb) :
    let m := Function.update s.memoryRequests cpuId 0
    let best := Scan.scan (fun c : Cell => m c.firstCpu) none cells
    (s.tokenOwner = some cpuId ∧
      disableMemoryRequest cells cpuId s =
        (⟨m, best.map Cell.firstCpu, Scan.keyOf (fun c : Cell => m c.firstCpu) best⟩,
          (best.map Cell.firstCpu).toList.map (⟨·, sgiMemoryPhaseStarted⟩))) ∨
    (s.tokenOwner ≠ some cpuId ∧
      disableMemoryRequest cells cpuId s = (⟨m, s.tokenOwner, s.tokenPriority⟩, [])) := by
  intro m best
  unfold disableMemoryRequest
  by_cases h : s.tokenOwner = some cpuId
  · left
    refine ⟨h, ?_⟩
    have hf := foldl_passToken m cells none
    simp only [Option.map_none, Scan.keyOf_none] at hf
    simp only [h, if_true, tokenNullPriority]
    rw [hf]
  · right
    refine ⟨h, ?_⟩
    simp only [h, if_false, tokenNullPriority]
    rfl

end FpMemSched.Arbiter
