import FpMemSched.Arbiter
import FpMemSched.CpuControl

/-!
The fixed-priority arbiter and the life of the CPUs (`fixed_priority.c`, `control.c`, `psci.c`).

A CPU can be stopped and restarted in several ways: parked when its cell is created, destroyed
or made loadable, reset when its cell is started, switched off by its guest, or failed. Only
parking takes its request back. The other ways leave the request, and with it the token, to
a CPU that will not end its memory phase.
-/

namespace FpMemSched.CpuLife

open FpMemSched.Lib FpMemSched.Lib.Runs FpMemSched.Arbiter FpMemSched.CpuControl

structure Sys where
  arb : Arb
  /-- The registered cells, root cell first. -/
  cells : List Cell
  /-- The id of the cell a CPU belongs to. -/
  cellId : Cpu → ℕ
  ctl : Cpu → Control
  /-- The CPU has been reset and its guest has made no call since. -/
  fresh : Cpu → Bool

/-- The root cell starts with all CPUs running. -/
def init (root : Cell) : Sys :=
  ⟨Arbiter.init, [root], fun _ => root.id, fun _ => ⟨false, false, false, false, none⟩,
    fun _ => false⟩

/-- The CPUs of a cell in the order of `for_each_cpu`. -/
def cpus (c : Cell) : List Cpu := (List.finRange 6).filter (· ∈ c.cpuSet)

/-- `clear_bit`, which never empties the root cell. -/
def dropCpu (x : Cpu) (c : Cell) : Cell :=
  if h : (c.cpuSet.erase x).Nonempty then { c with cpuSet := c.cpuSet.erase x, nonempty := h }
  else c

def addCpu (x : Cpu) (c : Cell) : Cell :=
  { c with cpuSet := insert x c.cpuSet, nonempty := Finset.insert_nonempty x c.cpuSet }

def Sys.setCtl (s : Sys) (x : Cpu) (f : Control → Control) : Sys :=
  { s with ctl := Function.update s.ctl x (f (s.ctl x)) }

/-- `arch_park_cpu`, which tells the arbiter first. -/
def parkCpu (s : Sys) (x : Cpu) : Sys :=
  { s with arb := (onArchParkCpu s.cells x s.arb).1 }.setCtl x archParkCpu

/-- A turn of the loop in `cell_create` that takes a CPU from the root cell. -/
def takeCpu (id : ℕ) (s : Sys) (x : Cpu) : Sys :=
  let s := parkCpu s x
  { s with cells := s.cells.modifyHead (dropCpu x), cellId := Function.update s.cellId x id }

/-- A turn of the loop in `cell_destroy_internal` that gives a CPU back. -/
def returnCpu (rootId : ℕ) (s : Sys) (x : Cpu) : Sys :=
  let s := parkCpu s x
  { s with
    cells := s.cells.modifyHead (addCpu x)
    cellId := Function.update s.cellId x rootId }.setCtl x ({ · with failed := false })

/-- `arch_cell_destroy` leaves the CPUs without an entry address. -/
def cellDestroyInternal (rootId : ℕ) (s : Sys) (c : Cell) : Sys :=
  let s := (cpus c).foldl (returnCpu rootId) s
  (cpus c).foldl (fun s x => s.setCtl x ({ · with cpuOnEntry := none })) s

/-- `ok` tells whether the memory of the cell could be mapped. -/
def cellCreate (rootId : ℕ) (s : Sys) (c : Cell) (ok : Bool) : Sys :=
  let s := (cpus c).foldl (takeCpu c.id) s
  if ok then { s with cells := s.cells ++ [c] } else cellDestroyInternal rootId s c

def cellDestroy (rootId : ℕ) (s : Sys) (c : Cell) : Sys :=
  let s := cellDestroyInternal rootId s c
  { s with cells := s.cells.filter (·.id ≠ c.id) }

def cellSetLoadable (s : Sys) (c : Cell) : Sys :=
  (cpus c).foldl (fun s x => parkCpu (s.setCtl x ({ · with failed := false })) x) s

/-- `arch_cell_reset` and the loop after it. -/
def cellStart (s : Sys) (c : Cell) (cpuResetAddress : ℕ) : Sys :=
  let s := (cpus c).foldl (fun s x => s.setCtl x fun d =>
    { d with cpuOnEntry := if x = c.firstCpu then some cpuResetAddress else none }) s
  (cpus c).foldl (fun s x => s.setCtl x fun d => archResetCpu { d with failed := false }) s

inductive Action
  | cellCreate (caller : Cpu) (c : Cell) (ok : Bool)
  | cellDestroy (caller : Cpu) (c : Cell)
  | cellSetLoadable (caller : Cpu) (c : Cell)
  | cellStart (caller : Cpu) (c : Cell) (cpuResetAddress : ℕ)
  | checkEvents (x : Cpu)
  | cpuOff (x : Cpu)
  | cpuOn (x target : Cpu) (entry : ℕ)
  | panicPark (x : Cpu)
  | hypercall (x : Cpu) (actionCode : ℕ)

/-- Management calls come from a running CPU of the root cell. -/
def Manages (s : Sys) (x : Cpu) : Prop :=
  (s.ctl x).Running ∧ ∃ root ∈ s.cells.head?, s.cellId x = root.id

instance (s : Sys) (x : Cpu) : Decidable (Manages s x) := inferInstanceAs (Decidable (_ ∧ _))

def step (s : Sys) : Action → Option Sys
  | .cellCreate caller c ok =>
    match s.cells with
    | [] => none
    | root :: rest =>
      if Manages s caller ∧ caller ∉ c.cpuSet ∧ c.cpuSet ⊆ root.cpuSet ∧
          c.id ∉ (root :: rest).map Cell.id then
        some (cellCreate root.id s c ok)
      else none
  | .cellDestroy caller c =>
    match s.cells with
    | [] => none
    | root :: rest =>
      if Manages s caller ∧ c ∈ rest then some (cellDestroy root.id s c) else none
  | .cellSetLoadable caller c =>
    if Manages s caller ∧ c ∈ s.cells.tail then some (cellSetLoadable s c) else none
  | .cellStart caller c cpuResetAddress =>
    if Manages s caller ∧ c ∈ s.cells.tail then some (cellStart s c cpuResetAddress) else none
  | .checkEvents x =>
    let o := CpuControl.checkEvents (s.ctl x)
    some { s with
      ctl := Function.update s.ctl x o.1
      fresh := Function.update s.fresh x (o.2 = .restarted ∨ s.fresh x) }
  | .cpuOff x => if (s.ctl x).Running then some (s.setCtl x armCpuPark) else none
  | .cpuOn x target entry =>
    if (s.ctl x).Running ∧ s.cellId target = s.cellId x then
      some (s.setCtl target (psciEmulateCpuOn entry))
    else none
  | .panicPark x =>
    if (s.ctl x).Running then some (s.setCtl x CpuControl.panicPark) else none
  | .hypercall x actionCode =>
    if (s.ctl x).Running then
      some { s with
        arb := (fixedPriorityHypercall s.cells x (s.cellId x) actionCode s.arb).state
        fresh := Function.update s.fresh x false }
    else none

/-- Parked or about to be, switched off, or failed. -/
def Down (c : Control) : Prop := c.park = true ∨ c.waitForPoweron = true ∨ c.failed = true

/-- A CPU that does not run its guest, or whose guest has just been reset. -/
def Stopped (s : Sys) (x : Cpu) : Prop := Down (s.ctl x) ∨ s.fresh x = true

/-- A stopped CPU neither has the token nor asks for it. -/
def TokenReleased (s : Sys) : Prop :=
  ∀ x, Stopped s x → s.arb.tokenOwner ≠ some x ∧ s.arb.memoryRequests x = 0

/-- A CPU that is switched off, fails or is reset has no request standing, and one that has
failed and was switched on again by its own cell does not ask for the token. -/
def StopsIdle (s : Sys) : Action → Prop
  | .checkEvents x =>
    (s.ctl x).park = false → (s.ctl x).reset = true → s.arb.memoryRequests x = 0
  | .cpuOff x | .panicPark x => s.arb.memoryRequests x = 0
  | .hypercall x actionCode =>
    (s.ctl x).failed = true → actionCode = beginMemPhase → priorityOf (s.cellId x) = 0
  | _ => True

instance (s : Sys) : ∀ a, Decidable (StopsIdle s a)
  | .checkEvents _ | .hypercall _ _ => inferInstanceAs (Decidable (_ → _ → _))
  | .cpuOff _ | .panicPark _ => inferInstanceAs (Decidable (_ = _))
  | .cellCreate _ _ _ | .cellDestroy _ _ | .cellSetLoadable _ _ | .cellStart _ _ _
  | .cpuOn _ _ _ => isTrue trivial


/-! ### The arbiter -/

/-- The owner asks for the token, with the priority of its cell. -/
structure Asked (a : Arb) (cellId : Cpu → ℕ) : Prop where
  held : ∀ x, a.tokenOwner = some x → a.memoryRequests x ≠ 0
  entry : ∀ x, a.memoryRequests x ≠ 0 → a.memoryRequests x = priorityOf (cellId x)

variable {a : Arb} {cellId : Cpu → ℕ}

lemma asked_request (h : Asked a cellId) (x : Cpu) :
    Asked (requestMemory x (cellId x) a).1 cellId ∧
      ∀ y, y ≠ x → (requestMemory x (cellId x) a).1.memoryRequests y = a.memoryRequests y := by
  have hentry : ∀ y, Function.update a.memoryRequests x (priorityOf (cellId x)) y ≠ 0 →
      Function.update a.memoryRequests x (priorityOf (cellId x)) y = priorityOf (cellId y) := by
    intro y hy
    by_cases hyx : y = x
    · subst hyx
      rw [Function.update_self]
    · rw [Function.update_of_ne hyx] at hy ⊢
      exact h.entry y hy
  rcases requestMemory_cases x (cellId x) a with ⟨hlt, he⟩ | ⟨-, he⟩ <;> rw [he]
  · refine ⟨⟨fun y hy => ?_, hentry⟩, fun y hy => Function.update_of_ne hy _ _⟩
    obtain rfl : x = y := by simpa using hy
    simp only [Function.update_self]
    omega
  · refine ⟨⟨fun y hy => ?_, hentry⟩, fun y hy => Function.update_of_ne hy _ _⟩
    by_cases hyx : y = x
    · -- the owner asks again
      subst hyx
      simp only [Function.update_self, ← h.entry y (h.held y hy)]
      exact h.held y hy
    · simp only [Function.update_of_ne hyx]
      exact h.held y hy

/-- Giving the request back. The caller may be an owner without a request. -/
lemma asked_disable (cellId : Cpu → ℕ) (cells : List Cell) (x : Cpu)
    (hheld : ∀ y, y ≠ x → a.tokenOwner = some y → a.memoryRequests y ≠ 0)
    (hentry : ∀ y, y ≠ x → a.memoryRequests y ≠ 0 →
      a.memoryRequests y = priorityOf (cellId y)) :
    Asked (disableMemoryRequest cells x a).1 cellId ∧
      (disableMemoryRequest cells x a).1.memoryRequests =
        Function.update a.memoryRequests x 0 := by
  have hentry' : ∀ y, Function.update a.memoryRequests x 0 y ≠ 0 →
      Function.update a.memoryRequests x 0 y = priorityOf (cellId y) := by
    intro y hy
    by_cases hyx : y = x
    · subst hyx
      simp at hy
    · rw [Function.update_of_ne hyx] at hy ⊢
      exact hentry y hyx hy
  rcases disableMemoryRequest_cases cells x a with ⟨-, he⟩ | ⟨ho, he⟩ <;> rw [he]
  · refine ⟨⟨fun y hy => ?_, hentry'⟩, rfl⟩
    obtain ⟨b, hb, rfl⟩ := Option.map_eq_some_iff.mp hy
    obtain ⟨l₁, l₂, -, hpos, -⟩ := Scan.scan_some _ hb
    simp only
    omega
  · refine ⟨⟨fun y hy => ?_, hentry'⟩, rfl⟩
    have hyx : y ≠ x := fun hyx => ho (hyx ▸ hy)
    simp only [Function.update_of_ne hyx]
    exact hheld y hyx hy

lemma asked_hypercall (h : Asked a cellId) (cells : List Cell) (x : Cpu) (code : ℕ) :
    Asked (fixedPriorityHypercall cells x (cellId x) code a).state cellId ∧
      ∀ y, y ≠ x → (fixedPriorityHypercall cells x (cellId x) code a).state.memoryRequests y =
        a.memoryRequests y := by
  unfold fixedPriorityHypercall
  split_ifs with hb he ho
  · exact asked_request h x
  · obtain ⟨hd, hm⟩ := asked_disable cellId cells x (fun y _ => h.held y)
      fun y _ => h.entry y
    exact ⟨hd, fun y hy => by rw [hm, Function.update_of_ne hy]⟩
  · -- the measurement entry asks with priority 0, which takes no token
    obtain ⟨hd, hm⟩ := asked_disable
      (a := { a with memoryRequests := Function.update a.memoryRequests x 0 }) cellId cells x
      (fun y hy ho => by simpa [Function.update_of_ne hy] using h.held y ho)
      fun y hy hn => by
        simp only [Function.update_of_ne hy] at hn ⊢
        exact h.entry y hn
    simp only [enableMemoryRequestTestArbitrationOverhead, Nat.not_lt_zero, if_false]
    exact ⟨hd, fun y hy => by simp only [hm, Function.update_of_ne hy]⟩
  · exact ⟨h, fun _ _ => rfl⟩

/-- A CPU without a request has none after a call either, unless it asks. -/
lemma requests_hypercall {cells : List Cell} {x : Cpu} {code : ℕ} (hx : a.memoryRequests x = 0)
    (hc : code = beginMemPhase → priorityOf (cellId x) = 0) :
    (fixedPriorityHypercall cells x (cellId x) code a).state.memoryRequests x = 0 := by
  unfold fixedPriorityHypercall
  split_ifs with hb he ho
  · rcases requestMemory_cases x (cellId x) a with ⟨-, he⟩ | ⟨-, he⟩ <;>
      simp [he, hc hb]
  · rcases disableMemoryRequest_cases cells x a with ⟨-, he⟩ | ⟨-, he⟩ <;> simp [he]
  · simp only [enableMemoryRequestTestArbitrationOverhead, Nat.not_lt_zero, if_false]
    rcases disableMemoryRequest_cases cells x
      { a with memoryRequests := Function.update a.memoryRequests x 0 } with ⟨-, he⟩ | ⟨-, he⟩ <;>
      simp [he]
  · exact hx

/-! ### The invariant -/

structure Inv (s : Sys) : Prop where
  asked : Asked s.arb s.cellId
  idle : ∀ x, Stopped s x → s.arb.memoryRequests x = 0

lemma inv_init (root : Cell) : Inv (init root) :=
  ⟨⟨fun x hx => by simp [init, Arbiter.init] at hx, fun x hx => absurd rfl hx⟩, fun _ _ => rfl⟩

lemma Inv.released {s : Sys} (h : Inv s) : TokenReleased s := fun x hx =>
  ⟨fun ho => h.asked.held x ho (h.idle x hx), h.idle x hx⟩

/-- A CPU may be stopped if it has no request. -/
lemma Inv.setCtl {s : Sys} (h : Inv s) (x : Cpu) (f : Control → Control)
    (hf : s.arb.memoryRequests x = 0 ∨ (Down (f (s.ctl x)) → Down (s.ctl x))) :
    Inv (s.setCtl x f) := by
  refine ⟨h.asked, fun y hy => ?_⟩
  by_cases hyx : y = x
  · subst hyx
    rcases hf with hf | hf
    · exact hf
    · refine h.idle y (hy.imp (fun hd => hf ?_) id)
      simpa [Sys.setCtl] using hd
  · refine h.idle y (hy.imp (fun hd => ?_) id)
    simpa [Sys.setCtl, Function.update_of_ne hyx] using hd

lemma inv_parkCpu {s : Sys} (h : Inv s) (x : Cpu) :
    Inv (parkCpu s x) ∧ (parkCpu s x).arb.memoryRequests x = 0 := by
  obtain ⟨hd, hm⟩ := asked_disable s.cellId s.cells x (fun y _ => h.asked.held y)
    fun y _ => h.asked.entry y
  have hx : (disableMemoryRequest s.cells x s.arb).1.memoryRequests x = 0 := by
    rw [hm, Function.update_self]
  have hpark : Inv { s with arb := (onArchParkCpu s.cells x s.arb).1 } := by
    refine ⟨hd, fun y hy => ?_⟩
    by_cases hyx : y = x
    · subst hyx
      exact hx
    · simp only [onArchParkCpu, hm, Function.update_of_ne hyx]
      exact h.idle y hy
  exact ⟨hpark.setCtl x _ (Or.inl hx), hx⟩

/-- A CPU without a request may change its cell. -/
lemma Inv.move {s : Sys} (h : Inv s) {x : Cpu} (hx : s.arb.memoryRequests x = 0) (id : ℕ)
    (cells : List Cell) :
    Inv { s with cells := cells, cellId := Function.update s.cellId x id } := by
  refine ⟨⟨h.asked.held, fun y hy => ?_⟩, h.idle⟩
  have hyx : y ≠ x := fun hyx => hy (hyx ▸ hx)
  simp only [Function.update_of_ne hyx]
  exact h.asked.entry y hy

lemma inv_foldl {f : Sys → Cpu → Sys} (hf : ∀ s x, Inv s → Inv (f s x)) {s : Sys} (h : Inv s)
    (l : List Cpu) : Inv (l.foldl f s) := by
  induction l generalizing s with
  | nil => exact h
  | cons x l ih => exact ih (hf s x h)

lemma inv_takeCpu (id : ℕ) (s : Sys) (x : Cpu) (h : Inv s) : Inv (takeCpu id s x) :=
  (inv_parkCpu h x).1.move (inv_parkCpu h x).2 id _

lemma inv_cellDestroyInternal (rootId : ℕ) {s : Sys} (h : Inv s) (c : Cell) :
    Inv (cellDestroyInternal rootId s c) := by
  refine inv_foldl (fun s x hs => hs.setCtl x _ (Or.inr id)) (inv_foldl (fun s x hs => ?_) h _) _
  obtain ⟨hp, hx⟩ := inv_parkCpu hs x
  exact (hp.move hx rootId ((parkCpu s x).cells.modifyHead (addCpu x))).setCtl x
    ({ · with failed := false }) (Or.inl hx)

lemma inv_cellCreate (rootId : ℕ) {s : Sys} (h : Inv s) (c : Cell) (ok : Bool) :
    Inv (cellCreate rootId s c ok) := by
  have ht : Inv ((cpus c).foldl (takeCpu c.id) s) := inv_foldl (inv_takeCpu c.id) h _
  cases ok with
  | true => exact ⟨ht.asked, ht.idle⟩
  | false => exact inv_cellDestroyInternal rootId ht c

lemma inv_cellSetLoadable {s : Sys} (h : Inv s) (c : Cell) : Inv (cellSetLoadable s c) := by
  refine inv_foldl (fun s x hs => (inv_parkCpu (hs.setCtl x _ (Or.inr ?_)) x).1) h _
  rintro (hd | hd | hd)
  · exact Or.inl hd
  · exact Or.inr (Or.inl hd)
  · simp at hd

lemma inv_cellStart {s : Sys} (h : Inv s) (c : Cell) (entry : ℕ) :
    Inv (cellStart s c entry) := by
  refine inv_foldl (fun s x hs => hs.setCtl x _ (Or.inr ?_))
    (inv_foldl (fun s x hs => hs.setCtl x _ (Or.inr id)) h _) _
  rintro (hd | hd | hd)
  · exact Or.inl hd
  · exact Or.inr (Or.inl hd)
  · simp [archResetCpu] at hd

/-! ### Steps and runs -/

/-- Leaving `check_events`: a CPU without a request may be stopped, and one with a request is
stopped only by a reset. -/
lemma inv_checkEvents {s t : Sys} {x : Cpu} (h : Inv s)
    (hc : StopsIdle s (.checkEvents x)) (hs : step s (.checkEvents x) = some t) : Inv t := by
  simp only [step, Option.some.injEq] at hs
  subst hs
  refine ⟨h.asked, fun y hy => ?_⟩
  by_cases hyx : y = x
  · subst hyx
    rcases checkEvents_cases (s.ctl y) with ⟨-, hp, hr, -⟩ | ⟨-, hwhy, -⟩ | ⟨ho, -, he⟩
    · exact hc hp hr
    · by_cases hp : (s.ctl y).park = true
      · exact h.idle y (Or.inl (Or.inl hp))
      · rcases hwhy with hw | hw | hw
        · exact absurd hw hp
        · exact hc (by simpa using hp) hw
        · exact h.idle y (Or.inl (Or.inr (Or.inl hw)))
    · refine h.idle y (hy.imp (fun hd => ?_) fun hf => ?_)
      · simpa [he] using hd
      · simpa [ho] using hf
  · refine h.idle y (hy.imp (fun hd => ?_) fun hf => ?_)
    · simpa [Function.update_of_ne hyx] using hd
    · simpa [Function.update_of_ne hyx] using hf

/-- A hypercall of a running CPU. Only a failed one may be stopped and running. -/
lemma inv_hypercall {s t : Sys} {x : Cpu} {code : ℕ} (h : Inv s)
    (hc : StopsIdle s (.hypercall x code)) (hs : step s (.hypercall x code) = some t) :
    Inv t := by
  simp only [step, Option.ite_none_right_eq_some, Option.some.injEq] at hs
  obtain ⟨⟨hp, -, hw⟩, rfl⟩ := hs
  obtain ⟨hasked, hframe⟩ := asked_hypercall h.asked s.cells x code
  refine ⟨hasked, fun y hy => ?_⟩
  by_cases hyx : y = x
  · subst hyx
    have hfail : (s.ctl y).failed = true := by
      simpa [Stopped, Down, hp, hw] using hy
    have hzero : s.arb.memoryRequests y = 0 := h.idle y (Or.inl (Or.inr (Or.inr hfail)))
    exact requests_hypercall hzero (hc hfail)
  · rw [hframe y hyx]
    refine h.idle y (hy.imp id fun hf => ?_)
    simpa [Function.update_of_ne hyx] using hf

lemma inv_step {s t : Sys} {a : Action} (h : Inv s) (hc : StopsIdle s a)
    (hs : step s a = some t) : Inv t := by
  cases a with
  | cellCreate caller c ok =>
    rcases hcells : s.cells with _ | ⟨root, rest⟩
    · simp [step, hcells] at hs
    · simp only [step, hcells, Option.ite_none_right_eq_some, Option.some.injEq] at hs
      obtain ⟨-, rfl⟩ := hs
      exact inv_cellCreate root.id h c ok
  | cellDestroy caller c =>
    rcases hcells : s.cells with _ | ⟨root, rest⟩
    · simp [step, hcells] at hs
    · simp only [step, hcells, Option.ite_none_right_eq_some, Option.some.injEq] at hs
      obtain ⟨-, rfl⟩ := hs
      have hd := inv_cellDestroyInternal root.id h c
      exact ⟨hd.asked, hd.idle⟩
  | cellSetLoadable caller c =>
    simp only [step, Option.ite_none_right_eq_some, Option.some.injEq] at hs
    obtain ⟨-, rfl⟩ := hs
    exact inv_cellSetLoadable h c
  | cellStart caller c entry =>
    simp only [step, Option.ite_none_right_eq_some, Option.some.injEq] at hs
    obtain ⟨-, rfl⟩ := hs
    exact inv_cellStart h c entry
  | checkEvents x => exact inv_checkEvents h hc hs
  | cpuOff x =>
    simp only [step, Option.ite_none_right_eq_some, Option.some.injEq] at hs
    obtain ⟨-, rfl⟩ := hs
    exact h.setCtl x _ (Or.inl hc)
  | cpuOn x target entry =>
    simp only [step, Option.ite_none_right_eq_some, Option.some.injEq] at hs
    obtain ⟨-, rfl⟩ := hs
    refine h.setCtl target _ (Or.inr ?_)
    unfold psciEmulateCpuOn
    split_ifs <;> exact id
  | panicPark x =>
    simp only [step, Option.ite_none_right_eq_some, Option.some.injEq] at hs
    obtain ⟨-, rfl⟩ := hs
    exact h.setCtl x _ (Or.inl hc)
  | hypercall x code => exact inv_hypercall h hc hs

/-- A CPU that is stopped with its request standing keeps it. -/
lemma kept_of_not_stopsIdle {s t : Sys} {a : Action} (hc : ¬ StopsIdle s a)
    (hs : step s a = some t) : ¬ TokenReleased t := by
  intro hrel
  cases a with
  | checkEvents x =>
    simp only [StopsIdle, Classical.not_imp] at hc
    obtain ⟨-, hr, hreq⟩ := hc
    simp only [step, Option.some.injEq] at hs
    subst hs
    refine hreq (hrel x ?_).2
    rcases checkEvents_cases (s.ctl x) with ⟨ho, -⟩ | ⟨-, -, hw, -⟩ | ⟨-, hrun, -⟩
    · exact Or.inr (by simp [ho])
    · exact Or.inl (Or.inr (Or.inl (by simp [hw])))
    · simp [hrun.2.1] at hr
  | cpuOff x =>
    simp only [step, Option.ite_none_right_eq_some, Option.some.injEq] at hs
    obtain ⟨-, rfl⟩ := hs
    exact hc (hrel x (Or.inl (Or.inr (Or.inl
      (by simp [Sys.setCtl, armCpuPark, enterCpuOff]))))).2
  | panicPark x =>
    simp only [step, Option.ite_none_right_eq_some, Option.some.injEq] at hs
    obtain ⟨-, rfl⟩ := hs
    exact hc (hrel x (Or.inl (Or.inr (Or.inl
      (by simp [Sys.setCtl, CpuControl.panicPark, armCpuPark, enterCpuOff]))))).2
  | hypercall x code =>
    simp only [StopsIdle, Classical.not_imp] at hc
    obtain ⟨hf, rfl, hprio⟩ := hc
    simp only [step, Option.ite_none_right_eq_some, Option.some.injEq] at hs
    obtain ⟨-, rfl⟩ := hs
    have hzero := (hrel x (Or.inl (Or.inr (Or.inr hf)))).2
    simp only [fixedPriorityHypercall, if_true] at hzero
    rcases requestMemory_cases x (s.cellId x) s.arb with ⟨-, he⟩ | ⟨-, he⟩ <;>
      exact hprio (by simpa [he] using hzero)
  | cellCreate _ _ _ | cellDestroy _ _ | cellSetLoadable _ _ | cellStart _ _ _ | cpuOn _ _ _ =>
    exact hc trivial

/-- **A stopped CPU holds no token, exactly in the runs in which CPUs are switched off, fail
and are reset without a request standing.** -/
theorem token_released_iff (root : Cell) (as : List Action) (s : Sys)
    (h : exec step (init root) as = some s) :
    Always step TokenReleased (init root) as ↔ Along step StopsIdle (init root) as := by
  refine always_iff_along (fun _ hi => hi.released) (fun s a t hi ht => ?_) (inv_init root) h
  by_cases hc : StopsIdle s a
  · exact Or.inl ⟨hc, inv_step hi hc ht⟩
  · exact Or.inr ⟨hc, kept_of_not_stopsIdle hc ht⟩

def rootCell : Cell := ⟨0, Finset.univ, by decide⟩

/-- The first two cells are created and started. -/
def startUp : List Action :=
  [.cellCreate rootCell.firstCpu cellA true, .checkEvents cellA.firstCpu,
    .cellCreate rootCell.firstCpu cellB true, .checkEvents cellB.firstCpu,
    .cellStart rootCell.firstCpu cellA 0, .checkEvents cellA.firstCpu,
    .cellStart rootCell.firstCpu cellB 0, .checkEvents cellB.firstCpu]

/-- The second cell has the token when it is parked. -/
def parkedRun : List Action :=
  startUp ++ [.hypercall cellB.firstCpu beginMemPhase, .cellSetLoadable rootCell.firstCpu cellB,
    .checkEvents cellB.firstCpu, .hypercall cellA.firstCpu beginMemPhase]

theorem token_released_iff_parkedRun :
    ∃ s, exec step (init rootCell) parkedRun = some s ∧ s.arb.tokenOwner = some 2 ∧
      TokenReleased s :=
  ⟨_, rfl, by decide, (token_released_iff rootCell parkedRun _ rfl).mpr (by decide) parkedRun []
    _ rfl rfl⟩

/-- The first cell is switched off by its guest in the middle of a memory phase. -/
def switchedOffRun : List Action :=
  startUp ++ [.hypercall cellA.firstCpu beginMemPhase, .cpuOff cellA.firstCpu,
    .hypercall cellB.firstCpu beginMemPhase]

/-- The token stays with the CPU that is off, and the other cell waits for it. -/
theorem token_kept_off :
    ∃ s, exec step (init rootCell) switchedOffRun = some s ∧ (s.ctl 2).waitForPoweron = true ∧
      s.arb.tokenOwner = some 2 ∧ s.arb.memoryRequests 3 ≠ 0 ∧
      ¬ Always step TokenReleased (init rootCell) switchedOffRun := by
  refine ⟨_, rfl, by decide, by decide, by decide, fun h => ?_⟩
  exact (h switchedOffRun [] _ rfl rfl 2 (Or.inl (Or.inr (Or.inl (by decide))))).1 (by decide)

end FpMemSched.CpuLife
