import FpMemSched.Erika.Kernel
import FpMemSched.Lib.Runs
import Mathlib.Algebra.BigOperators.Group.Finset.Basic
import Mathlib.Algebra.Order.BigOperators.Group.Finset

/-!
Creation of tasks at run time (`ee_oo_api_dynamic.c`), and the scheduler nodes it reserves.

A task takes as many nodes from `free_sn_counter` as it may have activations. The nodes
themselves stay in the free list until an activation takes one, and come back when it ends;
`osEE_sn_alloc` does not ask whether there is one. When the stack of the task cannot be
allocated the call fails, and what it had reserved stays reserved.
-/

namespace FpMemSched.Erika.Creation

open FpMemSched.Lib FpMemSched.Lib.Runs
open FpMemSched.Erika.Kernel (Tid TaskType TaskStatus)

/-- The configuration: `TaskPrio` has `prioBits` bits. -/
structure Config where
  prioBits : ℕ
  isr2MaxPrio : ℕ
  taskArraySize : ℕ

def Config.isr2PrioBit (cfg : Config) : ℕ := 2 ^ (cfg.prioBits - 1)

/-- `OSEE_SYSTEM_STACK`, the largest `MemSize`. -/
def systemStack : ℕ := 2 ^ 64 - 1

def stackAlignSize : ℕ := 16
def stackGuardArea : ℕ := stackAlignSize

/-- `OSEE_STACK_ALIGN`, an `unsigned int`. -/
def stackAlign : ℕ := 2 ^ 32 - stackAlignSize

structure Tdb (φ : Type*) where
  tid : Tid
  taskType : TaskType
  taskFunc : φ
  readyPrio : ℕ
  dispatchPrio : ℕ
  maxNumOfAct : ℕ

structure Tcb where
  currentPrio : ℕ
  status : TaskStatus
  currentNumOfAct : ℕ

/-- The kernel with its tables, the free nodes, the nodes in use with their tasks, and what is
left of the memory for stacks. -/
structure Sys (φ ν : Type*) where
  tdb : Tid → Tdb φ
  tcb : Tid → Tcb
  freeTaskIndex : ℕ
  freeSnCounter : ℕ
  residualMem : ℕ
  freeSn : List ν
  busy : List (ν × Tid)

inductive StatusType
  | ok | state | sysTask | value | sysAct | sysStack
  deriving DecidableEq

/-- The arguments of `osEE_create_task`. -/
structure Args (φ : Type*) where
  taskType : TaskType
  taskFunc : φ
  readyPrio : ℕ
  dispatchPrio : ℕ
  maxNumOfAct : ℕ
  stackSize : ℕ

variable {φ ν : Type*} (cfg : Config)

/-- ISR2 have the highest bit of a priority set, tasks have it cleared. -/
def adjustPrio (type : TaskType) (prio : ℕ) : ℕ :=
  if type = .isr2 then ((prio + 2 ^ cfg.prioBits - 1) % 2 ^ cfg.prioBits) ||| cfg.isr2PrioBit
  else prio &&& (cfg.isr2PrioBit - 1)

/-- The size `osEE_hal_allocate_stack` takes for a stack. -/
def roundStack (size : ℕ) : ℕ :=
  if stackGuardArea * 2 < size then (size + (stackAlignSize - 1)) % 2 ^ 64 &&& stackAlign
  else stackGuardArea * 2

/-- What is left of the stack memory after `osEE_hal_hdb_init`, if the stack fits. -/
def halHdbInit (stackSize residualMem : ℕ) : Option ℕ :=
  if stackSize = systemStack then some residualMem
  else if roundStack stackSize ≤ residualMem then some (residualMem - roundStack stackSize)
  else none

/-- What is left of `free_sn_counter`, if the activations can be reserved. -/
def schedulerTaskReserveActivations (activations freeSnCounter : ℕ) : Option ℕ :=
  if activations ≤ freeSnCounter then some (freeSnCounter - activations) else none

/-- The new entries of the tables. -/
def Sys.fill (s : Sys φ ν) (a : Args φ) (readyPrio dispatchPrio : ℕ) : Sys φ ν :=
  let tid := s.freeTaskIndex
  { s with
    freeTaskIndex := tid + 1
    tdb := Function.update s.tdb tid
      ⟨tid, a.taskType, a.taskFunc, readyPrio, dispatchPrio, a.maxNumOfAct⟩
    tcb := Function.update s.tcb tid ⟨readyPrio, .suspended, 0⟩ }

def createTask (a : Args φ) (s : Sys φ ν) : Sys φ ν × StatusType :=
  let readyPrio := adjustPrio cfg a.taskType a.readyPrio
  let dispatchPrio := adjustPrio cfg a.taskType a.dispatchPrio
  if a.taskType = .extended ∧ a.stackSize = systemStack then (s, .state)
  else if cfg.taskArraySize ≤ s.freeTaskIndex then (s, .sysTask)
  else if readyPrio = 0 ∨ readyPrio < dispatchPrio ∨ a.maxNumOfAct = 0 ∨
      cfg.isr2MaxPrio < dispatchPrio then (s, .value)
  else match schedulerTaskReserveActivations a.maxNumOfAct s.freeSnCounter with
    | none => (s, .sysAct)
    | some freeSnCounter =>
      let s := { s with freeSnCounter := freeSnCounter }
      match halHdbInit a.stackSize s.residualMem with
      | some residualMem =>
        ({ s with residualMem := residualMem }.fill a readyPrio dispatchPrio, .ok)
      | none => (s, .sysStack)

/-! ### Activations -/

/-- An activation takes a node; without one, `osEE_sn_alloc` follows a null pointer. -/
def snAlloc (t : Tid) (s : Sys φ ν) : Option (Sys φ ν) :=
  match s.freeSn with
  | [] => none
  | m :: free => some { s with freeSn := free, busy := (m, t) :: s.busy }

def countActivation (t : Tid) (s : Sys φ ν) : Sys φ ν :=
  let num := (s.tcb t).currentNumOfAct + 1
  { s with tcb := Function.update s.tcb t { s.tcb t with currentNumOfAct := num } }

/-- `ActivateTask`, with what `osEE_task_activated` does. It fails for a task that was not
created, for an ISR2, and for one with all its activations pending. -/
def activateTask (t : Tid) (s : Sys φ ν) : Option (Sys φ ν) :=
  if t < s.freeTaskIndex ∧ ((s.tdb t).taskType = .basic ∨ (s.tdb t).taskType = .extended) then
    if (s.tcb t).currentNumOfAct < (s.tdb t).maxNumOfAct then snAlloc t (countActivation t s)
    else some s
  else some s

/-- `osEE_activate_isr2` for the interrupt of a created ISR2, which the interrupt controller
raises only while the ISR2 has an activation left. -/
def activateIsr2 (i : Tid) (s : Sys φ ν) : Option (Sys φ ν) :=
  if i < s.freeTaskIndex ∧ (s.tdb i).taskType = .isr2 ∧
      (s.tcb i).currentNumOfAct < (s.tdb i).maxNumOfAct then
    snAlloc i (countActivation i s)
  else none

/-- `osEE_task_end` -/
def taskEnd (t : Tid) (s : Sys φ ν) : Sys φ ν :=
  let num := (s.tcb t).currentNumOfAct - 1
  let status := if num = 0 then .suspended else .ready
  { s with tcb := Function.update s.tcb t ⟨(s.tdb t).readyPrio, status, num⟩ }

inductive Op (φ ν : Type*)
  | create (a : Args φ)
  | activate (t : Tid)
  | interrupt (i : Tid)
  /-- An activation of a task ends and gives its node back. -/
  | finish (m : ν) (t : Tid)
  /-- The scheduler changes priorities and states. -/
  | schedule (prio : Tid → ℕ) (status : Tid → TaskStatus)

def step [DecidableEq ν] (s : Sys φ ν) : Op φ ν → Option (Sys φ ν)
  | .create a => some (createTask cfg a s).1
  | .activate t => activateTask t s
  | .interrupt i => activateIsr2 i s
  | .finish m t =>
    if (m, t) ∈ s.busy then
      some { taskEnd t s with freeSn := m :: s.freeSn, busy := s.busy.erase (m, t) }
    else none
  | .schedule prio status =>
    some { s with tcb := fun t => ⟨prio t, status t, (s.tcb t).currentNumOfAct⟩ }

/-- After `osEE_os_init`: no tasks, and all nodes free and counted. -/
structure Fresh (s : Sys φ ν) : Prop where
  tasks : s.freeTaskIndex = 0
  nodes : s.freeSnCounter = s.freeSn.length
  busy : s.busy = []

/-! ### What is to hold -/

/-- A call that fails changes nothing. -/
def Atomic (s : Sys φ ν) : Op φ ν → Prop
  | .create a =>
    let r := createTask cfg a s
    r.2 ≠ .ok → r.1.freeTaskIndex = s.freeTaskIndex ∧ r.1.freeSnCounter = s.freeSnCounter ∧
      r.1.tdb = s.tdb ∧ r.1.tcb = s.tcb
  | _ => True

/-- The nodes that the created tasks may need. -/
def Sys.reserved (s : Sys φ ν) : ℕ := ∑ t ∈ Finset.range s.freeTaskIndex, (s.tdb t).maxNumOfAct

def Accounted (n : ℕ) (s : Sys φ ν) : Prop := s.freeSnCounter + s.reserved = n

/-- An activation that is within its limit finds a node. -/
def Stocked (s : Sys φ ν) : Prop :=
  ∀ t < s.freeTaskIndex, (s.tcb t).currentNumOfAct < (s.tdb t).maxNumOfAct → s.freeSn ≠ []

/-- The call gets as far as the stack of the task. -/
structure Reserves (s : Sys φ ν) (a : Args φ) : Prop where
  stack : ¬ (a.taskType = .extended ∧ a.stackSize = systemStack)
  index : s.freeTaskIndex < cfg.taskArraySize
  prio : ¬ (adjustPrio cfg a.taskType a.readyPrio = 0 ∨
    adjustPrio cfg a.taskType a.readyPrio < adjustPrio cfg a.taskType a.dispatchPrio ∨
    a.maxNumOfAct = 0 ∨ cfg.isr2MaxPrio < adjustPrio cfg a.taskType a.dispatchPrio)
  nodes : a.maxNumOfAct ≤ s.freeSnCounter

instance (s : Sys φ ν) (a : Args φ) : Decidable (Reserves cfg s a) :=
  decidable_of_iff
    (¬ (a.taskType = .extended ∧ a.stackSize = systemStack) ∧
      s.freeTaskIndex < cfg.taskArraySize ∧
      ¬ (adjustPrio cfg a.taskType a.readyPrio = 0 ∨
        adjustPrio cfg a.taskType a.readyPrio < adjustPrio cfg a.taskType a.dispatchPrio ∨
        a.maxNumOfAct = 0 ∨ cfg.isr2MaxPrio < adjustPrio cfg a.taskType a.dispatchPrio) ∧
      a.maxNumOfAct ≤ s.freeSnCounter)
    ⟨fun h => ⟨h.1, h.2.1, h.2.2.1, h.2.2.2⟩, fun h => ⟨h.stack, h.index, h.prio, h.nodes⟩⟩

/-- There is memory for the stack of a task that gets as far as that. -/
def StackFits (s : Sys φ ν) : Op φ ν → Prop
  | .create a => Reserves cfg s a →
      a.stackSize = systemStack ∨ roundStack a.stackSize ≤ s.residualMem
  | _ => True

instance (s : Sys φ ν) (op : Op φ ν) : Decidable (StackFits cfg s op) :=
  match op with
  | .create _ => inferInstanceAs (Decidable (_ → _))
  | .activate _ | .interrupt _ | .finish _ _ | .schedule _ _ => isTrue trivial

/-! ### A call -/

variable {cfg} {s : Sys φ ν} {a : Args φ}

/-- A call fails before it reserves nodes and changes nothing, or it fails behind that, or it
creates a task. -/
lemma createTask_cases (cfg : Config) (a : Args φ) (s : Sys φ ν) :
    (¬ Reserves cfg s a ∧ (createTask cfg a s).1 = s ∧ (createTask cfg a s).2 ≠ .ok) ∨
    (Reserves cfg s a ∧ halHdbInit a.stackSize s.residualMem = none ∧
      createTask cfg a s =
        ({ s with freeSnCounter := s.freeSnCounter - a.maxNumOfAct }, .sysStack)) ∨
    (Reserves cfg s a ∧ ∃ residualMem, halHdbInit a.stackSize s.residualMem = some residualMem ∧
      createTask cfg a s = ({ s with
        freeSnCounter := s.freeSnCounter - a.maxNumOfAct
        residualMem := residualMem }.fill a (adjustPrio cfg a.taskType a.readyPrio)
          (adjustPrio cfg a.taskType a.dispatchPrio), .ok)) := by
  unfold createTask schedulerTaskReserveActivations
  dsimp only
  by_cases h₁ : a.taskType = .extended ∧ a.stackSize = systemStack
  · rw [if_pos h₁]
    exact .inl ⟨fun h => h.stack h₁, rfl, by simp⟩
  · by_cases h₂ : cfg.taskArraySize ≤ s.freeTaskIndex
    · rw [if_neg h₁, if_pos h₂]
      exact .inl ⟨fun h => Nat.not_le_of_lt h.index h₂, rfl, by simp⟩
    · by_cases h₃ : adjustPrio cfg a.taskType a.readyPrio = 0 ∨
        adjustPrio cfg a.taskType a.readyPrio < adjustPrio cfg a.taskType a.dispatchPrio ∨
        a.maxNumOfAct = 0 ∨ cfg.isr2MaxPrio < adjustPrio cfg a.taskType a.dispatchPrio
      · rw [if_neg h₁, if_neg h₂, if_pos h₃]
        exact .inl ⟨fun h => h.prio h₃, rfl, by simp⟩
      · rw [if_neg h₁, if_neg h₂, if_neg h₃]
        by_cases h₄ : a.maxNumOfAct ≤ s.freeSnCounter
        · have hr : Reserves cfg s a := ⟨h₁, Nat.lt_of_not_le h₂, h₃, h₄⟩
          rw [if_pos h₄]
          cases hh : halHdbInit a.stackSize s.residualMem with
          | none => exact .inr (.inl ⟨hr, rfl, rfl⟩)
          | some residualMem => exact .inr (.inr ⟨hr, residualMem, rfl, rfl⟩)
        · rw [if_neg h₄]
          exact .inl ⟨fun h => h₄ h.nodes, rfl, by simp⟩

lemma halHdbInit_eq_none {stackSize residualMem : ℕ} :
    halHdbInit stackSize residualMem = none ↔
      ¬ (stackSize = systemStack ∨ roundStack stackSize ≤ residualMem) := by
  rw [halHdbInit]
  split_ifs with h₁ h₂
  · simp [h₁]
  · simp [h₂]
  · simp [h₁, h₂]

/-- **A call is atomic exactly if its stack fits.** -/
lemma atomic_iff : Atomic cfg s (.create a) ↔ StackFits cfg s (.create a) := by
  rw [Atomic, StackFits]
  rcases createTask_cases cfg a s with ⟨hr, hs, -⟩ | ⟨hr, hh, he⟩ | ⟨hr, m, hh, he⟩
  · refine iff_of_true (fun _ => ?_) fun h => absurd h hr
    rw [hs]
    exact ⟨rfl, rfl, rfl, rfl⟩
  · have hpos : 0 < a.maxNumOfAct := Nat.pos_of_ne_zero fun hz => hr.prio (.inr (.inr (.inl hz)))
    refine iff_of_false (fun h => ?_) fun h => halHdbInit_eq_none.mp hh (h hr)
    rw [he] at h
    have := (h (by simp)).2.1
    have := hr.nodes
    simp only at *
    omega
  · refine iff_of_true (fun h => absurd (by rw [he]) h) fun _ => ?_
    by_contra hn
    rw [halHdbInit_eq_none.mpr hn] at hh
    cases hh

/-! ### The nodes -/

/-- The nodes in use are those of the pending activations, and the tasks may need no more than
there are. -/
structure Inv (n : ℕ) (s : Sys φ ν) : Prop where
  nodes : s.freeSn.length + s.busy.length = n
  within : s.freeSnCounter + s.reserved ≤ n
  created : ∀ t ∈ s.busy.map Prod.snd, t < s.freeTaskIndex
  counted : ∀ t < s.freeTaskIndex,
    (s.busy.map Prod.snd).count t = (s.tcb t).currentNumOfAct ∧
      (s.tcb t).currentNumOfAct ≤ (s.tdb t).maxNumOfAct

variable {n : ℕ}

lemma length_eq_sum_count {l : List ℕ} {k : ℕ} (h : ∀ t ∈ l, t < k) :
    l.length = ∑ t ∈ Finset.range k, l.count t := by
  have := Multiset.sum_count_eq_card (s := Finset.range k) (m := (l : Multiset ℕ))
    fun t ht => Finset.mem_range.mpr (h t ht)
  simpa using this.symm

/-- While a task has an activation left, so is a node. -/
lemma Inv.stocked (h : Inv n s) : Stocked s := by
  intro t ht hact hnil
  have hbusy := length_eq_sum_count h.created
  rw [List.length_map] at hbusy
  have hlt : ∑ u ∈ Finset.range s.freeTaskIndex, (s.busy.map Prod.snd).count u < s.reserved := by
    refine Finset.sum_lt_sum (fun u hu => ?_) ⟨t, Finset.mem_range.mpr ht, ?_⟩
    · obtain ⟨hc, hle⟩ := h.counted u (Finset.mem_range.mp hu)
      omega
    · rw [(h.counted t ht).1]
      exact hact
  have hnodes := h.nodes
  have hwithin := h.within
  rw [hnil, List.length_nil] at hnodes
  omega

lemma reserved_fill (s : Sys φ ν) (a : Args φ) (r d : ℕ) :
    (s.fill a r d).reserved = s.reserved + a.maxNumOfAct := by
  rw [Sys.reserved, show (s.fill a r d).freeTaskIndex = s.freeTaskIndex + 1 from rfl,
    Finset.sum_range_succ, Sys.reserved]
  congr 1
  · refine Finset.sum_congr rfl fun t ht => ?_
    have hne : t ≠ s.freeTaskIndex := Nat.ne_of_lt (Finset.mem_range.mp ht)
    simp only [Sys.fill, Function.update_of_ne hne]
  · simp only [Sys.fill, Function.update_self]

lemma inv_fill (h : Inv n s) {r d : ℕ} (ha : a.maxNumOfAct ≤ s.freeSnCounter) (residualMem : ℕ) :
    Inv n ({ s with
      freeSnCounter := s.freeSnCounter - a.maxNumOfAct
      residualMem := residualMem }.fill a r d) := by
  have hwithin := h.within
  refine ⟨h.nodes, ?_, fun t ht => Nat.lt_succ_of_lt (h.created t ht), fun t ht => ?_⟩
  · rw [reserved_fill]
    simp only [Sys.fill, Sys.reserved] at *
    omega
  · rcases Nat.lt_succ_iff_lt_or_eq.mp ht with ht | rfl
    · have hne : t ≠ s.freeTaskIndex := Nat.ne_of_lt ht
      simp only [Sys.fill, Function.update_of_ne hne]
      exact h.counted t ht
    · simp only [Sys.fill, Function.update_self]
      refine ⟨List.count_eq_zero_of_not_mem fun hm => ?_, Nat.zero_le _⟩
      exact Nat.lt_irrefl _ (h.created _ hm)

lemma inv_create (h : Inv n s) (a : Args φ) : Inv n (createTask cfg a s).1 := by
  rcases createTask_cases cfg a s with ⟨-, hs, -⟩ | ⟨hr, -, he⟩ | ⟨hr, m, -, he⟩
  · rw [hs]
    exact h
  · rw [he]
    refine ⟨h.nodes, ?_, h.created, h.counted⟩
    have := h.within
    simp only [Sys.reserved] at *
    omega
  · rw [he]
    exact inv_fill h hr.nodes m

/-- An activation within the limit moves a node to the task. -/
lemma inv_snAlloc {t : Tid} {s' : Sys φ ν} (h : Inv n s) (ht : t < s.freeTaskIndex)
    (hact : (s.tcb t).currentNumOfAct < (s.tdb t).maxNumOfAct)
    (he : snAlloc t (countActivation t s) = some s') : Inv n s' := by
  rw [snAlloc] at he
  cases hfree : s.freeSn with
  | nil => exact absurd hfree (h.stocked t ht hact)
  | cons m free =>
    simp only [countActivation, hfree, Option.some.injEq] at he
    subst he
    have hnodes := h.nodes
    rw [hfree, List.length_cons] at hnodes
    refine ⟨by simp only [List.length_cons]; omega, h.within, fun u hu => ?_, fun u hu => ?_⟩
    · rcases List.mem_cons.mp hu with rfl | hu
      · exact ht
      · exact h.created u hu
    · obtain ⟨hc, hle⟩ := h.counted u hu
      simp only [List.map_cons]
      rcases eq_or_ne u t with rfl | hne
      · rw [List.count_cons_self, Function.update_self]
        simp only
        omega
      · rw [List.count_cons_of_ne hne.symm, Function.update_of_ne hne]
        exact ⟨hc, hle⟩

lemma inv_finish [DecidableEq ν] {m : ν} {t : Tid} (h : Inv n s) (hm : (m, t) ∈ s.busy) :
    Inv n { taskEnd t s with freeSn := m :: s.freeSn, busy := s.busy.erase (m, t) } := by
  have hperm := List.perm_cons_erase hm
  have hmap : (s.busy.map Prod.snd).Perm (t :: (s.busy.erase (m, t)).map Prod.snd) :=
    hperm.map Prod.snd
  have hlen := hperm.length_eq
  have hnodes := h.nodes
  rw [List.length_cons] at hlen
  refine ⟨by simp only [List.length_cons]; omega, h.within, fun u hu => ?_, fun u hu => ?_⟩
  · exact h.created u (hmap.mem_iff.mpr (List.mem_cons_of_mem t hu))
  · obtain ⟨hc, hle⟩ := h.counted u hu
    rw [hmap.count_eq] at hc
    simp only [taskEnd]
    rcases eq_or_ne u t with rfl | hne
    · rw [List.count_cons_self] at hc
      rw [Function.update_self]
      simp only
      omega
    · rw [List.count_cons_of_ne hne.symm] at hc
      rw [Function.update_of_ne hne]
      exact ⟨hc, hle⟩

lemma inv_step [DecidableEq ν] {s' : Sys φ ν} {op : Op φ ν} (h : Inv n s)
    (he : step cfg s op = some s') : Inv n s' := by
  cases op with
  | create a => exact Option.some.inj he ▸ inv_create h a
  | activate t =>
    simp only [step, activateTask] at he
    split_ifs at he with hc ha
    · exact inv_snAlloc h hc.1 ha he
    · exact Option.some.inj he ▸ h
    · exact Option.some.inj he ▸ h
  | interrupt i =>
    simp only [step, activateIsr2] at he
    split_ifs at he with hc
    exact inv_snAlloc h hc.1 hc.2.2 he
  | finish m t =>
    simp only [step] at he
    split_ifs at he with hm
    exact Option.some.inj he ▸ inv_finish h hm
  | schedule prio status =>
    exact Option.some.inj he ▸ ⟨h.nodes, h.within, h.created, h.counted⟩

lemma inv_fresh (h : Fresh s) : Inv s.freeSn.length s := by
  refine ⟨?_, ?_, ?_, ?_⟩
  · rw [h.busy, List.length_nil, Nat.add_zero]
  · simp [Sys.reserved, h.tasks, h.nodes]
  · simp [h.busy]
  · intro t ht
    rw [h.tasks] at ht
    exact absurd ht (Nat.not_lt_zero t)

/-! ### Main results -/

lemma snAlloc_tables {t : Tid} {s' : Sys φ ν} (he : snAlloc t s = some s') :
    s'.tdb = s.tdb ∧ s'.freeTaskIndex = s.freeTaskIndex ∧ s'.freeSnCounter = s.freeSnCounter := by
  rw [snAlloc] at he
  split at he
  · cases he
  · obtain rfl := Option.some.inj he
    exact ⟨rfl, rfl, rfl⟩

/-- What a task reserves is what its creation takes off the counter, if its stack fits. -/
lemma accounted_step [DecidableEq ν] {s' : Sys φ ν} {op : Op φ ν} (h : Accounted n s)
    (hfit : StackFits cfg s op) (he : step cfg s op = some s') : Accounted n s' := by
  have hsame {u : Sys φ ν} (h₁ : u.tdb = s.tdb) (h₂ : u.freeTaskIndex = s.freeTaskIndex)
      (h₃ : u.freeSnCounter = s.freeSnCounter) : Accounted n u := by
    rw [Accounted, Sys.reserved, h₁, h₂, h₃]
    exact h
  cases op with
  | create a =>
    obtain rfl := Option.some.inj he
    rcases createTask_cases cfg a s with ⟨-, hs, -⟩ | ⟨hr, hh, -⟩ | ⟨hr, m, -, he⟩
    · rw [hs]
      exact h
    · exact absurd (hfit hr) (halHdbInit_eq_none.mp hh)
    · have hle := hr.nodes
      rw [he, Accounted, reserved_fill]
      simp only [Accounted, Sys.fill, Sys.reserved] at *
      omega
  | activate t =>
    simp only [step, activateTask] at he
    split_ifs at he
    · obtain ⟨h₁, h₂, h₃⟩ := snAlloc_tables he
      exact hsame h₁ h₂ h₃
    · exact Option.some.inj he ▸ h
    · exact Option.some.inj he ▸ h
  | interrupt i =>
    simp only [step, activateIsr2] at he
    split_ifs at he
    obtain ⟨h₁, h₂, h₃⟩ := snAlloc_tables he
    exact hsame h₁ h₂ h₃
  | finish m t =>
    simp only [step] at he
    split_ifs at he
    exact Option.some.inj he ▸ hsame rfl rfl rfl
  | schedule prio status => exact Option.some.inj he ▸ h

/-- **Creation of tasks.** From a fresh kernel, in any order of creations, activations and
ends: all calls are atomic, the counter and what the tasks reserve make up the number of nodes,
and no activation within its limit misses a node, exactly if the stack fits of every task that
gets as far as its stack. -/
theorem creation_atomic_iff [DecidableEq ν] (cfg : Config) (s : Sys φ ν) (ops : List (Op φ ν))
    (u : Sys φ ν) (hs : Fresh s) (he : exec (step cfg) s ops = some u) :
    (Along (step cfg) (Atomic cfg) s ops ∧
      Always (step cfg) (Accounted s.freeSn.length) s ops ∧ Always (step cfg) Stocked s ops) ↔
    Along (step cfg) (StackFits cfg) s ops := by
  have hiff : Along (step cfg) (Atomic cfg) s ops ↔ Along (step cfg) (StackFits cfg) s ops := by
    refine along_congr (fun s a _ _ => ?_) he
    cases a with
    | create a => exact atomic_iff
    | _ => exact Iff.rfl
  have hfresh : Accounted s.freeSn.length s := by
    simp [Accounted, Sys.reserved, hs.tasks, hs.nodes]
  rw [hiff]
  refine ⟨And.left, fun hfits => ⟨hfits, ?_, ?_⟩⟩
  · rintro bs cs t rfl ht
    exact exec_inv_along (fun _ _ _ h hc he => accounted_step h hc he) hfresh
      (along_take hfits) ht
  · rintro bs cs t rfl ht
    exact (exec_inv (fun _ _ _ h he => inv_step h he) (inv_fresh hs) ht).stocked

/-- Eight-bit priorities, room for four tasks, three nodes and memory for a small stack. -/
def smallConfig : Config := ⟨8, 128, 4⟩

def smallSys : Sys Unit ℕ :=
  ⟨fun _ => ⟨0, .basic, (), 0, 0, 0⟩, fun _ => ⟨0, .suspended, 0⟩, 0, 3, 64, [0, 1, 2], []⟩

/-- Two tasks, the second one refused for lack of nodes, and two activations of the first. -/
def smallRun : List (Op Unit ℕ) :=
  [.create ⟨.extended, (), 3, 3, 2, 40⟩, .create ⟨.basic, (), 2, 2, 2, systemStack⟩,
    .activate 0, .activate 0, .finish 1 0]

theorem creation_atomic_iff_small :
    Along (step smallConfig) (Atomic smallConfig) smallSys smallRun ∧
      Always (step smallConfig) (Accounted 3) smallSys smallRun ∧
      Always (step smallConfig) Stocked smallSys smallRun := by
  obtain ⟨u, hu⟩ : ∃ u, exec (step smallConfig) smallSys smallRun = some u :=
    Option.isSome_iff_exists.mp (by decide +kernel)
  exact (creation_atomic_iff smallConfig smallSys smallRun u ⟨rfl, rfl, rfl⟩ hu).mpr
    (by decide +kernel)

/-- A task whose stack does not fit keeps two nodes reserved. -/
theorem reservation_lost : Fresh smallSys ∧
    ¬ Atomic smallConfig smallSys (.create ⟨.extended, (), 3, 3, 2, 100⟩) := by
  refine ⟨⟨rfl, rfl, rfl⟩, fun h => ?_⟩
  have hlost := (h (by decide +kernel)).2.1
  revert hlost
  decide +kernel

end FpMemSched.Erika.Creation
