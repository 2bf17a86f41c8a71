import FpMemSched.Erika.Kernel
import FpMemSched.Lib.Runs
import FpMemSched.Lib.Scan

/-!
The services of the kernel (`ee_oo_api_osek.c`, `ee_oo_api_extension.c`), the memory phases
(`dprem.c`), and the runs of one core that uses them.

A step is one service call, one turn of the loop of `DPREM_begin_memory_phase`, the entry or
the end of an ISR2, or the body of one of the two DPREM interrupt routines. A call that the
kernel refuses with an error changes nothing.
-/

namespace FpMemSched.Erika.Dprem

open FpMemSched.Lib FpMemSched.Erika.Kernel
open FpMemSched.Arbiter (Reply)
open FpMemSched.GuestProtocol (MemArbitStatus)

variable {ν : Type} (κ : Kdb)

/-! ### Services -/

def activateTask (t : Tid) (s : Core ν) : Option (Core ν) :=
  match s.toTcbs.taskActivated κ t with
  | none => some s
  | some tcbs => schedulerTaskActivated κ t { s with toTcbs := tcbs }

def chainTask (t : Tid) (s : Core ν) : Option (Core ν) :=
  if t = s.curr then
    taskTerminated κ { s with status := Function.update s.status s.curr .chained }
  else match s.toTcbs.taskActivated κ t with
    | none => some s
    | some tcbs => (taskInsertRq κ t { s with toTcbs := tcbs }).bind (taskTerminated κ)

def activateIsr2 (i : Tid) (s : Core ν) : Option (Core ν) :=
  taskSetRunning i { s with numOfAct := Function.update s.numOfAct i (s.numOfAct i + 1) }

def waitEvent (mask : ℕ) (s : Core ν) : Option (Core ν) :=
  let t := s.curr
  if s.eventMask t &&& mask = 0 then
    (popRunning κ { s with waitMask := Function.update s.waitMask t mask }).map fun (s', n) =>
      let s'' := { s' with
        ownSn := Function.update s'.ownSn t (some n.sn)
        status := Function.update s'.status t .waiting
        inWait := Function.update s'.inWait t true }
      { s'' with toTcbs := s''.toTcbs.switchIn }
  else some s

/-- Make a woken task ready, and let it preempt when that is due. -/
def release (n : Node ν) (s : Core ν) : Core ν :=
  match taskUnblocked κ n s with
  | (s', true) => taskPreemptionPoint κ s'
  | (s', false) => s'

def setEvent (t : Tid) (mask : ℕ) (s : Core ν) : Core ν :=
  match s.toTcbs.eventSetMask κ t mask with
  | (tcbs, some sn) => release κ ⟨sn, t⟩ { s with toTcbs := tcbs }
  | (tcbs, none) => { s with toTcbs := tcbs }

/-- A semaphore queue is ordered by the current priorities. -/
def semInsert (prio : Tid → ℕ) (n : Node ν) (q : List (Node ν)) : List (Node ν) :=
  q.orderedInsert (fun a b => prio b.task < prio a.task) n

def waitSem (k : Sem) (s : Core ν) : Option (Core ν) :=
  let t := s.curr
  if s.semCount k ≠ 0 then
    some { s with semCount := Function.update s.semCount k (s.semCount k - 1) }
  else
    (popRunning κ s).map fun (s', n) =>
      let s'' := { s' with
        status := Function.update s'.status t .waiting
        blocked := Function.update s'.blocked k (semInsert s'.prio n (s'.blocked k)) }
      { s'' with toTcbs := s''.toTcbs.switchIn }

def postSem (k : Sem) (s : Core ν) : Core ν :=
  match s.blocked k with
  | n :: q => release κ n { s with blocked := Function.update s.blocked k q }
  | [] => { s with semCount := Function.update s.semCount k (s.semCount k + 1) }

def getResource (r : Res) (s : Core ν) : Core ν :=
  let t := s.curr
  if s.owner r ≠ none ∨ κ.resPrio r < (κ.tdb t).readyPrio then s
  else { s with
    prio := if s.prio t < κ.resPrio r then Function.update s.prio t (κ.resPrio r) else s.prio
    owner := Function.update s.owner r (some t)
    prevPrio := Function.update s.prevPrio r (s.prio t)
    lastM := Function.update s.lastM t (r :: s.lastM t) }

def releaseResource (r : Res) (s : Core ν) : Core ν :=
  let t := s.curr
  if s.owner r = none ∨ (s.lastM t).head? ≠ some r then s
  else
    let rest := (s.lastM t).tail
    taskPreemptionPoint κ { s with
      lastM := Function.update s.lastM t rest
      prio := Function.update s.prio t
        (if rest ≠ [] then s.prevPrio r else (κ.tdb t).dispatchPrio)
      owner := Function.update s.owner r none }

/-! ### Memory phases -/

/-- The loop over the stack for the regular task of highest current priority. -/
def highestStacked (s : Core ν) : Option (Node ν) :=
  Scan.scan (fun n => if (κ.tdb n.task).Regular then s.prio n.task + 1 else 0) none s.stk

def highestSuspended (s : Core ν) : Option (Node ν) :=
  Scan.scan (fun n => s.prio n.task + 1) none s.suspended

def firstRegular (stk : List (Node ν)) : Option (Node ν) :=
  stk.find? fun n => (κ.tdb n.task).Regular

section Lists

variable [DecidableEq ν]

def listRemove (n : Node ν) (l : List (Node ν)) : List (Node ν) := l.erase n

/-- Insert before the node `ref` where it is not the first one, else at the end. -/
def listInsertBefore (n : Node ν) (ref : Option (Node ν)) : List (Node ν) → List (Node ν)
  | [] => [n]
  | [a] => [a, n]
  | a :: b :: l => if ref = some b then a :: n :: b :: l else a :: listInsertBefore n ref (b :: l)

/-- Insert after the node `ref`; where there is none the node is not inserted. -/
def insertAfterLoop (n ref : Node ν) : List (Node ν) → List (Node ν)
  | [] => []
  | a :: l => if a = ref then a :: n :: l else a :: insertAfterLoop n ref l

def listInsertAfter (n : Node ν) (ref : Option (Node ν)) (l : List (Node ν)) : List (Node ν) :=
  match l, ref with
  | [], _ => [n]
  | l, some m => insertAfterLoop n m l
  | l, none => l

def suspendHighestPriorityActiveTaskFromIsr (s : Core ν) : Core ν :=
  match highestStacked κ s with
  | none => s
  | some n => { s with stk := listRemove n s.stk, suspended := n :: s.suspended }

def resumeHighestPriorityTaskFromIsr (s : Core ν) : Core ν :=
  match highestSuspended s with
  | none => s
  | some n => { s with
      prio := Function.update s.prio n.task maxTaskPriority
      suspended := listRemove n s.suspended
      stk := listInsertBefore n (firstRegular κ s.stk) s.stk }

def resumeHighestPriorityTask (s : Core ν) : Core ν :=
  match highestSuspended s with
  | none => s
  | some n => { s with
      suspended := listRemove n s.suspended
      stk := listInsertAfter n s.stk.head? s.stk }

end Lists

def suspendRunningTask (s : Core ν) : Option (Core ν) :=
  let t := s.curr
  match s.stk with
  | [] => some s
  | top :: _ =>
    if (κ.tdb top.task).Regular then
      (popRunning κ s).map fun (s', n) =>
        let s'' := { s' with
          ownSn := Function.update s'.ownSn t (some n.sn)
          suspended := n :: s'.suspended
          status := Function.update s'.status t .readyStacked
          prio := Function.update s'.prio t (κ.tdb t).readyPrio }
        { s'' with toTcbs := s''.toTcbs.switchIn }
    else some s

def setPhase (t : Tid) (p : Phase) (s : Core ν) : Core ν :=
  { s with phase := Function.update s.phase t p }

/-- One turn of the loop, with the answer of the hypervisor if it is asked. -/
def beginTurn (r : Reply) (s : Core ν) : Option (Core ν) :=
  match s.memArbitStatus with
  | .acquired => some
      { s with prio := Function.update s.prio s.curr maxTaskPriority
               phase := Function.update s.phase s.curr .memory }
  | .none =>
    match r with
    | .ack => some
        { s with memArbitStatus := .acquired
                 phase := Function.update s.phase s.curr .returning }
    | .nack => some { s with memArbitStatus := .requested }
    | .invalid => some s
  | .requested => suspendRunningTask κ s

def endMemoryPhase (r : Reply) (s : Core ν) : Core ν :=
  setPhase s.curr .execution
    (match r with
      | .ack => { s with memArbitStatus := .none }
      | _ => s)

section Routines

variable [DecidableEq ν]

def endExecutionPhase (s : Core ν) : Core ν :=
  let s' := { s with
    prio := Function.update s.prio s.curr (κ.tdb s.curr).dispatchPrio
    phase := Function.update s.phase s.curr .outside }
  if s'.suspended ≠ [] then resumeHighestPriorityTask s' else s'

/-- A task in the loop that is resumed with the token is about to leave the loop. -/
def memoryPhaseStartedIsr (s : Core ν) : Core ν :=
  if s.memArbitStatus = .requested then
    let s' := resumeHighestPriorityTaskFromIsr κ { s with memArbitStatus := .acquired }
    match highestSuspended s with
    | some n => if s.phase n.task = .loop then setPhase n.task .returning s' else s'
    | none => s'
  else s

def memoryPhaseEndedIsr (s : Core ν) : Core ν :=
  if s.memArbitStatus = .acquired then
    let s' := suspendHighestPriorityActiveTaskFromIsr κ { s with memArbitStatus := .requested }
    match highestStacked κ s with
    | some n => if s.phase n.task = .returning then setPhase n.task .loop s' else s'
    | none => s'
  else s

/-! ### Runs -/

inductive Action
  | activateTask (t : Tid)
  /-- `TerminateTask`, or the end of an ISR2. -/
  | terminate
  | chainTask (t : Tid)
  | interrupt (i : Tid)
  | startedIsr
  | endedIsr
  | waitEvent (mask : ℕ)
  | setEvent (t : Tid) (mask : ℕ)
  | waitSem (k : Sem)
  | postSem (k : Sem)
  | getResource (r : Res)
  | releaseResource (r : Res)
  | beginMemoryPhase
  | beginTurn (r : Reply)
  | endMemoryPhase (r : Reply)
  | endExecutionPhase
  deriving DecidableEq

/-- Interrupts are off in the loop and from `DPREM_end_memory_phase` to the return of
`DPREM_end_execution_phase`. -/
def IrqEnabled (s : Core ν) : Prop :=
  (κ.tdb s.curr).Regular → s.phase s.curr = .outside ∨ s.phase s.curr = .memory

/-- No task is in the loop just now: whatever runs may call a service. -/
def UserCode (s : Core ν) : Prop :=
  (κ.tdb s.curr).Regular → s.phase s.curr ≠ .loop ∧ s.phase s.curr ≠ .returning

/-- A task that may end or block: in no memory phase and without resources. -/
def AtRest (s : Core ν) : Prop :=
  (κ.tdb s.curr).Regular ∧ s.phase s.curr = .outside ∧ s.lastM s.curr = []

/-- A regular task runs that is in this phase. -/
def RunsIn (p : Phase) (s : Core ν) : Prop := (κ.tdb s.curr).Regular ∧ s.phase s.curr = p

instance (s : Core ν) : Decidable (IrqEnabled κ s) := inferInstanceAs (Decidable (_ → _))
instance (s : Core ν) : Decidable (UserCode κ s) := inferInstanceAs (Decidable (_ → _))
instance (s : Core ν) : Decidable (AtRest κ s) := inferInstanceAs (Decidable (_ ∧ _))
instance (p : Phase) (s : Core ν) : Decidable (RunsIn κ p s) :=
  inferInstanceAs (Decidable (_ ∧ _))

def step (s : Core ν) : Action → Option (Core ν)
  | .activateTask t =>
    if UserCode κ s ∧ (κ.tdb t).Regular then activateTask κ t s else none
  | .terminate =>
    if (κ.tdb s.curr).taskType = .isr2 ∨ AtRest κ s then taskTerminated κ s else none
  | .chainTask t => if AtRest κ s ∧ (κ.tdb t).Regular then chainTask κ t s else none
  | .interrupt i =>
    -- an interrupt that is being handled is not signalled again
    if IrqEnabled κ s ∧ (κ.tdb i).taskType = .isr2 ∧ i ∉ s.stk.map Node.task then
      activateIsr2 i s
    else none
  | .startedIsr =>
    if (κ.tdb s.curr).taskType = .isr2 ∧ s.curr = κ.startedIsr then
      some (memoryPhaseStartedIsr κ s)
    else none
  | .endedIsr =>
    if (κ.tdb s.curr).taskType = .isr2 ∧ s.curr = κ.endedIsr then
      some (memoryPhaseEndedIsr κ s)
    else none
  | .waitEvent mask =>
    if AtRest κ s ∧ (κ.tdb s.curr).taskType = .extended then waitEvent κ mask s else none
  | .setEvent t mask =>
    if UserCode κ s then some (setEvent κ t mask s) else none
  | .waitSem k =>
    if AtRest κ s ∧ (κ.tdb s.curr).taskType = .extended then waitSem κ k s else none
  | .postSem k => if UserCode κ s then some (postSem κ k s) else none
  | .getResource r =>
    if UserCode κ s ∧ (κ.tdb s.curr).Regular then some (getResource κ r s) else none
  | .releaseResource r =>
    if UserCode κ s ∧ (κ.tdb s.curr).Regular then some (releaseResource κ r s) else none
  | .beginMemoryPhase =>
    if RunsIn κ .outside s then some (setPhase s.curr .loop s) else none
  | .beginTurn r =>
    if RunsIn κ .loop s ∨ RunsIn κ .returning s then beginTurn κ r s else none
  | .endMemoryPhase r => if RunsIn κ .memory s then some (endMemoryPhase r s) else none
  | .endExecutionPhase =>
    if RunsIn κ .execution s then some (endExecutionPhase κ s) else none

end Routines

/-! ### What the loops find -/

section Found

variable {κ} {n : Node ν}

lemma highestStacked_none {s : Core ν} (h : highestStacked κ s = none) :
    ∀ m ∈ s.stk, ¬ (κ.tdb m.task).Regular := by
  intro m hm hr
  have := (Scan.scan_none _).mp h m hm
  simp [hr] at this

lemma highestSuspended_mem {s : Core ν} (h : highestSuspended s = some n) : n ∈ s.suspended := by
  obtain ⟨c, d, hs, -⟩ := Scan.scan_some _ h
  rw [hs]
  simp

lemma highestSuspended_none {s : Core ν} : highestSuspended s = none ↔ s.suspended = [] := by
  constructor
  · intro h
    rw [List.eq_nil_iff_forall_not_mem]
    intro m hm
    have := (Scan.scan_none _).mp h m hm
    omega
  · intro h
    unfold highestSuspended
    rw [h]
    rfl

variable [DecidableEq ν]

/-- A list with a node and without it. -/
lemma mem_middle {α : Type} {x y : α} {a b : List α} : x ∈ a ++ y :: b ↔ x = y ∨ x ∈ a ++ b :=
  List.perm_middle.mem_iff.trans List.mem_cons

/-- A node moves from one list to the other. -/
lemma mem_moved {α : Type} {x y : α} {a b c d : List α} :
    x ∈ (a ++ y :: b) ++ (c ++ d) ↔ x ∈ (a ++ b) ++ (c ++ y :: d) := by
  rw [List.mem_append, mem_middle, List.mem_append (s := a ++ b), mem_middle, or_assoc, or_left_comm]

lemma listRemove_split {a b : List (Node ν)} (h : n ∉ a) : listRemove n (a ++ n :: b) = a ++ b := by
  unfold listRemove
  rw [List.erase_append_right _ h, List.erase_cons_head]

/-- What is suspended: the first regular task of highest priority. -/
lemma highestStacked_some {s : Core ν} (h : highestStacked κ s = some n) :
    ∃ a b, s.stk = a ++ n :: b ∧ (κ.tdb n.task).Regular ∧ listRemove n s.stk = a ++ b ∧
      (∀ m ∈ a, (κ.tdb m.task).Regular → s.prio m.task < s.prio n.task) ∧
      ∀ m ∈ b, (κ.tdb m.task).Regular → s.prio m.task ≤ s.prio n.task := by
  obtain ⟨a, b, hs, hpos, ha, hb⟩ := Scan.scan_some _ h
  have hn : (κ.tdb n.task).Regular := by
    by_contra hn
    simp [hn] at hpos
  refine ⟨a, b, hs, hn, ?_, fun m hm hr => ?_, fun m hm hr => ?_⟩
  · rw [hs]
    exact listRemove_split fun hm => absurd (ha n hm) (lt_irrefl _)
  · have := ha m hm
    simp only [hr, hn, if_true] at this
    omega
  · have := hb m hm
    simp only [hr, hn, if_true] at this
    omega

lemma highestSuspended_some {s : Core ν} (h : highestSuspended s = some n) :
    ∃ c d, s.suspended = c ++ n :: d ∧ listRemove n s.suspended = c ++ d ∧
      (∀ m ∈ c, s.prio m.task < s.prio n.task) ∧ ∀ m ∈ d, s.prio m.task ≤ s.prio n.task := by
  obtain ⟨c, d, hs, -, hc, hd⟩ := Scan.scan_some _ h
  refine ⟨c, d, hs, ?_, fun m hm => ?_, fun m hm => ?_⟩
  · rw [hs]
    exact listRemove_split fun hm => absurd (hc n hm) (lt_irrefl _)
  · have := hc m hm
    omega
  · have := hd m hm
    omega

/-- With an ISR2 on top of the stack the node lands in front of the regular tasks. -/
lemma listInsertBefore_split {a b : List (Node ν)} (ha : a ≠ [])
    (hna : ∀ m ∈ a, ¬ (κ.tdb m.task).Regular) (hb : ∀ m ∈ b, (κ.tdb m.task).Regular) :
    listInsertBefore n (firstRegular κ (a ++ b)) (a ++ b) = a ++ n :: b := by
  have hfirst : firstRegular κ (a ++ b) = b.head? := by
    unfold firstRegular
    rw [List.find?_append, List.find?_eq_none.mpr (by simpa using hna), Option.none_or]
    cases b with
    | nil => rfl
    | cons m b => rw [List.find?_cons_of_pos (by simpa using hb m (by simp)), List.head?_cons]
  rw [hfirst]
  clear hfirst
  induction a with
  | nil => exact absurd rfl ha
  | cons x a ih =>
    rcases a with _ | ⟨y, a⟩
    · rcases b with _ | ⟨m, b⟩
      · rfl
      · simp [listInsertBefore]
    · have hy : b.head? ≠ some y := by
        intro hy
        exact hna y (by simp) (hb y (List.mem_of_mem_head? hy))
      have := ih (by simp) fun m hm => hna m (List.mem_cons_of_mem _ hm)
      simp only [List.cons_append] at this ⊢
      rw [listInsertBefore, if_neg hy, this]

/-- Wherever the node lands, it is added once and the top of the stack stays. -/
lemma listInsertBefore_cons (ref : Option (Node ν)) (top : Node ν) (l : List (Node ν)) :
    ∃ l', listInsertBefore n ref (top :: l) = top :: l' ∧ l'.Perm (n :: l) := by
  induction l generalizing top with
  | nil => exact ⟨[n], rfl, List.Perm.refl _⟩
  | cons b l ih =>
    rw [listInsertBefore]
    split_ifs
    · exact ⟨n :: b :: l, rfl, List.Perm.refl _⟩
    · obtain ⟨l', he, hp⟩ := ih b
      exact ⟨b :: l', by rw [he], (hp.cons b).trans (List.Perm.swap n b l)⟩

lemma listInsertAfter_head (top : Node ν) (l : List (Node ν)) :
    listInsertAfter n (top :: l).head? (top :: l) = top :: n :: l := by
  simp [listInsertAfter, insertAfterLoop]

end Found

/-! ### What the routines do -/

lemma suspendRunningTask_cons {s : Core ν} {n : Node ν} {stk : List (Node ν)}
    (h : s.stk = n :: stk) (hr : (κ.tdb n.task).Regular) :
    suspendRunningTask κ s =
      let s' := settle κ { s with stk := stk }
      some ⟨Tcbs.switchIn { s'.toTcbs with
          ownSn := Function.update s'.ownSn s.curr (some n.sn)
          status := Function.update s'.status s.curr .readyStacked
          prio := Function.update s'.prio s.curr (κ.tdb s.curr).readyPrio },
        s'.free, s'.rq, s'.stk, n :: s'.suspended, s'.blocked⟩ := by
  unfold suspendRunningTask
  rw [popRunning_cons κ h]
  simp only [h, hr, if_true, Option.map_some]

lemma waitEvent_cons {s : Core ν} {n : Node ν} {stk : List (Node ν)} {mask : ℕ}
    (h : s.stk = n :: stk) :
    waitEvent κ mask s = if s.eventMask s.curr &&& mask = 0 then
      let s' := settle κ
        { s with waitMask := Function.update s.waitMask s.curr mask, stk := stk }
      some ⟨Tcbs.switchIn { s'.toTcbs with
          ownSn := Function.update s'.ownSn s.curr (some n.sn)
          status := Function.update s'.status s.curr .waiting
          inWait := Function.update s'.inWait s.curr true },
        s'.free, s'.rq, s'.stk, s'.suspended, s'.blocked⟩
    else some s := by
  unfold waitEvent
  dsimp only
  rw [popRunning_cons κ (s := { s with waitMask := Function.update s.waitMask s.curr mask }) h]
  rfl

lemma waitSem_cons {s : Core ν} {n : Node ν} {stk : List (Node ν)} {k : Sem}
    (h : s.stk = n :: stk) :
    waitSem κ k s = if s.semCount k ≠ 0 then
      some { s with semCount := Function.update s.semCount k (s.semCount k - 1) }
    else
      let s' := settle κ { s with stk := stk }
      some ⟨Tcbs.switchIn { s'.toTcbs with
          status := Function.update s'.status s.curr .waiting },
        s'.free, s'.rq, s'.stk, s'.suspended,
        Function.update s'.blocked k (semInsert s'.prio n (s'.blocked k))⟩ := by
  unfold waitSem
  dsimp only
  rw [popRunning_cons κ h]
  rfl

/-- A task that chains itself goes from the top of the stack to the ready queue. -/
lemma chainSelf_cons {s : Core ν} {n : Node ν} {stk : List (Node ν)} (h : s.stk = n :: stk) :
    chainTask κ s.curr s =
      let s' := settle κ { s with
        stk := stk
        prio := Function.update s.prio s.curr (κ.tdb s.curr).readyPrio
        status := Function.update s.status s.curr .ready
        eventMask := if s.numOfAct s.curr = 1 then Function.update s.eventMask s.curr 0
          else s.eventMask
        rq := rqInsert κ ⟨n.sn, s.curr⟩ s.rq }
      some ⟨s'.toTcbs.switchIn, s'.free, s'.rq, s'.stk, s'.suspended, s'.blocked⟩ := by
  unfold chainTask taskTerminated
  simp only [if_true, Function.update_self, reduceCtorEq, if_false, h, Function.update_idem]
  unfold settle
  split <;> rfl

variable {κ} in
/-- An activation is counted and left to the scheduler, or it is one too many. -/
lemma activateTask_some {t : Tid} {s s' : Core ν} (h : activateTask κ t s = some s') :
    (s.numOfAct t < (κ.tdb t).maxNumOfAct ∧
      schedulerTaskActivated κ t { s with
        numOfAct := Function.update s.numOfAct t (s.numOfAct t + 1) } = some s') ∨ s' = s := by
  unfold activateTask Tcbs.taskActivated at h
  by_cases hact : s.numOfAct t < (κ.tdb t).maxNumOfAct
  · simp only [if_pos hact] at h
    exact Or.inl ⟨hact, h⟩
  · simp only [if_neg hact, Option.some.injEq] at h
    exact Or.inr h.symm

variable {κ} in
/-- The task that chains another one ends after the other is in the ready queue. -/
lemma chainTask_some {t : Tid} {s s' : Core ν} (ht : t ≠ s.curr)
    (h : chainTask κ t s = some s') :
    (s.numOfAct t < (κ.tdb t).maxNumOfAct ∧
      ∃ s₁, taskInsertRq κ t { s with
          numOfAct := Function.update s.numOfAct t (s.numOfAct t + 1) } = some s₁ ∧
        taskTerminated κ s₁ = some s') ∨ s' = s := by
  unfold chainTask Tcbs.taskActivated at h
  simp only [if_neg ht] at h
  by_cases hact : s.numOfAct t < (κ.tdb t).maxNumOfAct
  · simp only [if_pos hact] at h
    exact Or.inl ⟨hact, Option.bind_eq_some_iff.mp h⟩
  · simp only [if_neg hact, Option.some.injEq] at h
    exact Or.inr h.symm

/-- What a wake-up leaves before the preemption point. -/
def unblocked (n : Node ν) (s : Core ν) : Core ν :=
  { s with
    status := Function.update s.status n.task .readyStacked
    prio := Function.update s.prio n.task (κ.tdb n.task).readyPrio
    rq := rqInsert κ n s.rq }

lemma release_eq (n : Node ν) (s : Core ν) :
    release κ n s = if (taskUnblocked κ n s).2 = true then
      taskPreemptionPoint κ (unblocked κ n s) else unblocked κ n s := by
  unfold release
  rcases he : taskUnblocked κ n s with ⟨s', _ | _⟩
  · exact (congrArg Prod.fst he).symm
  · rw [if_pos rfl]
    exact congrArg (taskPreemptionPoint κ) (congrArg Prod.fst he).symm

lemma release_cases {s : Core ν} (n : Node ν) (h : s.curr = topTask κ s.stk) :
    release κ n s = unblocked κ n s ∨
      release κ n s = { settle κ (unblocked κ n s) with
        toTcbs := (settle κ (unblocked κ n s)).toTcbs.switchIn } := by
  rw [release_eq]
  split_ifs
  · rcases preemptionPoint_cases κ (unblocked κ n s) h with ⟨hp, -⟩ | hp
    · exact Or.inl hp
    · exact Or.inr hp
  · exact Or.inl rfl

/-- An event wakes a task only if the task waits for it and has left its node. -/
lemma setEvent_cases (t : Tid) (mask : ℕ) (s : Core ν) :
    (∃ em, setEvent κ t mask s = { s with eventMask := em }) ∨
    ∃ em sn, s.waitMask t ≠ 0 ∧ s.ownSn t = some sn ∧
      setEvent κ t mask s = release κ ⟨sn, t⟩
        { s with eventMask := em, ownSn := Function.update s.ownSn t none } := by
  unfold setEvent
  rcases eventSetMask_cases κ t mask s.toTcbs with ⟨em, he⟩ | ⟨em, sn, hm, ho, he⟩
  · exact Or.inl ⟨em, by rw [he]⟩
  · exact Or.inr ⟨em, sn, hm, ho, by rw [he]⟩

lemma getResource_eq (r : Res) (s : Core ν) : getResource κ r s =
    if s.owner r ≠ none ∨ κ.resPrio r < (κ.tdb s.curr).readyPrio then s
    else { s with
      prio := Function.update s.prio s.curr (max (s.prio s.curr) (κ.resPrio r))
      owner := Function.update s.owner r (some s.curr)
      prevPrio := Function.update s.prevPrio r (s.prio s.curr)
      lastM := Function.update s.lastM s.curr (r :: s.lastM s.curr) } := by
  have hprio : (if s.prio s.curr < κ.resPrio r then
      Function.update s.prio s.curr (κ.resPrio r) else s.prio) =
      Function.update s.prio s.curr (max (s.prio s.curr) (κ.resPrio r)) := by
    split_ifs with hlt
    · rw [max_eq_right hlt.le]
    · rw [max_eq_left (by omega), Function.update_eq_self]
  simp only [getResource, hprio]

/-- Only the resource taken last is released. -/
lemma releaseResource_cases (r : Res) (s : Core ν) : releaseResource κ r s = s ∨
    ∃ rest, s.lastM s.curr = r :: rest ∧
      releaseResource κ r s = taskPreemptionPoint κ { s with
        lastM := Function.update s.lastM s.curr rest
        prio := Function.update s.prio s.curr
          (if rest ≠ [] then s.prevPrio r else (κ.tdb s.curr).dispatchPrio)
        owner := Function.update s.owner r none } := by
  unfold releaseResource
  dsimp only
  by_cases hno : s.owner r = none ∨ (s.lastM s.curr).head? ≠ some r
  · exact Or.inl (if_pos hno)
  · rw [if_neg hno]
    rw [not_or, not_not] at hno
    have hlast : s.lastM s.curr = r :: (s.lastM s.curr).tail :=
      (List.cons_head?_tail hno.2).symm
    exact Or.inr ⟨_, hlast, rfl⟩

section Isr

variable [DecidableEq ν] {κ} {s : Core ν}

/-- The started routine acts on a request only; it puts the suspended task of highest priority
back, if there is one. -/
lemma startedIsr_cases :
    (s.memArbitStatus ≠ .requested ∧ memoryPhaseStartedIsr κ s = s) ∨
    (s.memArbitStatus = .requested ∧ s.suspended = [] ∧
      memoryPhaseStartedIsr κ s = { s with memArbitStatus := .acquired }) ∨
    (s.memArbitStatus = .requested ∧ ∃ n, highestSuspended s = some n ∧
      memoryPhaseStartedIsr κ s = { s with
        memArbitStatus := .acquired
        prio := Function.update s.prio n.task maxTaskPriority
        phase := if s.phase n.task = .loop then Function.update s.phase n.task .returning
          else s.phase
        suspended := listRemove n s.suspended
        stk := listInsertBefore n (firstRegular κ s.stk) s.stk }) := by
  unfold memoryPhaseStartedIsr resumeHighestPriorityTaskFromIsr
  by_cases hm : s.memArbitStatus = .requested
  · simp only [if_pos hm]
    have hsame : highestSuspended { s with memArbitStatus := .acquired } = highestSuspended s := rfl
    rw [hsame]
    rcases hn : highestSuspended s with _ | n
    · exact Or.inr (Or.inl ⟨hm, highestSuspended_none.mp hn, rfl⟩)
    · refine Or.inr (Or.inr ⟨hm, n, rfl, ?_⟩)
      dsimp only
      split_ifs <;> rfl
  · exact Or.inl ⟨hm, by simp [hm]⟩

/-- The ended routine acts while the token is held only; it takes the regular task of highest
priority off the stack, if there is one. -/
lemma endedIsr_cases :
    (s.memArbitStatus ≠ .acquired ∧ memoryPhaseEndedIsr κ s = s) ∨
    (s.memArbitStatus = .acquired ∧ highestStacked κ s = none ∧
      memoryPhaseEndedIsr κ s = { s with memArbitStatus := .requested }) ∨
    (s.memArbitStatus = .acquired ∧ ∃ n, highestStacked κ s = some n ∧
      memoryPhaseEndedIsr κ s = { s with
        memArbitStatus := .requested
        phase := if s.phase n.task = .returning then Function.update s.phase n.task .loop
          else s.phase
        suspended := n :: s.suspended
        stk := listRemove n s.stk }) := by
  unfold memoryPhaseEndedIsr suspendHighestPriorityActiveTaskFromIsr
  by_cases hm : s.memArbitStatus = .acquired
  · simp only [if_pos hm]
    have hsame : highestStacked κ { s with memArbitStatus := .requested } = highestStacked κ s :=
      rfl
    rw [hsame]
    rcases hn : highestStacked κ s with _ | n
    · exact Or.inr (Or.inl ⟨hm, rfl, rfl⟩)
    · refine Or.inr (Or.inr ⟨hm, n, rfl, ?_⟩)
      dsimp only
      split_ifs <;> rfl
  · exact Or.inl ⟨hm, by simp [hm]⟩

/-- The end of an execution phase puts the suspended task of highest priority below the
running one. -/
lemma endExecutionPhase_cases {top : Node ν} {stk : List (Node ν)} (hs : s.stk = top :: stk)
    (hc : ∀ m ∈ s.suspended, m.task ≠ s.curr) :
    (s.suspended = [] ∧ endExecutionPhase κ s = { s with
      prio := Function.update s.prio s.curr (κ.tdb s.curr).dispatchPrio
      phase := Function.update s.phase s.curr .outside }) ∨
    ∃ n, highestSuspended s = some n ∧ endExecutionPhase κ s = { s with
      prio := Function.update s.prio s.curr (κ.tdb s.curr).dispatchPrio
      phase := Function.update s.phase s.curr .outside
      suspended := listRemove n s.suspended
      stk := top :: n :: stk } := by
  have hsame : highestSuspended { s with
      prio := Function.update s.prio s.curr (κ.tdb s.curr).dispatchPrio
      phase := Function.update s.phase s.curr .outside } = highestSuspended s :=
    Scan.scan_congr _ fun m hm => by
      simp only [Function.update_of_ne (hc m hm)]
  unfold endExecutionPhase resumeHighestPriorityTask
  dsimp only
  rw [hsame]
  by_cases he : s.suspended = []
  · exact Or.inl ⟨he, by simp [he]⟩
  · right
    rcases hn : highestSuspended s with _ | n
    · exact absurd (highestSuspended_none.mp hn) he
    · refine ⟨n, rfl, ?_⟩
      simp only [ne_eq, he, not_false_eq_true, if_true, hs, listInsertAfter_head]

end Isr

end FpMemSched.Erika.Dprem
