import FpMemSched.ArbiterSafe
import FpMemSched.Erika.Token

/-!
The whole system: the fixed-priority arbiter of the hypervisor with an Erika kernel in every
cell.

The kernel of a cell runs on the first CPU of the cell. Its hypercalls are answered by the
arbiter, and what the arbiter raises waits in a queue until the interrupt routine of the
kernel has handled it, oldest first. A core asks for the token only with nothing left in its
queue: it had its interrupts enabled since it gave the token back.

The cores are coupled through the arbiter only. So the invariant of a core (`Erika.Token`)
and that of the protocol (`GuestProtocol`) carry over to the system side by side.
-/

namespace FpMemSched.WholeSystem

open FpMemSched.Lib FpMemSched.Lib.Runs FpMemSched.Arbiter
open FpMemSched.GuestProtocol (MemArbitStatus Guest Agree isrStatus)
open FpMemSched.Erika.Kernel FpMemSched.Erika.Dprem FpMemSched.Erika.Order
open FpMemSched.Erika.Started FpMemSched.Erika.Operations FpMemSched.Erika.Services
open FpMemSched.Erika.Token

variable {ν : Type} [DecidableEq ν]

structure Sys (ν : Type) where
  arb : Arb
  core : Cpu → Core ν
  /-- Raised and not yet handled, oldest first. -/
  pending : Cpu → List ℕ

/-- The descriptors of all cores and their scheduler nodes. Tasks have one activation each, and the
highest priority is kept for the memory phases. -/
structure Config (ν : Type) where
  kdb : Cpu → Kdb
  free : Cpu → List (Node ν)
  once : ∀ x t, ((kdb x).tdb t).Regular → ((kdb x).tdb t).maxNumOfAct = 1
  low : ∀ x t, ((kdb x).tdb t).Regular → ((kdb x).tdb t).readyPrio < maxTaskPriority
  nodup : ∀ x, ((free x).map Node.sn).Nodup

def init (κ : Config ν) : Sys ν :=
  ⟨Arbiter.init, fun x => Erika.Kernel.init (κ.kdb x) (κ.free x), fun _ => []⟩

/-- A step of the core `x` alone. -/
def alone (κ : Config ν) (x : Cpu) (a : Action) (s : Sys ν) : Option (Sys ν) :=
  (step (κ.kdb x) (s.core x) a).map fun g => { s with core := Function.update s.core x g }

/-- A hypercall of the core of `c`, which goes on as `a` with the reply it gets. -/
def hvc (cs : Cells) (κ : Config ν) (c : Cell) (code : ℕ) (r : Reply) (a : Action) (s : Sys ν) :
    Option (Sys ν) :=
  let x := c.firstCpu
  let o := fixedPriorityHypercall cs.list x c.id code s.arb
  if r = o.reply then
    (step (κ.kdb x) (s.core x) a).map fun g =>
      ⟨o.state, Function.update s.core x g, fun y =>
        s.pending y ++ (o.raised.filter (·.target = y)).map Sgi.irqId⟩
  else none

/-- The body of the interrupt routine for the oldest notification. -/
def handle (κ : Config ν) (x : Cpu) (irqId : ℕ) (a : Action) (s : Sys ν) : Option (Sys ν) :=
  match s.pending x with
  | [] => none
  | k :: rest =>
    if k = irqId then
      (alone κ x a s).map fun t => { t with pending := Function.update t.pending x rest }
    else none

/-- A step of the core of `c`. The reply in a label is the one that the core sees. Tasks take
no resources. -/
def sysStep (cs : Cells) (κ : Config ν) (s : Sys ν) : Cell × Action → Option (Sys ν)
  | (c, a) =>
    let x := c.firstCpu
    if ArbiterSafe.Caller cs c then
      match a with
      | .beginTurn r =>
        if (s.core x).memArbitStatus = .none then
          if s.pending x = [] then hvc cs κ c beginMemPhase r (.beginTurn r) s else none
        else alone κ x (.beginTurn r) s
      | .endMemoryPhase r => hvc cs κ c endMemPhase r (.endMemoryPhase r) s
      | .startedIsr => handle κ x sgiMemoryPhaseStarted .startedIsr s
      | .endedIsr => handle κ x sgiMemoryPhaseEnded .endedIsr s
      | .getResource _ | .releaseResource _ => none
      | a => alone κ x a s
    else none

/-! ### The status of a core -/

section Status

variable {κ : Kdb} {N : ν → Prop} {s s' : Core ν}

omit [DecidableEq ν] in
lemma release_status (n : Node ν) (h : s.curr = topTask κ s.stk) :
    (release κ n s).memArbitStatus = s.memArbitStatus := by
  rcases release_cases κ n h with he | he
  · rw [he]
    rfl
  · rw [he]
    exact settle_memArbitStatus _

lemma terminated_status (hs : Sound κ N s) (hc : s.curr ≠ κ.idle)
    (he : taskTerminated κ s = some s') : s'.memArbitStatus = s.memArbitStatus := by
  obtain ⟨n, stk, hstk, -⟩ := hs.cons hc
  rw [taskTerminated_cons κ hs.run hstk] at he
  obtain rfl := Option.some.inj he
  exact (congrArg Tcbs.memArbitStatus (ended_eq ..)).trans (settle_memArbitStatus _)

/-- The actions that may change the status: the hypercalls and the two routines. -/
def Talks : Action → Prop
  | .beginTurn _ | .endMemoryPhase _ | .startedIsr | .endedIsr => True
  | _ => False

/-- Any other action leaves the status of its core alone. -/
lemma step_status {a : Action} (hs : Sound κ N s) (ha : ¬ Talks a)
    (hr : ∀ r, a ≠ .getResource r ∧ a ≠ .releaseResource r) (he : step κ s a = some s') :
    s'.memArbitStatus = s.memArbitStatus := by
  cases a with
  | activateTask t =>
    obtain ⟨-, he⟩ := Option.ite_none_right_eq_some.mp he
    obtain ⟨-, he⟩ | rfl := activateTask_some he
    · obtain ⟨m, free, -, ⟨-, rfl⟩ | ⟨-, rfl⟩⟩ := schedulerTaskActivated_cases he <;> rfl
    · rfl
  | terminate =>
    obtain ⟨hc, he⟩ := Option.ite_none_right_eq_some.mp he
    refine terminated_status hs ?_ he
    rcases hc with hi | hr
    · exact ne_idle_of_isr2 hi
    · exact ne_idle_of_regular hr.1
  | chainTask t =>
    obtain ⟨⟨hrest, -⟩, he⟩ := Option.ite_none_right_eq_some.mp he
    have hc := ne_idle_of_regular hrest.1
    by_cases ht : t = s.curr
    · obtain ⟨n, stk, hstk, -⟩ := hs.cons hc
      rw [ht, chainSelf_cons κ hstk] at he
      obtain rfl := Option.some.inj he
      exact settle_memArbitStatus _
    · obtain ⟨hact, s₁, hins, he⟩ | rfl := chainTask_some ht he
      · obtain ⟨m, free, hf, rfl⟩ := taskInsertRq_some hins
        have hend := terminated_status (sound_ready hs hact hf) hc he
        exact hend
      · rfl
  | interrupt i =>
    obtain ⟨-, he⟩ := Option.ite_none_right_eq_some.mp he
    obtain ⟨m, free, -, rfl⟩ := taskSetRunning_some he
    rfl
  | waitEvent mask =>
    obtain ⟨⟨hrest, -⟩, he⟩ := Option.ite_none_right_eq_some.mp he
    obtain ⟨n, stk, hstk, -⟩ := hs.cons (ne_idle_of_regular hrest.1)
    rw [waitEvent_cons κ hstk] at he
    split_ifs at he
    · obtain rfl := Option.some.inj he
      exact settle_memArbitStatus _
    · rw [← Option.some.inj he]
  | setEvent t mask =>
    obtain ⟨-, he⟩ := Option.ite_none_right_eq_some.mp he
    obtain rfl := Option.some.inj he
    rcases setEvent_cases κ t mask s with ⟨em, he⟩ | ⟨em, sn, -, -, he⟩
    · rw [he]
    · rw [he]
      exact release_status (s := { s with
        eventMask := em, ownSn := Function.update s.ownSn t none }) _ hs.top
  | waitSem k =>
    obtain ⟨⟨hrest, -⟩, he⟩ := Option.ite_none_right_eq_some.mp he
    obtain ⟨n, stk, hstk, -⟩ := hs.cons (ne_idle_of_regular hrest.1)
    rw [waitSem_cons κ hstk] at he
    split_ifs at he
    · rw [← Option.some.inj he]
    · obtain rfl := Option.some.inj he
      exact settle_memArbitStatus _
  | postSem k =>
    obtain ⟨-, he⟩ := Option.ite_none_right_eq_some.mp he
    obtain rfl := Option.some.inj he
    unfold postSem
    split
    · exact release_status (s := { s with blocked := Function.update s.blocked k _ }) _ hs.top
    · rfl
  | beginMemoryPhase =>
    obtain ⟨-, he⟩ := Option.ite_none_right_eq_some.mp he
    rw [← Option.some.inj he]
    rfl
  | endExecutionPhase =>
    obtain ⟨-, he⟩ := Option.ite_none_right_eq_some.mp he
    rw [← Option.some.inj he]
    unfold endExecutionPhase resumeHighestPriorityTask
    dsimp only
    split_ifs
    · split <;> rfl
    · rfl
  | getResource r => exact absurd rfl (hr r).1
  | releaseResource r => exact absurd rfl (hr r).2
  | _ => exact absurd trivial ha

/-- A turn of the loop that does not ask: the task leaves the loop, or is suspended in it. -/
lemma turn_status {r : Reply} (hs : Sound κ N s) (hn : s.memArbitStatus ≠ .none)
    (he : step κ s (.beginTurn r) = some s') : s'.memArbitStatus = s.memArbitStatus := by
  obtain ⟨hrun, he⟩ := Option.ite_none_right_eq_some.mp he
  have hreg : (κ.tdb s.curr).Regular := hrun.elim And.left And.left
  obtain ⟨n, stk, hstk, hcurr⟩ := hs.cons (ne_idle_of_regular hreg)
  unfold beginTurn at he
  cases hst : s.memArbitStatus with
  | none => exact absurd hst hn
  | acquired =>
    rw [hst] at he
    obtain rfl := Option.some.inj he
    rfl
  | requested =>
    rw [hst] at he
    dsimp only at he
    rw [suspendRunningTask_cons κ hstk (hcurr ▸ hreg)] at he
    obtain rfl := Option.some.inj he
    exact (settle_memArbitStatus _).trans hst

/-- The reply to `BEGIN` goes into the status as the protocol says. -/
lemma asked_status {r : Reply} (hn : s.memArbitStatus = .none)
    (he : step κ s (.beginTurn r) = some s') (g : Guest) (hg : g.status = .none) :
    s'.memArbitStatus = (GuestProtocol.onBeginReply r g).status := by
  obtain ⟨-, he⟩ := Option.ite_none_right_eq_some.mp he
  unfold beginTurn at he
  rw [hn] at he
  cases r <;> obtain rfl := Option.some.inj he
  · rfl
  · rfl
  · exact hn.trans hg.symm

lemma started_status (he : step κ s .startedIsr = some s') :
    s'.memArbitStatus = isrStatus sgiMemoryPhaseStarted s.memArbitStatus := by
  obtain ⟨-, he⟩ := Option.ite_none_right_eq_some.mp he
  obtain rfl := Option.some.inj he
  rcases startedIsr_cases (κ := κ) (s := s) with ⟨hne, he⟩ | ⟨hst, -, he⟩ | ⟨hst, n, -, he⟩
  · rw [he]
    simp [isrStatus, hne]
  · rw [he, hst]
    rfl
  · rw [he, hst]
    rfl

lemma ended_status (he : step κ s .endedIsr = some s') :
    s'.memArbitStatus = isrStatus sgiMemoryPhaseEnded s.memArbitStatus := by
  obtain ⟨-, he⟩ := Option.ite_none_right_eq_some.mp he
  obtain rfl := Option.some.inj he
  rcases endedIsr_cases (κ := κ) (s := s) with ⟨hne, he⟩ | ⟨hst, -, he⟩ | ⟨hst, n, -, he⟩
  · rw [he]
    simp [isrStatus, hne, sgiMemoryPhaseEnded, sgiMemoryPhaseStarted]
  · rw [he, hst]
    rfl
  · rw [he, hst]
    rfl

end Status

/-! ### The invariant -/

variable {cs : Cells} {κ : Config ν} {s t : Sys ν}

/-- The system as the protocol sees it. -/
def view (s : Sys ν) : GuestProtocol.Sys :=
  ⟨s.arb, fun x => ⟨(s.core x).memArbitStatus, .running, s.pending x⟩⟩

structure Inv (cs : Cells) (κ : Config ν) (s : Sys ν) : Prop where
  arb : ArbiterSafe.Inv cs s.arb
  agree : GuestProtocol.Inv (view s)
  /-- A core that waits for the token or has it is known to the arbiter. -/
  asked : ∀ x, (s.core x).memArbitStatus ≠ .none → s.arb.memoryRequests x ≠ 0
  sound : ∀ x, Sound (κ.kdb x) (· ∈ (κ.free x).map Node.sn) (s.core x)
  quiet : ∀ x, Quiet (κ.kdb x) none (s.core x)

lemma inv_init (cs : Cells) (κ : Config ν) : Inv cs κ (init κ) where
  arb := ArbiterSafe.inv_init
  agree := GuestProtocol.inv_init
  asked _ hx := absurd rfl hx
  sound x := sound_init (κ.kdb x) (κ.free x) (κ.nodup x)
  quiet x := quiet_init (κ.free x) (κ.low x)

/-- The kernels keep their invariants, whatever the reply. -/
lemma Inv.local (h : Inv cs κ s) {x : Cpu} {a : Action} (ha : Allowed a) {g : Core ν}
    (he : step (κ.kdb x) (s.core x) a = some g) (y : Cpu) :
    Sound (κ.kdb y) (· ∈ (κ.free y).map Node.sn) (Function.update s.core x g y) ∧
      Quiet (κ.kdb y) none (Function.update s.core x g y) := by
  by_cases hy : y = x
  · subst hy
    rw [Function.update_self]
    exact ⟨sound_step (fun t ht => κ.once y t (Or.inr ht)) (h.sound y) ha he,
      quiet_step (κ.once y) (κ.low y) (h.sound y) (h.quiet y) ha (fun _ => rfl) he⟩
  · rw [Function.update_of_ne hy]
    exact ⟨h.sound y, h.quiet y⟩

/-- A step of one core that keeps its standing with the arbiter. -/
lemma Inv.alone (h : Inv cs κ s) {x : Cpu} {a : Action} (ha : Allowed a) {g : Core ν}
    {q : List ℕ} (he : step (κ.kdb x) (s.core x) a = some g)
    (hn : g.memArbitStatus ≠ .none → (s.core x).memArbitStatus ≠ .none)
    (hg : Agree s.arb x ⟨g.memArbitStatus, .running, q⟩) :
    Inv cs κ ⟨s.arb, Function.update s.core x g, Function.update s.pending x q⟩ where
  arb := h.arb
  agree y := by
    by_cases hy : y = x
    · subst hy
      simpa only [view, Function.update_self] using hg
    · simpa only [view, Function.update_of_ne hy] using h.agree y
  asked y := by
    by_cases hy : y = x
    · subst hy
      simp only [Function.update_self]
      exact fun hst => h.asked y (hn hst)
    · simp only [Function.update_of_ne hy]
      exact h.asked y
  sound y := (h.local ha he y).1
  quiet y := (h.local ha he y).2

lemma Agree.running {a : Arb} {x : Cpu} {g : Guest} (h : Agree a x g) :
    Agree a x ⟨g.status, .running, g.pending⟩ :=
  ⟨h.idle, h.live, by simp⟩

omit [DecidableEq ν] in
/-- The hypercalls of the protocol are those of the system. -/
lemma agree_of_hvc {s₀ : GuestProtocol.Sys} {c : Cell} {code : ℕ} {upd : Reply → Guest → Guest}
    {g : Core ν} (h : GuestProtocol.Inv (GuestProtocol.hvc cs.list c code upd s₀))
    (harb : s₀.arb = s.arb)
    (hst : ∀ y, (s₀.guest y).status = (s.core y).memArbitStatus)
    (hq : ∀ y, (s₀.guest y).pending = s.pending y)
    (hg : g.memArbitStatus = (upd (fixedPriorityHypercall cs.list c.firstCpu c.id code s.arb).reply
      (s₀.guest c.firstCpu)).status)
    (hp : ∀ r, (upd r (s₀.guest c.firstCpu)).pending = s.pending c.firstCpu) :
    let o := fixedPriorityHypercall cs.list c.firstCpu c.id code s.arb
    GuestProtocol.Inv (view ⟨o.state, Function.update s.core c.firstCpu g, fun y =>
      s.pending y ++ (o.raised.filter (·.target = y)).map Sgi.irqId⟩) := by
  intro o y
  have hy := Agree.running (h y)
  simp only [GuestProtocol.hvc, GuestProtocol.post, harb] at hy
  by_cases hyx : y = c.firstCpu
  · subst hyx
    simp only [Function.update_self, hp, ← hg] at hy
    simpa only [view, Function.update_self] using hy
  · simp only [Function.update_of_ne hyx, hst, hq] at hy
    simpa only [view, Function.update_of_ne hyx] using hy

lemma inv_alone (h : Inv cs κ s) {x : Cpu} {a : Action} (ha : Allowed a)
    (hst : ∀ g, step (κ.kdb x) (s.core x) a = some g →
      g.memArbitStatus = (s.core x).memArbitStatus)
    (he : alone κ x a s = some t) : Inv cs κ t := by
  obtain ⟨g, hg, rfl⟩ := Option.map_eq_some_iff.mp he
  have hinv := h.alone (q := s.pending x) ha hg (fun hn => hst g hg ▸ hn)
    (by rw [hst g hg]; exact h.agree x)
  rwa [Function.update_eq_self] at hinv

lemma inv_handle (h : Inv cs κ s) {x : Cpu} {a : Action} {irqId : ℕ} (ha : Allowed a)
    (hst : ∀ g, step (κ.kdb x) (s.core x) a = some g →
      g.memArbitStatus = isrStatus irqId (s.core x).memArbitStatus)
    (he : handle κ x irqId a s = some t) : Inv cs κ t := by
  unfold handle at he
  rcases hp : s.pending x with _ | ⟨k, rest⟩
  · simp [hp] at he
  · simp only [hp, Option.ite_none_right_eq_some] at he
    obtain ⟨rfl, he⟩ := he
    obtain ⟨u, hu, rfl⟩ := Option.map_eq_some_iff.mp he
    obtain ⟨g, hg, rfl⟩ := Option.map_eq_some_iff.mp hu
    have hag := h.agree x
    simp only [view, hp] at hag
    refine h.alone ha hg (fun hn => ?_) ?_
    · rw [hst g hg] at hn
      exact GuestProtocol.isrStatus_eq_none.not.mp hn
    · rw [hst g hg]
      refine ⟨fun hn => hag.idle (GuestProtocol.isrStatus_eq_none.mp hn), fun hn => ?_, by simp⟩
      exact hag.live (GuestProtocol.isrStatus_eq_none.not.mp hn)

lemma inv_begin (h : Inv cs κ s) {c : Cell} {r : Reply} (hc : ArbiterSafe.Caller cs c)
    (hn : (s.core c.firstCpu).memArbitStatus = .none) (hp : s.pending c.firstCpu = [])
    (he : hvc cs κ c beginMemPhase r (.beginTurn r) s = some t) : Inv cs κ t := by
  obtain ⟨hr, he⟩ := Option.ite_none_right_eq_some.mp he
  obtain ⟨g, hg, rfl⟩ := Option.map_eq_some_iff.mp he
  -- the caller as the protocol sees it in the loop
  let s₀ := GuestProtocol.setGuest (view s) c.firstCpu ⟨.none, .beginLoop, []⟩
  have hguest : s₀.guest c.firstCpu = ⟨.none, .beginLoop, []⟩ := Function.update_self ..
  have hother : ∀ y, (s₀.guest y).status = (s.core y).memArbitStatus ∧
      (s₀.guest y).pending = s.pending y := by
    intro y
    by_cases hy : y = c.firstCpu
    · rw [hy, hguest]
      exact ⟨hn.symm, hp.symm⟩
    · have : s₀.guest y = (view s).guest y := Function.update_of_ne hy ..
      rw [this]
      exact ⟨rfl, rfl⟩
  have hinv₀ : GuestProtocol.Inv s₀ := by
    have hidle := (h.agree c.firstCpu).idle hn
    exact h.agree.setGuest ⟨fun _ => hidle, fun hne => absurd rfl hne, fun _ _ => rfl⟩
  have hinv := GuestProtocol.inv_begin hinv₀ cs.list c (by rw [hguest]) (by rw [hguest])
  have hstate : (fixedPriorityHypercall cs.list c.firstCpu c.id beginMemPhase s.arb).state =
      (requestMemory c.firstCpu c.id s.arb).1 := rfl
  have hlocal := h.local (a := .beginTurn r) trivial hg
  refine ⟨?_, ?_, fun y hy => ?_, fun y => (hlocal y).1, fun y => (hlocal y).2⟩
  · exact ArbiterSafe.inv_request h.arb hc
  · refine agree_of_hvc hinv rfl (fun y => (hother y).1) (fun y => (hother y).2) ?_ fun r => ?_
    · rw [← hr]
      exact asked_status hn hg _ (by rw [hguest])
    · rw [hguest, hp]
      cases r <;> rfl
  · -- the entry of the caller is its priority, the others stay
    have hreq : (requestMemory c.firstCpu c.id s.arb).1.memoryRequests =
        Function.update s.arb.memoryRequests c.firstCpu (priorityOf c.id) := by
      rcases requestMemory_cases c.firstCpu c.id s.arb with ⟨-, he⟩ | ⟨-, he⟩ <;> rw [he]
    simp only [hstate, hreq]
    by_cases hyc : y = c.firstCpu
    · have hid := hc.2
      rw [hyc, Function.update_self, priorityOf_eq hid]
      omega
    · simp only [Function.update_of_ne hyc] at hy ⊢
      exact h.asked y hy

lemma inv_end (h : Inv cs κ s) {c : Cell} {r : Reply}
    (he : hvc cs κ c endMemPhase r (.endMemoryPhase r) s = some t) : Inv cs κ t := by
  obtain ⟨hr, he⟩ := Option.ite_none_right_eq_some.mp he
  obtain ⟨g, hg, rfl⟩ := Option.map_eq_some_iff.mp he
  -- `END` is always acknowledged
  have hack : (fixedPriorityHypercall cs.list c.firstCpu c.id endMemPhase s.arb).reply = .ack := rfl
  rw [hack] at hr
  subst hr
  have hstate : (fixedPriorityHypercall cs.list c.firstCpu c.id endMemPhase s.arb).state =
      (disableMemoryRequest cs.list c.firstCpu s.arb).1 := rfl
  have hnone : g.memArbitStatus = .none := by
    obtain ⟨-, hg⟩ := Option.ite_none_right_eq_some.mp hg
    rw [← Option.some.inj hg]
    rfl
  have hinv := GuestProtocol.inv_end h.agree cs.list c
  have hlocal := h.local (a := .endMemoryPhase .ack) rfl hg
  refine ⟨?_, ?_, fun y hy => ?_, fun y => (hlocal y).1, fun y => (hlocal y).2⟩
  · exact ArbiterSafe.inv_disable h.arb c.firstCpu
  · refine agree_of_hvc hinv rfl (fun y => rfl) (fun y => rfl) ?_ fun r => ?_
    · rw [hack, hnone]
      rfl
    · cases r <;> rfl
  · have hreq : (disableMemoryRequest cs.list c.firstCpu s.arb).1.memoryRequests =
        Function.update s.arb.memoryRequests c.firstCpu 0 := by
      rcases disableMemoryRequest_cases cs.list c.firstCpu s.arb with ⟨-, he⟩ | ⟨-, he⟩ <;> rw [he]
    simp only [hstate, hreq]
    by_cases hyc : y = c.firstCpu
    · rw [hyc] at hy
      simp only [Function.update_self, hnone] at hy
      exact absurd rfl hy
    · simp only [Function.update_of_ne hyc] at hy ⊢
      exact h.asked y hy

lemma inv_step {l : Cell × Action} (h : Inv cs κ s) (he : sysStep cs κ s l = some t) :
    Inv cs κ t := by
  obtain ⟨c, a⟩ := l
  obtain ⟨hc, he⟩ := Option.ite_none_right_eq_some.mp he
  have hplain : ∀ b, Allowed b → ¬ Talks b → alone κ c.firstCpu b s = some t → Inv cs κ t := by
    intro b hb ht hb'
    refine inv_alone h hb (fun g hg => step_status (h.sound _) ht (fun r => ⟨?_, ?_⟩) hg) hb'
    · rintro rfl
      exact hb
    · rintro rfl
      exact hb
  cases a with
  | beginTurn r =>
    dsimp only at he
    split_ifs at he with hn hp
    · exact inv_begin h hc hn hp he
    · exact inv_alone (a := .beginTurn r) h trivial
        (fun g hg => turn_status (h.sound _) hn hg) he
  | endMemoryPhase r => exact inv_end h he
  | startedIsr => exact inv_handle (a := .startedIsr) h trivial (fun g hg => started_status hg) he
  | endedIsr => exact inv_handle (a := .endedIsr) h trivial (fun g hg => ended_status hg) he
  | getResource r => simp at he
  | releaseResource r => simp at he
  | activateTask t => exact hplain (.activateTask t) trivial id he
  | terminate => exact hplain .terminate trivial id he
  | chainTask t => exact hplain (.chainTask t) trivial id he
  | interrupt i => exact hplain (.interrupt i) trivial id he
  | waitEvent mask => exact hplain (.waitEvent mask) trivial id he
  | setEvent t mask => exact hplain (.setEvent t mask) trivial id he
  | waitSem k => exact hplain (.waitSem k) trivial id he
  | postSem k => exact hplain (.postSem k) trivial id he
  | beginMemoryPhase => exact hplain .beginMemoryPhase trivial id he
  | endExecutionPhase => exact hplain .endExecutionPhase trivial id he

lemma run_inv {as : List (Cell × Action)} (he : exec (sysStep cs κ) (init κ) as = some s) :
    Inv cs κ s :=
  exec_inv (fun _ _ _ hs ht => inv_step hs ht) (inv_init cs κ) he

/-! ### Exclusive memory phases -/

/-- A task that runs in its memory phase has a core that believes to have the token. -/
lemma Inv.acquired (h : Inv cs κ s) {x : Cpu} (hr : RunsIn (κ.kdb x) .memory (s.core x)) :
    (s.core x).memArbitStatus = .acquired := by
  have hirq : IrqEnabled (κ.kdb x) (s.core x) := fun _ => Or.inr hr.2
  have hkept := kept_of_quiet (h.quiet x) (h.sound x).top hirq
  obtain ⟨n, stk, hstk, hn⟩ := (h.sound x).cons (ne_idle_of_regular hr.1)
  by_contra hne
  have hmem : n ∈ holders (s.core x) := by
    unfold holders
    rw [List.mem_filter, hstk]
    refine ⟨List.mem_cons_self, decide_eq_true (Or.inl ?_)⟩
    rw [hn]
    exact hr.2
  rw [hkept.otherwise hne] at hmem
  simp at hmem

/-- **Memory is used by one cell at a time, and by the cell of highest priority that asks**: in
every run of the arbiter with the kernels of all cells, a task runs in its memory phase only
while its core has the token or is about to be told that the token is gone; so of two cells
that are not to be told so, at most one has such a task running. A core that has the token, and
knows all that was raised for it, has exactly one task on its stack that uses it. And as long
as a core asks, the token is with a cell whose priority is not below. -/
theorem memory_exclusive {as : List (Cell × Action)}
    (he : exec (sysStep cs κ) (init κ) as = some s) :
    (∀ c ∈ cs.list, RunsIn (κ.kdb c.firstCpu) .memory (s.core c.firstCpu) →
      s.arb.tokenOwner = some c.firstCpu ∨ sgiMemoryPhaseEnded ∈ s.pending c.firstCpu) ∧
    (∀ c ∈ cs.list, ∀ d ∈ cs.list, sgiMemoryPhaseEnded ∉ s.pending c.firstCpu →
      sgiMemoryPhaseEnded ∉ s.pending d.firstCpu →
      RunsIn (κ.kdb c.firstCpu) .memory (s.core c.firstCpu) →
      RunsIn (κ.kdb d.firstCpu) .memory (s.core d.firstCpu) → c = d) ∧
    (∀ c ∈ cs.list, s.arb.tokenOwner = some c.firstCpu → s.pending c.firstCpu = [] →
      IrqEnabled (κ.kdb c.firstCpu) (s.core c.firstCpu) →
      ∃ n, holders (s.core c.firstCpu) = [n] ∧
        (s.core c.firstCpu).prio n.task = maxTaskPriority) ∧
    (∀ d ∈ cs.list, (s.core d.firstCpu).memArbitStatus ≠ .none →
      ∃ c ∈ cs.list, s.arb.tokenOwner = some c.firstCpu ∧ c.id ≤ d.id) := by
  have h := run_inv he
  have hown : ∀ x, RunsIn (κ.kdb x) .memory (s.core x) →
      s.arb.tokenOwner = some x ∨ sgiMemoryPhaseEnded ∈ s.pending x := by
    intro x hx
    have hst := h.acquired hx
    have hlive := (h.agree x).live
    simp only [view, hst] at hlive
    have hlive := hlive (by simp)
    unfold GuestProtocol.expected at hlive
    split_ifs at hlive with ho
    · exact Or.inl ho
    · exact Or.inr (GuestProtocol.ended_mem_of_foldl hlive)
  refine ⟨fun c _ => hown _, fun c hc d hd hpc hpd hrc hrd => ?_, fun c hc ho hp hirq => ?_,
    fun d hd hst => ?_⟩
  · have hco := (hown _ hrc).resolve_right hpc
    have hdo := (hown _ hrd).resolve_right hpd
    exact cell_eq_of_firstCpu hc hd (Option.some.inj (hco.symm.trans hdo))
  · have hag := h.agree c.firstCpu
    simp only [view, hp] at hag
    have hn : (s.core c.firstCpu).memArbitStatus ≠ .none := fun hn => (hag.idle hn).2 ho
    have hacq := hag.live hn
    simp only [List.foldl_nil, GuestProtocol.expected, ho, if_true] at hacq
    exact (kept_of_quiet (h.quiet _) (h.sound _).top hirq).acquired hacq
  · have hreq := h.asked _ hst
    cases ho : s.arb.tokenOwner with
    | none => exact absurd ((h.arb.free ho).2 _) hreq
    | some x =>
      obtain ⟨hpos, hx, hlt⟩ := h.arb.held x ho
      obtain ⟨c, hc, rfl, hcm⟩ := h.arb.entries x (by omega)
      obtain ⟨d', hd', hdd, hdm⟩ := h.arb.entries _ hreq
      obtain rfl := cell_eq_of_firstCpu hd'.1 hd hdd
      refine ⟨c, hc.1, rfl, ?_⟩
      by_cases hcd : c.firstCpu = d'.firstCpu
      · rw [cell_eq_of_firstCpu hc.1 hd hcd]
      · have := hlt _ (Ne.symm hcd)
        have hid := hd'.2
        omega

/-- Six cores with the descriptors of `lowKdb` and ten nodes each. -/
def lowConfig : Config ℕ where
  kdb _ := lowKdb
  free _ := tenNodes
  once _ t ht := (lowKdb_regular t ht).1
  low _ t ht := (lowKdb_regular t ht).2
  nodup _ := by decide

/-- Cell B is in its memory phase when cell A asks for the token and gets it. -/
def takenRun : List (Cell × Action) :=
  [(cellB, .activateTask 4), (cellB, .beginMemoryPhase), (cellB, .beginTurn .ack),
    (cellB, .beginTurn .ack), (cellA, .activateTask 4), (cellA, .beginMemoryPhase),
    (cellA, .beginTurn .ack), (cellA, .beginTurn .ack), (cellB, .interrupt 2),
    (cellB, .endedIsr), (cellB, .terminate)]

theorem memory_exclusive_taken :
    ∃ s, exec (sysStep twoCells lowConfig) (init lowConfig) takenRun = some s ∧
      RunsIn lowKdb .memory (s.core 2) ∧ (s.core 3).memArbitStatus = .requested ∧
      ∃ c ∈ twoCells.list, s.arb.tokenOwner = some c.firstCpu ∧ c.id ≤ cellB.id := by
  have hrun := fun (s : Sys ℕ)
      (he : exec (sysStep twoCells lowConfig) (init lowConfig) takenRun = some s) =>
    memory_exclusive he
  exact ⟨_, rfl, by decide, rfl, (hrun _ rfl).2.2.2 cellB (by decide) (by decide)⟩

end FpMemSched.WholeSystem
