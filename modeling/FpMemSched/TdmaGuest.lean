import FpMemSched.GuestProtocol
import FpMemSched.Tdma

/-!
A CPU under the TDMA arbiter together with its DPREM guest (`tdma.c` and `dprem.c`).

The timer interrupt belongs to the hypervisor, so it is taken whether the guest has its
interrupts off or not; what it raises waits until the guest has them on. The invariant:
handling what is pending turns the status of the guest into the one that fits the state of
the CPU. The timer keeps it when a slot ends, where the guest is told, and breaks it when a
slot starts, where the guest is not.
-/

namespace FpMemSched.TdmaGuest

open FpMemSched.Lib FpMemSched.Lib.Runs FpMemSched.Arbiter FpMemSched.GuestProtocol
open FpMemSched.Tdma (PerCpu TdmaState TimerTarget tdmaTimerStart tdmaTimerIsr tdmaHypercall
  tdmaOnCellCreate)

structure Sys where
  time : ℕ
  cpu : PerCpu
  guest : Guest

def init (id : ℕ) : Sys := ⟨0, tdmaOnCellCreate id, ⟨.none, .running, []⟩⟩

inductive Action
  | tick (t : ℕ)
  | timer
  /-- A task calls `DPREM_begin_memory_phase`, or a task that is in its loop is switched to. -/
  | enterBegin
  /-- One turn of the loop; a suspended task may leave the CPU to another task in the loop. -/
  | loop (toLoop : Bool)
  | enterEnd
  | endHvc
  | endExecutionPhase
  /-- The oldest notification is handled. -/
  | deliver (toLoop : Bool)

/-- The hypercall of the guest and what it makes of the reply. -/
def hvc (p code : ℕ) (upd : Reply → Guest → Guest) (s : Sys) : Sys :=
  let (c, reply) := tdmaHypercall p s.time code s.cpu
  { s with cpu := c, guest := upd reply s.guest }

def step (p : ℕ) (s : Sys) : Action → Option Sys
  | .tick t => if s.time ≤ t then some { s with time := t } else none
  | .timer =>
    if s.cpu.due s.time then
      let (c, raised) := tdmaTimerIsr p s.time s.cpu
      some { s with cpu := c, guest := { s.guest with pending := s.guest.pending ++ raised } }
    else none
  | .enterBegin =>
    if s.guest.mode = .running ∧ s.guest.pending = [] then
      some { s with guest := { s.guest with mode := .beginLoop } }
    else none
  | .loop toLoop =>
    if s.guest.mode = .beginLoop then
      match s.guest.status with
      | .acquired => some { s with guest := { s.guest with mode := .running } }
      | .requested =>
        some { s with guest :=
          { s.guest with mode := if toLoop then .beginLoop else .running } }
      | .none => some (hvc p beginMemPhase onBeginReply s)
    else none
  | .enterEnd =>
    if s.guest.mode = .running ∧ s.guest.pending = [] then
      some { s with guest := { s.guest with mode := .ending } }
    else none
  | .endHvc =>
    if s.guest.mode = .ending then some (hvc p endMemPhase onEndReply s) else none
  | .endExecutionPhase =>
    if s.guest.mode = .execution then
      some { s with guest := { s.guest with mode := .running } }
    else none
  | .deliver toLoop =>
    if s.guest.mode = .running then
      match s.guest.pending with
      | [] => none
      | k :: rest =>
        let st := isrStatus k s.guest.status
        let mode := if toLoop ∧ st ≠ s.guest.status then .beginLoop else .running
        some { s with guest := ⟨st, mode, rest⟩ }
    else none

/-! ### What the guest has to be told -/

/-- The status that fits a state of the CPU. -/
def expected : TdmaState → MemArbitStatus
  | .computing | .blocked => .none
  | .waiting => .requested
  | .memory => .acquired

/-- The timer raises one `STARTED` when it opens the slot to a waiting CPU, and one `ENDED`
when it closes the slot on a memory phase. -/
def Notifies (p : ℕ) (s : Sys) : Action → Prop
  | .timer =>
    let o := tdmaTimerIsr p s.time s.cpu
    (s.cpu.state = .waiting → o.1.state = .memory → o.2.count sgiMemoryPhaseStarted = 1) ∧
    (s.cpu.state = .memory → o.1.state = .waiting → o.2.count sgiMemoryPhaseEnded = 1)
  | _ => True

/-- A guest to which everything was delivered has the status that fits. -/
def Told (s : Sys) : Prop :=
  s.guest.pending = [] →
    (s.guest.status = .none ↔ s.cpu.state = .computing) ∧
    (s.guest.status = .requested ↔ s.cpu.state = .waiting) ∧
    (s.guest.status = .acquired ↔ s.cpu.state = .memory)

/-- No timer interrupt opens the slot to a CPU that waits for it. -/
def OpensUnawaited (s : Sys) : Action → Prop
  | .timer => ¬ (s.cpu.state = .waiting ∧ s.cpu.target = .start)
  | _ => True

instance (s : Sys) : ∀ a, Decidable (OpensUnawaited s a)
  | .timer => inferInstanceAs (Decidable (¬ _))
  | .tick _ | .enterBegin | .loop _ | .enterEnd | .endHvc | .endExecutionPhase | .deliver _ =>
    isTrue trivial

/-! ### The invariant -/

structure Inv (s : Sys) : Prop where
  told : s.guest.pending.foldl (fun st k => isrStatus k st) s.guest.status =
    expected s.cpu.state
  unblocked : s.cpu.state ≠ .blocked
  loop : s.guest.mode = .beginLoop → s.guest.status = .none → s.guest.pending = []

lemma inv_init (id : ℕ) : Inv (init id) := ⟨rfl, by simp [init, tdmaOnCellCreate], fun _ _ => rfl⟩

lemma expected_eq_none {c : TdmaState} (hc : c ≠ .blocked) :
    expected c = .none ↔ c = .computing := by
  cases c <;> simp_all [expected]

/-- Notifications do not tell a guest anything that never asked. -/
lemma foldl_isrStatus_eq_none {q : List ℕ} {st : MemArbitStatus} :
    q.foldl (fun st k => isrStatus k st) st = .none ↔ st = .none := by
  induction q generalizing st with
  | nil => rfl
  | cons k q ih => rw [List.foldl_cons, ih, isrStatus_eq_none]

lemma Inv.computing_iff {s : Sys} (h : Inv s) :
    s.guest.status = .none ↔ s.cpu.state = .computing := by
  rw [← expected_eq_none h.unblocked, ← h.told, foldl_isrStatus_eq_none]

lemma Inv.toTold {s : Sys} (h : Inv s) : Told s := by
  intro hp
  have ht := h.told
  rw [hp, List.foldl_nil] at ht
  refine ⟨h.computing_iff, ?_, ?_⟩ <;> rw [ht] <;> cases hc : s.cpu.state <;>
    simp_all [expected]

/-! ### The calls and the timer -/

/-- What a timer interrupt does to a CPU that is not blocked. -/
lemma tdmaTimerIsr_cases (p t : ℕ) {c : PerCpu} (hc : c.state ≠ .blocked) :
    (c.state = .waiting ∧ c.target = .start ∧ (tdmaTimerIsr p t c).1.state = .memory ∧
      (tdmaTimerIsr p t c).2 = []) ∨
    (c.state = .memory ∧ c.target = .stop ∧ (tdmaTimerIsr p t c).1.state = .waiting ∧
      (tdmaTimerIsr p t c).2 = [sgiMemoryPhaseEnded]) ∨
    (¬ (c.state = .waiting ∧ c.target = .start) ∧ tdmaTimerIsr p t c = (c, [])) := by
  unfold tdmaTimerIsr
  cases ht : c.target with
  | start =>
    by_cases hw : c.state = .waiting
    · exact Or.inl ⟨hw, rfl, by simp [hw]⟩
    · exact Or.inr (Or.inr ⟨by simp [hw], by simp [hc, hw]⟩)
  | stop =>
    by_cases hm : c.state = .memory
    · exact Or.inr (Or.inl ⟨hm, rfl, by simp [hm]⟩)
    · exact Or.inr (Or.inr ⟨by simp, by simp [hm]⟩)

/-- BEGIN from a computing CPU is answered, and the reply tells the state. -/
lemma begin_cases (p t : ℕ) {c : PerCpu} (hc : c.state = .computing) :
    ((tdmaHypercall p t beginMemPhase c).1.state = .memory ∧
      (tdmaHypercall p t beginMemPhase c).2 = .ack) ∨
    ((tdmaHypercall p t beginMemPhase c).1.state = .waiting ∧
      (tdmaHypercall p t beginMemPhase c).2 = .nack) := by
  unfold tdmaHypercall
  rcases ht : tdmaTimerStart p t c with ⟨d, _ | _⟩
  · exact Or.inr (by simp [hc])
  · exact Or.inl (by simp [hc])

lemma end_cases (p t : ℕ) (c : PerCpu) :
    (c.state = .computing ∧ tdmaHypercall p t endMemPhase c = (c, .invalid)) ∨
    (c.state ≠ .computing ∧ tdmaHypercall p t endMemPhase c =
      ({ c with enabled := false, state := .computing }, .ack)) := by
  unfold tdmaHypercall
  by_cases hc : c.state = .computing
  · exact Or.inl ⟨hc, by simp [hc, beginMemPhase, endMemPhase]⟩
  · exact Or.inr ⟨hc, by simp [hc, beginMemPhase, endMemPhase]⟩

lemma inv_begin {s : Sys} (h : Inv s) (p : ℕ) (hst : s.guest.status = .none)
    (hm : s.guest.mode = .beginLoop) : Inv (hvc p beginMemPhase onBeginReply s) := by
  have hp : s.guest.pending = [] := h.loop hm hst
  rcases begin_cases p s.time (h.computing_iff.mp hst) with ⟨hs, hr⟩ | ⟨hs, hr⟩
  all_goals
    refine ⟨?_, ?_, fun _ _ => ?_⟩
    · simp [hvc, hr, hs, onBeginReply, hp, expected]
    · simp [hvc, hs]
    · simp [hvc, hr, onBeginReply, hp]

lemma inv_end {s : Sys} (h : Inv s) (p : ℕ) : Inv (hvc p endMemPhase onEndReply s) := by
  rcases end_cases p s.time s.cpu with ⟨-, he⟩ | ⟨-, he⟩
  · refine ⟨?_, ?_, ?_⟩
    · simpa [hvc, he, onEndReply] using h.told
    · simpa [hvc, he] using h.unblocked
    · simp [hvc, he, onEndReply]
  · refine ⟨?_, ?_, ?_⟩
    · simpa [hvc, he, onEndReply, expected] using foldl_isrStatus_eq_none.mpr rfl
    · simp [hvc, he]
    · simp [hvc, he, onEndReply]

lemma inv_timer {s : Sys} (h : Inv s) (p : ℕ)
    (hc : ¬ (s.cpu.state = .waiting ∧ s.cpu.target = .start)) :
    Inv { s with
      cpu := (tdmaTimerIsr p s.time s.cpu).1
      guest := { s.guest with
        pending := s.guest.pending ++ (tdmaTimerIsr p s.time s.cpu).2 } } := by
  rcases tdmaTimerIsr_cases p s.time h.unblocked with
    ⟨hw, hst, -, -⟩ | ⟨hm, -, hs, hr⟩ | ⟨-, he⟩
  · exact absurd ⟨hw, hst⟩ hc
  · -- the guest is told that its slot is over
    have ht := h.told
    rw [hm] at ht
    refine ⟨?_, ?_, fun _ hn => ?_⟩
    · simp only [hr, hs, List.foldl_append, ht, List.foldl_cons, List.foldl_nil]
      rfl
    · simp [hs]
    · have := h.computing_iff.mp hn
      simp [hm] at this
  · simp only [he, List.append_nil]
    exact ⟨h.told, h.unblocked, h.loop⟩

lemma inv_step {p : ℕ} {s t : Sys} {a : Action} (h : Inv s) (hc : OpensUnawaited s a)
    (hs : step p s a = some t) : Inv t := by
  cases a with
  | tick u =>
    simp only [step, Option.ite_none_right_eq_some, Option.some.injEq] at hs
    obtain ⟨-, rfl⟩ := hs
    exact ⟨h.told, h.unblocked, h.loop⟩
  | timer =>
    simp only [step, Option.ite_none_right_eq_some, Option.some.injEq] at hs
    obtain ⟨-, rfl⟩ := hs
    exact inv_timer h p hc
  | enterBegin =>
    simp only [step, Option.ite_none_right_eq_some, Option.some.injEq] at hs
    obtain ⟨⟨-, hp⟩, rfl⟩ := hs
    exact ⟨h.told, h.unblocked, fun _ _ => hp⟩
  | loop toLoop =>
    simp only [step, Option.ite_none_right_eq_some] at hs
    obtain ⟨hm, hs⟩ := hs
    cases hst : s.guest.status with
    | none =>
      simp only [hst, Option.some.injEq] at hs
      subst hs
      exact inv_begin h p hst hm
    | requested =>
      simp only [hst, Option.some.injEq] at hs
      subst hs
      exact ⟨by simpa [hst] using h.told, h.unblocked, by simp⟩
    | acquired =>
      simp only [hst, Option.some.injEq] at hs
      subst hs
      exact ⟨by simpa [hst] using h.told, h.unblocked, by simp⟩
  | enterEnd =>
    simp only [step, Option.ite_none_right_eq_some, Option.some.injEq] at hs
    obtain ⟨-, rfl⟩ := hs
    exact ⟨h.told, h.unblocked, by simp⟩
  | endHvc =>
    simp only [step, Option.ite_none_right_eq_some, Option.some.injEq] at hs
    obtain ⟨-, rfl⟩ := hs
    exact inv_end h p
  | endExecutionPhase =>
    simp only [step, Option.ite_none_right_eq_some, Option.some.injEq] at hs
    obtain ⟨-, rfl⟩ := hs
    exact ⟨h.told, h.unblocked, by simp⟩
  | deliver toLoop =>
    simp only [step, Option.ite_none_right_eq_some] at hs
    obtain ⟨-, hs⟩ := hs
    cases hp : s.guest.pending with
    | nil => simp [hp] at hs
    | cons k rest =>
      simp only [hp, Option.some.injEq] at hs
      subst hs
      refine ⟨?_, h.unblocked, ?_⟩
      · simpa [hp] using h.told
      · -- an interrupt routine that lands in the loop changed the status
        intro hm hn
        have hn' : s.guest.status = .none := isrStatus_eq_none.mp hn
        rw [isrStatus_eq_none.mpr hn', hn'] at hm
        simp at hm

/-! ### Runs -/

/-- The timer tells the guest everything except that its slot has come. -/
lemma notifies_iff (p : ℕ) (s : Sys) (a : Action) : Notifies p s a ↔ OpensUnawaited s a := by
  cases a with
  | timer =>
    by_cases hc : s.cpu.state = .waiting ∧ s.cpu.target = .start
    · have hs : tdmaTimerIsr p s.time s.cpu =
          ({ (tdmaTimerStart p s.time s.cpu).1 with state := .memory }, []) := by
        simp [tdmaTimerIsr, hc.1, hc.2]
      simp [Notifies, OpensUnawaited, hs, hc.1, hc.2]
    · simp only [OpensUnawaited, hc, not_false_eq_true, iff_true]
      refine ⟨fun hw hm => ?_, fun hm hw => ?_⟩
      · rcases tdmaTimerIsr_cases p s.time (c := s.cpu) (by simp [hw]) with
          ⟨hw, hst, -⟩ | ⟨hm, -⟩ | ⟨-, he⟩
        · exact absurd ⟨hw, hst⟩ hc
        · simp [hw] at hm
        · simp [he, hw] at hm
      · rcases tdmaTimerIsr_cases p s.time (c := s.cpu) (by simp [hm]) with
          ⟨hw, -⟩ | ⟨-, -, -, hr⟩ | ⟨-, he⟩
        · simp [hm] at hw
        · simp [hr]
        · simp [he, hm] at hw
  | _ => exact Iff.rfl

/-- **The guest is told all it has to know exactly in the runs in which no slot opens to a CPU
that waits for it.** -/
theorem notifications_kept_iff (p id : ℕ) (as : List Action) (s : Sys)
    (h : exec (step p) (init id) as = some s) :
    (Along (step p) (Notifies p) (init id) as ∧ Always (step p) Told (init id) as) ↔
      Along (step p) OpensUnawaited (init id) as := by
  have hcongr : Along (step p) (Notifies p) (init id) as ↔
      Along (step p) OpensUnawaited (init id) as := by
    simp only [funext fun t => funext fun a => propext (notifies_iff p t a)]
  rw [hcongr]
  refine ⟨And.left, fun hc => ⟨hc, fun bs cs t hb ht => ?_⟩⟩
  subst hb
  exact (exec_inv_along (fun _ _ _ hs hc ht => inv_step hs hc ht) (inv_init id)
    (along_take hc) ht).toTold

/-- The cell of the first slot has a memory phase that outlasts the slot. -/
def firstSlotRun : List Action :=
  [.enterBegin, .loop false, .loop false, .tick 62500000, .timer, .deliver false]

theorem notifications_kept_iff_firstSlot :
    ∃ s, exec (step 62500000) (init 1) firstSlotRun = some s ∧ s.guest.status = .requested ∧
      Told s := by
  refine ⟨_, rfl, rfl, ?_⟩
  have hc : Along (step 62500000) OpensUnawaited (init 1) firstSlotRun := by decide
  exact ((notifications_kept_iff 62500000 1 firstSlotRun _ rfl).mpr hc).2 firstSlotRun [] _ rfl rfl

/-- The cell of the second slot asks in the first one, and its slot comes. -/
def secondSlotRun : List Action :=
  [.enterBegin, .loop false, .loop false, .tick 62500000, .timer]

/-- The guest of the second slot goes on waiting in its own slot. -/
theorem start_not_told :
    ∃ s, exec (step 62500000) (init 2) secondSlotRun = some s ∧ s.cpu.state = .memory ∧
      s.guest.pending = [] ∧ s.guest.status = .requested ∧
      ¬ (Along (step 62500000) (Notifies 62500000) (init 2) secondSlotRun ∧
        Always (step 62500000) Told (init 2) secondSlotRun) := by
  refine ⟨_, rfl, rfl, rfl, rfl, fun h => ?_⟩
  have ht := h.2 secondSlotRun [] _ rfl rfl rfl
  exact absurd (ht.2.1.mp rfl) (by decide)

end FpMemSched.TdmaGuest
