import FpMemSched.CpuControl
import FpMemSched.TdmaGuest

/-!
A cell under TDMA that is started, parked and started again (`control.c`, `tdma.c`).

The state of the arbiter for the CPU is set when the cell is created and by the calls of the
guest. Parking or resetting the CPU takes the guest away and leaves that state as it was, so
that the next boot may find a memory phase of the one before it.
-/

namespace FpMemSched.TdmaRestart

open FpMemSched.Lib FpMemSched.Lib.Runs FpMemSched.Arbiter FpMemSched.GuestProtocol
open FpMemSched.Tdma (PerCpu TdmaState tdmaHypercall tdmaTimerIsr tdmaOnCellCreate)
open FpMemSched.CpuControl

structure Sys where
  /-- The CPU under the arbiter, with the guest of the latest boot. -/
  tdma : TdmaGuest.Sys
  ctl : Control

/-- The state `cell_create` leaves: the CPU of the cell has been asked to park. -/
def init (id : ℕ) : Sys := ⟨TdmaGuest.init id, ⟨true, false, false, false, none⟩⟩

inductive Action
  | cellStart (cpuResetAddress : ℕ)
  | cellSetLoadable
  | checkEvents
  /-- The counter, the timer interrupt and, while the guest runs, its steps. -/
  | tdma (a : TdmaGuest.Action)

/-- The step is one of the guest. -/
def guestStep : TdmaGuest.Action → Bool
  | .tick _ | .timer => false
  | _ => true

/-- Resetting the CPU ends with `tdma_timer_init`, which leaves the timer control alone. -/
def resetTimer (c : PerCpu) : PerCpu := { c with cmp := 2 ^ 64 - 1 }

def boot : Guest := ⟨.none, .running, []⟩

def step (p : ℕ) (s : Sys) : Action → Option Sys
  | .cellStart cpuResetAddress =>
    some { s with
      ctl := archResetCpu { s.ctl with failed := false, cpuOnEntry := some cpuResetAddress } }
  | .cellSetLoadable =>
    some { s with ctl := archParkCpu { s.ctl with failed := false } }
  | .checkEvents =>
    let o := CpuControl.checkEvents s.ctl
    match o.2 with
    | .resumed => some { s with ctl := o.1 }
    | .parked =>
      some { s with ctl := o.1, tdma := { s.tdma with cpu := resetTimer s.tdma.cpu } }
    | .restarted =>
      some { s with
        ctl := o.1
        tdma := { s.tdma with cpu := resetTimer s.tdma.cpu, guest := boot } }
  | .tdma a =>
    if guestStep a → s.ctl.Running then
      (TdmaGuest.step p s.tdma a).map fun d => { s with tdma := d }
    else none

/-- The step is a BEGIN hypercall: a turn of the loop in `DPREM_begin_memory_phase` with status
`NONE`. -/
def Begins (s : Sys) : Action → Prop
  | .tdma (.loop _) =>
    s.ctl.Running ∧ s.tdma.guest.mode = .beginLoop ∧ s.tdma.guest.status = .none
  | _ => False

/-- A BEGIN hypercall is answered by `ACK` or `NACK`, and the status is not `NONE` after it. -/
def Answered (p : ℕ) (s : Sys) (a : Action) : Prop :=
  Begins s a →
    (tdmaHypercall p s.tdma.time beginMemPhase s.tdma.cpu).2 ≠ .invalid ∧
    ∀ t, step p s a = some t → t.tdma.guest.status ≠ .none

/-- The guest is restarted only while the CPU is computing for the arbiter. -/
def BootsComputing (s : Sys) : Action → Prop
  | .checkEvents =>
    (CpuControl.checkEvents s.ctl).2 = .restarted → s.tdma.cpu.state = .computing
  | _ => True

instance (s : Sys) : ∀ a, Decidable (BootsComputing s a)
  | .checkEvents => inferInstanceAs (Decidable (_ → _))
  | .cellStart _ | .cellSetLoadable | .tdma _ => isTrue trivial

/-! ### The invariant -/

/-- A guest without a request runs on a computing CPU, if every boot so far (`ok`) was one of a
computing CPU. -/
structure Inv (ok : Prop) (s : TdmaGuest.Sys) : Prop where
  idle : ok → s.guest.status = .none → s.cpu.state = .computing
  unblocked : s.cpu.state ≠ .blocked

lemma inv_timer {p t : ℕ} {c : PerCpu} (h : c.state ≠ .blocked) :
    (tdmaTimerIsr p t c).1.state ≠ .blocked ∧
      (c.state = .computing → (tdmaTimerIsr p t c).1.state = .computing) := by
  rcases TdmaGuest.tdmaTimerIsr_cases p t h with ⟨hw, -, hs, -⟩ | ⟨hm, -, hs, -⟩ | ⟨-, he⟩
  · simp [hs, hw]
  · simp [hs, hm]
  · simp [he, h]

lemma begin_invalid {p t : ℕ} {c : PerCpu} (h : c.state ≠ .computing) :
    tdmaHypercall p t beginMemPhase c = (c, .invalid) := by
  simp [tdmaHypercall, h]

/-- A BEGIN on a computing CPU is answered. -/
lemma hvc_begin {p : ℕ} {s : TdmaGuest.Sys} (h : s.cpu.state = .computing) :
    (tdmaHypercall p s.time beginMemPhase s.cpu).2 ≠ .invalid ∧
      (TdmaGuest.hvc p beginMemPhase onBeginReply s).guest.status ≠ .none ∧
      (TdmaGuest.hvc p beginMemPhase onBeginReply s).cpu.state ≠ .blocked := by
  rcases TdmaGuest.begin_cases p s.time h with ⟨hs, hr⟩ | ⟨hs, hr⟩
  all_goals
    refine ⟨by simp [hr], by simp [TdmaGuest.hvc, hr, onBeginReply], ?_⟩
    simp [TdmaGuest.hvc, hs]

lemma inv_begin {p : ℕ} {ok : Prop} {s : TdmaGuest.Sys} (h : Inv ok s) :
    Inv ok (TdmaGuest.hvc p beginMemPhase onBeginReply s) := by
  by_cases hc : s.cpu.state = .computing
  · obtain ⟨-, hne, hb⟩ := hvc_begin (p := p) hc
    exact ⟨fun _ hn => absurd hn hne, hb⟩
  · simp only [TdmaGuest.hvc, begin_invalid hc, onBeginReply]
    exact ⟨h.idle, h.unblocked⟩

lemma inv_tdma {p : ℕ} {ok : Prop} {s t : TdmaGuest.Sys} {a : TdmaGuest.Action} (h : Inv ok s)
    (hs : TdmaGuest.step p s a = some t) : Inv ok t := by
  cases a with
  | tick u =>
    simp only [TdmaGuest.step, Option.ite_none_right_eq_some, Option.some.injEq] at hs
    obtain ⟨-, rfl⟩ := hs
    exact ⟨h.idle, h.unblocked⟩
  | timer =>
    simp only [TdmaGuest.step, Option.ite_none_right_eq_some, Option.some.injEq] at hs
    obtain ⟨-, rfl⟩ := hs
    obtain ⟨hb, hc⟩ := inv_timer (p := p) (t := s.time) h.unblocked
    exact ⟨fun hok hn => hc (h.idle hok hn), hb⟩
  | loop toLoop =>
    simp only [TdmaGuest.step, Option.ite_none_right_eq_some] at hs
    obtain ⟨-, hs⟩ := hs
    cases hst : s.guest.status with
    | none =>
      simp only [hst, Option.some.injEq] at hs
      subst hs
      exact inv_begin h
    | requested =>
      simp only [hst, Option.some.injEq] at hs
      subst hs
      exact ⟨by simp, h.unblocked⟩
    | acquired =>
      simp only [hst, Option.some.injEq] at hs
      subst hs
      exact ⟨by simp, h.unblocked⟩
  | endHvc =>
    simp only [TdmaGuest.step, Option.ite_none_right_eq_some, Option.some.injEq] at hs
    obtain ⟨-, rfl⟩ := hs
    rcases TdmaGuest.end_cases p s.time s.cpu with ⟨hc, he⟩ | ⟨-, he⟩
    · exact ⟨by simp [TdmaGuest.hvc, he, hc], by simp [TdmaGuest.hvc, he, hc]⟩
    · exact ⟨by simp [TdmaGuest.hvc, he], by simp [TdmaGuest.hvc, he]⟩
  | deliver toLoop =>
    simp only [TdmaGuest.step, Option.ite_none_right_eq_some] at hs
    obtain ⟨-, hs⟩ := hs
    cases hp : s.guest.pending with
    | nil => simp [hp] at hs
    | cons k rest =>
      simp only [hp, Option.some.injEq] at hs
      subst hs
      exact ⟨fun hok hn => h.idle hok (isrStatus_eq_none.mp hn), h.unblocked⟩
  | enterBegin | enterEnd | endExecutionPhase =>
    -- only the mode of the guest changes
    simp only [TdmaGuest.step, Option.ite_none_right_eq_some, Option.some.injEq] at hs
    obtain ⟨-, rfl⟩ := hs
    exact ⟨h.idle, h.unblocked⟩

lemma inv_step {p : ℕ} {ok : Prop} {s t : Sys} {a : Action} (h : Inv ok s.tdma)
    (hc : ok → BootsComputing s a) (hs : step p s a = some t) : Inv ok t.tdma := by
  cases a with
  | cellStart cpuResetAddress =>
    obtain rfl := Option.some.inj hs
    exact h
  | cellSetLoadable =>
    obtain rfl := Option.some.inj hs
    exact h
  | checkEvents =>
    rcases checkEvents_cases s.ctl with ⟨ho, -⟩ | ⟨ho, -⟩ | ⟨ho, -⟩ <;>
      simp only [step, ho, Option.some.injEq] at hs <;> subst hs
    · -- the boot: the guest starts from `NONE` on a CPU that nobody computes for
      exact ⟨fun hok _ => hc hok ho, h.unblocked⟩
    · exact ⟨h.idle, h.unblocked⟩
    · exact h
  | tdma a =>
    simp only [step, Option.ite_none_right_eq_some, Option.map_eq_some_iff] at hs
    obtain ⟨-, d, hd, rfl⟩ := hs
    exact inv_tdma h hd

lemma inv_init (ok : Prop) (id : ℕ) : Inv ok (init id).tdma :=
  ⟨fun _ _ => rfl, by simp [init, TdmaGuest.init, tdmaOnCellCreate]⟩

/-! ### Boots -/

lemma answered_of_inv {p : ℕ} {s : Sys} (h : Inv True s.tdma) (a : Action) : Answered p s a := by
  intro hb
  cases a with
  | tdma a =>
    cases a with
    | loop toLoop =>
      obtain ⟨hrun, hm, hst⟩ := hb
      obtain ⟨hr, hne, -⟩ := hvc_begin (p := p) (h.idle trivial hst)
      refine ⟨hr, fun t ht => ?_⟩
      simp only [step, hrun, implies_true, if_true, TdmaGuest.step, hm, hst, Option.map_some,
        Option.some.injEq] at ht
      subst ht
      exact hne
    | _ => exact hb.elim
  | _ => exact hb.elim

/-- The steps that a guest which sits in the loop with its interrupts off can still see. -/
def Spins : Action → Prop
  | .tdma (.tick _) | .tdma .timer | .tdma (.loop _) => True
  | _ => False

/-- A guest that asks for a phase the arbiter believes it to be in already. -/
structure Stuck (s : Sys) : Prop where
  mode : s.tdma.guest.mode = .beginLoop
  status : s.tdma.guest.status = .none
  state : s.tdma.cpu.state = .waiting ∨ s.tdma.cpu.state = .memory

lemma stuck_step {p : ℕ} {s t : Sys} {a : Action} (h : Stuck s) (ha : Spins a)
    (hs : step p s a = some t) : Stuck t := by
  obtain ⟨hm, hst, hc⟩ := h
  cases a with
  | tdma a =>
    simp only [step, Option.ite_none_right_eq_some, Option.map_eq_some_iff] at hs
    obtain ⟨-, d, hd, rfl⟩ := hs
    cases a with
    | tick u =>
      simp only [TdmaGuest.step, Option.ite_none_right_eq_some, Option.some.injEq] at hd
      obtain ⟨-, rfl⟩ := hd
      exact ⟨hm, hst, hc⟩
    | timer =>
      simp only [TdmaGuest.step, Option.ite_none_right_eq_some, Option.some.injEq] at hd
      obtain ⟨-, rfl⟩ := hd
      have hb : s.tdma.cpu.state ≠ .blocked := by rcases hc with hc | hc <;> simp [hc]
      refine ⟨hm, hst, ?_⟩
      rcases TdmaGuest.tdmaTimerIsr_cases p s.tdma.time hb with
        ⟨-, -, hs, -⟩ | ⟨-, -, hs, -⟩ | ⟨-, he⟩
      · exact Or.inr hs
      · exact Or.inl hs
      · simpa [he] using hc
    | loop toLoop =>
      have hne : s.tdma.cpu.state ≠ .computing := by rcases hc with hc | hc <;> simp [hc]
      simp only [TdmaGuest.step, hm, hst, if_true, TdmaGuest.hvc, begin_invalid hne, onBeginReply,
        Option.some.injEq] at hd
      subst hd
      exact ⟨hm, hst, hc⟩
    | _ => exact ha.elim
  | _ => exact ha.elim

/-- **Every BEGIN is answered if the guest is only ever restarted outside of a memory phase**;
and a guest that is restarted within one stays in the loop with status `NONE`, however often
it asks and whatever the timer does. -/
theorem begins_answered (p id : ℕ) (as : List Action) (s : Sys)
    (h : exec (step p) (init id) as = some s) :
    (Along (step p) BootsComputing (init id) as →
      Along (step p) (Answered p) (init id) as) ∧
    (¬ BootsComputing s .checkEvents → ∀ bs u, (∀ b ∈ bs, Spins b) →
      exec (step p) s (.checkEvents :: .tdma .enterBegin :: bs) = some u →
      u.tdma.guest.status = .none ∧
        (tdmaHypercall p u.tdma.time beginMemPhase u.tdma.cpu).2 = .invalid) := by
  constructor
  · intro hc
    exact along_of_inv (fun _ _ _ hi hc ht => inv_step hi (fun _ => hc) ht)
      (fun _ a hi => answered_of_inv hi a) (inv_init True id) hc
  · intro hc bs u hbs hu
    have hb : s.tdma.cpu.state ≠ .blocked :=
      (exec_inv (fun _ _ _ hi ht => inv_step hi False.elim ht) (inv_init False id) h).unblocked
    simp only [BootsComputing, Classical.not_imp] at hc
    obtain ⟨t, ht, hu⟩ := (exec_cons _).mp hu
    obtain ⟨v, hv, hu⟩ := (exec_cons _).mp hu
    simp only [step, hc.1, Option.some.injEq] at ht
    subst ht
    simp only [step, TdmaGuest.step, boot, Option.ite_none_right_eq_some, Option.map_eq_some_iff,
      Option.some.injEq] at hv
    obtain ⟨-, d, ⟨-, rfl⟩, rfl⟩ := hv
    have hstate : s.tdma.cpu.state = .waiting ∨ s.tdma.cpu.state = .memory := by
      have hne := hc.2
      cases hs : s.tdma.cpu.state <;> simp_all
    have hstuck : Stuck u := by
      refine exec_inv_along (C := fun _ a => Spins a)
        (fun _ _ _ hi ha ht => stuck_step hi ha ht) ?_ (along_of_mem (fun b hb _ => hbs b hb) _) hu
      exact ⟨rfl, rfl, hstate⟩
    refine ⟨hstuck.status, ?_⟩
    rw [begin_invalid]
    rcases hstuck.state with hs | hs <;> simp [hs]

/-- The cell is started, ends its memory phase and is parked and started again. -/
def calmRestart : List Action :=
  [.checkEvents, .cellStart 0, .checkEvents, .tdma .enterBegin, .tdma (.loop false),
    .tdma (.loop false), .tdma .enterEnd, .tdma .endHvc, .tdma .endExecutionPhase,
    .cellSetLoadable, .checkEvents, .cellStart 0, .checkEvents, .tdma .enterBegin,
    .tdma (.loop false)]

theorem begins_answered_calmRestart :
    ∃ s, exec (step 62500000) (init 1) calmRestart = some s ∧
      s.tdma.guest.status = .acquired ∧
      Along (step 62500000) (Answered 62500000) (init 1) calmRestart :=
  ⟨_, rfl, rfl, (begins_answered 62500000 1 calmRestart _ rfl).1 (by decide)⟩

/-- The cell is parked within its memory phase and started again. -/
def interruptedRestart : List Action :=
  [.checkEvents, .cellStart 0, .checkEvents, .tdma .enterBegin, .tdma (.loop false),
    .tdma (.loop false), .cellSetLoadable, .checkEvents, .cellStart 0, .checkEvents,
    .tdma .enterBegin]

/-- The second boot asks for a memory phase and is told that the call is invalid. -/
theorem begin_refused :
    ∃ s, exec (step 62500000) (init 1) interruptedRestart = some s ∧
      Begins s (.tdma (.loop false)) ∧
      (tdmaHypercall 62500000 s.tdma.time beginMemPhase s.tdma.cpu).2 = .invalid ∧
      ¬ Along (step 62500000) (Answered 62500000) (init 1)
        (interruptedRestart ++ [.tdma (.loop false)]) := by
  refine ⟨_, rfl, ⟨by decide, rfl, rfl⟩, rfl, fun h => ?_⟩
  exact ((along_append h rfl).1 ⟨by decide, rfl, rfl⟩).1 rfl

end FpMemSched.TdmaRestart
