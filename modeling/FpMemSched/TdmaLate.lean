import FpMemSched.TdmaSafe

/-!
Timer interrupts that are handled late, under TDMA.

The handler computes the next target from the time at which it runs, but the state from the
target it was called for. The two agree exactly where an interrupt for a start is handled in the
slot of the CPU, and one for an end out of it.
-/

namespace FpMemSched.TdmaLate

open FpMemSched.Lib FpMemSched.Lib.Runs FpMemSched.Lib.Slots FpMemSched.Tdma FpMemSched.TdmaSafe
open FpMemSched.TdmaExact
open FpMemSched.Arbiter hiding init

/-! ### Open requests -/

section Run

variable {ι : Type*} [DecidableEq ι]

/-- The system, and which CPUs have made a request that they have not ended. -/
structure Watched (ι : Type*) where
  sys : Sys ι
  asked : ι → Bool

def asks (asked : ι → Bool) : Action ι → ι → Bool
  | .beginPhase c => Function.update asked c true
  | .endPhase c => Function.update asked c false
  | .tick _ | .timer _ => asked

def watch (p : ℕ) (w : Watched ι) (a : Action ι) : Option (Watched ι) :=
  (step p w.sys a).map fun s => ⟨s, asks w.asked a⟩

def start (id : ι → ℕ) : Watched ι := ⟨init id, fun _ => false⟩

/-! ### What the handler leaves -/

/-- At time `t` the CPU is in its memory phase exactly if it has an open request and its slot is
on, and the timer is set to what comes next. -/
structure Settled (p t k : ℕ) (asked : Bool) (c : PerCpu) : Prop where
  memory : c.state = .memory ↔ asked = true ∧ t / p % tdmaNumSlots = k
  stop : c.state = .memory → c.target = .stop
  start : c.state = .waiting → c.target = .start
  ahead : asked = true → t < c.cmp

/-- A handler that runs leaves its CPU so. -/
def Tolerated (p : ℕ) (id : ι → ℕ) (w : Watched ι) : Action ι → Prop
  | .timer c => ∀ w', watch p w (.timer c) = some w' →
      Settled p w'.sys.time (id c - 1) (w'.asked c) (w'.sys.cpu c)
  | _ => True

/-- A timer interrupt for a start is handled in the slot, one for an end out of it. -/
def InSlot (p : ℕ) (id : ι → ℕ) (w : Watched ι) : Action ι → Prop
  | .timer c => (w.sys.cpu c).target = .start ↔ w.sys.time / p % tdmaNumSlots = id c - 1
  | _ => True

instance (p : ℕ) (id : ι → ℕ) (w : Watched ι) : ∀ a, Decidable (InSlot p id w a)
  | .timer c => inferInstanceAs
      (Decidable ((w.sys.cpu c).target = .start ↔ w.sys.time / p % tdmaNumSlots = id c - 1))
  | .tick _ | .beginPhase _ | .endPhase _ => isTrue trivial

/-- The compare value that is set lies ahead. -/
lemma tdmaTimerStart_ahead {p t k : ℕ} {c : PerCpu} (hp : 0 < p)
    (ht : t + p * tdmaNumSlots < 2 ^ 64) (hc : u8 c.slotId = k) (hk : k < tdmaNumSlots) :
    t < (tdmaTimerStart p t c).1.cmp := by
  rw [tdmaTimerStart_eq]
  rw [Nat.mul_comm] at ht
  rcases timerStart_cases hp (by decide) ht hc hk with ⟨-, he⟩ | ⟨hne, he⟩
  · rw [he]
    exact (isLeast_multiple hp).1.1
  · rw [he]
    exact (isLeast_begins hp hk hne).1.1

/-- **One interrupt**: the handler leaves the CPU as it should exactly if it is for a start and
the slot is on, or for an end and the slot is not on. -/
lemma settled_iff {p t k : ℕ} {c : PerCpu} {asked : Bool} (hp : 0 < p)
    (ht : t + p * tdmaNumSlots < 2 ^ 64) (hk : k < tdmaNumSlots) (h : CpuInv p t k c)
    (ha : asked = true ↔ c.state ≠ .computing) (hd : c.due t) :
    Settled p t k asked (tdmaTimerIsr p t c).1 ↔
      (c.target = .start ↔ t / p % tdmaNumSlots = k) := by
  have hahead := tdmaTimerStart_ahead hp ht h.slot hk
  rcases hst : c.state with _ | _ | _ | _
  · simp [PerCpu.due, h.computing hst] at hd
  · obtain ⟨-, htg, -⟩ := h.memory hst
    have hasked : asked = true := ha.mpr (by simp [hst])
    have hisr : (tdmaTimerIsr p t c).1 =
        { (tdmaTimerStart p t c).1 with state := .waiting } := by
      simp [tdmaTimerIsr, htg, hst]
    rw [hisr, htg]
    rcases tdmaTimerStart_cases hp ht h.slot hk with ⟨hon, -⟩ | ⟨hoff, q, he⟩
    · -- the slot has come round again
      refine iff_of_false (fun hs => ?_) (fun hs => ?_)
      · cases hs.memory.mpr ⟨hasked, hon⟩
      · cases hs.mpr hon
    · refine iff_of_true ⟨⟨fun hm => ?_, fun hm => absurd hm.2 hoff⟩, fun hm => ?_, fun _ => ?_,
        fun _ => hahead⟩ ⟨fun hs => ?_, fun hon => absurd hon hoff⟩
      · cases hm
      · cases hm
      · rw [he]
        rfl
      · cases hs
  · obtain ⟨-, htg, -⟩ := h.waiting hst
    have hasked : asked = true := ha.mpr (by simp [hst])
    have hisr : (tdmaTimerIsr p t c).1 =
        { (tdmaTimerStart p t c).1 with state := .memory } := by
      simp [tdmaTimerIsr, htg, hst]
    rw [hisr, htg]
    rcases tdmaTimerStart_cases hp ht h.slot hk with ⟨hon, q, -, he⟩ | ⟨hoff, -⟩
    · refine iff_of_true ⟨⟨fun _ => ⟨hasked, hon⟩, fun _ => rfl⟩, fun _ => ?_, fun hw => ?_,
        fun _ => hahead⟩ ⟨fun _ => hon, fun _ => rfl⟩
      · rw [he]
        rfl
      · cases hw
    · -- the slot is over
      refine iff_of_false (fun hs => ?_) (fun hs => ?_)
      · exact hoff (hs.memory.mp rfl).2
      · exact hoff (hs.mp rfl)
  · exact absurd hst h.unblocked

/-! ### Runs -/

variable {p : ℕ} {id : ι → ℕ} {w w' : Watched ι} {a : Action ι}

/-- The CPUs with open requests are those that do not compute. -/
def Tracked (w : Watched ι) : Prop := ∀ c, w.asked c = true ↔ (w.sys.cpu c).state ≠ .computing

omit [DecidableEq ι] in
lemma tracked_start : Tracked (start id) := by
  intro c
  simp [start, init, tdmaOnCellCreate]

lemma begin_state (p t : ℕ) (c : PerCpu) :
    (tdmaHypercall p t beginMemPhase c).1.state ≠ .computing := by
  unfold tdmaHypercall
  rw [if_pos rfl]
  split_ifs with hs
  · cases h : (tdmaTimerStart p t c).2 <;> simp [h]
  · exact hs

lemma end_state (p t : ℕ) (c : PerCpu) :
    (tdmaHypercall p t endMemPhase c).1.state = .computing := by
  unfold tdmaHypercall
  rw [if_neg (by decide), if_pos rfl]
  split_ifs with hs
  · exact hs
  · rfl

lemma timer_state (p t : ℕ) {c : PerCpu} (h : c.state ≠ .blocked) :
    (tdmaTimerIsr p t c).1.state = .computing ↔ c.state = .computing := by
  unfold tdmaTimerIsr
  cases c.target <;> cases hs : c.state <;> simp_all

lemma tracked_step (h : Tracked w) (hu : ∀ c, (w.sys.cpu c).state ≠ .blocked)
    (hst : watch p w a = some w') : Tracked w' := by
  obtain ⟨s, hs, rfl⟩ := Option.map_eq_some_iff.mp hst
  cases a with
  | tick t' =>
    simp only [step, Option.ite_none_right_eq_some, Option.some.injEq] at hs
    obtain ⟨-, rfl⟩ := hs
    exact h
  | beginPhase c =>
    obtain rfl := Option.some.inj hs
    intro e
    by_cases he : e = c
    · subst he
      simpa [asks, Sys.setCpu] using begin_state p w.sys.time (w.sys.cpu e)
    · simpa [asks, Sys.setCpu, Function.update_of_ne he] using h e
  | endPhase c =>
    obtain rfl := Option.some.inj hs
    intro e
    by_cases he : e = c
    · subst he
      simpa [asks, Sys.setCpu] using end_state p w.sys.time (w.sys.cpu e)
    · simpa [asks, Sys.setCpu, Function.update_of_ne he] using h e
  | timer c =>
    simp only [step, Option.ite_none_right_eq_some, Option.some.injEq] at hs
    obtain ⟨-, rfl⟩ := hs
    intro e
    by_cases he : e = c
    · subst he
      simpa [asks, Sys.setCpu, timer_state p w.sys.time (hu e)] using h e
    · simpa [asks, Sys.setCpu, Function.update_of_ne he] using h e

/-- The interrupts up to now were handled in time. -/
structure Good (p : ℕ) (id : ι → ℕ) (w : Watched ι) : Prop where
  tracked : Tracked w
  cpus : ∀ c, CpuInv p w.sys.time (id c - 1) (w.sys.cpu c)

omit [DecidableEq ι] in
lemma good_start (hid : ∀ c, 1 ≤ id c ∧ id c ≤ tdmaNumSlots) : Good p id (start id) :=
  ⟨tracked_start, fun c => cpuInv_create (hid c).1 (hid c).2⟩

lemma good_step (hp : 0 < p) (hid : ∀ c, 1 ≤ id c ∧ id c ≤ tdmaNumSlots) (h : Good p id w)
    (ht : w.sys.time + p * tdmaNumSlots < 2 ^ 64) (hin : InSlot p id w a)
    (hst : watch p w a = some w') : Good p id w' := by
  refine ⟨tracked_step h.tracked (fun c => (h.cpus c).unblocked) hst, ?_⟩
  have hk : ∀ c, id c - 1 < tdmaNumSlots := fun c => by have := hid c; omega
  obtain ⟨s, hs, rfl⟩ := Option.map_eq_some_iff.mp hst
  cases a with
  | tick t' =>
    simp only [step, Option.ite_none_right_eq_some, Option.some.injEq] at hs
    obtain ⟨hle, rfl⟩ := hs
    exact fun c => (h.cpus c).later hle
  | beginPhase c =>
    obtain rfl := Option.some.inj hs
    exact cpus_setCpu h.cpus (cpuInv_begin hp ht (hk c) (h.cpus c))
  | endPhase c =>
    obtain rfl := Option.some.inj hs
    exact cpus_setCpu h.cpus (cpuInv_end (h.cpus c))
  | timer c =>
    simp only [step, Option.ite_none_right_eq_some, Option.some.injEq] at hs
    obtain ⟨hd, rfl⟩ := hs
    exact cpus_setCpu h.cpus (cpuInv_timer hp ht (hk c) (h.cpus c) hd hin)

lemma watch_time (h : watch p w a = some w') : w.sys.time ≤ w'.sys.time := by
  obtain ⟨s, hs, rfl⟩ := Option.map_eq_some_iff.mp h
  cases a with
  | tick t' =>
    simp only [step, Option.ite_none_right_eq_some, Option.some.injEq] at hs
    obtain ⟨hle, rfl⟩ := hs
    exact hle
  | beginPhase c | endPhase c =>
    obtain rfl := Option.some.inj hs
    exact le_rfl
  | timer c =>
    simp only [step, Option.ite_none_right_eq_some, Option.some.injEq] at hs
    obtain ⟨-, rfl⟩ := hs
    exact le_rfl

/-- Time does not go back: no step of a run is later than its end. -/
lemma along_time {u : Watched ι} {as : List (Action ι)} (h : exec (watch p) w as = some u) :
    w.sys.time ≤ u.sys.time ∧
      Along (watch p) (fun v _ => v.sys.time ≤ u.sys.time) w as := by
  induction as generalizing w with
  | nil =>
    obtain rfl : w = u := by simpa using h
    exact ⟨le_rfl, trivial⟩
  | cons a as ih =>
    obtain ⟨v, hv, h⟩ := (exec_cons _).mp h
    obtain ⟨hle, hal⟩ := ih h
    have hwu := (watch_time hv).trans hle
    exact ⟨hwu, hwu, fun v' hv' => by rw [hv] at hv'; exact Option.some.inj hv' ▸ hal⟩

/-- A handler that runs with the state in order leaves it so exactly if it is called in time. -/
lemma tolerated_step (hp : 0 < p) (hid : ∀ c, 1 ≤ id c ∧ id c ≤ tdmaNumSlots) (h : Good p id w)
    (ht : w.sys.time + p * tdmaNumSlots < 2 ^ 64) (hst : watch p w a = some w') :
    Tolerated p id w a ↔ InSlot p id w a := by
  cases a with
  | tick t' | beginPhase c | endPhase c => exact Iff.rfl
  | timer c =>
    have hk : id c - 1 < tdmaNumSlots := by have := hid c; omega
    obtain ⟨s, hs, rfl⟩ := Option.map_eq_some_iff.mp hst
    simp only [step, Option.ite_none_right_eq_some, Option.some.injEq] at hs
    obtain ⟨hd, rfl⟩ := hs
    refine Iff.trans ?_ (settled_iff hp ht hk (h.cpus c) (h.tracked c) hd)
    simp [Tolerated, hst, Sys.setCpu, asks]

/-- **Late timer interrupts under TDMA**: the handler leaves every CPU with the state of its slot
and the timer ahead of it exactly in the runs where each interrupt for a start is handled in the
slot of the CPU and each one for an end out of it. -/
theorem tolerated_iff_inSlot (p : ℕ) (hp : 0 < p) (id : ι → ℕ)
    (hid : ∀ c, 1 ≤ id c ∧ id c ≤ tdmaNumSlots) (as : List (Action ι)) (u : Watched ι)
    (h : exec (watch p) (start id) as = some u) (hov : u.sys.time + p * tdmaNumSlots < 2 ^ 64) :
    Along (watch p) (Tolerated p id) (start id) as ↔
      Along (watch p) (InSlot p id) (start id) as := by
  refine along_iff_along (I := Good p id) (fun w a w' hw hle hst => ?_) (good_start hid)
    (along_time h).2 h
  have ht : w.sys.time + p * tdmaNumSlots < 2 ^ 64 := by omega
  exact ⟨tolerated_step hp hid hw ht hst, fun hin => good_step hp hid hw ht hin hst⟩

/-- One cell in the first of the slots: its request waits for the next cycle, is notified of the
end and the timer goes on. -/
def inTimeRun : List (Action Unit) :=
  [.tick 12, .beginPhase (), .tick 31, .timer (), .tick 41, .timer ()]

theorem tolerated_iff_inSlot_inTime :
    Along (watch 10) (Tolerated 10 fun _ => 1) (start fun _ : Unit => 1) inTimeRun :=
  (tolerated_iff_inSlot 10 (by decide) (fun _ => 1) (by decide) inTimeRun _ rfl (by decide)).mpr
    (by decide)

/-- The same cell, with the interrupt for the start handled when the slot is over. -/
def lateRun : List (Action Unit) := [.tick 12, .beginPhase (), .tick 45]

theorem late_start_handled :
    ∃ w w', exec (watch 10) (start fun _ : Unit => 1) lateRun = some w ∧
      watch 10 w (.timer ()) = some w' ∧ (w'.sys.cpu ()).state = .memory ∧
        w'.sys.time / 10 % tdmaNumSlots ≠ 0 ∧
      ¬ Tolerated 10 (fun _ => 1) w (.timer ()) := by
  refine ⟨_, _, rfl, rfl, rfl, by decide, fun h => ?_⟩
  have hin := ((h _ rfl).memory.mp rfl).2
  exact absurd hin (by decide)

end Run

end FpMemSched.TdmaLate
