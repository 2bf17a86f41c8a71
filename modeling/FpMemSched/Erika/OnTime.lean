import FpMemSched.Erika.TickCount
import FpMemSched.Erika.SchedTable

/-!
Schedule tables process their expiry points on time.

The timetable counts the ticks and knows, for each table that runs, when it was to begin and
which point of which round is next. A point is processed at its offset after the begin of its
round and at no other time, in order; and the time does not go on before all points that are due
have been processed. The kernel keeps this timetable as long as no sum of a start value and an
offset passes the end of the counter, for it does not reduce them, unless the counter has the
whole range of its type.
-/

namespace FpMemSched.Erika.OnTime

open FpMemSched.Lib.Runs FpMemSched.Lib.Linked FpMemSched.Lib.Circular
open FpMemSched.Erika.Alarm hiding Step init step
open FpMemSched.Erika.Countdown FpMemSched.Erika.AlarmsAgree FpMemSched.Erika.TickCount
open FpMemSched.Erika.SchedTable

variable {w : ℕ} {α : Type} [DecidableEq α] [Fintype α]

/-! ### The timetable -/

/-- The next point of a table: in which round since which begin. -/
structure Plan where
  begun : ℕ
  round : ℕ
  position : ℕ
  deriving DecidableEq

def roundStart (t : SchedTabDb w) (p : Plan) : ℕ := p.begun + p.round * t.duration.toNat

/-- When the point is to be processed. -/
def time (t : SchedTabDb w) (p : Plan) : ℕ := roundStart t p + (t.offset p.position).toNat

/-- The point after this one. -/
def following (t : SchedTabDb w) (p : Plan) : Option Plan :=
  if p.position + 1 < t.expiryPoints.length then some { p with position := p.position + 1 }
  else if t.repeated then some ⟨p.begun, p.round + 1, 0⟩
  else none

structure Timetable (α : Type) where
  now : ℕ
  plan : α → Option Plan

def Timetable.init : Timetable α := ⟨0, fun _ => none⟩

inductive Event (α : Type)
  | started (a : α) (delay : ℕ)
  | tick
  | point (a : α) (position : ℕ)
  deriving DecidableEq

def Timetable.step (σ : α → SchedTabDb w) (T : Timetable α) : Event α → Option (Timetable α)
  | .started a delay =>
    if T.plan a = none then
      some { T with plan := Function.update T.plan a (some ⟨T.now + delay, 0, 0⟩) }
    else none
  | .tick =>
    if ∀ a, ∀ p ∈ T.plan a, T.now < time (σ a) p then some { T with now := T.now + 1 } else none
  | .point a i =>
    match T.plan a with
    | none => none
    | some p =>
      if p.position = i ∧ T.now = time (σ a) p then
        some { T with plan := Function.update T.plan a (following (σ a) p) }
      else none

/-- What the steps of the kernel show of the tables. The delay of an absolute start is the
number of ticks until the counter is at the start. -/
def shows (db : CounterDb w) (σ : α → SchedTabDb w) (s : Tables w α) :
    Step w α → List (Event α)
  | .startRel a offset =>
    if (startScheduleTableRel db σ a offset s).any fun r => r.2 = .eOk then
      [.started a offset.toNat]
    else []
  | .startAbs a start =>
    if (startScheduleTableAbs db σ a start s).any fun r => r.2 = .eOk then
      [.started a (dist db.maxallowedvalue.toNat s.counter.value.toNat start.toNat + 1)]
    else []
  | .increment => if (s.counter.prescale db).2 then [.tick] else []
  | .handle _ => []
  | .point =>
    match s.counter.handled with
    | none => []
    | some a =>
      match s.position a with
      | none => []
      | some i => if s.counter.status a = .expired then [.point a i] else []
  | .handled => []

/-! ### Conditions -/

/-- A table whose points are in order, within its duration. -/
structure Valid (db : CounterDb w) (t : SchedTabDb w) : Prop where
  nonempty : 0 < t.expiryPoints.length
  increasing : ∀ i < t.expiryPoints.length - 1, (t.offset i).toNat ≤ (t.offset (i + 1)).toNat
  within : ∀ i < t.expiryPoints.length, (t.offset i).toNat ≤ t.duration.toNat
  duration_le : t.duration.toNat ≤ db.maxallowedvalue.toNat

instance (db : CounterDb w) (t : SchedTabDb w) : Decidable (Valid db t) :=
  decidable_of_iff (0 < t.expiryPoints.length ∧
      (∀ i < t.expiryPoints.length - 1, (t.offset i).toNat ≤ (t.offset (i + 1)).toNat) ∧
      (∀ i < t.expiryPoints.length, (t.offset i).toNat ≤ t.duration.toNat) ∧
      t.duration.toNat ≤ db.maxallowedvalue.toNat)
    ⟨fun ⟨h₁, h₂, h₃, h₄⟩ => ⟨h₁, h₂, h₃, h₄⟩,
      fun h => ⟨h.nonempty, h.increasing, h.within, h.duration_le⟩⟩

/-- The sum stays on the counter, or the counter has the whole range of its type. -/
def Reaches (db : CounterDb w) (x y : BitVec w) : Prop :=
  x.toNat + y.toNat ≤ db.maxallowedvalue.toNat ∨ db.maxallowedvalue.toNat + 1 = 2 ^ w

instance (db : CounterDb w) (x y : BitVec w) : Decidable (Reaches db x y) :=
  inferInstanceAs (Decidable (_ ∨ _))

/-- The sums that the step forms, for a trigger that it puts in the queue, are all right, and
the first expiry point is less than a whole round of the counter away. -/
def InReach (db : CounterDb w) (σ : α → SchedTabDb w) (s : Tables w α) :
    Step w α → Prop
  | .startRel a offset =>
    (σ a).syncStrategy ≠ SynchStrategy.implicit → offset ≤ db.maxallowedvalue →
      s.stStatus a = .stopped →
      offset.toNat + ((σ a).offset 0).toNat ≤ db.maxallowedvalue.toNat ∨
        db.maxallowedvalue.toNat + 1 = 2 ^ w ∧
          offset.toNat + ((σ a).offset 0).toNat = db.maxallowedvalue.toNat + 1
  | .startAbs a start =>
    start ≤ db.maxallowedvalue → s.stStatus a = .stopped →
      Reaches db start ((σ a).offset 0) ∧
        dist db.maxallowedvalue.toNat s.counter.value.toNat start.toNat +
          ((σ a).offset 0).toNat ≤ db.maxallowedvalue.toNat
  | .increment | .handle _ => True
  | .point => ∀ a ∈ s.counter.handled, s.position a = none →
      Reaches db s.counter.value ((σ a).offset 0)
  | .handled => ∀ a ∈ s.counter.handled, ∀ i ∈ s.acting,
      (i + 1 < (σ a).expiryPoints.length → (σ a).offset i < (σ a).offset (i + 1) →
        Reaches db (s.start a) ((σ a).offset (i + 1))) ∧
      (i + 1 = (σ a).expiryPoints.length → (σ a).repeated = true →
        (σ a).offset i < (σ a).duration → Reaches db (s.start a) (σ a).duration)

instance (db : CounterDb w) (σ : α → SchedTabDb w) (s : Tables w α) :
    ∀ y, Decidable (InReach db σ s y)
  | .startRel .. => inferInstanceAs (Decidable (_ → _ → _ → _ ∨ _))
  | .startAbs .. => inferInstanceAs (Decidable (_ → _ → _ ∧ _))
  | .increment | .handle _ => isTrue trivial
  | .point => inferInstanceAs (Decidable (∀ a ∈ s.counter.handled, _))
  | .handled => inferInstanceAs (Decidable (∀ a ∈ s.counter.handled, ∀ i ∈ s.acting, _))

/-! ### Starts -/

/-- What a start does: the table is to begin after `delay` ticks. -/
structure Begun (db : CounterDb w) (t : SchedTabDb w) (a : α) (now delay : ℕ)
    (s s' : Tables w α) : Prop where
  clocked : Clocked db s'.counter now
  handled : s'.counter.handled = s.counter.handled
  acting : s'.acting = s.acting
  count : count db s'.counter =
    Function.update (count db s.counter) a (some (delay + (t.offset 0).toNat))
  nextTable : s'.nextTable = Function.update s.nextTable a none
  position : s'.position = Function.update s.position a (some 0)
  stStatus : ∃ x : StStatus, x.isRunning ∧ s'.stStatus = Function.update s.stStatus a x
  start : ∃ x : BitVec w, x.toNat = (now + delay) % (db.maxallowedvalue.toNat + 1) ∧
    s'.start = Function.update s.start a x

section Begun

variable {db : CounterDb w} {σ : α → SchedTabDb w} {s : Tables w α} {a : α} {now : ℕ}

omit [DecidableEq α] [Fintype α] in
lemma toNat_add_of_reaches {x y : BitVec w} (h : Reaches db x y) :
    (x + y).toNat = (x.toNat + y.toNat) % (db.maxallowedvalue.toNat + 1) := by
  have hM := db.maxallowedvalue.isLt
  rcases h with h | h
  · rw [BitVec.toNat_add_of_lt (by omega), Nat.mod_eq_of_lt (by omega)]
  · rw [BitVec.toNat_add, h]

/-- A table that is off is started. -/
lemma begun_insert {new start : BitVec w} {x : StStatus} {delay : ℕ}
    (hk : Clocked db s.counter now) (hoff : count db s.counter a = none) (hx : x.isRunning)
    (hdelay : 0 < delay)
    (hle : delay + ((σ a).offset 0).toNat ≤ db.maxallowedvalue.toNat + 1)
    (hstart : start.toNat = (now + delay) % (db.maxallowedvalue.toNat + 1))
    (hnew : new.toNat =
      (now + (delay + ((σ a).offset 0).toNat)) % (db.maxallowedvalue.toNat + 1)) :
    ∃ c', counterInsertAbsTrigger a new { s.counter with
        status := Function.update s.counter.status a .active } = some c' ∧
      Begun db (σ a) a now delay s { s with
        counter := c'
        nextTable := Function.update s.nextTable a none
        position := Function.update s.position a (some 0)
        stStatus := Function.update s.stStatus a x
        start := Function.update s.start a start } := by
  obtain ⟨c', heq, hsh, hclocked, hcount⟩ := clocked_insert (d := delay + ((σ a).offset 0).toNat)
    hk (by omega) hle hnew (Or.inl ⟨rfl, hoff⟩)
  rw [← hsh] at hclocked
  exact ⟨c', heq, hclocked, hsh, rfl, hcount, rfl, rfl, ⟨x, hx, rfl⟩, start, hstart, rfl⟩

/-- A relative start fails and changes nothing, or the table is to begin. -/
lemma startRel_begun {offset : BitVec w} (hk : Clocked db s.counter now)
    (hoff : s.stStatus a = .stopped → count db s.counter a = none)
    (hr : InReach db σ s (.startRel a offset)) :
    (∃ x, startScheduleTableRel db σ a offset s = some (s, x) ∧ x ≠ .eOk) ∨
      s.stStatus a = .stopped ∧ ∃ s', startScheduleTableRel db σ a offset s = some (s', .eOk) ∧
        Begun db (σ a) a now offset.toNat s s' := by
  unfold startScheduleTableRel
  by_cases hsync : (σ a).syncStrategy = SynchStrategy.implicit
  · rw [if_pos hsync]
    exact Or.inl ⟨_, rfl, by simp⟩
  rw [if_neg hsync]
  by_cases hval : offset = 0 ∨ db.maxallowedvalue < offset
  · rw [if_pos hval]
    exact Or.inl ⟨_, rfl, by simp⟩
  rw [if_neg hval]
  by_cases hst : s.stStatus a = .stopped
  · rw [not_or] at hval
    have hle : offset ≤ db.maxallowedvalue := BitVec.not_lt.mp hval.2
    have hpos : 0 < offset.toNat := by
      rw [Nat.pos_iff_ne_zero]
      exact fun h0 => hval.1 (BitVec.eq_of_toNat_eq h0)
    have hreach := hr hsync hle hst
    obtain ⟨q, e, hg⟩ := hk.good
    have hstart : (counterEvalWhen db offset s.counter).toNat =
        (now + offset.toNat) % (db.maxallowedvalue.toNat + 1) := by
      rw [toNat_counterEvalWhen hg.value_le hle, hk.clock, ahead_mod hle]
    obtain ⟨c', heq, hb⟩ := begun_insert (σ := σ) (x := .running) hk (hoff hst) rfl hpos
      (by omega) hstart (toNat_evalWhen_sum hk.clock hreach)
    rw [if_neg (not_not.mpr hst)]
    unfold stStartRel counterInsertRelTrigger
    rw [(hk.inactive (hoff hst)).1]
    dsimp only
    rw [show counterEvalWhen db (offset + (σ a).offset 0) { s.counter with
      status := Function.update s.counter.status a .active } =
        counterEvalWhen db (offset + (σ a).offset 0) s.counter from rfl, heq]
    exact Or.inr ⟨hst, _, rfl, hb⟩
  · rw [if_pos hst]
    exact Or.inl ⟨_, rfl, by simp⟩

/-- An absolute start fails and changes nothing, or the table is to begin. -/
lemma startAbs_begun {start : BitVec w} (hk : Clocked db s.counter now)
    (hoff : s.stStatus a = .stopped → count db s.counter a = none)
    (hr : InReach db σ s (.startAbs a start)) :
    (∃ x, startScheduleTableAbs db σ a start s = some (s, x) ∧ x ≠ .eOk) ∨
      s.stStatus a = .stopped ∧ ∃ s', startScheduleTableAbs db σ a start s = some (s', .eOk) ∧
        Begun db (σ a) a now
          (dist db.maxallowedvalue.toNat s.counter.value.toNat start.toNat + 1) s s' := by
  unfold startScheduleTableAbs
  by_cases hval : db.maxallowedvalue < start
  · rw [if_pos hval]
    exact Or.inl ⟨_, rfl, by simp⟩
  rw [if_neg hval]
  by_cases hst : s.stStatus a = .stopped
  · have hle : start ≤ db.maxallowedvalue := BitVec.not_lt.mp hval
    obtain ⟨hreach, hround⟩ := hr hle hst
    have hx : StStatus.isRunning (if (σ a).syncStrategy = SynchStrategy.implicit then
        .runningAndSynchronous else .running) := by
      split_ifs <;> rfl
    have hstart : (now + (dist db.maxallowedvalue.toNat s.counter.value.toNat start.toNat + 1))
        % (db.maxallowedvalue.toNat + 1) = start.toNat := by
      rw [hk.clock]
      exact mod_dist hle
    have hnew : (start + (σ a).offset 0).toNat = (now +
        (dist db.maxallowedvalue.toNat s.counter.value.toNat start.toNat + 1 +
          ((σ a).offset 0).toNat)) % (db.maxallowedvalue.toNat + 1) := by
      rw [toNat_add_of_reaches hreach, ← Nat.add_assoc, ← Nat.mod_add_mod (now + _), hstart]
    obtain ⟨c', heq, hb⟩ := begun_insert hk (hoff hst) hx (Nat.succ_pos _)
      (by omega) hstart.symm hnew
    rw [if_neg (not_not.mpr hst)]
    unfold stStartAbs
    rw [(hk.inactive (hoff hst)).1]
    dsimp only
    rw [heq]
    exact Or.inr ⟨hst, _, rfl, hb⟩
  · rw [if_pos hst]
    exact Or.inl ⟨_, rfl, by simp⟩

end Begun

/-! ### The invariant -/

/-- The table waits `d` ticks for its next point, or for the end of its round. -/
def Waits (db : CounterDb w) (t : SchedTabDb w) (now d : ℕ) (position : Option ℕ)
    (start : BitVec w) (plan : Option Plan) : Prop :=
  ∃ p, plan = some p ∧ p.position < t.expiryPoints.length ∧
    (position = some p.position ∧ now + d = time t p ∧
        start.toNat = roundStart t p % (db.maxallowedvalue.toNat + 1) ∨
      position = none ∧ p.position = 0 ∧ now + d = roundStart t p)

/-- The actions of this point run. -/
def Acts (db : CounterDb w) (t : SchedTabDb w) (now i : ℕ) (start : BitVec w)
    (plan : Option Plan) : Prop :=
  ∃ p, p.position = i ∧ i < t.expiryPoints.length ∧ now = time t p ∧
    start.toNat = roundStart t p % (db.maxallowedvalue.toNat + 1) ∧ plan = following t p

structure Kept (db : CounterDb w) (σ : α → SchedTabDb w) (s : Tables w α) (T : Timetable α) :
    Prop where
  good : ∃ q e, Good db s.counter q e
  clock : s.counter.value.toNat = T.now % (db.maxallowedvalue.toNat + 1)
  next : ∀ a, s.nextTable a = none
  status : ∀ a, s.stStatus a = .stopped ↔ count db s.counter a = none
  off : ∀ a, count db s.counter a = none → T.plan a = none
  waits : ∀ a d, count db s.counter a = some d →
    (∀ i, s.counter.handled = some a → s.acting ≠ some i) →
    Waits db (σ a) T.now d (s.position a) (s.start a) (T.plan a)
  acts : ∀ a i, s.counter.handled = some a → s.acting = some i →
    Acts db (σ a) T.now i (s.start a) (T.plan a)
  idle : s.counter.handled = none → s.acting = none

variable {db : CounterDb w} {σ : α → SchedTabDb w} {s s₁ : Tables w α} {T T' : Timetable α}
variable {a : α} {d : ℕ}

omit [DecidableEq α] [Fintype α] in
lemma Kept.clocked (hk : Kept db σ s T) : Clocked db s.counter T.now := ⟨hk.good, hk.clock⟩

omit [Fintype α] in
/-- **A trigger is put in the queue** for the time that the timetable has. -/
lemma kept_set {s' : Tables w α} (hk : Kept db σ s T) (hclocked : Clocked db s'.counter T.now)
    (hcount : count db s'.counter = Function.update (count db s.counter) a (some d))
    (ho : s'.counter.handled = s.counter.handled ∧ s.counter.handled ≠ some a ∧
        s'.acting = s.acting ∨
      s'.counter.handled = none ∧ s.counter.handled = some a ∧ s'.acting = none)
    (hsame : ∀ b, b ≠ a → s'.position b = s.position b ∧ s'.start b = s.start b ∧
      s'.nextTable b = s.nextTable b ∧ s'.stStatus b = s.stStatus b ∧ T'.plan b = T.plan b)
    (hnow : T'.now = T.now) (hnext : s'.nextTable a = none) (hst : s'.stStatus a ≠ .stopped)
    (hw : Waits db (σ a) T.now d (s'.position a) (s'.start a) (T'.plan a)) :
    Kept db σ s' T' := by
  have hself : count db s'.counter a = some d := by rw [hcount, Function.update_self]
  have hother : ∀ b, b ≠ a → count db s'.counter b = count db s.counter b := by
    intro b hb
    rw [hcount, Function.update_of_ne hb]
  refine ⟨hclocked.good, ?_, fun b => ?_, fun b => ?_, fun b hb => ?_,
    fun b d' hb hi => ?_, fun b i hb hi => ?_, fun hh => ?_⟩
  · rw [hnow]
    exact hclocked.clock
  · by_cases hb : b = a
    · rw [hb]
      exact hnext
    · exact (hsame b hb).2.2.1.trans (hk.next b)
  · by_cases hb : b = a
    · rw [hb]
      simp [hself, hst]
    · rw [hother b hb, (hsame b hb).2.2.2.1]
      exact hk.status b
  · by_cases hba : b = a
    · rw [hba, hself] at hb
      cases hb
    · rw [hother b hba] at hb
      rw [(hsame b hba).2.2.2.2]
      exact hk.off b hb
  · by_cases hba : b = a
    · subst hba
      obtain rfl : d = d' := Option.some.inj (hself.symm.trans hb)
      rw [hnow]
      exact hw
    · obtain ⟨hpos, hstart, -, -, hplan⟩ := hsame b hba
      rw [hother b hba] at hb
      rw [hnow, hpos, hstart, hplan]
      refine hk.waits b d' hb fun i hh => ?_
      rcases ho with ⟨hhan, -, hact⟩ | ⟨-, h, -⟩
      · rw [← hact]
        exact hi i (hhan.trans hh)
      · exact absurd (Option.some.inj (h.symm.trans hh)).symm hba
  · rcases ho with ⟨hhan, hne, hact⟩ | ⟨hhan, -, -⟩
    · rw [hhan] at hb
      have hba : b ≠ a := by
        rintro rfl
        exact hne hb
      obtain ⟨-, hstart, -, -, hplan⟩ := hsame b hba
      rw [hnow, hstart, hplan]
      exact hk.acts b i hb (hact.symm.trans hi)
    · rw [hhan] at hb
      cases hb
  · rcases ho with ⟨hhan, -, hact⟩ | ⟨-, -, hact⟩
    · exact hact.trans (hk.idle (hhan.symm.trans hh))
    · exact hact

/-- A table that is off is started. -/
lemma kept_begun {s' : Tables w α} {delay : ℕ} (hk : Kept db σ s T) (hv : Valid db (σ a))
    (hst : s.stStatus a = .stopped) (hb : Begun db (σ a) a T.now delay s s') :
    ∃ T', T.step σ (.started a delay) = some T' ∧ Kept db σ s' T' := by
  have hoff : count db s.counter a = none := (hk.status a).mp hst
  obtain ⟨x, hx, hstatus⟩ := hb.stStatus
  obtain ⟨y, hy, hstart⟩ := hb.start
  refine ⟨_, if_pos (hk.off a hoff), kept_set (a := a) hk hb.clocked hb.count
    (Or.inl ⟨hb.handled, (hk.clocked.inactive hoff).2, hb.acting⟩) (fun b hba => ?_) rfl ?_ ?_ ?_⟩
  · rw [hb.position, hb.nextTable, hstatus, hstart]
    simp [Function.update_of_ne hba]
  · rw [hb.nextTable, Function.update_self]
  · rw [hstatus, Function.update_self]
    rintro rfl
    cases hx
  · dsimp only
    rw [hb.position, hstart, Function.update_self, Function.update_self, Function.update_self]
    refine ⟨_, rfl, hv.nonempty, Or.inl ⟨rfl, ?_, ?_⟩⟩
    · simp only [time, roundStart]
      omega
    · simpa [roundStart] using hy

lemma kept_startRel {offset : BitVec w} (hk : Kept db σ s T) (hv : Valid db (σ a))
    (hr : InReach db σ s (.startRel a offset)) :
    ∃ s', step db σ s (.startRel a offset) = some s' ∧
      ∃ T', exec (Timetable.step σ) T (shows db σ s (.startRel a offset)) = some T' ∧
        Kept db σ s' T' := by
  dsimp only [step, shows]
  rcases startRel_begun hk.clocked (hk.status a).mp hr with ⟨x, heq, hx⟩ | ⟨hst, s', heq, hb⟩
  · rw [heq]
    exact ⟨s, rfl, T, by simp [hx], hk⟩
  · rw [heq]
    obtain ⟨T', hT, hk'⟩ := kept_begun hk hv hst hb
    exact ⟨s', rfl, T', by simpa [exec_singleton] using hT, hk'⟩

lemma kept_startAbs {start : BitVec w} (hk : Kept db σ s T) (hv : Valid db (σ a))
    (hr : InReach db σ s (.startAbs a start)) :
    ∃ s', step db σ s (.startAbs a start) = some s' ∧
      ∃ T', exec (Timetable.step σ) T (shows db σ s (.startAbs a start)) = some T' ∧
        Kept db σ s' T' := by
  dsimp only [step, shows]
  rcases startAbs_begun hk.clocked (hk.status a).mp hr with ⟨x, heq, hx⟩ | ⟨hst, s', heq, hb⟩
  · rw [heq]
    exact ⟨s, rfl, T, by simp [hx], hk⟩
  · rw [heq]
    obtain ⟨T', hT, hk'⟩ := kept_begun hk hv hst hb
    exact ⟨s', rfl, T', by simpa [exec_singleton] using hT, hk'⟩

/-! ### Ticks -/

lemma Waits.tick {t : SchedTabDb w} {now : ℕ} {position : Option ℕ} {start : BitVec w}
    {plan : Option Plan} (h : Waits db t now (d + 1) position start plan) :
    Waits db t (now + 1) d position start plan := by
  obtain ⟨p, hp, hlt, h⟩ := h
  refine ⟨p, hp, hlt, ?_⟩
  rcases h with ⟨hpos, hd, hs⟩ | ⟨hpos, h0, hd⟩
  · exact Or.inl ⟨hpos, by omega, hs⟩
  · exact Or.inr ⟨hpos, h0, by omega⟩

lemma Waits.lt_time {t : SchedTabDb w} {now : ℕ} {position : Option ℕ} {start : BitVec w}
    {p : Plan} (h : Waits db t now d position start (some p)) (hd : 0 < d) :
    now < time t p := by
  obtain ⟨p', hp, -, h⟩ := h
  obtain rfl := Option.some.inj hp
  unfold time at *
  rcases h with ⟨-, hd', -⟩ | ⟨-, -, hd'⟩ <;> omega

lemma kept_increment {s' : Tables w α} (hk : Kept db σ s T)
    (hs : step db σ s .increment = some s') :
    ∃ T', exec (Timetable.step σ) T (shows db σ s .increment) = some T' ∧ Kept db σ s' T' := by
  dsimp only [step] at hs
  split_ifs at hs with hquiet
  obtain ⟨c', heq, hcases⟩ := clocked_increment hk.clocked hquiet
  rw [heq] at hs
  obtain rfl := Option.some.inj hs
  have hact : s.acting = none := hk.idle hquiet.2
  have hrow : ∀ b d, count db s.counter b = some d →
      Waits db (σ b) T.now d (s.position b) (s.start b) (T.plan b) := by
    intro b d hb
    exact hk.waits b d hb fun i _ => by simp [hact]
  dsimp only [shows]
  rcases hcases with ⟨hp, hclocked, hpos, hcount⟩ | ⟨hp, hclocked, hcount⟩
  · have hfree : ∀ b, ∀ p ∈ T.plan b, T.now < time (σ b) p := by
      intro b p hb
      rcases hc : count db s.counter b with _ | d
      · rw [hk.off b hc] at hb
        cases hb
      · have hw := hrow b d hc
        rw [hb] at hw
        exact hw.lt_time (hpos b d hc)
    refine ⟨{ T with now := T.now + 1 }, ?_, hclocked.good, hclocked.clock, hk.next, fun b => ?_,
      fun b hb => ?_, fun b d hb _ => ?_, fun b i _ hi => ?_, fun _ => hact⟩
    · rw [hp, if_pos rfl, exec_singleton]
      exact if_pos hfree
    · dsimp only
      rw [hcount]
      simpa using hk.status b
    · dsimp only at hb
      rw [hcount] at hb
      exact hk.off b (by simpa using hb)
    · dsimp only at hb
      rw [hcount] at hb
      obtain ⟨d', hd', rfl⟩ := Option.map_eq_some_iff.mp hb
      have hpos := hpos b d' hd'
      have hw := hrow b d' hd'
      rw [show d' = d' - 1 + 1 by omega] at hw
      exact hw.tick
    · rw [hact] at hi
      cases hi
  · refine ⟨T, ?_, hclocked.good, hclocked.clock, hk.next, fun b => ?_,
      fun b hb => ?_, fun b d hb _ => ?_, fun b i _ hi => ?_, fun _ => hact⟩
    · rw [hp]
      rfl
    · dsimp only
      rw [hcount]
      exact hk.status b
    · exact hk.off b (hcount ▸ hb)
    · exact hrow b d (hcount ▸ hb)
    · rw [hact] at hi
      cases hi

/-! ### Expiry points -/

lemma kept_handle {s' : Tables w α} (hk : Kept db σ s T)
    (hs : step db σ s (.handle a) = some s') : Kept db σ s' T := by
  dsimp only [step] at hs
  split_ifs at hs with ht
  obtain rfl := Option.some.inj hs
  have hclocked := clocked_handle hk.clocked ht.1 ht.2
  have hact : s.acting = none := hk.idle ht.2
  refine ⟨hclocked.good, hk.clock, hk.next, hk.status, hk.off, fun b d hb _ => ?_,
    fun b i _ hi => ?_, fun _ => hact⟩
  · exact hk.waits b d hb fun i _ => by simp [hact]
  · rw [hact] at hi
    cases hi

omit [Fintype α] in
/-- The handler of the table goes on without putting its trigger back. -/
lemma kept_stay (hk : Kept db σ s T) (hh : s.counter.handled = some a)
    {position : Option ℕ} {start : BitVec w}
    (hw : Waits db (σ a) T.now 0 position start (T.plan a)) :
    Kept db σ { s with
      position := Function.update s.position a position
      start := Function.update s.start a start
      acting := none } T := by
  have hzero := (hk.clocked.expired hh).2
  refine ⟨hk.good, hk.clock, hk.next, hk.status, hk.off, fun b d hb _ => ?_,
    fun b i _ hi => ?_, fun _ => rfl⟩
  · dsimp only at hb ⊢
    by_cases hba : b = a
    · subst hba
      obtain rfl : 0 = d := Option.some.inj (hzero.symm.trans hb)
      simpa using hw
    · rw [Function.update_of_ne hba, Function.update_of_ne hba]
      refine hk.waits b d hb fun i hh' => ?_
      exact absurd (Option.some.inj (hh.symm.trans hh')).symm hba
  · cases hi

/-- The trigger of the table is put back. -/
lemma kept_reinsert (hk : Kept db σ s T) (hh : s.counter.handled = some a)
    {position : Option ℕ} {start new : BitVec w} (hd : 0 < d)
    (hd' : d ≤ db.maxallowedvalue.toNat)
    (hnew : new.toNat = (T.now + d) % (db.maxallowedvalue.toNat + 1))
    (hw : Waits db (σ a) T.now d position start (T.plan a)) :
    ∃ s', reinsert a new { s with
        position := Function.update s.position a position
        start := Function.update s.start a start
        acting := none } = some s' ∧ Kept db σ s' T := by
  have hzero := (hk.clocked.expired hh).2
  have hrun : s.stStatus a ≠ .stopped := by
    rw [Ne, hk.status a, hzero]
    simp
  obtain ⟨c', heq, -, hclocked, hcount⟩ := clocked_insert (o := none) hk.clocked hd (by omega)
    hnew (Or.inr ⟨rfl, hh⟩)
  have hk' : Kept db σ { s with
      position := Function.update s.position a position
      start := Function.update s.start a start
      acting := none
      counter := { c' with handled := none } } T :=
    kept_set (a := a) hk hclocked hcount (Or.inr ⟨rfl, hh, rfl⟩)
      (fun b hb => by simp [Function.update_of_ne hb]) rfl (hk.next a) hrun (by simpa using hw)
  refine ⟨_, ?_, hk'⟩
  unfold reinsert
  rw [heq]
  rfl

lemma kept_point (hk : Kept db σ s T) (hv : ∀ a, Valid db (σ a))
    (hr : InReach db σ s .point) (hh : s.counter.handled = some a) (hact : s.acting = none) :
    ∃ s', step db σ s .point = some s' ∧
      ∃ T', exec (Timetable.step σ) T (shows db σ s .point) = some T' ∧ Kept db σ s' T' := by
  obtain ⟨hexp, hzero⟩ := hk.clocked.expired hh
  obtain ⟨p, hp, hlt, hw⟩ := hk.waits a 0 hzero fun i _ => by simp [hact]
  dsimp only [step]
  rw [hh, hact]
  dsimp only
  unfold handleStExpiryPoint
  rw [if_pos hexp]
  rcases hw with ⟨hpos, hnow, hstart⟩ | ⟨hpos, h0, hnow⟩
  · -- the point is processed
    rw [hpos]
    refine ⟨_, rfl, { T with plan := Function.update T.plan a (following (σ a) p) }, ?_, hk.good,
      hk.clock, hk.next, hk.status, fun b hb => ?_, fun b d hb hi => ?_, fun b i hb hi => ?_,
      fun hb => ?_⟩
    · dsimp only [shows]
      rw [hh]
      dsimp only
      rw [hpos]
      dsimp only
      rw [if_pos hexp, exec_singleton]
      dsimp only [Timetable.step]
      rw [hp]
      exact if_pos ⟨rfl, hnow⟩
    · dsimp only at hb ⊢
      have hba : b ≠ a := by
        rintro rfl
        rw [hzero] at hb
        cases hb
      rw [Function.update_of_ne hba]
      exact hk.off b hb
    · dsimp only at hb hi ⊢
      have hba : b ≠ a := by
        rintro rfl
        exact hi _ hh rfl
      rw [Function.update_of_ne hba]
      exact hk.waits b d hb fun i _ => by simp [hact]
    · obtain rfl : a = b := Option.some.inj (hh.symm.trans hb)
      obtain rfl : p.position = i := Option.some.inj hi
      dsimp only
      rw [Function.update_self]
      exact ⟨p, rfl, hlt, hnow, hstart, rfl⟩
    · rw [show s.counter.handled = none from hb] at hh
      cases hh
  · -- a round begins
    have hshow : shows db σ s .point = [] := by
      dsimp only [shows]
      rw [hh]
      dsimp only
      rw [hpos]
    rw [hshow, hpos, hk.next a]
    dsimp only
    have hreach : Reaches db s.counter.value ((σ a).offset 0) := hr a hh hpos
    have hle : ((σ a).offset 0).toNat ≤ db.maxallowedvalue.toNat :=
      ((hv a).within 0 (hv a).nonempty).trans (hv a).duration_le
    have hw : Waits db (σ a) T.now ((σ a).offset 0).toNat (some 0) s.counter.value
        (T.plan a) := by
      refine ⟨p, hp, hlt, Or.inl ⟨by rw [h0], ?_, ?_⟩⟩
      · rw [time, h0, ← hnow]
        rfl
      · rw [← hnow]
        exact hk.clock
    by_cases hpos0 : 0 < (σ a).offset 0
    · rw [if_pos hpos0, Function.update_self]
      have hnew : (s.counter.value + (σ a).offset 0).toNat =
          (T.now + ((σ a).offset 0).toNat) % (db.maxallowedvalue.toNat + 1) := by
        rw [toNat_add_of_reaches hreach, hk.clock, Nat.mod_add_mod]
      obtain ⟨s', heq, hk'⟩ := kept_reinsert hk hh hpos0 hle hnew hw
      rw [← hact] at heq
      exact ⟨s', heq, T, rfl, hk'⟩
    · have hoff : ((σ a).offset 0).toNat = 0 := Nat.eq_zero_of_not_pos hpos0
      rw [hoff] at hw
      have hk' := kept_stay hk hh hw
      rw [← hact] at hk'
      rw [if_neg hpos0]
      exact ⟨_, rfl, T, rfl, hk'⟩

omit [Fintype α] in
/-- The table is off after its last point. -/
lemma kept_over (hk : Kept db σ s T) (hh : s.counter.handled = some a)
    (hp : T.plan a = none) :
    Kept db σ { s with
      stStatus := Function.update s.stStatus a .stopped
      counter := { s.counter with
        status := Function.update s.counter.status a .inactive
        handled := none }
      acting := none } T := by
  obtain ⟨hclocked, hcount⟩ := clocked_off hk.clocked hh
  have hself := congrFun hcount a
  rw [Function.update_self] at hself
  have hother : ∀ b, b ≠ a → count db { s.counter with
      status := Function.update s.counter.status a .inactive, handled := none } b =
        count db s.counter b := by
    intro b hb
    rw [hcount, Function.update_of_ne hb]
  refine ⟨hclocked.good, hk.clock, hk.next, fun b => ?_, fun b hb => ?_, fun b d hb _ => ?_,
    fun b i hb _ => ?_, fun _ => rfl⟩
  · by_cases hba : b = a
    · subst hba
      simp [hself]
    · dsimp only
      rw [Function.update_of_ne hba, hother b hba]
      exact hk.status b
  · by_cases hba : b = a
    · rw [hba]
      exact hp
    · exact hk.off b (hother b hba ▸ hb)
  · have hba : b ≠ a := by
      rintro rfl
      rw [hself] at hb
      cases hb
    refine hk.waits b d (hother b hba ▸ hb) fun i hh' => ?_
    exact absurd (Option.some.inj (hh.symm.trans hh')).symm hba
  · cases hb

lemma kept_handled {i : ℕ} (hk : Kept db σ s T) (hv : ∀ a, Valid db (σ a))
    (hr : InReach db σ s .handled) (hh : s.counter.handled = some a) (hact : s.acting = some i) :
    ∃ s', step db σ s .handled = some s' ∧ Kept db σ s' T := by
  have hexp := (hk.clocked.expired hh).1
  obtain ⟨p, rfl, hlt, hnow, hstart, hplan⟩ := hk.acts a i hh hact
  obtain ⟨hnext, hlast⟩ := hr a hh p.position hact
  have hdur := (hv a).duration_le
  have hin := (hv a).within p.position hlt
  dsimp only [step]
  rw [hh, hact]
  dsimp only
  unfold expiryPointHandled
  dsimp only
  rw [if_pos hexp]
  unfold following at hplan
  unfold time at hnow
  by_cases hend : p.position + 1 = (σ a).expiryPoints.length
  · rw [if_pos hend, hk.next a]
    rw [if_neg (by omega)] at hplan
    by_cases hrep : (σ a).repeated = true
    · -- the end of the round
      rw [if_neg (by simp [hrep])]
      rw [if_pos hrep] at hplan
      have hround : roundStart (σ a) ⟨p.begun, p.round + 1, 0⟩ =
          roundStart (σ a) p + (σ a).duration.toNat := by
        simp only [roundStart, Nat.add_mul]
        omega
      have hw : Waits db (σ a) T.now
          ((σ a).duration.toNat - ((σ a).offset p.position).toNat) none (s.start a)
          (T.plan a) := by
        refine ⟨_, hplan, (hv a).nonempty, Or.inr ⟨rfl, rfl, ?_⟩⟩
        rw [hround]
        omega
      by_cases hlater : (σ a).offset p.position < (σ a).duration
      · have hlt' : ((σ a).offset p.position).toNat < (σ a).duration.toNat := hlater
        have hnew : (s.start a + (σ a).duration).toNat = (T.now +
            ((σ a).duration.toNat - ((σ a).offset p.position).toNat)) %
              (db.maxallowedvalue.toNat + 1) := by
          rw [toNat_add_of_reaches (hlast hend hrep hlater), hstart, Nat.mod_add_mod]
          congr 1
          omega
        obtain ⟨s', heq, hk'⟩ := kept_reinsert hk hh (by omega) (by omega) hnew hw
        rw [Function.update_eq_self] at heq
        rw [if_pos hlater]
        exact ⟨s', heq, hk'⟩
      · have hge : (σ a).duration.toNat ≤ ((σ a).offset p.position).toNat :=
          Nat.le_of_not_lt hlater
        rw [Nat.sub_eq_zero_of_le hge] at hw
        have hk' := kept_stay hk hh hw
        rw [Function.update_eq_self] at hk'
        rw [if_neg hlater]
        exact ⟨_, rfl, hk'⟩
    · rw [if_pos ⟨rfl, by simpa using hrep⟩]
      rw [if_neg hrep] at hplan
      exact ⟨_, rfl, kept_over hk hh hplan⟩
  · rw [if_neg hend]
    rw [if_pos (by omega)] at hplan
    have hle := (hv a).increasing p.position (by omega)
    have hin' := (hv a).within (p.position + 1) (by omega)
    have hw : Waits db (σ a) T.now
        (((σ a).offset (p.position + 1)).toNat - ((σ a).offset p.position).toNat)
        (some (p.position + 1)) (s.start a) (T.plan a) := by
      refine ⟨_, hplan, by dsimp only; omega, Or.inl ⟨rfl, ?_, hstart⟩⟩
      simp only [time, roundStart] at hnow ⊢
      omega
    by_cases hlater : (σ a).offset p.position < (σ a).offset (p.position + 1)
    · have hlt' : ((σ a).offset p.position).toNat < ((σ a).offset (p.position + 1)).toNat :=
        hlater
      have hnew : (s.start a + (σ a).offset (p.position + 1)).toNat = (T.now +
          (((σ a).offset (p.position + 1)).toNat - ((σ a).offset p.position).toNat)) %
            (db.maxallowedvalue.toNat + 1) := by
        rw [toNat_add_of_reaches (hnext (by omega) hlater), hstart, Nat.mod_add_mod]
        congr 1
        omega
      obtain ⟨s', heq, hk'⟩ := kept_reinsert hk hh (by omega) (by omega) hnew hw
      rw [Function.update_eq_self] at heq
      rw [if_pos hlater]
      exact ⟨s', heq, hk'⟩
    · have hge : ((σ a).offset (p.position + 1)).toNat ≤ ((σ a).offset p.position).toNat :=
        Nat.le_of_not_lt hlater
      rw [Nat.sub_eq_zero_of_le hge] at hw
      have hk' := kept_stay hk hh hw
      rw [Function.update_eq_self] at hk'
      rw [if_neg hlater]
      exact ⟨_, rfl, hk'⟩

/-! ### Runs -/

/-- **The step lemma.** -/
lemma kept_step {y : Step w α} {s' : Tables w α} (hv : ∀ a, Valid db (σ a))
    (hk : Kept db σ s T) (hr : InReach db σ s y) (hs : step db σ s y = some s') :
    ∃ T', exec (Timetable.step σ) T (shows db σ s y) = some T' ∧ Kept db σ s' T' := by
  cases y with
  | startRel a offset =>
    obtain ⟨s₁, hs₁, T', hT, hk'⟩ := kept_startRel hk (hv a) hr
    obtain rfl : s₁ = s' := Option.some.inj (hs₁.symm.trans hs)
    exact ⟨T', hT, hk'⟩
  | startAbs a start =>
    obtain ⟨s₁, hs₁, T', hT, hk'⟩ := kept_startAbs hk (hv a) hr
    obtain rfl : s₁ = s' := Option.some.inj (hs₁.symm.trans hs)
    exact ⟨T', hT, hk'⟩
  | increment => exact kept_increment hk hs
  | handle a => exact ⟨T, rfl, kept_handle hk hs⟩
  | point =>
    rcases hh : s.counter.handled with _ | a <;> rcases hact : s.acting with _ | i
    · simp [step, hh] at hs
    · simp [step, hh] at hs
    · obtain ⟨s₁, hs₁, T', hT, hk'⟩ := kept_point hk hv hr hh hact
      obtain rfl : s₁ = s' := Option.some.inj (hs₁.symm.trans hs)
      exact ⟨T', hT, hk'⟩
    · simp [step, hh, hact] at hs
  | handled =>
    rcases hh : s.counter.handled with _ | a <;> rcases hact : s.acting with _ | i
    · simp [step, hh] at hs
    · simp [step, hh] at hs
    · simp [step, hh, hact] at hs
    · obtain ⟨s₁, hs₁, hk'⟩ := kept_handled hk hv hr hh hact
      obtain rfl : s₁ = s' := Option.some.inj (hs₁.symm.trans hs)
      exact ⟨T, rfl, hk'⟩

omit [Fintype α] in
lemma kept_init : Kept db σ (init : Tables w α) Timetable.init := by
  obtain ⟨-, q, e, hg⟩ := agree_init (α := α) db
  refine ⟨⟨q, e, hg⟩, rfl, fun _ => rfl, fun _ => ⟨fun _ => rfl, fun _ => rfl⟩, fun _ _ => rfl,
    fun a d ha => ?_, fun a i ha => ?_, fun _ => rfl⟩
  · simp [init, Alarm.init, count] at ha
  · simp [init, Alarm.init] at ha

/-- The triggers in the queue are those that are active, once, and the counter reaches them. -/
def Queued (db : CounterDb w) (s : Tables w α) : Prop :=
  ∃ q, Chain s.counter.next s.counter.triggerQueue q ∧ q.Nodup ∧
    (∀ a, a ∈ q ↔ s.counter.status a = .active) ∧
    ∀ a ∈ q, s.counter.when a ≤ db.maxallowedvalue

/-- Calls return, a tick is possible after the handling of the last one, and the handling of a
tick can always go on. -/
def Goes (db : CounterDb w) (σ : α → SchedTabDb w) (s : Tables w α) : Prop :=
  (∀ y, InReach db σ s y → (∃ a x, y = .startRel a x ∨ y = .startAbs a x) →
    (step db σ s y).isSome) ∧
  (s.counter.Quiet → (step db σ s .increment).isSome) ∧
  (¬ s.counter.Quiet → ∃ y, ((∃ a, y = .handle a) ∨ y = .point ∨ y = .handled) ∧
    (InReach db σ s y → (step db σ s y).isSome))

lemma Kept.goes (hk : Kept db σ s T) (hv : ∀ a, Valid db (σ a)) : Goes db σ s := by
  obtain ⟨q, e, hg⟩ := hk.good
  refine ⟨fun y hr hy => ?_, fun hq => ?_, fun hq => ?_⟩
  · obtain ⟨a, x, rfl | rfl⟩ := hy
    · obtain ⟨s', hs, -⟩ := kept_startRel hk (hv a) hr
      rw [hs]
      rfl
    · obtain ⟨s', hs, -⟩ := kept_startAbs hk (hv a) hr
      rw [hs]
      rfl
  · obtain ⟨c', -, -, hc, -⟩ := good_increment hg hq
    dsimp only [step]
    rw [if_pos hq, hc]
    rfl
  · rcases hh : s.counter.handled with _ | a
    · rcases ht : s.counter.triggered with _ | a
      · exact absurd ⟨ht, hh⟩ hq
      · exact ⟨.handle a, Or.inl ⟨a, rfl⟩, fun _ => by simp [step, ht, hh]⟩
    · rcases hact : s.acting with _ | i
      · refine ⟨.point, Or.inr (Or.inl rfl), fun hr => ?_⟩
        obtain ⟨s', hs, -⟩ := kept_point hk hv hr hh hact
        rw [hs]
        rfl
      · refine ⟨.handled, Or.inr (Or.inr rfl), fun hr => ?_⟩
        obtain ⟨s', hs, -⟩ := kept_handled hk hv hr hh hact
        rw [hs]
        rfl

/-- **The tables are on time.** In every run in which the sums of start values and offsets are
in reach the kernel keeps the timetable, and the counter reaches every trigger in the queue. -/
theorem points_on_time (db : CounterDb w) (σ : α → SchedTabDb w) (hv : ∀ a, Valid db (σ a))
    (ys : List (Step w α)) (hy : Along (step db σ) (InReach db σ) init ys) (s : Tables w α)
    (hs : exec (step db σ) init ys = some s) :
    Queued db s ∧ Goes db σ s ∧
      ∃ T, exec (Timetable.step σ) Timetable.init
          (seen (step db σ) (shows db σ) init ys) = some T ∧
        s.counter.value.toNat = T.now % (db.maxallowedvalue.toNat + 1) := by
  obtain ⟨T, hT, hk⟩ := exec_seen (shows db σ)
    (fun s y s' T hk hr hs => kept_step hv hk hr hs) kept_init hy hs
  exact ⟨hk.clocked.queued, hk.goes hv, T, hT, hk.clock⟩

/-- A repeating table with two points at once, and one that runs a single time. -/
def twoTables : Bool → SchedTabDb 8
  | true => ⟨[0, 2, 2], .none, 3, true⟩
  | false => ⟨[1], .none, 4, false⟩

def fiveTicks : List (Step 8 Bool) :=
  [.startRel true 2, .startAbs false 3, .increment, .increment, .handle true, .point, .handled,
    .increment, .increment, .handle false, .point, .handled, .handle true, .point, .handled, .point,
    .handled, .increment, .handle true, .point, .point]

theorem points_on_time_fiveTicks :
    ∃ T, exec (Timetable.step twoTables) Timetable.init
      [.started true 2, .started false 3, .tick, .tick, .point true 0, .tick, .tick, .point false 0,
        .point true 1, .point true 2, .tick, .point true 0] = some T := by
  have hsome : (exec (step ⟨9, 1⟩ twoTables) init fiveTicks).isSome := by decide +kernel
  obtain ⟨s, hs⟩ := Option.isSome_iff_exists.mp hsome
  have hv : ∀ a, Valid ⟨9, 1⟩ (twoTables a) := by decide +kernel
  have hlog : seen (step ⟨9, 1⟩ twoTables) (shows ⟨9, 1⟩ twoTables) init fiveTicks =
      [.started true 2, .started false 3, .tick, .tick, .point true 0, .tick, .tick, .point false 0,
        .point true 1, .point true 2, .tick, .point true 0] := by decide +kernel
  obtain ⟨-, -, T, hT, -⟩ :=
    points_on_time ⟨9, 1⟩ twoTables hv fiveTicks (by decide +kernel) s hs
  rw [hlog] at hT
  exact ⟨T, hT⟩

/-- A table that is started at `8` has its point at `10`, which a counter that ends at `9` does
not reach: its trigger stays in the queue, and the timetable is missed at the tenth tick. -/
theorem point_missed :
    ∃ σ : Fin 1 → SchedTabDb 8, (∀ a, Valid ⟨9, 1⟩ (σ a)) ∧
      ((exec (step ⟨9, 1⟩ σ) init (.startAbs 0 8 :: List.replicate 30 .increment)).map fun s =>
        (s.counter.triggerQueue, s.counter.when 0)) = some (some 0, 10) ∧
      (exec (Timetable.step σ) Timetable.init (seen (step ⟨9, 1⟩ σ) (shows ⟨9, 1⟩ σ) init
        (.startAbs 0 8 :: List.replicate 30 .increment))).isNone := by
  exact ⟨fun _ => ⟨[2], .none, 5, true⟩, by decide +kernel, by decide +kernel,
    by decide +kernel⟩

end FpMemSched.Erika.OnTime
