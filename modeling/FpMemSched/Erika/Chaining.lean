import FpMemSched.Erika.Rosters

/-!
Schedule tables that follow one another (`NextScheduleTable`).

The kernel keeps the roster where the table that takes over has its first point after its begin,
and nothing in its field for the next table. It does not clear that field, and it does not process
a point that is due at the hand-over itself, since the trigger of the table has not expired.
-/

namespace FpMemSched.Erika.Chaining

open FpMemSched.Lib.Runs FpMemSched.Lib.Linked FpMemSched.Lib.Circular
open FpMemSched.Erika.Alarm hiding Step init step
open FpMemSched.Erika.Countdown FpMemSched.Erika.AlarmsAgree FpMemSched.Erika.TickCount
open FpMemSched.Erika.SchedTable hiding Step step
open FpMemSched.Erika.OnTime hiding Event shows
open FpMemSched.Erika.Rosters

variable {w : ℕ} {α : Type} [DecidableEq α] [Fintype α]

/-! ### The kernel -/

inductive Step (w : ℕ) (α : Type)
  | base (y : SchedTable.Step w α)
  | next (a b : α)
  | stop (a : α)
  deriving DecidableEq

def step (db : CounterDb w) (σ : α → SchedTabDb w) (s : Tables w α) :
    Step w α → Option (Tables w α)
  | .base y => SchedTable.step db σ s y
  | .next a b => some (nextScheduleTable σ a b s).1
  | .stop a => (stStop a s).map Prod.fst

/-- What the steps of the kernel show of the tables. -/
def shows (db : CounterDb w) (σ : α → SchedTabDb w) (s : Tables w α) :
    Step w α → List (Event α)
  | .base (.startRel a offset) =>
    if (startScheduleTableRel db σ a offset s).any fun r => r.2 = .eOk then
      [.started a offset.toNat]
    else []
  | .base (.startAbs a start) =>
    if (startScheduleTableAbs db σ a start s).any fun r => r.2 = .eOk then
      [.started a (dist db.maxallowedvalue.toNat s.counter.value.toNat start.toNat + 1)]
    else []
  | .base .increment => if (s.counter.prescale db).2 then [.tick] else []
  | .base (.handle _) => []
  | .base .point =>
    match s.counter.handled with
    | none => []
    | some a =>
      if s.counter.status a = .expired then
        match s.position a with
        | none => [.ended a]
        | some i => [.point a i]
      else []
  | .base .handled =>
    match s.counter.handled, s.acting with
    | some a, some i =>
      if s.counter.status a = .expired ∧ i + 1 = (σ a).expiryPoints.length ∧
          s.nextTable a = none ∧ (σ a).repeated = false then [.finished a]
      else []
    | _, _ => []
  | .next a b => if (nextScheduleTable σ a b s).2 = .eOk then [.chained a b] else []
  | .stop a => if (stStop a s).any fun r => r.2 = .eOk then [.stopped a] else []

/-- The sums that the step forms are in reach, the table that takes over has its first point
later and no table after it, and no table is stopped while it is handled. -/
def InTurn (db : CounterDb w) (σ : α → SchedTabDb w) (s : Tables w α) : Step w α → Prop
  | .base .point => ∀ a ∈ s.counter.handled, s.position a = none →
      (s.nextTable a = none → Reaches db s.counter.value ((σ a).offset 0)) ∧
      ∀ b ∈ s.nextTable a, 0 < (σ b).offset 0 ∧ s.nextTable b = none ∧
        Reaches db s.counter.value ((σ b).offset 0)
  | .base .handled => ∀ a ∈ s.counter.handled, ∀ i ∈ s.acting,
      (i + 1 < (σ a).expiryPoints.length → (σ a).offset i < (σ a).offset (i + 1) →
        Reaches db (s.start a) ((σ a).offset (i + 1))) ∧
      (i + 1 = (σ a).expiryPoints.length →
        (σ a).repeated = true ∨ s.nextTable a ≠ none →
        (σ a).offset i < (σ a).duration → Reaches db (s.start a) (σ a).duration)
  | .base y => InReach db σ s y
  | .next _ _ => True
  | .stop a => s.counter.status a ≠ .expired

instance (db : CounterDb w) (σ : α → SchedTabDb w) (s : Tables w α) :
    ∀ y, Decidable (InTurn db σ s y)
  | .base .point => inferInstanceAs (Decidable (∀ a ∈ s.counter.handled, _ → _ ∧ ∀ b ∈ _, _))
  | .base .handled => inferInstanceAs (Decidable (∀ a ∈ s.counter.handled, ∀ i ∈ s.acting, _))
  | .base (.startRel a x) => inferInstanceAs (Decidable (InReach db σ s (.startRel a x)))
  | .base (.startAbs a x) => inferInstanceAs (Decidable (InReach db σ s (.startAbs a x)))
  | .base .increment | .base (.handle _) | .next _ _ => isTrue trivial
  | .stop _ => inferInstanceAs (Decidable (_ ≠ _))

/-! ### The invariant -/

/-- What the kernel has of one table. -/
structure View (w : ℕ) (α : Type) where
  count : Option ℕ
  acting : Option ℕ
  position : Option ℕ
  start : BitVec w
  nextTable : Option α
  stStatus : StStatus

omit [Fintype α] in
def look (db : CounterDb w) (s : Tables w α) (a : α) : View w α where
  count := count db s.counter a
  acting := if s.counter.handled = some a then s.acting else none
  position := s.position a
  start := s.start a
  nextTable := s.nextTable a
  stStatus := s.stStatus a

omit [DecidableEq α] [Fintype α] in
/-- The table is where the roster has it. Between a point and the end of its actions the kernel
is one position behind. -/
def Row (db : CounterDb w) (t : SchedTabDb w) (now : ℕ) (v : View w α) (next : Option α) :
    Stage → Prop
  | .stopped => v.count = none ∧ v.stStatus = .stopped
  | .next => v.count = none ∧ v.stStatus = .next
  | .running begun position =>
    v.stStatus.isRunning ∧ v.nextTable = next ∧
      v.start.toNat = begun % (db.maxallowedvalue.toNat + 1) ∧
      (∀ i ∈ position, i < t.expiryPoints.length) ∧
      match v.acting with
      | none => ∃ d, v.count = some d ∧ v.position = position ∧ now + d = due t begun position ∧
          (position = none → next ≠ none ∨ t.repeated = true)
      | some i => v.count = some 0 ∧ i < t.expiryPoints.length ∧
          now = due t begun (some i) ∧ position = after t i

structure Follows (db : CounterDb w) (σ : α → SchedTabDb w) (s : Tables w α) (T : Roster α) :
    Prop where
  clocked : Clocked db s.counter T.now
  sound : T.Sound
  idle : s.counter.handled = none → s.acting = none
  rows : ∀ a, Row db (σ a) T.now (look db s a) (T.next a) (T.stage a)

section Rows

omit [DecidableEq α] [Fintype α]

variable {db : CounterDb w} {t : SchedTabDb w} {now : ℕ} {v : View w α} {next : Option α}
  {x : Stage}

lemma Row.status_ne {begun : ℕ} {position : Option ℕ}
    (h : Row db t now v next (.running begun position)) :
    v.stStatus ≠ .stopped ∧ v.stStatus ≠ .next := by
  have hrun := h.1
  constructor
  · intro hst
    rw [hst] at hrun
    cases hrun
  · intro hst
    rw [hst] at hrun
    cases hrun

lemma Row.stopped_iff (h : Row db t now v next x) : v.stStatus = .stopped ↔ x = .stopped := by
  cases x with
  | stopped => simp [h.2]
  | next => simp [h.2]
  | running begun position => simp [h.status_ne.1]

lemma Row.next_iff (h : Row db t now v next x) : v.stStatus = .next ↔ x = .next := by
  cases x with
  | stopped => simp [h.2]
  | next => simp [h.2]
  | running begun position => simp [h.status_ne.2]

lemma Row.count_none_iff (h : Row db t now v next x) : v.count = none ↔ x.isRunning = false := by
  cases x with
  | stopped => simp [h.1, Stage.isRunning]
  | next => simp [h.1, Stage.isRunning]
  | running begun position =>
    obtain ⟨-, -, -, -, h⟩ := h
    cases hact : v.acting with
    | none =>
      rw [hact] at h
      obtain ⟨d, hd, -⟩ := h
      simp [hd, Stage.isRunning]
    | some i =>
      rw [hact] at h
      simp [h.1, Stage.isRunning]

end Rows

section Steps

variable {db : CounterDb w} {σ : α → SchedTabDb w} {s s' : Tables w α} {T T' : Roster α}
variable {a b : α} {d : ℕ}

omit [Fintype α] in
/-- One table changes, in the kernel and in the roster. -/
lemma rows_change (hf : Follows db σ s T) (hnow : T'.now = T.now)
    (hsame : ∀ b, b ≠ a → look db s' b = look db s b ∧ T'.next b = T.next b ∧
      T'.stage b = T.stage b)
    (ha : Row db (σ a) T.now (look db s' a) (T'.next a) (T'.stage a)) :
    ∀ b, Row db (σ b) T'.now (look db s' b) (T'.next b) (T'.stage b) := by
  intro b
  rw [hnow]
  by_cases hb : b = a
  · rw [hb]
    exact ha
  · obtain ⟨hl, hn, hst⟩ := hsame b hb
    rw [hl, hn, hst]
    exact hf.rows b

/-! ### Calls -/

omit [Fintype α] in
lemma Follows.off (hf : Follows db σ s T) (hst : s.stStatus a = .stopped) :
    T.stage a = .stopped ∧ count db s.counter a = none := by
  have hstage := (hf.rows a).stopped_iff.mp hst
  refine ⟨hstage, (hf.rows a).count_none_iff.mpr ?_⟩
  rw [hstage]
  rfl

/-- A table that is stopped is started. -/
lemma follows_begun {delay : ℕ} (hf : Follows db σ s T) (hv : Valid db (σ a))
    (hst : s.stStatus a = .stopped) (hb : Begun db (σ a) a T.now delay s s') :
    ∃ T', T.step σ (.started a delay) = some T' ∧ Follows db σ s' T' := by
  obtain ⟨hstage, hoff⟩ := hf.off hst
  have hout := (hf.clocked.inactive hoff).2
  have hnext : T.next a = none := hf.sound.off a (by rw [hstage]; rfl)
  obtain ⟨x, hx, hstatus⟩ := hb.stStatus
  obtain ⟨y, hy, hstart⟩ := hb.start
  refine ⟨_, if_pos hstage, hb.clocked, ?_, ?_, rows_change (a := a) hf rfl (fun b hba => ?_) ?_⟩
  · refine sound_update hf.sound (by rw [hstage]; simp) fun h => ?_
    cases h
  · rw [hb.handled, hb.acting]
    exact hf.idle
  · refine ⟨?_, rfl, Function.update_of_ne hba ..⟩
    unfold look
    rw [hb.count, hb.handled, hb.acting, hb.position, hb.nextTable, hstatus, hstart]
    simp [Function.update_of_ne hba]
  · dsimp only
    rw [Function.update_self]
    unfold look
    rw [hb.count, hb.handled, hb.position, hb.nextTable, hstatus, hstart, if_neg hout]
    simp only [Function.update_self]
    refine ⟨hx, hnext.symm, hy, fun i hi => ?_, _, rfl, rfl, ?_, fun h => by cases h⟩
    · obtain rfl := Option.some.inj hi
      exact hv.nonempty
    · simp only [due]
      omega

lemma follows_startRel {offset : BitVec w} (hf : Follows db σ s T) (hv : Valid db (σ a))
    (hr : InTurn db σ s (.base (.startRel a offset))) :
    ∃ s', step db σ s (.base (.startRel a offset)) = some s' ∧
      ∃ T', exec (Roster.step σ) T (shows db σ s (.base (.startRel a offset))) = some T' ∧
        Follows db σ s' T' := by
  dsimp only [step, SchedTable.step, shows]
  rcases startRel_begun hf.clocked (fun h => (hf.off h).2) hr with
    ⟨x, heq, hx⟩ | ⟨hst, s', heq, hb⟩
  · rw [heq]
    exact ⟨s, rfl, T, by simp [hx], hf⟩
  · rw [heq]
    obtain ⟨T', hT, hf'⟩ := follows_begun hf hv hst hb
    exact ⟨s', rfl, T', by simpa [exec_singleton] using hT, hf'⟩

lemma follows_startAbs {start : BitVec w} (hf : Follows db σ s T) (hv : Valid db (σ a))
    (hr : InTurn db σ s (.base (.startAbs a start))) :
    ∃ s', step db σ s (.base (.startAbs a start)) = some s' ∧
      ∃ T', exec (Roster.step σ) T (shows db σ s (.base (.startAbs a start))) = some T' ∧
        Follows db σ s' T' := by
  dsimp only [step, SchedTable.step, shows]
  rcases startAbs_begun hf.clocked (fun h => (hf.off h).2) hr with
    ⟨x, heq, hx⟩ | ⟨hst, s', heq, hb⟩
  · rw [heq]
    exact ⟨s, rfl, T, by simp [hx], hf⟩
  · rw [heq]
    obtain ⟨T', hT, hf'⟩ := follows_begun hf hv hst hb
    exact ⟨s', rfl, T', by simpa [exec_singleton] using hT, hf'⟩

omit [Fintype α] in
lemma Follows.running (hf : Follows db σ s T) (h₁ : s.stStatus a ≠ .stopped)
    (h₂ : s.stStatus a ≠ .next) :
    (T.stage a).isRunning ∧ s.nextTable a = T.next a ∧ (s.stStatus a).isRunning := by
  have hrow := hf.rows a
  cases hx : T.stage a with
  | stopped => exact absurd (hrow.stopped_iff.mpr hx) h₁
  | next => exact absurd (hrow.next_iff.mpr hx) h₂
  | running begun position =>
    rw [hx] at hrow
    exact ⟨rfl, hrow.2.1, hrow.1⟩

omit [Fintype α] in
/-- The table that was to follow is stopped, in the kernel as in the roster. -/
lemma row_release (hf : Follows db σ s T) (hnext : s.nextTable a = T.next a) (b : α) :
    Row db (σ b) T.now { look db s b with stStatus := s.stopNext a b } (T.next b)
      (T.release a b) := by
  have hrow := hf.rows b
  by_cases hab : T.next a = some b
  · rw [Roster.release_next hab]
    rw [hf.sound.linked a b hab] at hrow
    refine ⟨hrow.1, ?_⟩
    unfold Tables.stopNext
    rw [hnext, hab]
    exact Function.update_self ..
  · rw [Roster.release_of_ne hab]
    have hsame : s.stopNext a b = s.stStatus b := by
      unfold Tables.stopNext
      rw [hnext]
      cases hc : T.next a with
      | none => rfl
      | some c =>
        refine Function.update_of_ne ?_ ..
        rintro rfl
        exact hab hc
    rw [hsame]
    exact hrow

/-- A table that runs gets another table after it. -/
lemma follows_next (hf : Follows db σ s T) :
    ∃ T', exec (Roster.step σ) T (shows db σ s (.next a b)) = some T' ∧
      Follows db σ (nextScheduleTable σ a b s).1 T' := by
  dsimp only [shows]
  unfold nextScheduleTable
  by_cases hsync : (σ a).syncStrategy ≠ (σ b).syncStrategy
  · rw [if_pos hsync]
    exact ⟨T, rfl, hf⟩
  rw [if_neg hsync]
  by_cases ha : s.stStatus a = .stopped ∨ s.stStatus a = .next
  · rw [if_pos ha]
    exact ⟨T, rfl, hf⟩
  rw [if_neg ha]
  by_cases hb : s.stStatus b ≠ .stopped
  · rw [if_pos hb]
    exact ⟨T, rfl, hf⟩
  rw [if_neg hb]
  rw [not_not] at hb
  rw [not_or] at ha
  obtain ⟨hrun, hnext, -⟩ := hf.running ha.1 ha.2
  obtain ⟨hstage, hoff⟩ := hf.off hb
  have hab : a ≠ b := by
    rintro rfl
    exact ha.1 hb
  refine ⟨_, (exec_singleton _ T _).trans (if_pos ⟨hrun, hstage⟩), hf.clocked,
    sound_chain hf.sound hrun hstage, hf.idle, fun c => ?_⟩
  dsimp only
  by_cases hcb : c = b
  · subst hcb
    rw [Function.update_self]
    exact ⟨hoff, Function.update_self ..⟩
  rw [Function.update_of_ne hcb]
  have hrow := row_release hf hnext c
  have hlook : look db { s with
      nextTable := Function.update s.nextTable a (some b)
      stStatus := Function.update (s.stopNext a) b .next } c =
        { look db s c with
          stStatus := s.stopNext a c
          nextTable := Function.update s.nextTable a (some b) c } := by
    simp [look, Function.update_of_ne hcb]
  rw [hlook]
  by_cases hca : c = a
  · subst hca
    rw [Function.update_self, Function.update_self]
    rw [Roster.release_of_ne fun h => hf.sound.ne h rfl] at hrow ⊢
    cases hx : T.stage c with
    | stopped =>
      rw [hx] at hrun
      cases hrun
    | next =>
      rw [hx] at hrun
      cases hrun
    | running begun position =>
      rw [hx] at hrow
      obtain ⟨h₁, -, h₃, h₄, h₅⟩ := hrow
      refine ⟨h₁, rfl, h₃, h₄, ?_⟩
      dsimp only at h₅ ⊢
      cases hact : (look db s c).acting with
      | none =>
        rw [hact] at h₅
        obtain ⟨d, hd, hpos, hdue, -⟩ := h₅
        exact ⟨d, hd, hpos, hdue, fun _ => Or.inl (by simp)⟩
      | some i =>
        rw [hact] at h₅
        exact h₅
  · rw [Function.update_of_ne hca, Function.update_of_ne hca]
    exact hrow

/-- A table that is not handled is stopped. -/
lemma follows_stop (hf : Follows db σ s T) (hr : InTurn db σ s (.stop a)) :
    ∃ s', step db σ s (.stop a) = some s' ∧
      ∃ T', exec (Roster.step σ) T (shows db σ s (.stop a)) = some T' ∧ Follows db σ s' T' := by
  obtain ⟨q, e, hg⟩ := hf.clocked.good
  dsimp only [step, shows]
  unfold stStop
  rcases hst : s.counter.status a with _ | _ | _ | _ | _
  · exact ⟨s, rfl, T, rfl, hf⟩
  · exact absurd hst (hg.settled a).1
  · obtain ⟨c', heq, hsh, hclocked, hcount⟩ := clocked_cancel hf.clocked hst
    have hrow := hf.rows a
    have hrun : (T.stage a).isRunning := by
      by_contra hn
      have hnone := hrow.count_none_iff.mpr (by simpa using hn)
      rw [show (look db s a).count = count db s.counter a from rfl, count_of_active hst] at hnone
      cases hnone
    have hnext : s.nextTable a = T.next a := by
      cases hx : T.stage a with
      | stopped =>
        rw [hx] at hrun
        cases hrun
      | next =>
        rw [hx] at hrun
        cases hrun
      | running begun position =>
        rw [hx] at hrow
        exact hrow.2.1
    dsimp only
    rw [heq]
    refine ⟨_, rfl, _, (exec_singleton _ T _).trans (if_pos hrun), hclocked,
      sound_release hf.sound hrun, fun hh => hf.idle (hsh.symm.trans hh), fun c => ?_⟩
    dsimp only
    have hlook : look db { s with
        stStatus := Function.update (s.stopNext a) a .stopped
        counter := c' } c =
          { look db s c with
            stStatus := Function.update (s.stopNext a) a .stopped c
            count := Function.update (count db s.counter) a none c } := by
      simp [look, hcount, hsh]
    rw [hlook]
    by_cases hca : c = a
    · subst hca
      rw [Function.update_self, Function.update_self, Function.update_self,
        Function.update_self]
      exact ⟨rfl, rfl⟩
    · rw [Function.update_of_ne hca, Function.update_of_ne hca, Function.update_of_ne hca,
        Function.update_of_ne hca]
      exact row_release hf hnext c
  · exact absurd hst hr
  · exact absurd hst (hg.settled a).2

/-! ### Ticks -/

lemma follows_increment (hf : Follows db σ s T)
    (hs : step db σ s (.base .increment) = some s') :
    ∃ T', exec (Roster.step σ) T (shows db σ s (.base .increment)) = some T' ∧
      Follows db σ s' T' := by
  dsimp only [step, SchedTable.step] at hs
  split_ifs at hs with hquiet
  obtain ⟨c', heq, hcases⟩ := clocked_increment hf.clocked hquiet
  rw [heq] at hs
  obtain rfl := Option.some.inj hs
  have hact : s.acting = none := hf.idle hquiet.2
  have hidle : ∀ a, (look db s a).acting = none := fun a => by simp [look, hact]
  have hlook : ∀ a, look db { s with counter := c' } a =
      { look db s a with count := count db c' a } := fun a => by simp [look, hact]
  dsimp only [shows]
  rcases hcases with ⟨hp, hclocked, hpos, hcount⟩ | ⟨hp, hclocked, hcount⟩
  · have hearly : ∀ a, (T.stage a).Early (σ a) T.now := by
      intro a
      have hrow := hf.rows a
      cases hx : T.stage a with
      | stopped => trivial
      | next => trivial
      | running begun position =>
        rw [hx] at hrow
        obtain ⟨-, -, -, -, hrow⟩ := hrow
        rw [hidle a] at hrow
        obtain ⟨d, hd, -, hdue, -⟩ := hrow
        have := hpos a d hd
        change T.now < due (σ a) begun position
        omega
    refine ⟨{ T with now := T.now + 1 }, ?_, hclocked, ⟨hf.sound.off, hf.sound.linked,
      hf.sound.once⟩, fun _ => hact, fun a => ?_⟩
    · rw [hp, if_pos rfl, exec_singleton]
      exact if_pos hearly
    · have hrow := hf.rows a
      rw [hlook, hcount]
      dsimp only
      cases hx : T.stage a with
      | stopped =>
        rw [hx] at hrow
        exact ⟨by simp [show count db s.counter a = none from hrow.1], hrow.2⟩
      | next =>
        rw [hx] at hrow
        exact ⟨by simp [show count db s.counter a = none from hrow.1], hrow.2⟩
      | running begun position =>
        rw [hx] at hrow
        obtain ⟨h₁, h₂, h₃, h₄, h₅⟩ := hrow
        refine ⟨h₁, h₂, h₃, h₄, ?_⟩
        dsimp only at h₅ ⊢
        rw [hidle a] at h₅ ⊢
        obtain ⟨d, hd, hat, hdue, hlast⟩ := h₅
        have hd : count db s.counter a = some d := hd
        have := hpos a d hd
        exact ⟨d - 1, by rw [hd]; rfl, hat, by omega, hlast⟩
  · refine ⟨T, by rw [hp]; rfl, hclocked, hf.sound, fun _ => hact, fun a => ?_⟩
    rw [hlook, hcount]
    exact hf.rows a

/-! ### Expiry points -/

lemma follows_handle (hf : Follows db σ s T) (hs : step db σ s (.base (.handle a)) = some s') :
    Follows db σ s' T := by
  dsimp only [step, SchedTable.step] at hs
  split_ifs at hs with ht
  obtain rfl := Option.some.inj hs
  have hact : s.acting = none := hf.idle ht.2
  refine ⟨clocked_handle hf.clocked ht.1 ht.2, hf.sound, fun _ => hact, fun b => ?_⟩
  have hlook : look db { s with counter := { s.counter with
      triggered := s.counter.next a, handled := some a } } b = look db s b := by
    simp only [look, hact, ite_self]
    rfl
  rw [hlook]
  exact hf.rows b

omit [Fintype α] in
/-- The handler of the table goes on without putting its trigger back. -/
lemma follows_stay {position : Option ℕ} {start : BitVec w} {begun : ℕ} (hf : Follows db σ s T)
    (hh : s.counter.handled = some a) (hsound : T'.Sound) (hnow : T'.now = T.now)
    (hnext : T'.next = T.next) (hsame : ∀ b, b ≠ a → T'.stage b = T.stage b)
    (hstage : T'.stage a = .running begun position)
    (hrow : Row db (σ a) T.now ⟨some 0, none, position, start, s.nextTable a, s.stStatus a⟩
      (T.next a) (.running begun position)) :
    Follows db σ { s with
      position := Function.update s.position a position
      start := Function.update s.start a start
      acting := none } T' := by
  have hzero := (hf.clocked.expired hh).2
  refine ⟨by rw [hnow]; exact hf.clocked, hsound, fun _ => rfl,
    rows_change (a := a) hf hnow (fun b hb => ⟨?_, by rw [hnext], hsame b hb⟩) ?_⟩
  · have hhb : s.counter.handled ≠ some b := by
      rw [hh]
      simpa using Ne.symm hb
    simp [look, Function.update_of_ne hb, hhb]
  · rw [hnext, hstage]
    simpa [look, hzero] using hrow

/-- The trigger of the table is put back. -/
lemma follows_reinsert {position : Option ℕ} {start new : BitVec w} {begun : ℕ}
    (hf : Follows db σ s T) (hh : s.counter.handled = some a) (hd : 0 < d)
    (hd' : d ≤ db.maxallowedvalue.toNat)
    (hnew : new.toNat = (T.now + d) % (db.maxallowedvalue.toNat + 1)) (hsound : T'.Sound)
    (hnow : T'.now = T.now) (hnext : T'.next = T.next)
    (hsame : ∀ b, b ≠ a → T'.stage b = T.stage b)
    (hstage : T'.stage a = .running begun position)
    (hrow : Row db (σ a) T.now ⟨some d, none, position, start, s.nextTable a, s.stStatus a⟩
      (T.next a) (.running begun position)) :
    ∃ s', reinsert a new { s with
        position := Function.update s.position a position
        start := Function.update s.start a start
        acting := none } = some s' ∧ Follows db σ s' T' := by
  obtain ⟨c', heq, -, hclocked, hcount⟩ := clocked_insert (o := none) hf.clocked hd (by omega)
    hnew (Or.inr ⟨rfl, hh⟩)
  have hf' : Follows db σ { s with
      position := Function.update s.position a position
      start := Function.update s.start a start
      acting := none
      counter := { c' with handled := none } } T' := by
    refine ⟨by rw [hnow]; exact hclocked, hsound, fun _ => rfl,
      rows_change (a := a) hf hnow (fun b hb => ⟨?_, by rw [hnext], hsame b hb⟩) ?_⟩
    · have hcb : count db { c' with handled := none } b = count db s.counter b :=
        (congrFun hcount b).trans (Function.update_of_ne hb ..)
      have hhb : s.counter.handled ≠ some b := by
        rw [hh]
        simpa using Ne.symm hb
      simp [look, hcb, Function.update_of_ne hb, hhb]
    · have hca : count db { c' with handled := none } a = some d :=
        (congrFun hcount a).trans (Function.update_self ..)
      rw [hnext, hstage]
      simpa [look, hca] using hrow
  refine ⟨_, ?_, hf'⟩
  unfold reinsert
  rw [heq]
  rfl

/-- **The hand-over**: the table stops, and the one after it begins. -/
lemma follows_handOver (hf : Follows db σ s T) (hv : Valid db (σ b))
    (hh : s.counter.handled = some a) (hact : s.acting = none) (hb : T.next a = some b)
    (hpos : 0 < (σ b).offset 0) (hclear : s.nextTable b = none)
    (hreach : Reaches db s.counter.value ((σ b).offset 0)) :
    ∃ s', reinsert b (s.counter.value + (σ b).offset 0) { s with
        stStatus := Function.update (Function.update s.stStatus a .stopped) b .running
        counter := { s.counter with
          status := Function.update s.counter.status a .inactive
          handled := some b }
        position := Function.update s.position b (some 0)
        start := Function.update s.start b s.counter.value } = some s' ∧
      Follows db σ s' { T with
        stage := Function.update (Function.update T.stage a .stopped) b
          (.running T.now (some 0))
        next := Function.update T.next a none } := by
  have hab := hf.sound.ne hb
  have hstage := hf.sound.linked a b hb
  have hoff : count db s.counter b = none := (hf.rows b).count_none_iff.mpr (by rw [hstage]; rfl)
  have hnextb : T.next b = none := hf.sound.off b (by rw [hstage]; rfl)
  have hle : ((σ b).offset 0).toNat ≤ db.maxallowedvalue.toNat :=
    (hv.within 0 hv.nonempty).trans hv.duration_le
  have hnew : (s.counter.value + (σ b).offset 0).toNat =
      (T.now + ((σ b).offset 0).toNat) % (db.maxallowedvalue.toNat + 1) := by
    rw [toNat_add_of_reaches hreach, hf.clocked.clock, Nat.mod_add_mod]
  obtain ⟨c', heq, hclocked, hcount⟩ := clocked_replace hf.clocked hh hoff hpos (by omega) hnew
  unfold reinsert
  dsimp only
  rw [heq]
  refine ⟨_, rfl, hclocked, sound_handOver hf.sound hb rfl, fun _ => hact, fun c => ?_⟩
  dsimp only
  have hc : count db { c' with handled := none } c =
      Function.update (Function.update (count db s.counter) a none) b
        (some ((σ b).offset 0).toNat) c := congrFun hcount c
  by_cases hcb : c = b
  · subst hcb
    rw [Function.update_self] at hc
    rw [Function.update_self, Function.update_of_ne hab.symm, hnextb]
    refine ⟨?_, hclear, ?_, fun i hi => ?_, ?_⟩
    · simp [look, StStatus.isRunning]
    · simpa [look] using hf.clocked.clock
    · obtain rfl := Option.some.inj hi
      exact hv.nonempty
    · simp only [look, hc, hact, ite_self]
      exact ⟨_, rfl, Function.update_self .., rfl, fun h => by cases h⟩
  rw [Function.update_of_ne hcb] at hc ⊢
  by_cases hca : c = a
  · subst hca
    rw [Function.update_self] at hc
    rw [Function.update_self, Function.update_self]
    refine ⟨hc, ?_⟩
    simp [look, Function.update_of_ne hcb]
  · rw [Function.update_of_ne hca] at hc ⊢
    have hlook : look db { s with
        stStatus := Function.update (Function.update s.stStatus a .stopped) b .running
        counter := { c' with handled := none }
        position := Function.update s.position b (some 0)
        start := Function.update s.start b s.counter.value } c = look db s c := by
      simp [look, hc, hact, Function.update_of_ne hcb, Function.update_of_ne hca]
    rw [Function.update_of_ne hca, hlook]
    exact hf.rows c

omit [Fintype α] in
/-- The table that is handled. -/
lemma Follows.handled (hf : Follows db σ s T) (hh : s.counter.handled = some a) :
    ∃ begun position, T.stage a = .running begun position ∧ (s.stStatus a).isRunning ∧
      s.nextTable a = T.next a ∧
      (s.start a).toNat = begun % (db.maxallowedvalue.toNat + 1) ∧
      (∀ i ∈ position, i < (σ a).expiryPoints.length) ∧
      (s.acting = none → s.position a = position ∧ T.now = due (σ a) begun position ∧
        (position = none → T.next a ≠ none ∨ (σ a).repeated = true)) ∧
      ∀ i, s.acting = some i → i < (σ a).expiryPoints.length ∧
        T.now = due (σ a) begun (some i) ∧ position = after (σ a) i := by
  have hzero := (hf.clocked.expired hh).2
  have hrow := hf.rows a
  have hlook : (look db s a).acting = s.acting := if_pos hh
  cases hx : T.stage a with
  | stopped =>
    rw [hx] at hrow
    cases hzero.symm.trans hrow.1
  | next =>
    rw [hx] at hrow
    cases hzero.symm.trans hrow.1
  | running begun position =>
    rw [hx] at hrow
    obtain ⟨h₁, h₂, h₃, h₄, h₅⟩ := hrow
    refine ⟨begun, position, rfl, h₁, h₂, h₃, h₄, fun hact => ?_, fun i hact => ?_⟩
    · rw [hlook, hact] at h₅
      obtain ⟨d, hd, hat, hdue, hlast⟩ := h₅
      obtain rfl : 0 = d := Option.some.inj (hzero.symm.trans hd)
      exact ⟨hat, hdue, hlast⟩
    · rw [hlook, hact] at h₅
      exact h₅.2

/-- A round of the same table begins. -/
lemma follows_round (hf : Follows db σ s T) (hv : Valid db (σ a))
    (hh : s.counter.handled = some a) (hact : s.acting = none)
    (hreach : Reaches db s.counter.value ((σ a).offset 0)) :
    ∃ s', (if 0 < (σ a).offset 0 then reinsert a (s.counter.value + (σ a).offset 0) { s with
          position := Function.update s.position a (some 0)
          start := Function.update s.start a s.counter.value }
        else some { s with
          position := Function.update s.position a (some 0)
          start := Function.update s.start a s.counter.value }) = some s' ∧
      Follows db σ s' { T with
        stage := Function.update T.stage a (.running T.now (some 0)) } := by
  obtain ⟨begun, position, hstage, hrun, hnext, -⟩ := hf.handled hh
  have hsound : Roster.Sound { T with
      stage := Function.update T.stage a (.running T.now (some 0)) } :=
    sound_update hf.sound (by rw [hstage]; simp) fun h => by cases h
  have hle : ((σ a).offset 0).toNat ≤ db.maxallowedvalue.toNat :=
    (hv.within 0 hv.nonempty).trans hv.duration_le
  have hrow : Row db (σ a) T.now ⟨some ((σ a).offset 0).toNat, none, some 0, s.counter.value,
      s.nextTable a, s.stStatus a⟩ (T.next a) (.running T.now (some 0)) := by
    refine ⟨hrun, hnext, hf.clocked.clock, fun i hi => ?_, _, rfl, rfl, rfl, fun h => by cases h⟩
    obtain rfl := Option.some.inj hi
    exact hv.nonempty
  by_cases hpos : 0 < (σ a).offset 0
  · rw [if_pos hpos]
    have hnew : (s.counter.value + (σ a).offset 0).toNat =
        (T.now + ((σ a).offset 0).toNat) % (db.maxallowedvalue.toNat + 1) := by
      rw [toNat_add_of_reaches hreach, hf.clocked.clock, Nat.mod_add_mod]
    obtain ⟨s', heq, hf'⟩ := follows_reinsert hf hh hpos hle hnew hsound rfl rfl
      (fun b hb => Function.update_of_ne hb ..) (Function.update_self ..) hrow
    rw [← hact] at heq
    exact ⟨s', heq, hf'⟩
  · rw [if_neg hpos]
    rw [show ((σ a).offset 0).toNat = 0 from Nat.eq_zero_of_not_pos hpos] at hrow
    have hf' := follows_stay hf hh hsound rfl rfl (fun b hb => Function.update_of_ne hb ..)
      (Function.update_self ..) hrow
    rw [← hact] at hf'
    exact ⟨_, rfl, hf'⟩

lemma follows_point (hf : Follows db σ s T) (hv : ∀ a, Valid db (σ a))
    (hr : InTurn db σ s (.base .point)) (hh : s.counter.handled = some a)
    (hact : s.acting = none) :
    ∃ s', step db σ s (.base .point) = some s' ∧
      ∃ T', exec (Roster.step σ) T (shows db σ s (.base .point)) = some T' ∧
        Follows db σ s' T' := by
  have hexp := (hf.clocked.expired hh).1
  obtain ⟨begun, position, hstage, hrun, hnext, hstart, hin, hidle, -⟩ := hf.handled hh
  obtain ⟨hat, hdue, hlast⟩ := hidle hact
  dsimp only [step, SchedTable.step, shows]
  rw [hh, hact]
  dsimp only
  unfold handleStExpiryPoint
  rw [if_pos hexp, if_pos hexp, hat]
  cases position with
  | some i =>
    -- the point is processed
    have hevent : T.step σ (.point a i) =
        some { T with stage := Function.update T.stage a (.running begun (after (σ a) i)) } := by
      dsimp only [Roster.step]
      rw [hstage]
      exact if_pos ⟨rfl, hdue⟩
    refine ⟨_, rfl, _, (exec_singleton _ T _).trans hevent, hf.clocked, ?_, fun h => ?_,
      rows_change (a := a) hf rfl (fun b hb => ?_) ?_⟩
    · exact sound_update hf.sound (by rw [hstage]; simp) fun h => by cases h
    · rw [show s.counter.handled = none from h] at hh
      cases hh
    · refine ⟨?_, rfl, Function.update_of_ne hb ..⟩
      have hhb : s.counter.handled ≠ some b := by
        rw [hh]
        simpa using Ne.symm hb
      simp [look, hhb]
    · dsimp only
      rw [Function.update_self]
      refine ⟨hrun, hnext, hstart, fun j hj => ?_, ?_⟩
      · unfold after at hj
        split_ifs at hj with hlt
        · obtain rfl := Option.some.inj hj
          exact hlt
        · cases hj
      · simp only [look, hh, if_true]
        exact ⟨(hf.clocked.expired hh).2, hin i rfl, hdue, trivial⟩
  | none =>
    obtain ⟨hsame, hother⟩ := hr a hh hat
    cases hb : T.next a with
    | none =>
      -- a round begins
      have hrep : (σ a).repeated = true := (hlast rfl).resolve_left (not_not.mpr hb)
      have hevent : T.step σ (.ended a) =
          some { T with stage := Function.update T.stage a (.running T.now (some 0)) } := by
        dsimp only [Roster.step]
        rw [hstage]
        dsimp only
        rw [if_pos hdue, hb]
        exact if_pos hrep
      obtain ⟨s', heq, hf'⟩ := follows_round hf (hv a) hh hact (hsame (hnext.trans hb))
      dsimp only
      rw [hnext, hb]
      dsimp only
      rw [Function.update_self]
      exact ⟨s', heq, _, (exec_singleton _ T _).trans hevent, hf'⟩
    | some b =>
      have hevent : T.step σ (.ended a) = some { T with
          stage := Function.update (Function.update T.stage a .stopped) b
            (.running T.now (some 0))
          next := Function.update T.next a none } := by
        dsimp only [Roster.step]
        rw [hstage]
        dsimp only
        rw [if_pos hdue, hb]
      obtain ⟨hpos, hclear, hreach⟩ := hother b (hnext.trans hb)
      obtain ⟨s', heq, hf'⟩ := follows_handOver hf (hv b) hh hact hb hpos hclear hreach
      dsimp only
      rw [hnext, hb]
      dsimp only
      rw [if_pos hpos, Function.update_self]
      exact ⟨s', heq, _, (exec_singleton _ T _).trans hevent, hf'⟩

omit [Fintype α] in
/-- The table is stopped after its last point. -/
lemma follows_finished (hf : Follows db σ s T) (hh : s.counter.handled = some a)
    (hnone : T.next a = none) :
    Follows db σ { s with
      stStatus := Function.update s.stStatus a .stopped
      counter := { s.counter with
        status := Function.update s.counter.status a .inactive
        handled := none }
      acting := none } { T with stage := Function.update T.stage a .stopped } := by
  obtain ⟨begun, position, hstage, -⟩ := hf.handled hh
  obtain ⟨hclocked, hcount⟩ := clocked_off hf.clocked hh
  refine ⟨hclocked, sound_update hf.sound (by rw [hstage]; simp) fun _ => hnone, fun _ => rfl,
    rows_change (a := a) hf rfl (fun b hb => ⟨?_, rfl, Function.update_of_ne hb ..⟩) ?_⟩
  · have hcb := congrFun hcount b
    rw [Function.update_of_ne hb] at hcb
    have hhb : s.counter.handled ≠ some b := by
      rw [hh]
      simpa using Ne.symm hb
    simp [look, hcb, Function.update_of_ne hb, hhb]
  · dsimp only
    rw [Function.update_self]
    have hca := congrFun hcount a
    rw [Function.update_self] at hca
    exact ⟨hca, Function.update_self ..⟩

/-- The table waits for a later point, or for the end of its round, from this tick on. -/
lemma follows_later {begun : ℕ} {position : Option ℕ} {x y : BitVec w} (hf : Follows db σ s T)
    (hh : s.counter.handled = some a) (hstage : T.stage a = .running begun position)
    (hx : T.now = begun + x.toNat) (hxy : x.toNat ≤ y.toNat)
    (hy : y.toNat ≤ db.maxallowedvalue.toNat)
    (hdue : due (σ a) begun position = begun + y.toNat)
    (hlast : position = none → T.next a ≠ none ∨ (σ a).repeated = true)
    (hreach : x < y → Reaches db (s.start a) y) :
    ∃ s', (if x < y then reinsert a (s.start a + y) { s with
          position := Function.update s.position a position
          acting := none }
        else some { s with
          position := Function.update s.position a position
          acting := none }) = some s' ∧ Follows db σ s' T := by
  obtain ⟨begun', position', hstage', hrun, hnext, hstart, hin, -⟩ := hf.handled hh
  obtain ⟨rfl, rfl⟩ : begun = begun' ∧ position = position' := by
    rw [hstage] at hstage'
    exact Stage.running.inj hstage'
  have hrow : Row db (σ a) T.now ⟨some (y.toNat - x.toNat), none, position, s.start a,
      s.nextTable a, s.stStatus a⟩ (T.next a) (.running begun position) :=
    ⟨hrun, hnext, hstart, hin, _, rfl, rfl, by omega, hlast⟩
  by_cases hlt : x < y
  · have hlt' : x.toNat < y.toNat := hlt
    have hnew : (s.start a + y).toNat =
        (T.now + (y.toNat - x.toNat)) % (db.maxallowedvalue.toNat + 1) := by
      rw [toNat_add_of_reaches (hreach hlt), hstart, Nat.mod_add_mod]
      congr 1
      omega
    obtain ⟨s', heq, hf'⟩ := follows_reinsert hf hh (by omega) (by omega) hnew hf.sound rfl rfl
      (fun _ _ => rfl) hstage hrow
    rw [Function.update_eq_self] at heq
    rw [if_pos hlt]
    exact ⟨s', heq, hf'⟩
  · have hle : y.toNat ≤ x.toNat := Nat.le_of_not_lt hlt
    rw [Nat.sub_eq_zero_of_le hle] at hrow
    have hf' := follows_stay hf hh hf.sound rfl rfl (fun _ _ => rfl) hstage hrow
    rw [Function.update_eq_self] at hf'
    rw [if_neg hlt]
    exact ⟨_, rfl, hf'⟩

lemma follows_handled {i : ℕ} (hf : Follows db σ s T) (hv : ∀ a, Valid db (σ a))
    (hr : InTurn db σ s (.base .handled)) (hh : s.counter.handled = some a)
    (hact : s.acting = some i) :
    ∃ s', step db σ s (.base .handled) = some s' ∧
      ∃ T', exec (Roster.step σ) T (shows db σ s (.base .handled)) = some T' ∧
        Follows db σ s' T' := by
  have hexp := (hf.clocked.expired hh).1
  obtain ⟨begun, position, hstage, -, hnext, -, -, -, hacts⟩ := hf.handled hh
  obtain ⟨hi, hdue, rfl⟩ := hacts i hact
  obtain ⟨hmid, hend⟩ := hr a hh i hact
  have hwithin := (hv a).within i hi
  dsimp only [step, SchedTable.step, shows]
  rw [hh, hact]
  dsimp only
  unfold expiryPointHandled
  dsimp only
  rw [if_pos hexp]
  by_cases hlast : i + 1 = (σ a).expiryPoints.length
  · have hafter : after (σ a) i = none := if_neg (by omega)
    rw [hafter] at hstage
    rw [if_pos hlast]
    by_cases hover : s.nextTable a = none ∧ (σ a).repeated = false
    · rw [if_pos hover, if_pos ⟨hexp, hlast, hover⟩]
      have hnone : T.next a = none := hnext.symm.trans hover.1
      have hevent : T.step σ (.finished a) =
          some { T with stage := Function.update T.stage a .stopped } := by
        dsimp only [Roster.step]
        rw [hstage]
        refine if_pos ⟨hnone, hover.2, ?_⟩
        rw [show (σ a).expiryPoints.length - 1 = i by omega]
        exact hdue
      exact ⟨_, rfl, _, (exec_singleton _ T _).trans hevent, follows_finished hf hh hnone⟩
    · rw [if_neg hover]
      have hmore : (σ a).repeated = true ∨ s.nextTable a ≠ none := by
        by_cases hn : s.nextTable a = none
        · left
          by_contra hrep
          exact hover ⟨hn, by simpa using hrep⟩
        · exact Or.inr hn
      obtain ⟨s', heq, hf'⟩ := follows_later hf hh hstage hdue hwithin (hv a).duration_le rfl
        (fun _ => by rw [← hnext]; exact hmore.symm) (hend hlast hmore)
      exact ⟨s', heq, T, by rw [if_neg fun h => hover h.2.2]; rfl, hf'⟩
  · have hafter : after (σ a) i = some (i + 1) := if_pos (by omega)
    rw [hafter] at hstage
    rw [if_neg hlast]
    have hle := (hv a).increasing i (by omega)
    have hin := (hv a).within (i + 1) (by omega)
    obtain ⟨s', heq, hf'⟩ := follows_later hf hh hstage hdue hle
      (hin.trans (hv a).duration_le) rfl (fun h => by cases h) (hmid (by omega))
    exact ⟨s', heq, T, by rw [if_neg fun h => hlast h.2.1]; rfl, hf'⟩

/-! ### Runs -/

/-- **The step lemma.** -/
lemma follows_step {y : Step w α} (hv : ∀ a, Valid db (σ a)) (hf : Follows db σ s T)
    (hr : InTurn db σ s y) (hs : step db σ s y = some s') :
    ∃ T', exec (Roster.step σ) T (shows db σ s y) = some T' ∧ Follows db σ s' T' := by
  -- most of the lemmas give a step and its end together
  have hend : ∀ {s₁ : Tables w α}, step db σ s y = some s₁ →
      (∃ T', exec (Roster.step σ) T (shows db σ s y) = some T' ∧ Follows db σ s₁ T') →
      ∃ T', exec (Roster.step σ) T (shows db σ s y) = some T' ∧ Follows db σ s' T' := by
    intro s₁ hs₁ h
    obtain rfl : s₁ = s' := Option.some.inj (hs₁.symm.trans hs)
    exact h
  cases y with
  | next a b =>
    obtain rfl := Option.some.inj hs
    exact follows_next hf
  | stop a =>
    obtain ⟨s₁, hs₁, h⟩ := follows_stop hf hr
    exact hend hs₁ h
  | base y =>
    cases y with
    | startRel a offset =>
      obtain ⟨s₁, hs₁, h⟩ := follows_startRel hf (hv a) hr
      exact hend hs₁ h
    | startAbs a start =>
      obtain ⟨s₁, hs₁, h⟩ := follows_startAbs hf (hv a) hr
      exact hend hs₁ h
    | increment => exact follows_increment hf hs
    | handle a => exact ⟨T, rfl, follows_handle hf hs⟩
    | point =>
      rcases hh : s.counter.handled with _ | a <;> rcases hact : s.acting with _ | i
      · simp [step, SchedTable.step, hh] at hs
      · simp [step, SchedTable.step, hh] at hs
      · obtain ⟨s₁, hs₁, h⟩ := follows_point hf hv hr hh hact
        exact hend hs₁ h
      · simp [step, SchedTable.step, hh, hact] at hs
    | handled =>
      rcases hh : s.counter.handled with _ | a <;> rcases hact : s.acting with _ | i
      · simp [step, SchedTable.step, hh] at hs
      · simp [step, SchedTable.step, hh] at hs
      · simp [step, SchedTable.step, hh, hact] at hs
      · obtain ⟨s₁, hs₁, h⟩ := follows_handled hf hv hr hh hact
        exact hend hs₁ h

omit [Fintype α] in
lemma follows_init : Follows db σ (init : Tables w α) Roster.init := by
  have hk : Kept db σ (init : Tables w α) Timetable.init := kept_init
  exact ⟨hk.clocked, sound_init, fun _ => rfl, fun _ => ⟨rfl, rfl⟩⟩

/-- Calls return, a tick is possible after the handling of the last one, and the handling of a
tick can always go on. -/
def Goes (db : CounterDb w) (σ : α → SchedTabDb w) (s : Tables w α) : Prop :=
  (∀ y, InTurn db σ s y → (∃ a b x, y = .base (.startRel a x) ∨ y = .base (.startAbs a x) ∨
    y = .next a b ∨ y = .stop a) → (step db σ s y).isSome) ∧
  (s.counter.Quiet → (step db σ s (.base .increment)).isSome) ∧
  (¬ s.counter.Quiet → ∃ y, ((∃ a, y = .handle a) ∨ y = .point ∨ y = .handled) ∧
    (InTurn db σ s (.base y) → (step db σ s (.base y)).isSome))

lemma Follows.goes (hf : Follows db σ s T) (hv : ∀ a, Valid db (σ a)) : Goes db σ s := by
  refine ⟨fun y hr hy => ?_, fun hq => ?_, fun hq => ?_⟩
  · obtain ⟨a, b, x, rfl | rfl | rfl | rfl⟩ := hy
    · obtain ⟨s', hs, -⟩ := follows_startRel hf (hv a) hr
      rw [hs]
      rfl
    · obtain ⟨s', hs, -⟩ := follows_startAbs hf (hv a) hr
      rw [hs]
      rfl
    · rfl
    · obtain ⟨s', hs, -⟩ := follows_stop hf hr
      rw [hs]
      rfl
  · obtain ⟨c', hc, -⟩ := clocked_increment hf.clocked hq
    dsimp only [step, SchedTable.step]
    rw [if_pos hq, hc]
    rfl
  · rcases hh : s.counter.handled with _ | a
    · rcases ht : s.counter.triggered with _ | a
      · exact absurd ⟨ht, hh⟩ hq
      · exact ⟨.handle a, Or.inl ⟨a, rfl⟩, fun _ => by simp [step, SchedTable.step, ht, hh]⟩
    · rcases hact : s.acting with _ | i
      · refine ⟨.point, Or.inr (Or.inl rfl), fun hr => ?_⟩
        obtain ⟨s', hs, -⟩ := follows_point hf hv hr hh hact
        rw [hs]
        rfl
      · refine ⟨.handled, Or.inr (Or.inr rfl), fun hr => ?_⟩
        obtain ⟨s', hs, -⟩ := follows_handled hf hv hr hh hact
        rw [hs]
        rfl

omit [Fintype α] in
/-- A table that another one follows is in its round. -/
lemma Follows.pending (hf : Follows db σ s T) (hv : Valid db (σ a)) (hb : T.next a = some b) :
    ∃ begun, Pending σ a b begun T ∧
      (s.start a).toNat = begun % (db.maxallowedvalue.toNat + 1) := by
  have hrun := hf.sound.running hb
  have hrow := hf.rows a
  cases hx : T.stage a with
  | stopped =>
    rw [hx] at hrun
    cases hrun
  | next =>
    rw [hx] at hrun
    cases hrun
  | running begun position =>
    rw [hx] at hrow
    obtain ⟨-, -, hstart, hin, hrow⟩ := hrow
    refine ⟨begun, ⟨hf.sound, ⟨position, hx, hin⟩, hb, ?_⟩, hstart⟩
    cases hact : (look db s a).acting with
    | none =>
      rw [hact] at hrow
      obtain ⟨d, -, -, hdue, -⟩ := hrow
      exact (by omega : T.now ≤ due (σ a) begun position).trans (due_le hv hin)
    | some i =>
      rw [hact] at hrow
      obtain ⟨-, hi, hdue, -⟩ := hrow
      rw [hdue]
      refine due_le hv fun j hj => ?_
      obtain rfl := Option.some.inj hj
      exact hi

/-- The calls that stop a table, or name the table after it, are seen as such. -/
lemma mem_shows {y : Step w α} {x : Event α} (hx : x ∈ shows db σ s y) :
    (x = .stopped a → y = .stop a) ∧ (x = .chained a b → y = .next a b) := by
  cases y with
  | next c d =>
    dsimp only [shows] at hx
    split_ifs at hx
    · obtain rfl := List.mem_singleton.mp hx
      refine ⟨fun h => (by cases h), fun h => ?_⟩
      obtain ⟨rfl, rfl⟩ := Event.chained.inj h
      rfl
    · cases hx
  | stop c =>
    dsimp only [shows] at hx
    split_ifs at hx
    · obtain rfl := List.mem_singleton.mp hx
      refine ⟨fun h => ?_, fun h => by cases h⟩
      obtain rfl := Event.stopped.inj h
      rfl
    · cases hx
  | base y =>
    have hother : (∀ a, x ≠ .stopped a) ∧ ∀ a b, x ≠ .chained a b := by
      cases y with
      | startRel c u =>
        dsimp only [shows] at hx
        split_ifs at hx
        · simp [List.mem_singleton.mp hx]
        · cases hx
      | startAbs c u =>
        dsimp only [shows] at hx
        split_ifs at hx
        · simp [List.mem_singleton.mp hx]
        · cases hx
      | increment =>
        dsimp only [shows] at hx
        split_ifs at hx
        · simp [List.mem_singleton.mp hx]
        · cases hx
      | handle c => cases hx
      | point =>
        dsimp only [shows] at hx
        cases hh : s.counter.handled with
        | none =>
          rw [hh] at hx
          cases hx
        | some c =>
          rw [hh] at hx
          dsimp only at hx
          split_ifs at hx
          · cases hpos : s.position c <;> rw [hpos] at hx <;> simp [List.mem_singleton.mp hx]
          · cases hx
      | handled =>
        dsimp only [shows] at hx
        split at hx
        · split_ifs at hx
          · simp [List.mem_singleton.mp hx]
          · cases hx
        · cases hx
    exact ⟨fun h => absurd h (hother.1 a), fun h => absurd h (hother.2 a b)⟩

lemma mem_seen {ys : List (Step w α)} {x : Event α}
    (hx : x ∈ seen (step db σ) (shows db σ) s ys) : ∃ y ∈ ys, ∃ s, x ∈ shows db σ s y := by
  induction ys generalizing s with
  | nil => cases hx
  | cons y ys ih =>
    rw [seen, List.mem_append] at hx
    rcases hx with hx | hx
    · exact ⟨y, List.mem_cons_self, s, hx⟩
    · cases hs : step db σ s y with
      | none =>
        rw [hs] at hx
        cases hx
      | some t =>
        rw [hs] at hx
        obtain ⟨z, hz, h⟩ := ih hx
        exact ⟨z, List.mem_cons_of_mem _ hz, h⟩

end Steps

/-- Where `NextScheduleTable` has named the table after this one, and the table is not stopped
and gets no other table after it, its round goes on to its end, and there the other table takes
over. -/
def Chains (db : CounterDb w) (σ : α → SchedTabDb w) (ys : List (Step w α)) : Prop :=
  ∀ pre a b post s, ys = pre ++ .next a b :: post → exec (step db σ) init pre = some s →
    (nextScheduleTable σ a b s).2 = .eOk → (∀ y ∈ post, y ≠ .stop a ∧ ∀ c, y ≠ .next a c) →
    ∃ begun T T', (s.start a).toNat = begun % (db.maxallowedvalue.toNat + 1) ∧
      exec (Roster.step σ) Roster.init
        (seen (step db σ) (shows db σ) init pre ++ [.chained a b]) = some T ∧
      exec (Roster.step σ) T
        (seen (step db σ) (shows db σ) (nextScheduleTable σ a b s).1 post) = some T' ∧
      HandsOver σ a b begun T
        (seen (step db σ) (shows db σ) (nextScheduleTable σ a b s).1 post) T'

/-- **Tables follow one another.** -/
theorem tables_chained (db : CounterDb w) (σ : α → SchedTabDb w) (hv : ∀ a, Valid db (σ a))
    (ys : List (Step w α)) (hy : Along (step db σ) (InTurn db σ) init ys) (s : Tables w α)
    (hs : exec (step db σ) init ys = some s) :
    OnTime.Queued db s ∧ Goes db σ s ∧ Chains db σ ys ∧
      ∃ T, exec (Roster.step σ) Roster.init (seen (step db σ) (shows db σ) init ys) = some T ∧
        s.counter.value.toNat = T.now % (db.maxallowedvalue.toNat + 1) ∧
        ∀ a, (s.stStatus a = .stopped ↔ T.stage a = .stopped) ∧
          (s.stStatus a = .next ↔ T.stage a = .next) := by
  have hrun : ∀ {s s' : Tables w α} {T : Roster α} {ys : List (Step w α)}, Follows db σ s T →
      Along (step db σ) (InTurn db σ) s ys → exec (step db σ) s ys = some s' →
      ∃ T', exec (Roster.step σ) T (seen (step db σ) (shows db σ) s ys) = some T' ∧
        Follows db σ s' T' := fun hf hy hs =>
    exec_seen (shows db σ) (fun s y s' T hf hr hs => follows_step hv hf hr hs) hf hy hs
  obtain ⟨T, hT, hf⟩ := hrun follows_init hy hs
  refine ⟨hf.clocked.queued, hf.goes hv, ?_, T, hT, hf.clocked.clock,
    fun a => ⟨(hf.rows a).stopped_iff, (hf.rows a).next_iff⟩⟩
  rintro pre a b post s₀ rfl hpre hok hpost
  obtain ⟨s₁, hs₁, hs⟩ := (exec_append _).mp hs
  obtain rfl : s₀ = s₁ := Option.some.inj (hpre.symm.trans hs₁)
  obtain ⟨s₂, hs₂, hs⟩ := (exec_cons _).mp hs
  obtain rfl : (nextScheduleTable σ a b s₀).1 = s₂ := Option.some.inj hs₂
  obtain ⟨T₀, hT₀, hf₀⟩ := hrun follows_init (along_take hy) hpre
  have hshows : shows db σ s₀ (.next a b) = [.chained a b] := if_pos hok
  obtain ⟨T₁, hT₁, hf₁⟩ := follows_next (a := a) (b := b) hf₀
  rw [hshows] at hT₁
  obtain ⟨T₂, hT₂, -⟩ := hrun hf₁ ((along_append hy hpre).2 _ hs₂) hs
  have hnext : T₁.next a = some b := by
    rw [exec_singleton] at hT₁
    dsimp only [Roster.step] at hT₁
    split_ifs at hT₁
    rw [← Option.some.inj hT₁]
    exact Function.update_self ..
  obtain ⟨begun, hp, hstart⟩ := hf₁.pending (hv a) hnext
  have hsame : (nextScheduleTable σ a b s₀).1.start = s₀.start := by
    unfold nextScheduleTable
    split_ifs <;> rfl
  refine ⟨begun, T₁, T₂, by rw [← hsame]; exact hstart, (exec_append _).mpr ⟨T₀, hT₀, hT₁⟩, hT₂,
    handsOver_exec (hv a) hp (fun x hx => ?_) hT₂⟩
  obtain ⟨y, hy, s', hx⟩ := mem_seen hx
  exact ⟨fun h => (hpost y hy).1 ((mem_shows (b := b) hx).1 h),
    fun c h => (hpost y hy).2 c ((mem_shows hx).2 h)⟩

/-- Two repeating tables; the second has its point at this offset. -/
def pair (x : BitVec 8) : Bool → SchedTabDb 8
  | true => ⟨[1], .none, 3, true⟩
  | false => ⟨[x], .none, 4, true⟩

/-- The first table starts, and its round ends at the fourth tick. -/
def oneRound : List (Step 8 Bool) :=
  [.base (.startRel true 1), .next true false, .base .increment, .base .increment,
    .base (.handle true), .base .point, .base .handled, .base .increment, .base .increment,
    .base (.handle true), .base .point]

/-- The point of the second table is two ticks later. -/
def secondPoint : List (Step 8 Bool) :=
  [.base .increment, .base .increment, .base (.handle false), .base .point]

/-- The first table follows the second one and has a whole round. -/
def thereAndBack : List (Step 8 Bool) :=
  [.base .handled, .next false true, .base .increment, .base .increment, .base (.handle false),
    .base .point, .base .increment, .base (.handle true), .base .point, .base .handled,
    .base .increment, .base .increment, .base (.handle true), .base .point]

theorem tables_chained_secondPoint :
    Chains ⟨99, 1⟩ (pair 2) (oneRound ++ secondPoint) ∧
      ∃ T, exec (Roster.step (pair 2)) Roster.init
        [.started true 1, .chained true false, .tick, .tick, .point true 0, .tick, .tick,
          .ended true, .tick, .tick, .point false 0] = some T := by
  obtain ⟨s, hs⟩ : ∃ s, exec (step ⟨99, 1⟩ (pair 2)) init (oneRound ++ secondPoint) = some s :=
    Option.isSome_iff_exists.mp (by decide +kernel)
  have hlog : seen (step ⟨99, 1⟩ (pair 2)) (shows ⟨99, 1⟩ (pair 2)) init
      (oneRound ++ secondPoint) =
        [.started true 1, .chained true false, .tick, .tick, .point true 0, .tick, .tick,
          .ended true, .tick, .tick, .point false 0] := by decide +kernel
  obtain ⟨-, -, hchains, T, hT, -⟩ := tables_chained ⟨99, 1⟩ (pair 2) (by decide +kernel)
    (oneRound ++ secondPoint) (by decide +kernel) s hs
  rw [hlog] at hT
  exact ⟨hchains, T, hT⟩

/-- A table that takes over with its first point at once is said to run, but its trigger is off
and its point is not processed. A table that took over before and had another table after it then
starts that table again, which nobody has asked for. -/
theorem chained_goes_wrong :
    ((∀ a, Valid ⟨99, 1⟩ (pair 0 a)) ∧
      ((exec (step ⟨99, 1⟩ (pair 0)) init
        (oneRound ++ .base .point :: List.replicate 30 (.base .increment))).map fun s =>
          (s.stStatus false, s.counter.status false, s.position false)) =
        some (.running, .inactive, some 0) ∧
      (exec (Roster.step (pair 0)) Roster.init (seen (step ⟨99, 1⟩ (pair 0))
        (shows ⟨99, 1⟩ (pair 0)) init
        (oneRound ++ .base .point :: List.replicate 30 (.base .increment)))).isNone) ∧
    ((∀ a, Valid ⟨99, 1⟩ (pair 2 a)) ∧
      ((exec (step ⟨99, 1⟩ (pair 2)) init (oneRound ++ secondPoint ++ thereAndBack)).map fun s =>
        (s.stStatus true, s.stStatus false)) = some (.stopped, .running) ∧
      ((exec (Roster.step (pair 2)) Roster.init (seen (step ⟨99, 1⟩ (pair 2))
        (shows ⟨99, 1⟩ (pair 2)) init (oneRound ++ secondPoint ++ thereAndBack))).map fun T =>
          (T.stage true, T.stage false)) = some (.running 11 (some 0), .stopped)) := by
  exact ⟨⟨by decide +kernel, by decide +kernel, by decide +kernel⟩, by decide +kernel,
    by decide +kernel, by decide +kernel⟩

end FpMemSched.Erika.Chaining
