import FpMemSched.Erika.AlarmsAgree

/-!
Calls of other cores while a counter is incremented.

The core that owns a counter increments the value before it has the lock under which it takes the
triggers that expire. A call of another core that comes between finds the new value and the
triggers of that tick still in the queue. It cancels such an alarm in time. But the insertion takes
these triggers for the last ones of the next round, so that a new one gets in front of them and the
tick does not find them.
-/

namespace FpMemSched.Erika.TwoCores

open FpMemSched.Lib.Runs FpMemSched.Lib.Circular FpMemSched.Erika.Alarm
open FpMemSched.Erika.Countdown FpMemSched.Erika.AlarmsAgree

variable {w : ℕ} {α : Type}
variable {db : CounterDb w} {c c' : Counter w α} {q e : List α} {a : α}

/-! ### The model -/

structure Shared (w : ℕ) (α : Type) where
  counter : Counter w α
  /-- The value is that of a tick whose triggers have not been taken off the queue. -/
  advanced : Bool

def Shared.init : Shared w α := ⟨Alarm.init, false⟩

inductive Turn (w : ℕ) (α : Type)
  /-- A call of some core, or the begin or the end of an action. -/
  | call (y : Step w α)
  /-- The increment up to the lock. -/
  | advance
  /-- The increment from the lock to the handling of the triggers. -/
  | take
  deriving DecidableEq

section Turns

variable [DecidableEq α] [Fintype α]

def turn (db : CounterDb w) (s : Shared w α) : Turn w α → Option (Shared w α)
  | .call .increment => none
  | .call y => (step db s.counter y).map (⟨·, s.advanced⟩)
  | .advance =>
    if s.advanced = false ∧ s.counter.Quiet then
      some ⟨(s.counter.incrementValue db).1, (s.counter.incrementValue db).2⟩
    else none
  | .take => if s.advanced then s.counter.popTriggered.map (⟨·, false⟩) else none

end Turns

/-- No alarm expires at the value. -/
def NoneDue (c : Counter w α) : Prop := ∀ b, c.status b = .active → c.when b ≠ c.value

instance [Fintype α] (c : Counter w α) : Decidable (NoneDue c) :=
  inferInstanceAs (Decidable (∀ _, _))

/-- No expired alarm is cancelled. And before the triggers of a tick are taken, no alarm is put in
the queue that expires with them, or while there are some. -/
def InTime (s : Shared w α) : Turn w α → Prop
  | .call (.setRel a _ _) =>
    s.advanced = true → s.counter.status a = .inactive → NoneDue s.counter
  | .call (.setAbs a start _) =>
    s.advanced = true → s.counter.status a = .inactive →
      NoneDue s.counter ∧ start ≠ s.counter.value
  | .call (.cancel a) => s.counter.status a ≠ .expired
  | _ => True

instance [Fintype α] (s : Shared w α) : ∀ x : Turn w α, Decidable (InTime s x)
  | .call (.setRel ..) => inferInstanceAs (Decidable (_ → _))
  | .call (.setAbs ..) => inferInstanceAs (Decidable (_ → _))
  | .call (.cancel a) => inferInstanceAs (Decidable (s.counter.status a ≠ .expired))
  | .call .increment | .call (.action _) | .call .finish | .advance | .take => isTrue trivial

/-! ### The value before the tick -/

/-- The counter at another value. -/
def Counter.at (c : Counter w α) (v p : BitVec w) : Counter w α :=
  { c with value := v, prescaler := p }

section At

variable {v p : BitVec w}

lemma cancelLoop_at [DecidableEq α] (a : α) (k : ℕ) (x : α) :
    (Counter.at c v p).cancelLoop a k x = c.cancelLoop a k x := by
  induction k generalizing x with
  | zero => rfl
  | succ k ih =>
    rw [Counter.cancelLoop, Counter.cancelLoop, show (Counter.at c v p).next x = c.next x from rfl]
    rcases c.next x with _ | cur
    · rfl
    · dsimp only
      rw [ih]

/-- A cancellation does not look at the value. -/
lemma alarmCancel_at [DecidableEq α] [Fintype α] (a : α) :
    alarmCancel a (Counter.at c v p) =
      (alarmCancel a c).map fun r => (Counter.at r.1 v p, r.2) := by
  have hloop : ∀ c : Counter w α, counterCancelTrigger a (Counter.at c v p) =
      (counterCancelTrigger a c).map fun d => Counter.at d v p := by
    intro c
    unfold counterCancelTrigger
    rw [show (Counter.at c v p).triggerQueue = c.triggerQueue from rfl]
    rcases c.triggerQueue with _ | h
    · rfl
    · dsimp only
      split_ifs
      · rfl
      · rw [cancelLoop_at, Option.map_map]
        refine congrArg (fun f => Option.map f _) (funext fun r => ?_)
        rcases r with ⟨prev, _ | cur⟩ <;> rfl
  unfold alarmCancel
  rw [show (Counter.at c v p).status = c.status from rfl]
  rcases c.status a with _ | _ | _ | _ | _
  · rfl
  · rfl
  · dsimp only
    rw [Option.map_map]
    exact (congrArg _ (hloop { c with status := Function.update c.status a .inactive })).trans
      (Option.map_map ..)
  · rfl
  · rfl

variable (hv : v.toNat = advance db.maxallowedvalue.toNat c.value.toNat)

include hv

/-- What does not expire with the tick is one nearer after it. -/
lemma away_at (hval : c.value.toNat ≤ db.maxallowedvalue.toNat)
    (hw : (c.when a).toNat ≤ db.maxallowedvalue.toNat) (hne : c.when a ≠ v) :
    away db (Counter.at c v p) a + 1 = away db c a := by
  have hzero : dist db.maxallowedvalue.toNat c.value.toNat (c.when a).toNat ≠ 0 := by
    rw [Ne, dist_eq_zero hval hw, ← hv, BitVec.toNat_inj]
    exact hne
  have hless := dist_advance hval hw hzero
  rwa [← hv] at hless

/-- A queue of which nothing expires with the tick is in order before it and after it. -/
lemma good_at_iff (hval : c.value.toNat ≤ db.maxallowedvalue.toNat)
    (hpre : c.prescaler.toNat = 0 ∨ c.prescaler.toNat < db.ticksperbase.toNat)
    (hp : p.toNat = 0 ∨ p.toNat < db.ticksperbase.toNat)
    (hw : ∀ b ∈ q, (c.when b).toNat ≤ db.maxallowedvalue.toNat) (hn : ∀ b ∈ q, c.when b ≠ v) :
    Good db (Counter.at c v p) q e ↔ Good db c q e := by
  have haway : ∀ b ∈ q, away db (Counter.at c v p) b + 1 = away db c b :=
    fun b hb => away_at hv hval (hw b hb) (hn b hb)
  constructor
  · intro hg
    refine ⟨hval, hpre, hg.queue, hg.todo, hg.once, hg.active, hg.expired, hg.settled, hg.handled,
      List.Pairwise.imp_of_mem (fun {x y} hx hy hxy => ?_) hg.order, hg.when_le, hg.cycle_le⟩
    have hx := haway x hx
    have hy := haway y hy
    omega
  · intro hg
    refine ⟨?_, hp, hg.queue, hg.todo, hg.once, hg.active, hg.expired, hg.settled, hg.handled,
      List.Pairwise.imp_of_mem (fun {x y} hx hy hxy => ?_) hg.order, hg.when_le, hg.cycle_le⟩
    · rw [show (Counter.at c v p).value = v from rfl, hv]
      exact advance_le hval
    · have hx := haway x hx
      have hy := haway y hy
      omega

/-- The countdowns do not count the tick before its triggers are taken. -/
lemma count_at (hg : Good db c q []) (hh : c.handled = none) (hn : ∀ b ∈ q, c.when b ≠ v) (b : α) :
    count db c b = (count db (Counter.at c v p) b).map (· + 1) := by
  have hexp : c.status b ≠ .expired := by simp [hg.expired, hh]
  by_cases ha : c.status b = .active
  · have hb : b ∈ q := (hg.active b).mp ha
    have haway := away_at (p := p) hv hg.value_le (hg.when_le b hb) (hn b hb)
    rw [count_of_active ha, count_of_active (c := Counter.at c v p) ha, Option.map_some, haway]
  · rw [count_of_off ha hexp, count_of_off (c := Counter.at c v p) ha hexp, Option.map_none]

end At

/-! ### Countdowns and statuses -/

lemma count_eq_none (hg : Good db c q e) : count db c a = none ↔ c.status a = .inactive := by
  have hs := hg.settled a
  unfold count
  rcases hst : c.status a with _ | _ | _ | _ | _ <;> simp_all

/-- What expires at the value has a whole round to go. -/
lemma noneDue_iff (hg : Good db c q e) :
    NoneDue c ↔ ∀ b, count db c b ≠ some (db.maxallowedvalue.toNat + 1) := by
  refine forall_congr' fun b => ?_
  by_cases ha : c.status b = .active
  · have hmax := dist_eq_max hg.value_le (hg.when_le b ((hg.active b).mp ha))
    rw [BitVec.toNat_inj] at hmax
    rw [count_of_active ha, Ne, ← hmax]
    simp [ha, away]
  · have hcount : count db c b ≠ some (db.maxallowedvalue.toNat + 1) := by
      unfold count
      split_ifs <;> simp
    simp [ha, hcount]

/-- An alarm that expires with the tick counts one. -/
lemma count_eq_one (hg : Good db c q []) (hh : c.handled = none)
    (hv : v.toNat = advance db.maxallowedvalue.toNat c.value.toNat) (a : α) :
    count db c a = some 1 ↔ c.status a = .active ∧ c.when a = v := by
  by_cases ha : c.status a = .active
  · have hzero := dist_eq_zero hg.value_le (hg.when_le a ((hg.active a).mp ha))
    rw [← hv, BitVec.toNat_inj] at hzero
    rw [count_of_active ha, ← hzero]
    simp [ha, away]
  · have hexp : c.status a ≠ .expired := by simp [hg.expired, hh]
    simp [count_of_off ha hexp, ha]

end FpMemSched.Erika.TwoCores
