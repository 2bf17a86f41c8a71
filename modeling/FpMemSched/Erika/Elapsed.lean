import FpMemSched.Erika.AlarmsAgree

/-!
The arithmetic of counters: the value to which a counter comes after some ticks, how many ticks
it is away from a value, and how many have gone by since.

The value of a counter is changed by ticks only, so that in every run, whatever is done with the
alarms meanwhile, it tells the number of ticks up to whole rounds.
-/

namespace FpMemSched.Erika.Elapsed

open FpMemSched.Lib.Circular FpMemSched.Lib.Runs
open FpMemSched.Erika.Alarm FpMemSched.Erika.AlarmsAgree

variable {w : ℕ} {α : Type}

def counterEvalDelta (db : CounterDb w) (when : BitVec w) (c : Counter w α) : BitVec w :=
  if c.value < when then when - c.value
  else db.maxallowedvalue - c.value + when + 1

/-- The ticks since the value and the value to go on with. -/
def getElapsedValue (db : CounterDb w) (value : BitVec w) (c : Counter w α) :
    Except StatusType (BitVec w × BitVec w) :=
  if db.maxallowedvalue < value then .error .eOsValue
  else
    let elapsed := if value ≤ c.value then c.value - value
      else db.maxallowedvalue - (value - c.value) + 1
    .ok (elapsed, c.value)

/-! ### Values and distances -/

section

variable {db : CounterDb w} {c : Counter w α}

/-- One round is the whole of the type where the largest value is. -/
lemma toNat_counterEvalDelta {when : BitVec w} (hv : c.value.toNat ≤ db.maxallowedvalue.toNat)
    (hw : when.toNat ≤ db.maxallowedvalue.toNat) :
    (counterEvalDelta db when c).toNat =
      (dist db.maxallowedvalue.toNat c.value.toNat when.toNat + 1) % 2 ^ w := by
  have hM := db.maxallowedvalue.isLt
  unfold counterEvalDelta
  by_cases h : c.value.toNat < when.toNat
  · rw [if_pos (BitVec.lt_def.mpr h), dist_of_lt h hw,
      BitVec.toNat_sub_of_le (BitVec.le_def.mpr h.le), Nat.mod_eq_of_lt (by omega)]
    omega
  · have hrest : (db.maxallowedvalue - c.value).toNat =
        db.maxallowedvalue.toNat - c.value.toNat :=
      BitVec.toNat_sub_of_le (BitVec.le_def.mpr hv)
    have hsum : (db.maxallowedvalue - c.value + when).toNat =
        db.maxallowedvalue.toNat - c.value.toNat + when.toNat := by
      rw [BitVec.toNat_add_of_lt (by omega), hrest]
    rw [if_neg (mt BitVec.lt_def.mp h), dist_of_le (by omega) hv, BitVec.toNat_add, hsum,
      show (1 : BitVec w).toNat = 1 % 2 ^ w from BitVec.toNat_ofNat 1 w, Nat.add_mod_mod]
    congr 1
    omega

/-- Only the value where the counter stands is a whole round away. -/
lemma dist_lt_of_ne {M v x : ℕ} (hv : v ≤ M) (hx : x ≤ M) (hne : x ≠ v) : dist M v x + 1 ≤ M := by
  rcases Nat.lt_or_ge v x with h | h
  · rw [dist_of_lt h hx]
    omega
  · rw [dist_of_le h hv]
    omega

lemma ahead_dist {M v x : ℕ} (hv : v ≤ M) (hx : x ≤ M) (hne : x ≠ v) :
    ahead M v (dist M v x + 1) = x := by
  have hmod : v % (M + 1) = v := Nat.mod_eq_of_lt (by omega)
  have h := ahead_mod (t := v) (dist_lt_of_ne hv hx hne)
  rw [hmod] at h
  rw [h]
  have hd := mod_dist (t := v) hx
  rwa [hmod] at hd

lemma getElapsedValue_eq {value : BitVec w} {k : ℕ}
    (hv : value.toNat ≤ db.maxallowedvalue.toNat) (hk : k ≤ db.maxallowedvalue.toNat)
    (hc : c.value.toNat = (value.toNat + k) % (db.maxallowedvalue.toNat + 1)) :
    getElapsedValue db value c = .ok (BitVec.ofNat w k, c.value) := by
  have hM := db.maxallowedvalue.isLt
  have hmod : value.toNat % (db.maxallowedvalue.toNat + 1) = value.toNat :=
    Nat.mod_eq_of_lt (by omega)
  rw [mod_add (by omega), hmod] at hc
  have helapsed : (if value ≤ c.value then c.value - value
      else db.maxallowedvalue - (value - c.value) + 1) = BitVec.ofNat w k := by
    apply BitVec.eq_of_toNat_eq
    rw [BitVec.toNat_ofNat, Nat.mod_eq_of_lt (by omega : k < 2 ^ w)]
    by_cases hle : value.toNat + k ≤ db.maxallowedvalue.toNat
    · rw [if_pos hle] at hc
      rw [if_pos (BitVec.le_def.mpr (by omega)),
        BitVec.toNat_sub_of_le (BitVec.le_def.mpr (by omega))]
      omega
    · rw [if_neg hle] at hc
      have hsub : (value - c.value).toNat = value.toNat - c.value.toNat :=
        BitVec.toNat_sub_of_le (BitVec.le_def.mpr (by omega))
      have hrest : (db.maxallowedvalue - (value - c.value)).toNat =
          db.maxallowedvalue.toNat - (value.toNat - c.value.toNat) := by
        rw [BitVec.toNat_sub_of_le (BitVec.le_def.mpr (by omega)), hsub]
      have hone : (1 : BitVec w).toNat = 1 := toNat_one (by omega)
      rw [if_neg (mt BitVec.le_def.mp (by omega)), BitVec.toNat_add_of_lt (by omega), hrest, hone]
      omega
  unfold getElapsedValue
  rw [if_neg (mt BitVec.lt_def.mp (by omega))]
  dsimp only
  rw [helapsed]

end

/-! ### Ticks -/

section

variable {db : CounterDb w} {c c' : Counter w α} {a : α} [DecidableEq α]

lemma expireLoop_value {k : ℕ} {cur last : α} {o : Option α}
    (h : c.expireLoop k cur = some (c', last, o)) : c'.value = c.value := by
  induction k generalizing c cur with
  | zero => cases h
  | succ k ih =>
    rw [Counter.expireLoop] at h
    split at h
    · cases h
      rfl
    · split_ifs at h
      · have hval := ih h
        exact hval
      · cases h
        rfl

variable [Fintype α]

lemma insertAbsTrigger_value {when : BitVec w} (h : counterInsertAbsTrigger a when c = some c') :
    c'.value = c.value := by
  unfold counterInsertAbsTrigger at h
  dsimp only at h
  obtain ⟨⟨prev, cur⟩, -, rfl⟩ := Option.map_eq_some_iff.mp h
  cases prev <;> rfl

lemma cancelTrigger_value (h : counterCancelTrigger a c = some c') : c'.value = c.value := by
  unfold counterCancelTrigger at h
  split at h
  · cases h
  · split_ifs at h
    · cases h
      rfl
    · obtain ⟨⟨prev, cur⟩, -, rfl⟩ := Option.map_eq_some_iff.mp h
      cases cur <;> rfl

lemma popTriggered_value (h : c.popTriggered = some c') : c'.value = c.value := by
  unfold Counter.popTriggered at h
  split at h
  · cases h
    rfl
  · split_ifs at h
    · obtain ⟨⟨d, last, o⟩, hd, rfl⟩ := Option.map_eq_some_iff.mp h
      have hval := expireLoop_value hd
      exact hval
    · cases h
      rfl

lemma handleAlarm_value (h : counterHandleAlarm db a c = some c') : c'.value = c.value := by
  unfold counterHandleAlarm counterInsertRelTrigger at h
  split_ifs at h
  · have hval := insertAbsTrigger_value h
    exact hval
  · cases h
    rfl
  · cases h
    rfl

lemma alarmSetRel_value {increment cycle : BitVec w} {r : StatusType}
    (h : alarmSetRel db a increment cycle c = some (c', r)) : c'.value = c.value := by
  unfold alarmSetRel counterInsertRelTrigger at h
  split at h
  iterate 4
    cases h
    rfl
  obtain ⟨d, hd, he⟩ := Option.map_eq_some_iff.mp h
  cases he
  have hval := insertAbsTrigger_value hd
  exact hval

lemma alarmSetAbs_value {start cycle : BitVec w} {r : StatusType}
    (h : alarmSetAbs a start cycle c = some (c', r)) : c'.value = c.value := by
  unfold alarmSetAbs at h
  split at h
  iterate 4
    cases h
    rfl
  obtain ⟨d, hd, he⟩ := Option.map_eq_some_iff.mp h
  cases he
  have hval := insertAbsTrigger_value hd
  exact hval

lemma alarmCancel_value {r : StatusType} (h : alarmCancel a c = some (c', r)) :
    c'.value = c.value := by
  unfold alarmCancel at h
  split at h
  iterate 4
    cases h
    rfl
  obtain ⟨d, hd, he⟩ := Option.map_eq_some_iff.mp h
  cases he
  have hval := cancelTrigger_value hd
  exact hval

omit [DecidableEq α] [Fintype α] in
lemma prescale_value (db : CounterDb w) (c : Counter w α) :
    (c.prescale db).1.value = c.value := by
  unfold Counter.prescale
  split_ifs <;> rfl

/-- The step is a tick of the counter, not only of its prescaler. -/
def Ticks (db : CounterDb w) (c : Counter w α) (x : Step w α) : Prop :=
  x = .increment ∧ (c.prescale db).2 = true

instance (c : Counter w α) (x : Step w α) : Decidable (Ticks db c x) :=
  inferInstanceAs (Decidable (_ ∧ _))

/-- A tick advances the value; nothing else changes it. -/
lemma step_value {x : Step w α} (h : step db c x = some c') :
    c'.value = if Ticks db c x then
      (if db.maxallowedvalue ≤ c.value then 0 else c.value + 1) else c.value := by
  cases x with
  | setRel a increment cycle =>
    rw [if_neg (by simp [Ticks])]
    rw [step] at h
    split_ifs at h
    obtain ⟨⟨d, r⟩, hd, rfl⟩ := Option.map_eq_some_iff.mp h
    exact alarmSetRel_value hd
  | setAbs a start cycle =>
    rw [if_neg (by simp [Ticks])]
    rw [step] at h
    split_ifs at h
    obtain ⟨⟨d, r⟩, hd, rfl⟩ := Option.map_eq_some_iff.mp h
    exact alarmSetAbs_value hd
  | cancel a =>
    rw [if_neg (by simp [Ticks])]
    obtain ⟨⟨d, r⟩, hd, rfl⟩ := Option.map_eq_some_iff.mp h
    exact alarmCancel_value hd
  | increment =>
    rw [step] at h
    split_ifs at h
    have hp := prescale_value db c
    rcases hd : c.prescale db with ⟨d, _ | _⟩
    · rw [counterIncrement, Counter.incrementValue, hd] at h
      rw [hd] at hp
      rw [if_neg (by simp [Ticks, hd])]
      cases h
      exact hp
    · rw [counterIncrement, Counter.incrementValue, hd] at h
      rw [hd] at hp
      have hval := popTriggered_value h
      dsimp only at hp hval
      have ht : Ticks db c .increment := ⟨rfl, by rw [hd]⟩
      rw [if_pos ht, hval, hp]
  | action a =>
    rw [if_neg (by simp [Ticks])]
    rw [step] at h
    split_ifs at h
    cases h
    rfl
  | finish =>
    rw [if_neg (by simp [Ticks])]
    rw [step] at h
    split at h
    · cases h
    · obtain ⟨d, hd, rfl⟩ := Option.map_eq_some_iff.mp h
      have hval := handleAlarm_value hd
      exact hval

/-- The ticks of a run. -/
def ticks (db : CounterDb w) : Counter w α → List (Step w α) → ℕ
  | _, [] => 0
  | c, x :: xs =>
    (if Ticks db c x then 1 else 0) + (step db c x).elim 0 fun c' => ticks db c' xs

/-- **The value of a counter tells its ticks**, up to whole rounds. -/
lemma exec_value {xs : List (Step w α)} (hv : c.value.toNat ≤ db.maxallowedvalue.toNat)
    (h : exec (step db) c xs = some c') :
    c'.value.toNat = (c.value.toNat + ticks db c xs) % (db.maxallowedvalue.toNat + 1) := by
  induction xs generalizing c with
  | nil =>
    obtain rfl : c = c' := by simpa using h
    exact (Nat.mod_eq_of_lt (by simpa [ticks] using Nat.lt_succ_of_le hv)).symm
  | cons x xs ih =>
    obtain ⟨d, hd, h⟩ := (exec_cons _).mp h
    have hval := congrArg BitVec.toNat (step_value hd)
    rw [ticks, hd]
    by_cases ht : Ticks db c x
    · rw [if_pos ht, toNat_advance] at hval
      have hadv := advance_mod (M := db.maxallowedvalue.toNat) (t := c.value.toNat)
      rw [Nat.mod_eq_of_lt (Nat.lt_succ_of_le hv)] at hadv
      rw [ih (by rw [hval]; exact advance_le hv) h, hval, hadv, Nat.mod_add_mod, if_pos ht]
      congr 1
      exact Nat.add_assoc ..
    · rw [if_neg ht] at hval
      rw [ih (by rw [hval]; exact hv) h, hval, if_neg ht, Nat.zero_add]
      rfl

/-- Without a prescaler every increment is a tick. -/
lemma ticks_eq_count {xs : List (Step w α)} (hp : db.ticksperbase ≤ 1)
    (h : exec (step db) c xs = some c') : ticks db c xs = xs.count .increment := by
  have hone : ∀ c : Counter w α, (c.prescale db).2 = true := by
    intro c
    unfold Counter.prescale
    rw [if_neg (BitVec.not_lt.mpr hp)]
  induction xs generalizing c with
  | nil => rfl
  | cons x xs ih =>
    obtain ⟨d, hd, h⟩ := (exec_cons _).mp h
    rw [ticks, hd, Option.elim_some, ih h, List.count_cons, Nat.add_comm]
    congr 1
    simp [Ticks, hone]

/-- **The arithmetic of counters is exact modulo `maxallowedvalue + 1`**: for every counter whose
value is allowed, an increment leads to the value it comes to, with no difference or sum of the
code wrapping on the way, and back; a value other than the own one leads to the increment, and
back; and in every run that has no more ticks than one round, whatever else happens in it,
`GetElapsedValue` tells the number of the ticks. -/
theorem counter_exact (db : CounterDb w) (c : Counter w α) (hv : c.value ≤ db.maxallowedvalue) :
    (∀ delta : BitVec w, 1 ≤ delta.toNat → delta ≤ db.maxallowedvalue →
      (counterEvalWhen db delta c).toNat =
        (c.value.toNat + delta.toNat) % (db.maxallowedvalue.toNat + 1) ∧
      (db.maxallowedvalue - delta).toNat = db.maxallowedvalue.toNat - delta.toNat ∧
      (if c.value ≤ db.maxallowedvalue - delta then
        (c.value + delta).toNat = c.value.toNat + delta.toNat
      else
        (db.maxallowedvalue - c.value).toNat = db.maxallowedvalue.toNat - c.value.toNat ∧
        (db.maxallowedvalue - c.value).toNat + 1 ≤ delta.toNat) ∧
      counterEvalDelta db (counterEvalWhen db delta c) c = delta) ∧
    (∀ when : BitVec w, when ≤ db.maxallowedvalue → when ≠ c.value →
      counterEvalWhen db (counterEvalDelta db when c) c = when) ∧
    ∀ xs c', exec (step db) c xs = some c' →
      (ticks db c xs ≤ db.maxallowedvalue.toNat →
        getElapsedValue db c.value c' = .ok (BitVec.ofNat w (ticks db c xs), c'.value)) ∧
      (db.ticksperbase ≤ 1 → ticks db c xs = xs.count .increment) := by
  have hM := db.maxallowedvalue.isLt
  have hv' : c.value.toNat ≤ db.maxallowedvalue.toNat := BitVec.le_def.mp hv
  refine ⟨fun delta hpos hd => ?_, fun when hw hne => ?_,
    fun xs c' h => ⟨fun hk => ?_, fun hp => ?_⟩⟩
  · have hd' : delta.toNat ≤ db.maxallowedvalue.toNat := BitVec.le_def.mp hd
    have hwhen := toNat_counterEvalWhen (c := c) hv' hd'
    have hsub : (db.maxallowedvalue - delta).toNat = db.maxallowedvalue.toNat - delta.toNat :=
      BitVec.toNat_sub_of_le hd
    refine ⟨?_, hsub, ?_, ?_⟩
    · rw [hwhen, ← ahead_mod hd', Nat.mod_eq_of_lt (Nat.lt_succ_of_le hv')]
    · split_ifs with hle
      · rw [BitVec.le_def, hsub] at hle
        exact BitVec.toNat_add_of_lt (by omega)
      · rw [BitVec.le_def, hsub] at hle
        rw [BitVec.toNat_sub_of_le hv]
        omega
    · apply BitVec.eq_of_toNat_eq
      have hle : (counterEvalWhen db delta c).toNat ≤ db.maxallowedvalue.toNat := by
        rw [hwhen]
        exact ahead_le _ hv' hd'
      rw [toNat_counterEvalDelta hv' hle, hwhen, dist_ahead hv' hpos hd',
        Nat.mod_eq_of_lt delta.isLt]
  · have hw' : when.toNat ≤ db.maxallowedvalue.toNat := BitVec.le_def.mp hw
    have hne' : when.toNat ≠ c.value.toNat := fun he => hne (BitVec.eq_of_toNat_eq he)
    have hround := dist_lt_of_ne hv' hw' hne'
    have hdelta : (counterEvalDelta db when c).toNat =
        dist db.maxallowedvalue.toNat c.value.toNat when.toNat + 1 := by
      rw [toNat_counterEvalDelta hv' hw', Nat.mod_eq_of_lt (by omega)]
    apply BitVec.eq_of_toNat_eq
    rw [toNat_counterEvalWhen hv' (by omega), hdelta, ahead_dist hv' hw' hne']
  · exact getElapsedValue_eq hv' hk (exec_value hv' h)
  · exact ticks_eq_count hp h

/-- The largest value that four bits hold, and a run of the counter over the end of its range. -/
theorem counter_exact_wrapping :
    (counterEvalWhen ⟨15#4, 1#4⟩ 5#4 ({ init with value := 12#4 } : Counter 4 (Fin 1))).toNat =
        (12 + 5) % 16 ∧
      ∃ c', exec (step ⟨15#4, 1#4⟩) ({ init with value := 12#4 } : Counter 4 (Fin 1))
          [.increment, .increment, .setRel 0 2#4 0#4, .increment, .increment, .action 0, .finish,
            .increment] = some c' ∧
        getElapsedValue ⟨15#4, 1#4⟩ 12#4 c' = .ok (5#4, c'.value) := by
  have h := counter_exact ⟨15#4, 1#4⟩ ({ init with value := 12#4 } : Counter 4 (Fin 1)) (by decide)
  obtain ⟨c', hc'⟩ : ∃ c', exec (step ⟨15#4, 1#4⟩)
      ({ init with value := 12#4 } : Counter 4 (Fin 1))
      [.increment, .increment, .setRel 0 2#4 0#4, .increment, .increment, .action 0, .finish,
        .increment] = some c' := Option.isSome_iff_exists.mp (by decide +kernel)
  exact ⟨(h.1 5#4 (by decide) (by decide)).1, c', hc', (h.2.2 _ _ hc').1 (by decide +kernel)⟩

end

end FpMemSched.Erika.Elapsed
