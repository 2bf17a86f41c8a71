import FpMemSched.Erika.Countdown
import Mathlib.Data.List.TakeWhile

/-!
The counter of the kernel refines the countdowns.

The countdowns are read off the counter: one more than the circular distance of an active
trigger, zero for one that has expired. Each call and each tick of the counter is then the same
call or tick of the countdowns, as long as no alarm is cancelled that has expired and is not
handled yet. The invariant that carries this says that the queue holds the active triggers
once, ordered by distance, and the list of the last tick those that are still to be handled.
-/

namespace FpMemSched.Erika.AlarmsAgree

open FpMemSched.Lib.Runs FpMemSched.Lib.Linked FpMemSched.Lib.Circular FpMemSched.Erika.Alarm
open FpMemSched.Erika.Countdown

variable {w : ℕ} {α : Type} {db : CounterDb w} {c c' : Counter w α} {q e : List α} {a x : α}

/-- How far the counter is from the trigger. -/
def away (db : CounterDb w) (c : Counter w α) (a : α) : ℕ :=
  dist db.maxallowedvalue.toNat c.value.toNat (c.when a).toNat

/-! ### Arithmetic of the counter -/

lemma toNat_one (h : 1 < 2 ^ w) : (1 : BitVec w).toNat = 1 :=
  (BitVec.toNat_ofNat 1 w).trans (Nat.mod_eq_of_lt h)

/-- The comparisons of the insertion compare distances. -/
lemma passes_iff {new : BitVec w} (hv : c.value.toNat ≤ db.maxallowedvalue.toNat)
    (hx : (c.when x).toNat ≤ db.maxallowedvalue.toNat)
    (hn : new.toNat ≤ db.maxallowedvalue.toNat) :
    c.Passes new x ↔
      away db c x ≤ dist db.maxallowedvalue.toNat c.value.toNat new.toNat := by
  rw [away, dist_le_iff hv hx hn]
  unfold Counter.Passes
  simp only [BitVec.lt_def, BitVec.le_def]

lemma toNat_counterEvalWhen {delta : BitVec w}
    (hv : c.value.toNat ≤ db.maxallowedvalue.toNat)
    (hd : delta.toNat ≤ db.maxallowedvalue.toNat) :
    (counterEvalWhen db delta c).toNat =
      ahead db.maxallowedvalue.toNat c.value.toNat delta.toNat := by
  have hM := db.maxallowedvalue.isLt
  have hle : (db.maxallowedvalue - delta).toNat = db.maxallowedvalue.toNat - delta.toNat :=
    BitVec.toNat_sub_of_le (BitVec.le_def.mpr hd)
  unfold counterEvalWhen ahead
  by_cases h : c.value ≤ db.maxallowedvalue - delta
  · have hsum : c.value.toNat + delta.toNat ≤ db.maxallowedvalue.toNat := by
      rw [BitVec.le_def, hle] at h
      omega
    rw [if_pos h, if_pos hsum, BitVec.toNat_add_of_lt (by omega)]
  · have hsum : db.maxallowedvalue.toNat < c.value.toNat + delta.toNat := by
      rw [BitVec.le_def, hle] at h
      omega
    have hrest : (db.maxallowedvalue - c.value).toNat =
        db.maxallowedvalue.toNat - c.value.toNat :=
      BitVec.toNat_sub_of_le (BitVec.le_def.mpr hv)
    have hover : (delta - (db.maxallowedvalue - c.value)).toNat =
        delta.toNat - (db.maxallowedvalue.toNat - c.value.toNat) := by
      rw [BitVec.toNat_sub_of_le (BitVec.le_def.mpr (by omega)), hrest]
    have hone : (1 : BitVec w).toNat = 1 := toNat_one (by omega)
    rw [if_neg h, if_neg (by omega), BitVec.toNat_sub_of_le (BitVec.le_def.mpr (by omega)),
      hover, hone]
    omega

/-- The countdown of an alarm that is set by an increment is the increment. -/
lemma dist_counterEvalWhen {delta : BitVec w} (hv : c.value.toNat ≤ db.maxallowedvalue.toNat)
    (h0 : 0 < delta.toNat) (hd : delta.toNat ≤ db.maxallowedvalue.toNat) :
    dist db.maxallowedvalue.toNat c.value.toNat (counterEvalWhen db delta c).toNat + 1 =
      delta.toNat := by
  rw [toNat_counterEvalWhen hv hd, dist_ahead hv h0 hd]

lemma toNat_advance (db : CounterDb w) (c : Counter w α) :
    (if db.maxallowedvalue ≤ c.value then 0 else c.value + 1 : BitVec w).toNat =
      advance db.maxallowedvalue.toNat c.value.toNat := by
  have hM := db.maxallowedvalue.isLt
  unfold advance
  simp only [BitVec.le_def]
  split_ifs with h
  · rfl
  · have hone : (1 : BitVec w).toNat = 1 := toNat_one (by omega)
    rw [BitVec.toNat_add_of_lt (by omega), hone]

lemma one_lt_iff (x : BitVec w) : 1 < x ↔ 1 < x.toNat := by
  rw [BitVec.lt_def]
  by_cases h : 1 < 2 ^ w
  · rw [toNat_one h]
  · have hx := x.isLt
    have h1 := (1 : BitVec w).isLt
    omega

/-! ### The invariant -/

variable [DecidableEq α]

/-- The queue is `q`, and `e` are the triggers of the last tick that wait for their turn. -/
structure Good (db : CounterDb w) (c : Counter w α) (q e : List α) : Prop where
  value_le : c.value.toNat ≤ db.maxallowedvalue.toNat
  prescaler_lt : c.prescaler.toNat = 0 ∨ c.prescaler.toNat < db.ticksperbase.toNat
  queue : Chain c.next c.triggerQueue q
  todo : Chain c.next c.triggered e
  once : (q ++ e).Nodup
  active : ∀ a, c.status a = .active ↔ a ∈ q
  expired : ∀ a, c.status a = .expired ↔ a ∈ e ∨ c.handled = some a
  settled : ∀ a, c.status a ≠ .canceled ∧ c.status a ≠ .reenabled
  handled : ∀ a, c.handled = some a → a ∉ e
  order : Ascending (away db c) q
  when_le : ∀ a ∈ q, (c.when a).toNat ≤ db.maxallowedvalue.toNat
  cycle_le : ∀ a, (c.cycle a).toNat ≤ db.maxallowedvalue.toNat

/-- The countdown of an alarm. -/
def count (db : CounterDb w) (c : Counter w α) (a : α) : Option ℕ :=
  if c.status a = .active then some (away db c a + 1)
  else if c.status a = .expired then some 0
  else none

omit [DecidableEq α] in
lemma count_of_active (h : c.status a = .active) : count db c a = some (away db c a + 1) :=
  if_pos h

omit [DecidableEq α] in
lemma count_of_expired (h : c.status a = .expired) : count db c a = some 0 := by
  simp [count, h]

/-- An alarm that is switched off has no countdown. -/
lemma count_inactive {c' : Counter w α} (hv : c'.value = c.value) (hw : c'.when = c.when)
    (hs : c'.status = Function.update c.status a .inactive) :
    count db c' = Function.update (count db c) a none := by
  funext b
  by_cases hb : b = a
  · subst hb
    simp [count, hs]
  · simp [count, away, hs, hv, hw, Function.update_of_ne hb]

omit [DecidableEq α] in
lemma count_of_off (h : c.status a ≠ .active) (h' : c.status a ≠ .expired) :
    count db c a = none := by
  simp [count, h, h']

/-- The countdowns of a counter. -/
def countdowns (db : CounterDb w) (c : Counter w α) : Naive α where
  value := c.value.toNat
  sub := c.prescaler.toNat
  count := count db c
  cycle a := (c.cycle a).toNat
  pending a := decide (c.status a = .expired ∧ c.handled ≠ some a)
  acting := c.handled

omit [DecidableEq α] in
/-- The same triggers at the same distances are in the same order. -/
lemma ascending_congr (h : Ascending (away db c) q) (hq : ∀ x ∈ q, away db c' x = away db c x) :
    Ascending (away db c') q := by
  refine List.Pairwise.imp_of_mem (fun hx hy hxy => ?_) h
  rw [hq _ hx, hq _ hy]
  exact hxy

variable [Fintype α]

/-- **An alarm is put in the queue**: one that is off, or one that has been handled. -/
lemma good_insert {new : BitVec w} {cycle : α → BitVec w} {o : Option α}
    (hg : Good db c q e) (ha : a ∉ q ++ e) (hn : new.toNat ≤ db.maxallowedvalue.toNat)
    (hcy : ∀ b, (cycle b).toNat ≤ db.maxallowedvalue.toNat) (hoa : o ≠ some a)
    (ho : ∀ b, b ≠ a → (o = some b ↔ c.handled = some b)) :
    ∃ c' q', counterInsertAbsTrigger a new { c with
        cycle := cycle
        status := Function.update c.status a .active } = some c' ∧
      (c'.handled = c.handled ∧ c'.when a = new) ∧
      Good db { c' with handled := o } q' e ∧
      countdowns db { c' with handled := o } = { countdowns db c with
        count := Function.update (count db c) a
          (some (dist db.maxallowedvalue.toNat c.value.toNat new.toNat + 1))
        cycle := fun b => (cycle b).toNat
        acting := o } := by
  obtain ⟨nx, h, heq, hqueue, htodo⟩ := insertAbsTrigger_eq
    { c with cycle := cycle, status := Function.update c.status a .active }
    { c with
      cycle := cycle
      status := Function.update c.status a .active
      when := Function.update c.when a new } a new rfl hg.queue hg.todo hg.once ha
  have hsplit := List.takeWhile_append_dropWhile (l := q)
    (p := fun x => decide (Counter.Passes { c with
      cycle := cycle
      status := Function.update c.status a .active
      when := Function.update c.when a new } new x))
  have hnodup : ∀ l₁ l₂, l₁ ++ l₂ = q → ((l₁ ++ a :: l₂) ++ e).Nodup := by
    rintro l₁ l₂ rfl
    rw [List.append_assoc, List.cons_append, List.nodup_middle, List.nodup_cons,
      ← List.append_assoc]
    exact ⟨ha, hg.once⟩
  rw [List.mem_append, not_or] at ha
  have hkey : ∀ x ∈ q, Function.update c.when a new x = c.when x := by
    intro x hx
    have hxa : x ≠ a := by
      rintro rfl
      exact ha.1 hx
    exact Function.update_of_ne hxa ..
  have hmem : ∀ l₁ l₂, l₁ ++ l₂ = q → ∀ b, b ∈ l₁ ++ a :: l₂ ↔ b = a ∨ b ∈ q := by
    rintro l₁ l₂ rfl b
    simp only [List.mem_append, List.mem_cons]
    tauto
  refine ⟨_, _, heq, ⟨rfl, Function.update_self ..⟩, ⟨hg.value_le, hg.prescaler_lt, hqueue,
    htodo, hnodup _ _ hsplit, fun b => ?_, fun b => ?_, fun b => ?_, fun b hb => ?_, ?_, fun b hb => ?_, hcy⟩, ?_⟩
  · rw [hmem _ _ hsplit]
    by_cases hb : b = a
    · subst hb
      simp
    · simpa [Function.update_of_ne hb, hb] using hg.active b
  · by_cases hb : b = a
    · subst hb
      simp [ha.2, hoa]
    · simpa [Function.update_of_ne hb, ho b hb] using hg.expired b
  · by_cases hb : b = a
    · subst hb
      simp
    · simpa [Function.update_of_ne hb] using hg.settled b
  · have hba : b ≠ a := by
      rintro rfl
      exact hoa hb
    exact hg.handled b ((ho b hba).mp hb)
  · refine Ascending.insert (ascending_congr hg.order fun x hx => ?_) fun x hx => ?_
    · simp only [away, hkey x hx]
    · refine decide_eq_true_iff.trans ((passes_iff ?_ ?_ hn).trans ?_)
      · exact hg.value_le
      · simpa [hkey x hx] using hg.when_le x hx
      · simp [away]
  · rcases (hmem _ _ hsplit b).mp hb with rfl | hb
    · simpa using hn
    · simpa [hkey b hb] using hg.when_le b hb
  · refine Naive.ext rfl rfl (funext fun b => ?_) rfl (funext fun b => ?_) rfl
    · by_cases hb : b = a
      · subst hb
        simp [countdowns, count, away]
      · simp [countdowns, count, away, Function.update_of_ne hb]
    · by_cases hb : b = a
      · subst hb
        have hexp := hg.expired b
        simp only [ha.2, false_or] at hexp
        simp [countdowns, hexp]
      · simp [countdowns, Function.update_of_ne hb, ho b hb]

/-- **An alarm is taken out of the queue.** -/
lemma good_cancel (hg : Good db c q e) (ha : c.status a = .active) :
    ∃ c', counterCancelTrigger a
        { c with status := Function.update c.status a .inactive } = some c' ∧
      Good db c' (q.erase a) e ∧
      countdowns db c' = { countdowns db c with count := Function.update (count db c) a none } := by
  have haq : a ∈ q := (hg.active a).mp ha
  obtain ⟨hqd, hed, hapart⟩ := List.nodup_append.mp hg.once
  have hno : ¬ (a ∈ e ∨ c.handled = some a) := by
    rw [← hg.expired, ha]
    decide
  obtain ⟨nx, h, heq, hqueue, htodo⟩ := cancelTrigger_eq
    (c := { c with status := Function.update c.status a .inactive }) hg.queue hg.todo hg.once haq
  refine ⟨_, heq, ⟨hg.value_le, hg.prescaler_lt, hqueue, htodo, ?_, fun b => ?_, fun b => ?_,
    fun b => ?_, hg.handled, ?_, fun b hb => ?_, hg.cycle_le⟩, ?_⟩
  · rw [← List.erase_append_left _ haq]
    exact hg.once.erase a
  · rw [hqd.mem_erase_iff]
    by_cases hb : b = a
    · subst hb
      simp
    · simpa [Function.update_of_ne hb, hb] using hg.active b
  · by_cases hb : b = a
    · subst hb
      simpa using hno
    · simpa [Function.update_of_ne hb] using hg.expired b
  · by_cases hb : b = a
    · subst hb
      simp
    · simpa [Function.update_of_ne hb] using hg.settled b
  · exact List.Pairwise.sublist List.erase_sublist hg.order
  · exact hg.when_le b (List.mem_of_mem_erase hb)
  · refine Naive.ext rfl rfl (count_inactive rfl rfl rfl) rfl (funext fun b => ?_) rfl
    by_cases hb : b = a
    · subst hb
      simp [countdowns, ha]
    · simp [countdowns, Function.update_of_ne hb]

omit [Fintype α] in
/-- **The begin of an action** takes the first trigger off the list of the tick. -/
lemma good_action (hg : Good db c q e) (ht : c.triggered = some a) (hh : c.handled = none) :
    (∃ e', Good db { c with triggered := c.next a, handled := some a } q e') ∧
      (countdowns db c).pending a = true ∧
      countdowns db { c with triggered := c.next a, handled := some a } = { countdowns db c with
        pending := Function.update (countdowns db c).pending a false
        acting := some a } := by
  have hexp := hg.expired
  have htodo := hg.todo
  have honce := hg.once
  cases e with
  | nil =>
    rw [ht] at htodo
    exact absurd htodo (by simp [Chain])
  | cons b e =>
    obtain rfl : a = b := Option.some.inj (ht.symm.trans htodo.1)
    rw [List.nodup_middle, List.nodup_cons, List.mem_append, not_or] at honce
    refine ⟨⟨e, hg.value_le, hg.prescaler_lt, hg.queue, htodo.2, honce.2, hg.active, fun b => ?_,
      hg.settled, fun b hb => ?_, hg.order, hg.when_le, hg.cycle_le⟩, ?_, ?_⟩
    · rw [hexp, hh]
      simp only [List.mem_cons, Option.some.injEq]
      constructor
      · rintro ((rfl | hb) | hb)
        · exact Or.inr rfl
        · exact Or.inl hb
        · cases hb
      · rintro (hb | rfl)
        · exact Or.inl (Or.inr hb)
        · exact Or.inl (Or.inl rfl)
    · obtain rfl : a = b := Option.some.inj hb
      exact honce.1.2
    · simp [countdowns, hexp, hh]
    · refine Naive.ext rfl rfl rfl rfl (funext fun b => ?_) rfl
      by_cases hb : b = a
      · subst hb
        simp [countdowns]
      · simp [countdowns, Function.update_of_ne hb, hh, Ne.symm hb]

omit [Fintype α] in
/-- **The end of the action** of an alarm that is not cyclic. -/
lemma good_off (hg : Good db c q e) (hh : c.handled = some a) :
    Good db { c with status := Function.update c.status a .inactive, handled := none } q e ∧
      countdowns db { c with status := Function.update c.status a .inactive, handled := none } =
        { countdowns db c with
          count := Function.update (count db c) a none
          acting := none } := by
  have haq : a ∉ q := by
    rw [← hg.active, (hg.expired a).mpr (Or.inr hh)]
    decide
  have hae : a ∉ e := hg.handled a hh
  refine ⟨⟨hg.value_le, hg.prescaler_lt, hg.queue, hg.todo, hg.once, fun b => ?_, fun b => ?_,
    fun b => ?_, fun b hb => ?_, hg.order, hg.when_le, hg.cycle_le⟩, ?_⟩
  · by_cases hb : b = a
    · subst hb
      simp [haq]
    · simpa [Function.update_of_ne hb] using hg.active b
  · by_cases hb : b = a
    · subst hb
      simp [hae]
    · simpa [Function.update_of_ne hb, hh, Ne.symm hb] using hg.expired b
  · by_cases hb : b = a
    · subst hb
      simp
    · simpa [Function.update_of_ne hb] using hg.settled b
  · cases hb
  · refine Naive.ext rfl rfl (count_inactive rfl rfl rfl) rfl (funext fun b => ?_) rfl
    by_cases hb : b = a
    · subst hb
      simp [countdowns, hh]
    · simp [countdowns, Function.update_of_ne hb, hh, Ne.symm hb]

/-- **A tick** takes one off all countdowns. -/
lemma good_pop {v prescaler : BitVec w} (hg : Good db c q []) (hh : c.handled = none)
    (hv : v.toNat = advance db.maxallowedvalue.toNat c.value.toNat)
    (hp : prescaler.toNat = 0 ∨ prescaler.toNat < db.ticksperbase.toNat) :
    ∃ c' q' e', Counter.popTriggered { c with value := v, prescaler := prescaler } = some c' ∧
      Good db c' q' e' ∧
      countdowns db c' = { countdowns db c with
        value := advance db.maxallowedvalue.toNat c.value.toNat
        sub := prescaler.toNat
        count := fun a => (count db c a).map (· - 1)
        pending := fun a => decide (count db c a = some 1) } := by
  have hd : q.Nodup := (List.nodup_append.mp hg.once).1
  obtain ⟨nx, heq, hqueue, htodo⟩ := popTriggered_eq
    (c := { c with value := v, prescaler := prescaler }) hg.queue hd hg.todo
  dsimp only at heq hqueue htodo
  have hsplit := List.takeWhile_append_dropWhile (l := q) (p := fun y => decide (c.when y = v))
  -- the triggers in front are those at no distance
  have hfront : ∀ x ∈ q, decide (c.when x = v) = true ↔ away db c x = 0 := by
    intro x hx
    rw [decide_eq_true_iff, away, dist_eq_zero hg.value_le (hg.when_le x hx), ← hv,
      BitVec.toNat_inj]
  have hrest := hg.order.rest hfront
  have hzero : ∀ x ∈ q.takeWhile fun y => c.when y = v, away db c x = 0 := by
    intro x hx
    exact (hfront x (List.takeWhile_subset _ hx)).mp
      (List.mem_takeWhile_imp (p := fun y => decide (c.when y = v)) hx)
  generalize (q.takeWhile fun y => c.when y = v) = l₁ at *
  generalize (q.dropWhile fun y => c.when y = v) = l₂ at *
  subst hsplit
  obtain ⟨-, -, hapart⟩ := List.nodup_append.mp hd
  have hless : ∀ x ∈ l₂, dist db.maxallowedvalue.toNat v.toNat (c.when x).toNat + 1 =
      away db c x := by
    intro x hx
    rw [hv]
    exact dist_advance hg.value_le (hg.when_le x (List.mem_append_right _ hx)) (hrest x hx)
  refine ⟨_, l₂, l₁, heq, ⟨?_, hp, hqueue, htodo, ?_, fun b => ?_, fun b => ?_, fun b => ?_,
    fun b hb => ?_, ?_, fun b hb => ?_, hg.cycle_le⟩, ?_⟩
  · dsimp only
    rw [hv]
    exact advance_le hg.value_le
  · exact (List.perm_append_comm.nodup_iff).mp hd
  · have hact := hg.active b
    dsimp only [expire]
    by_cases hb : b ∈ l₁
    · rw [if_pos hb]
      simpa using fun hb₂ => hapart b hb b hb₂ rfl
    · rw [if_neg hb, hact]
      simp [hb]
  · have hexp := hg.expired b
    dsimp only [expire]
    by_cases hb : b ∈ l₁
    · simp [hb]
    · rw [if_neg hb, hexp]
      simp [hb]
  · dsimp only [expire]
    split_ifs with hb
    · decide
    · exact hg.settled b
  · rw [show c.handled = some b from hb] at hh
    cases hh
  · refine List.Pairwise.imp_of_mem (fun hx hy hxy => ?_)
      (List.pairwise_append.mp hg.order).2.1
    have hx := hless _ hx
    have hy := hless _ hy
    dsimp only [away] at *
    omega
  · exact hg.when_le b (List.mem_append_right _ hb)
  · have hcount : ∀ b, (b ∈ l₁ ∧ count db c b = some 1) ∨
        (b ∉ l₁ ∧ b ∈ l₂ ∧ count db c b = some (away db c b + 1)) ∨
        (b ∉ l₁ ∧ b ∉ l₂ ∧ c.status b ≠ .active ∧ c.status b ≠ .expired) := by
      intro b
      have hact := hg.active b
      have hexp := hg.expired b
      by_cases h₁ : b ∈ l₁
      · exact Or.inl ⟨h₁, by simp [count, hact, h₁, hzero b h₁]⟩
      · by_cases h₂ : b ∈ l₂
        · exact Or.inr (Or.inl ⟨h₁, h₂, by simp [count, hact, h₂]⟩)
        · exact Or.inr (Or.inr ⟨h₁, h₂, by simp [hact, h₁, h₂], by simp [hexp, hh]⟩)
    have hact := hg.active
    refine Naive.ext hv rfl (funext fun b => ?_) rfl (funext fun b => ?_) rfl
    · dsimp only [countdowns]
      rcases hcount b with ⟨h₁, hc⟩ | ⟨h₁, h₂, hc⟩ | ⟨h₁, h₂, h₃, h₄⟩
      · rw [hc, count_of_expired (if_pos h₁)]
        rfl
      · have hb : expire l₁ c.status b = .active := by
          rw [expire, if_neg h₁, hact]
          exact List.mem_append_right _ h₂
        rw [hc, count_of_active hb, Option.map_some, Nat.add_sub_cancel, ← hless b h₂]
        rfl
      · rw [count_of_off (c := c) h₃ h₄, Option.map_none]
        refine count_of_off ?_ ?_
        · dsimp only [expire]
          rwa [if_neg h₁]
        · dsimp only [expire]
          rwa [if_neg h₁]
    · dsimp only [countdowns]
      rcases hcount b with ⟨h₁, hc⟩ | ⟨h₁, h₂, hc⟩ | ⟨h₁, h₂, h₃, h₄⟩
      · simp [expire, h₁, hc, hh]
      · have hb : c.status b = .active := (hact b).mpr (List.mem_append_right _ h₂)
        simp [expire, h₁, hc, hb, hrest b h₂]
      · rw [count_of_off (c := c) h₃ h₄]
        simp [expire, h₁, h₄]

omit [DecidableEq α] [Fintype α] in
lemma toNat_prescaler (hp : c.prescaler.toNat = 0 ∨ c.prescaler.toNat < db.ticksperbase.toNat)
    (h : 1 < db.ticksperbase) : (c.prescaler + 1).toNat = c.prescaler.toNat + 1 := by
  have hb := db.ticksperbase.isLt
  rw [one_lt_iff] at h
  have hone : (1 : BitVec w).toNat = 1 := toNat_one (by omega)
  rw [BitVec.toNat_add_of_lt (by omega), hone]

omit [Fintype α] in
lemma prescale_tick (hg : Good db c q e) (h : (countdowns db c).Ticks db.ticksperbase.toNat) :
    ∃ p : BitVec w, c.prescale db = ({ c with prescaler := p }, true) ∧
      p.toNat = if db.ticksperbase.toNat ≤ 1 then c.prescaler.toNat else 0 := by
  unfold Counter.prescale
  by_cases hb : 1 < db.ticksperbase
  · have hsum := toNat_prescaler hg.prescaler_lt hb
    have hb' := hb
    rw [one_lt_iff] at hb'
    have hover : db.ticksperbase ≤ c.prescaler + 1 := by
      rw [BitVec.le_def, hsum]
      exact h.resolve_left (by omega)
    rw [if_pos hb, if_pos hover, if_neg (by omega)]
    exact ⟨0, rfl, rfl⟩
  · rw [if_neg hb]
    rw [one_lt_iff] at hb
    rw [if_pos (by omega)]
    exact ⟨c.prescaler, rfl, rfl⟩

omit [Fintype α] in
lemma prescale_sub (hg : Good db c q e) (h : ¬ (countdowns db c).Ticks db.ticksperbase.toNat) :
    ∃ p : BitVec w, c.prescale db = ({ c with prescaler := p }, false) ∧
      p.toNat = c.prescaler.toNat + 1 ∧ p.toNat < db.ticksperbase.toNat := by
  obtain ⟨h1, hlt⟩ := not_or.mp h
  have hb : 1 < db.ticksperbase := by
    rw [one_lt_iff]
    omega
  have hsum := toNat_prescaler hg.prescaler_lt hb
  have hlt : c.prescaler.toNat + 1 < db.ticksperbase.toNat := not_le.mp hlt
  have hunder : ¬ db.ticksperbase ≤ c.prescaler + 1 := by
    rw [BitVec.le_def, hsum]
    omega
  unfold Counter.prescale
  rw [if_pos hb, if_neg hunder]
  exact ⟨c.prescaler + 1, rfl, hsum, hsum ▸ hlt⟩

omit [DecidableEq α] [Fintype α] in
/-- Nothing waits when the tick has been handled. -/
lemma todo_eq_nil (hg : Good db c q e) (hquiet : c.Quiet) : e = [] := by
  have htodo := hg.todo
  cases e with
  | nil => rfl
  | cons a e =>
    rw [hquiet.1] at htodo
    exact absurd htodo.1 (by simp)

/-- **An increment of the counter** is one of the countdowns. -/
lemma good_increment (hg : Good db c q e) (hquiet : c.Quiet) :
    ∃ c' q' e', counterIncrement db c = some c' ∧ Good db c' q' e' ∧
      countdowns db c' =
        (countdowns db c).increment db.maxallowedvalue.toNat db.ticksperbase.toNat := by
  obtain rfl := todo_eq_nil hg hquiet
  have hh := hquiet.2
  unfold counterIncrement Counter.incrementValue Naive.increment
  by_cases hticks : (countdowns db c).Ticks db.ticksperbase.toNat
  · obtain ⟨p, hp, hpv⟩ := prescale_tick hg hticks
    rw [hp, if_pos hticks]
    have hlt : p.toNat = 0 ∨ p.toNat < db.ticksperbase.toNat := by
      rw [hpv]
      split_ifs
      · exact hg.prescaler_lt
      · exact Or.inl rfl
    obtain ⟨c', q', e', hpop, hg', habs⟩ := good_pop hg hh (toNat_advance db c) hlt
    refine ⟨c', q', e', hpop, hg', ?_⟩
    rw [habs, hpv]
    rfl
  · obtain ⟨p, hp, hpv, hlt⟩ := prescale_sub hg hticks
    rw [hp, if_neg hticks]
    refine ⟨_, q, [], rfl, ⟨hg.value_le, Or.inr hlt, hg.queue, hg.todo, hg.once, hg.active,
      hg.expired, hg.settled, hg.handled, hg.order, hg.when_le, hg.cycle_le⟩, ?_⟩
    exact Naive.ext rfl hpv rfl rfl rfl rfl

/-! ### Steps -/

/-- An alarm that has expired is not cancelled until it has been handled. -/
def Unexpired (c : Counter w α) : Step w α → Prop
  | .cancel a => c.status a ≠ .expired
  | _ => True

instance (c : Counter w α) : ∀ x : Step w α, Decidable (Unexpired c x)
  | .cancel a => inferInstanceAs (Decidable (c.status a ≠ .expired))
  | .setRel .. | .setAbs .. | .increment | .action _ | .finish => isTrue trivial

/-- The countdowns of the counter are these. -/
def Agree (db : CounterDb w) (c : Counter w α) (n : Naive α) : Prop :=
  n = countdowns db c ∧ ∃ q e, Good db c q e

/-- A relative alarm is an absolute one at the value the counter has by then. -/
lemma alarmSetRel_eq (increment cycle : BitVec w) :
    alarmSetRel db a increment cycle c =
      alarmSetAbs a (counterEvalWhen db increment c) cycle c := by
  unfold alarmSetRel alarmSetAbs
  cases c.status a <;> rfl

lemma agree_setAbs {start cycle : BitVec w} (hg : Good db c q e)
    (hs : start.toNat ≤ db.maxallowedvalue.toNat)
    (hcy : cycle.toNat ≤ db.maxallowedvalue.toNat) :
    ∃ c' ev, alarmSetAbs a start cycle c = some (c', ev) ∧
      Agree db c' ((countdowns db c).set a
        (dist db.maxallowedvalue.toNat c.value.toNat start.toNat + 1) cycle.toNat) ∧
      (ev = .eOk ↔ (countdowns db c).count a = none) ∧ (ev = .eOk → c'.when a = start) := by
  have hexp := hg.expired a
  unfold alarmSetAbs Naive.set
  rcases hst : c.status a with _ | _ | _ | _ | _
  · have hcount : (countdowns db c).count a = none := by simp [countdowns, count, hst]
    rw [if_pos hcount]
    rw [hst] at hexp
    have ha : a ∉ q ++ e := by
      rw [List.mem_append, not_or, ← hg.active, hst]
      exact ⟨by decide, fun hae => by simpa using hexp.mpr (Or.inl hae)⟩
    have hh : c.handled ≠ some a := fun hh => by simpa using hexp.mpr (Or.inr hh)
    have hall : ∀ b, (Function.update c.cycle a cycle b).toNat ≤ db.maxallowedvalue.toNat := by
      intro b
      by_cases hb : b = a
      · subst hb
        rwa [Function.update_self]
      · rw [Function.update_of_ne hb]
        exact hg.cycle_le b
    obtain ⟨c', q', heq, ⟨hsame, hwhen⟩, hg', habs⟩ :=
      good_insert hg ha hs hall hh fun b _ => Iff.rfl
    rw [← hsame] at hg' habs
    refine ⟨c', .eOk, ?_, ⟨?_, q', e, hg'⟩, by simp [hcount], fun _ => hwhen⟩
    · dsimp only
      rw [heq]
      rfl
    · refine Eq.trans ?_ habs.symm
      refine Naive.ext rfl rfl rfl (funext fun b => ?_) rfl hsame.symm
      by_cases hb : b = a
      · subst hb
        simp
      · simp [countdowns, Function.update_of_ne hb]
  · exact absurd hst (hg.settled a).1
  · have hcount : (countdowns db c).count a ≠ none := by simp [countdowns, count, hst]
    rw [if_neg hcount]
    exact ⟨c, .eOsState, rfl, ⟨rfl, q, e, hg⟩, by simp [hcount], by simp⟩
  · have hcount : (countdowns db c).count a ≠ none := by simp [countdowns, count, hst]
    rw [if_neg hcount]
    exact ⟨c, .eOsState, rfl, ⟨rfl, q, e, hg⟩, by simp [hcount], by simp⟩
  · exact absurd hst (hg.settled a).2

lemma agree_setRel {increment cycle : BitVec w} (hg : Good db c q e)
    (h0 : 0 < increment.toNat) (hi : increment.toNat ≤ db.maxallowedvalue.toNat)
    (hcy : cycle.toNat ≤ db.maxallowedvalue.toNat) :
    ∃ c' ev, alarmSetRel db a increment cycle c = some (c', ev) ∧
      Agree db c' ((countdowns db c).set a increment.toNat cycle.toNat) ∧
      (ev = .eOk ↔ (countdowns db c).count a = none) ∧
      (ev = .eOk → c'.when a = counterEvalWhen db increment c) := by
  have hs : (counterEvalWhen db increment c).toNat ≤ db.maxallowedvalue.toNat := by
    rw [toNat_counterEvalWhen hg.value_le hi]
    exact ahead_le _ hg.value_le hi
  have h := agree_setAbs (a := a) hg hs hcy
  rwa [dist_counterEvalWhen hg.value_le h0 hi, ← alarmSetRel_eq] at h

lemma agree_cancel (hg : Good db c q e) (ha : c.status a ≠ .expired) :
    ∃ c', (alarmCancel a c).map Prod.fst = some c' ∧
      Agree db c' { countdowns db c with count := Function.update (count db c) a none } := by
  unfold alarmCancel
  rcases hst : c.status a with _ | _ | _ | _ | _
  · refine ⟨c, rfl, Naive.ext rfl rfl ?_ rfl rfl rfl, q, e, hg⟩
    have hoff : count db c a = none := by simp [count, hst]
    exact Function.update_eq_self_iff.mpr hoff.symm
  · exact absurd hst (hg.settled a).1
  · obtain ⟨c', heq, hg', habs⟩ := good_cancel hg hst
    refine ⟨c', ?_, habs.symm, _, e, hg'⟩
    dsimp only
    rw [heq]
    rfl
  · exact absurd hst ha
  · exact absurd hst (hg.settled a).2

lemma agree_handleAlarm (hg : Good db c q e) (hh : c.handled = some a) :
    ∃ c', (counterHandleAlarm db a c).map (fun c => { c with handled := none }) = some c' ∧
      Agree db c' { countdowns db c with
        count := Function.update (count db c) a
          (if (c.cycle a).toNat = 0 then none else some (c.cycle a).toNat)
        acting := none } := by
  have hexp : c.status a = .expired := (hg.expired a).mpr (Or.inr hh)
  unfold counterHandleAlarm
  rw [if_pos hexp]
  by_cases hcy : 0 < c.cycle a
  · have hpos : 0 < (c.cycle a).toNat := hcy
    have hle := hg.cycle_le a
    have ha : a ∉ q ++ e := by
      rw [List.mem_append, not_or, ← hg.active, hexp]
      exact ⟨by decide, hg.handled a hh⟩
    have hs : (counterEvalWhen db (c.cycle a) c).toNat ≤ db.maxallowedvalue.toNat := by
      rw [toNat_counterEvalWhen hg.value_le hle]
      exact ahead_le _ hg.value_le hle
    obtain ⟨c', q', heq, -, hg', habs⟩ := good_insert hg ha hs hg.cycle_le (o := none)
      (by simp) (by simp [hh, eq_comm])
    rw [dist_counterEvalWhen hg.value_le hpos hle] at habs
    rw [if_pos hcy, if_neg (by omega)]
    refine ⟨{ c' with handled := none }, ?_, habs.symm, q', e, hg'⟩
    exact congrArg (Option.map fun c => { c with handled := none }) heq
  · have hzero : (c.cycle a).toNat = 0 := Nat.eq_zero_of_not_pos hcy
    obtain ⟨hg', habs⟩ := good_off hg hh
    rw [if_neg hcy, if_pos hzero]
    exact ⟨_, rfl, habs.symm, q, e, hg'⟩

omit [Fintype α] in
/-- Nothing is left of the tick for the counter as for the countdowns. -/
lemma quiet_iff (hg : Good db c q e) :
    c.Quiet ↔ (∀ a, (countdowns db c).pending a = false) ∧ (countdowns db c).acting = none := by
  have htodo := hg.todo
  constructor
  · rintro ⟨ht, hh⟩
    refine ⟨fun a => ?_, hh⟩
    have hexp := hg.expired a
    cases e with
    | nil => simp [countdowns, hexp, hh]
    | cons b e =>
      rw [ht] at htodo
      exact absurd htodo.1 (by simp)
  · rintro ⟨hall, hh⟩
    refine ⟨?_, hh⟩
    cases e with
    | nil => exact htodo
    | cons b e =>
      have hexp := (hg.expired b).mpr (Or.inl List.mem_cons_self)
      have hb := hall b
      simp [countdowns, hexp, show c.handled = none from hh] at hb

variable {n n' : Naive α} {y : Step w α} {ys pre seg : List (Step w α)}

/-- All steps but the begin of an action are possible together, and agree. -/
lemma rel_step (h : Agree db c n) (hy : Unexpired c y) (hna : ∀ a, y ≠ .action a) :
    Option.Rel (Agree db) (step db c y) (n.step db y) := by
  obtain ⟨rfl, q, e, hg⟩ := h
  cases y with
  | setRel a increment cycle =>
    dsimp only [step, Naive.step]
    by_cases hv : 0 < increment ∧ increment ≤ db.maxallowedvalue ∧ cycle ≤ db.maxallowedvalue
    · obtain ⟨c', ev, heq, hag, -⟩ := agree_setRel (a := a) hg hv.1 hv.2.1 hv.2.2
      rw [if_pos hv, if_pos hv, heq]
      exact Option.Rel.some hag
    · rw [if_neg hv, if_neg hv]
      exact Option.Rel.none
  | setAbs a start cycle =>
    dsimp only [step, Naive.step]
    by_cases hv : start ≤ db.maxallowedvalue ∧ cycle ≤ db.maxallowedvalue
    · obtain ⟨c', ev, heq, hag, -⟩ := agree_setAbs (a := a) hg hv.1 hv.2
      rw [if_pos hv, if_pos hv, heq]
      exact Option.Rel.some hag
    · rw [if_neg hv, if_neg hv]
      exact Option.Rel.none
  | cancel a =>
    obtain ⟨c', heq, hag⟩ := agree_cancel hg hy
    dsimp only [step, Naive.step]
    rw [heq]
    exact Option.Rel.some hag
  | increment =>
    dsimp only [step, Naive.step]
    by_cases hquiet : c.Quiet
    · obtain ⟨c', q', e', heq, hg', habs⟩ := good_increment hg hquiet
      rw [if_pos hquiet, if_pos ((quiet_iff hg).mp hquiet), heq]
      exact Option.Rel.some ⟨habs.symm, q', e', hg'⟩
    · rw [if_neg hquiet, if_neg fun hn => hquiet ((quiet_iff hg).mpr hn)]
      exact Option.Rel.none
  | action a => exact absurd rfl (hna a)
  | finish =>
    dsimp only [step, Naive.step]
    rcases hh : c.handled with _ | a
    · rw [show (countdowns db c).acting = none from hh]
      exact Option.Rel.none
    · rw [show (countdowns db c).acting = some a from hh]
      obtain ⟨c', heq, hag⟩ := agree_handleAlarm hg hh
      dsimp only
      rw [heq]
      exact Option.Rel.some hag

/-- **The step lemma.** -/
lemma agree_step (h : Agree db c n) (hy : Unexpired c y) (hs : step db c y = some c') :
    ∃ n', n.step db y = some n' ∧ Agree db c' n' := by
  by_cases hna : ∀ a, y ≠ .action a
  · have hrel := rel_step h hy hna
    rw [hs] at hrel
    rcases hn : n.step db y with _ | n'
    · rw [hn] at hrel
      cases hrel
    · rw [hn] at hrel
      cases hrel with
      | some hag => exact ⟨n', rfl, hag⟩
  · obtain ⟨a, rfl⟩ : ∃ a, y = .action a := by simpa using hna
    obtain ⟨rfl, q, e, hg⟩ := h
    dsimp only [step] at hs
    split_ifs at hs with ht
    obtain rfl := Option.some.inj hs
    obtain ⟨⟨e', hg'⟩, hpend, habs⟩ := good_action hg ht.1 ht.2
    refine ⟨_, ?_, habs.symm, q, e', hg'⟩
    dsimp only [Naive.step]
    rw [if_pos ⟨hpend, ht.2⟩]

omit [Fintype α] in
lemma agree_init (db : CounterDb w) : Agree db (init : Counter w α) Naive.init := by
  refine ⟨Naive.ext rfl rfl rfl rfl rfl rfl, [], [], Nat.zero_le _, Or.inl rfl, rfl, rfl,
    List.nodup_nil, ?_, ?_, ?_, ?_, List.Pairwise.nil, ?_, fun a => Nat.zero_le _⟩
  all_goals simp [init]

/-! ### Runs -/

lemma exec_agree (h : Agree db c n) (hy : Along (step db) Unexpired c ys)
    (he : exec (step db) c ys = some c') :
    ∃ n', exec (Naive.step db) n ys = some n' ∧ Agree db c' n' := by
  induction ys generalizing c n with
  | nil =>
    obtain rfl : c = c' := by simpa using he
    exact ⟨n, rfl, h⟩
  | cons y ys ih =>
    obtain ⟨c₁, hc₁, he⟩ := (exec_cons _).mp he
    obtain ⟨n₁, hn₁, h₁⟩ := agree_step h hy.1 hc₁
    obtain ⟨n', hn', h'⟩ := ih h₁ (hy.2 c₁ hc₁) he
    exact ⟨n', (exec_cons _).mpr ⟨n₁, hn₁, hn'⟩, h'⟩

/-- The queue holds the active triggers once, the next one first, each at its countdown. -/
def Queued (db : CounterDb w) (c : Counter w α) (n : Naive α) : Prop :=
  ∃ q, Chain c.next c.triggerQueue q ∧ q.Nodup ∧ (∀ a, a ∈ q ↔ c.status a = .active) ∧
    Ascending (away db c) q ∧ ∀ a ∈ q, n.count a = some (away db c a + 1)

/-- Every step but the begin of an action is possible when the countdowns allow it, and what a
tick leaves to do can be done. -/
def Goes (db : CounterDb w) (c : Counter w α) (n : Naive α) : Prop :=
  (∀ y, Unexpired c y → (∀ a, y ≠ .action a) →
    ((step db c y).isSome ↔ (n.step db y).isSome)) ∧
  (¬ c.Quiet → (step db c .finish).isSome ∨ ∃ a, (step db c (.action a)).isSome)

omit [Fintype α] in
lemma Agree.queued (h : Agree db c n) : Queued db c n := by
  obtain ⟨rfl, q, e, hg⟩ := h
  refine ⟨q, hg.queue, (List.nodup_append.mp hg.once).1, fun a => (hg.active a).symm, hg.order,
    fun a ha => ?_⟩
  exact count_of_active ((hg.active a).mpr ha)

lemma Agree.goes (h : Agree db c n) : Goes db c n := by
  refine ⟨fun y hy hna => ?_, fun hq => ?_⟩
  · have hrel := rel_step h hy hna
    rcases hs : step db c y with _ | c' <;> rcases hn : n.step db y with _ | n'
    · rfl
    · rw [hs, hn] at hrel
      cases hrel
    · rw [hs, hn] at hrel
      cases hrel
    · rfl
  · obtain ⟨-, q, e, hg⟩ := h
    rcases hh : c.handled with _ | a
    · rcases ht : c.triggered with _ | a
      · exact absurd ⟨ht, hh⟩ hq
      · exact Or.inr ⟨a, by simp [step, ht, hh]⟩
    · obtain ⟨c', heq, -⟩ := agree_handleAlarm hg hh
      refine Or.inl ?_
      dsimp only [step]
      rw [hh]
      dsimp only
      rw [heq]
      rfl

/-- The actions since the last increment. -/
lemma fired_due (hy : Along (step db) Unexpired init (pre ++ .increment :: seg))
    (hc : exec (step db) init (pre ++ .increment :: seg) = some c) (hi : .increment ∉ seg) :
    ∃ n, exec (Naive.step db) Naive.init pre = some n ∧ (fired seg).Nodup ∧
      (∀ a ∈ fired seg, n.Due db.ticksperbase.toNat a) ∧
      (c.Quiet → ∀ a, n.Due db.ticksperbase.toNat a → a ∈ fired seg) := by
  obtain ⟨n', hn', h'⟩ := exec_agree (agree_init db) hy hc
  obtain ⟨n, hn, he⟩ := (exec_append _).mp hn'
  obtain ⟨n₁, hn₁, he⟩ := (exec_cons _).mp he
  obtain ⟨hnd, -, hall⟩ := fired_spec hi he
  have hdue := increment_pending hn₁
  refine ⟨n, hn, hnd, fun a ha => ?_, fun hq a ha => ?_⟩
  · exact (hdue a).mp ((hall a).mpr (Or.inl ha))
  · obtain ⟨rfl, q, e, hg⟩ := h'
    refine ((hall a).mp ((hdue a).mpr ha)).resolve_right ?_
    rw [((quiet_iff hg).mp hq).1 a]
    decide

/-- **The alarms are countdowns.** In every run in which no alarm is cancelled between its
expiry and the end of its handling, the counter does what the countdowns do; in every state
the queue holds the active triggers once, ordered by their circular distance; and the actions
that follow an increment are those of the alarms that are due, each once. -/
theorem alarms_countdown (db : CounterDb w) (ys : List (Step w α))
    (hy : Along (step db) Unexpired init ys) (c : Counter w α)
    (hc : exec (step db) init ys = some c) :
    (∃ n, exec (Naive.step db) Naive.init ys = some n ∧ Queued db c n ∧ Goes db c n) ∧
      ∀ pre seg, ys = pre ++ .increment :: seg → .increment ∉ seg →
        ∃ n, exec (Naive.step db) Naive.init pre = some n ∧ (fired seg).Nodup ∧
          (∀ a ∈ fired seg, n.Due db.ticksperbase.toNat a) ∧
          (c.Quiet → ∀ a, n.Due db.ticksperbase.toNat a → a ∈ fired seg) := by
  obtain ⟨n', hn', h'⟩ := exec_agree (agree_init db) hy hc
  refine ⟨⟨n', hn', h'.queued, h'.goes⟩, fun pre seg hys hi => ?_⟩
  subst hys
  exact fired_due hy hc hi

/-- A counter that runs from `0` to `9`, one tick for two increments. -/
def halfTicks : CounterDb 8 := ⟨9, 2⟩

/-- Two alarms are due at the fifth tick; the action of the first, which is cyclic, cancels a
third one and sets it again, to expire beyond the end of the counter. -/
def twoDue : List (Step 8 (Fin 3)) :=
  [.setAbs 0 5 7, .setRel 1 5 0, .setRel 2 6 0] ++ List.replicate 10 .increment ++
    [.action 0, .cancel 2, .setAbs 2 1 0, .finish, .action 1, .finish, .increment]

theorem alarms_countdown_twoDue :
    ∃ c : Counter 8 (Fin 3), exec (step halfTicks) init twoDue = some c ∧
      (∃ n, exec (Naive.step halfTicks) Naive.init twoDue = some n ∧ Queued halfTicks c n) ∧
      ∃ n : Naive (Fin 3), (fired twoDue).Nodup ∧ n.Due 2 0 ∧ n.Due 2 1 ∧
        ∀ a ∈ fired twoDue, n.Due 2 a := by
  have hsome : (exec (step halfTicks) init twoDue).isSome := by decide +kernel
  obtain ⟨c, hc⟩ := Option.isSome_iff_exists.mp hsome
  obtain ⟨⟨n, hn, hq, -⟩, -⟩ := alarms_countdown halfTicks twoDue (by decide +kernel) c hc
  have hsome' : (exec (step halfTicks) init (twoDue.take 18)).isSome := by decide +kernel
  obtain ⟨c', hc'⟩ := Option.isSome_iff_exists.mp hsome'
  obtain ⟨n', -, hnd, hdue, -⟩ :=
    (alarms_countdown halfTicks (twoDue.take 18) (by decide +kernel) c' hc').2
      (twoDue.take 12) ((twoDue.take 18).drop 13) (by decide +kernel) (by decide +kernel)
  exact ⟨c, hc, ⟨n, hn, hq⟩, n', hnd, hdue 0 (by decide +kernel), hdue 1 (by decide +kernel),
    hdue⟩

end FpMemSched.Erika.AlarmsAgree
