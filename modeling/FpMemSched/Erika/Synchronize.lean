import FpMemSched.Erika.OnTime

/-!
Explicit synchronisation of a schedule table (`osEE_st_syncronize` in `ee_ar_sched_table.c`,
`SyncScheduleTable`).

The call compares the place of the next expiry in the round with a value of the synchronisation
counter and moves the expiry by as much of the deviation as its expiry point allows. Nothing
else of the table changes: the point at which the round started stays where it was.
-/

namespace FpMemSched.Erika.Synchronize

open FpMemSched.Lib.Runs FpMemSched.Lib.Circular FpMemSched.Lib.Linked
open FpMemSched.Erika.Alarm hiding step Step init
open FpMemSched.Erika.SchedTable FpMemSched.Erika.Countdown FpMemSched.Erika.AlarmsAgree

/-- How far an expiry point may be moved. -/
structure Adjustment (w : ℕ) where
  maxShorten : BitVec w
  maxLengthen : BitVec w

structure SyncTabDb (w : ℕ) extends SchedTabDb w where
  adjust : List (Adjustment w)
  /-- A `TickDeltaType`, so it has a sign. -/
  precision : BitVec w
  adjust_length : adjust.length = expiryPoints.length

structure SyncTables (w : ℕ) (α : Type) extends Tables w α where
  /-- A `TickDeltaType`. -/
  deviation : α → BitVec w

variable {w : ℕ} {α : Type}

/-- The expiry point that is processed next; in the final delay, and outside of the array,
there is none. -/
def SyncTables.point (σ : α → SyncTabDb w) (a : α) (s : SyncTables w α) :
    Option (Adjustment w) :=
  (s.position a).bind fun i => (σ a).adjust[i]?

/-- The deviation before the synchronisation. -/
def SyncTables.behindBy (a : α) (value : BitVec w) (s : SyncTables w α) : BitVec w :=
  s.counter.when a - s.start a - value

variable [DecidableEq α] [Fintype α]

/-- The trigger is taken out of the queue and put back. -/
def requeue (a : α) (when : BitVec w) (c : Counter w α) : Option (Counter w α) :=
  (counterCancelTrigger a c).bind (counterInsertAbsTrigger a when)

/-- The new counter and what is left of the deviation. -/
def adjusted (σ : α → SyncTabDb w) (a : α) (value : BitVec w) (s : SyncTables w α) :
    Option (Counter w α × BitVec w) :=
  let nextWhen := s.counter.when a
  let deviation := s.behindBy a value
  if deviation ≠ 0 then
    (s.point σ a).bind fun p =>
      if (0 : BitVec w).slt deviation then
        let shortening := if p.maxShorten < deviation then p.maxShorten else deviation
        (requeue a (nextWhen - shortening) s.counter).map (·, deviation - shortening)
      else
        let lengthening := if p.maxLengthen < -deviation then p.maxLengthen else -deviation
        (requeue a (nextWhen + lengthening) s.counter).map (·, deviation - lengthening)
  else some (s.counter, deviation)

def stSyncronize (σ : α → SyncTabDb w) (a : α) (value : BitVec w) (s : SyncTables w α) :
    Option (SyncTables w α × StatusType) :=
  if (s.stStatus a).isRunning then
    (adjusted σ a value s).map fun (c, deviation) =>
      ({ s with
        counter := c
        stStatus := Function.update s.stStatus a
          (if deviation.slt (σ a).precision ∧ (-(σ a).precision).slt deviation then
            .runningAndSynchronous
          else .running)
        deviation := Function.update s.deviation a deviation }, .eOk)
  else some (s, .eOk)

def syncScheduleTable (σ : α → SyncTabDb w) (a : α) (value : BitVec w) (s : SyncTables w α) :
    Option (SyncTables w α × StatusType) :=
  if (σ a).syncStrategy ≠ SynchStrategy.explicit then some (s, .eOsId)
  else if (σ a).duration ≤ value then some (s, .eOsValue)
  else if s.stStatus a = .stopped ∨ s.stStatus a = .next then some (s, .eOsState)
  else stSyncronize σ a value s

/-! ### What a synchronisation should do -/

/-- By how many ticks the next expiry comes earlier. -/
def shift (db : CounterDb w) (a : α) (c c' : Counter w α) : ℤ :=
  (away db c a : ℤ) - away db c' a

def shortenBound (σ : α → SyncTabDb w) (a : α) (s : SyncTables w α) : ℕ :=
  (s.point σ a).elim 0 fun p => p.maxShorten.toNat

def lengthenBound (σ : α → SyncTabDb w) (a : α) (s : SyncTables w α) : ℕ :=
  (s.point σ a).elim 0 fun p => p.maxLengthen.toNat

/-- The trigger has been moved by at most `shorten` and `lengthen` ticks, the queue is in order,
and what is left of the deviation is nearer to zero by as much as the trigger has moved. -/
structure Moved (db : CounterDb w) (a : α) (shorten lengthen : ℕ) (deviation left : ℤ)
    (c c' : Counter w α) : Prop where
  good : ∃ q e, Good db c' q e
  status : c'.status a = c.status a
  earlier : shift db a c c' ≤ shorten
  later : -shift db a c c' ≤ lengthen
  ahead : (away db c' a : ℤ) ≤ away db c a + max 0 (min (lengthen : ℤ) (-deviation))
  residual : left = deviation - shift db a c c'
  positive : 0 ≤ deviation → 0 ≤ left ∧ left ≤ deviation
  negative : deviation ≤ 0 → deviation ≤ left ∧ left ≤ 0

structure Adjusts (db : CounterDb w) (σ : α → SyncTabDb w) (a : α) (value : BitVec w)
    (s s' : SyncTables w α) : Prop where
  moved : Moved db a (shortenBound σ a s) (lengthenBound σ a s) (s.behindBy a value).toInt
    (s'.deviation a).toInt s.counter s'.counter
  synchronous : s'.stStatus a = .runningAndSynchronous ↔
    |(s'.deviation a).toInt| < (σ a).precision.toInt

/-- The call reads within the array, returns, and moves the expiry as it should. -/
def Synchronizes (db : CounterDb w) (σ : α → SyncTabDb w) (a : α) (value : BitVec w)
    (s : SyncTables w α) : Prop :=
  ∃ s', syncScheduleTable σ a value s = some (s', .eOk) ∧ Adjusts db σ a value s s'

/-! ### When it does -/

/-- The trigger can come `k` ticks earlier: the counter has not come that far, and the
difference does not leave the range of the counter. -/
def Shortens (db : CounterDb w) (c : Counter w α) (a : α) (k : ℕ) : Prop :=
  k ≤ away db c a ∧ (k ≤ (c.when a).toNat ∨ db.maxallowedvalue.toNat + 1 = 2 ^ w)

/-- The trigger can come `k` ticks later. -/
def Lengthens (db : CounterDb w) (c : Counter w α) (a : α) (k : ℕ) : Prop :=
  away db c a + k ≤ db.maxallowedvalue.toNat ∧
    ((c.when a).toNat + k ≤ db.maxallowedvalue.toNat ∨ db.maxallowedvalue.toNat + 1 = 2 ^ w)

/-- The next expiry can be moved: its trigger waits in the queue, and it is an expiry point of
the table. Where the deviation is negative the code subtracts where it should add, which is the
same for nothing and for half of the range. -/
def InStep (db : CounterDb w) (σ : α → SyncTabDb w) (a : α) (value : BitVec w)
    (s : SyncTables w α) : Prop :=
  s.behindBy a value = 0 ∨ s.counter.status a = .active ∧ ∃ p, s.point σ a = some p ∧
    ((0 < (s.behindBy a value).toInt ∧
        Shortens db s.counter a (min p.maxShorten.toNat (s.behindBy a value).toNat)) ∨
      ((s.behindBy a value).toInt < 0 ∧ (p.maxLengthen.toNat = 0 ∨
        2 * (s.behindBy a value).toNat = 2 ^ w ∧
        (s.behindBy a value).toNat ≤ p.maxLengthen.toNat ∧
        Lengthens db s.counter a (s.behindBy a value).toNat)))

/-! ### The queue -/

variable {db : CounterDb w} {c c' : Counter w α} {q e : List α} {a : α}

omit [DecidableEq α] [Fintype α] in
lemma toNat_sub_cond (x k : BitVec w) : (x - k).toNat =
    if k.toNat ≤ x.toNat then x.toNat - k.toNat else x.toNat + 2 ^ w - k.toNat := by
  have hx := x.isLt
  have hk := k.isLt
  rw [BitVec.toNat_sub]
  split_ifs with h
  · rw [show 2 ^ w - k.toNat + x.toNat = x.toNat - k.toNat + 2 ^ w by omega, Nat.add_mod_right,
      Nat.mod_eq_of_lt (by omega)]
  · rw [Nat.mod_eq_of_lt (by omega)]
    omega

omit [DecidableEq α] [Fintype α] in
/-- The signed value of a word. -/
lemma toInt_cases (x : BitVec w) : (2 * x.toNat < 2 ^ w ∧ x.toInt = x.toNat) ∨
    (2 ^ w ≤ 2 * x.toNat ∧ x.toInt = x.toNat - (2 ^ w : ℕ)) := by
  rw [BitVec.toInt_eq_toNat_cond]
  split_ifs with h
  · exact Or.inl ⟨h, rfl⟩
  · exact Or.inr ⟨Nat.le_of_not_lt h, rfl⟩

omit [DecidableEq α] [Fintype α] in
lemma toNat_neg_of_ne {x : BitVec w} (h : x ≠ 0) : (-x).toNat = 2 ^ w - x.toNat := by
  have hx := x.isLt
  have hpos : x.toNat ≠ 0 := fun hz => h (BitVec.eq_of_toNat_eq (by simpa using hz))
  rw [BitVec.toNat_neg, Nat.mod_eq_of_lt (by omega)]

omit [DecidableEq α] [Fintype α] in
lemma toNat_clamp (x y : BitVec w) : (if x < y then x else y).toNat = min x.toNat y.toNat := by
  split_ifs with h
  · rw [BitVec.lt_def] at h
    omega
  · rw [BitVec.lt_def] at h
    omega

omit [DecidableEq α] [Fintype α] in
lemma toNat_add_cond (x k : BitVec w) : (x + k).toNat =
    if x.toNat + k.toNat < 2 ^ w then x.toNat + k.toNat else x.toNat + k.toNat - 2 ^ w := by
  have hx := x.isLt
  have hk := k.isLt
  rw [BitVec.toNat_add]
  split_ifs with h
  · exact Nat.mod_eq_of_lt h
  · rw [Nat.mod_eq_sub_mod (by omega), Nat.mod_eq_of_lt (by omega)]

omit [Fintype α] in
lemma cancelLoop_congr (hn : c'.next = c.next) (k : ℕ) (x : α) :
    c'.cancelLoop a k x = c.cancelLoop a k x := by
  induction k generalizing x with
  | zero => rfl
  | succ k ih =>
    rw [Counter.cancelLoop, Counter.cancelLoop, hn]
    rcases c.next x with _ | y
    · rfl
    · dsimp only
      rw [ih y]

/-- The removal does not look at the statuses. -/
lemma cancelTrigger_status (f : α → TriggerStatus) :
    counterCancelTrigger a { c with status := f } =
      (counterCancelTrigger a c).map fun c => { c with status := f } := by
  unfold counterCancelTrigger
  dsimp only
  cases hq : c.triggerQueue with
  | none => rfl
  | some h =>
    dsimp only
    split_ifs
    · rfl
    · rw [Option.map_map]
      refine congrArg₂ Option.map (funext fun p => ?_) ?_
      · rcases p with ⟨prev, _ | cur⟩
        · simp [hq]
        · rfl
      · apply cancelLoop_congr
        rfl

/-- **The trigger is moved**; where the new time is one of the counter the queue stays in
order. -/
lemma requeue_spec (hg : Good db c q e) (ha : a ∈ q) (new : BitVec w) :
    ∃ c', requeue a new c = some c' ∧ c'.when a = new ∧ c'.value = c.value ∧
      (new.toNat ≤ db.maxallowedvalue.toNat → ∃ q', Good db c' q' e ∧ a ∈ q') := by
  have hact : c.status a = .active := (hg.active a).mpr ha
  obtain ⟨hqd, -, hapart⟩ := List.nodup_append.mp hg.once
  have hnot : a ∉ q.erase a ++ e := by
    rw [List.mem_append, hqd.mem_erase_iff]
    rintro (⟨hne, -⟩ | hae)
    · exact hne rfl
    · exact hapart a ha a hae rfl
  have honce : (q.erase a ++ e).Nodup := by
    rw [← List.erase_append_left _ ha]
    exact hg.once.erase a
  obtain ⟨nx, h, hcancel, hq, he⟩ := cancelTrigger_eq hg.queue hg.todo hg.once ha
  obtain ⟨nx', h', hins, -, -⟩ := insertAbsTrigger_eq { c with next := nx, triggerQueue := h }
    { c with next := nx, triggerQueue := h, when := Function.update c.when a new } a new rfl hq he
    honce hnot
  have hmove : requeue a new c = some { c with
      next := nx', triggerQueue := h', when := Function.update c.when a new } := by
    rw [requeue, hcancel, Option.bind_some]
    exact hins
  refine ⟨_, hmove, Function.update_self .., rfl, fun hnew => ?_⟩
  -- the same removal and insertion as for an alarm that is cancelled and set again
  obtain ⟨c₀, hc₀, hg₀, -⟩ := good_cancel hg hact
  rw [cancelTrigger_status, hcancel, Option.map_some] at hc₀
  have hc₀ := Option.some.inj hc₀
  have hno : c₀.handled ≠ some a := by
    rw [← hc₀]
    intro hh
    have hexp := (hg.expired a).mpr (Or.inr hh)
    rw [hact] at hexp
    simp at hexp
  obtain ⟨c', q', hc', ⟨hhandled, -⟩, hg', -⟩ := good_insert (o := c₀.handled) hg₀ hnot hnew
    hg₀.cycle_le hno (fun _ _ => Iff.rfl)
  have hsame : { c₀ with cycle := c₀.cycle, status := Function.update c₀.status a .active } =
      { c with next := nx, triggerQueue := h } := by
    rw [← hc₀]
    dsimp only
    rw [Function.update_idem, ← hact, Function.update_eq_self]
  rw [hsame, hins] at hc'
  have hc' := Option.some.inj hc'
  have hgood : Good db c' q' e := by
    have heta : { c' with handled := c₀.handled } = c' := by rw [← hhandled]
    rw [← heta]
    exact hg'
  rw [← hc'] at hgood
  exact ⟨q', hgood, (hgood.active a).mp hact⟩

/-- A trigger that does not wait in the queue gets there all the same. -/
lemma requeue_off {new : BitVec w} (hg : Good db c q e) (ha : a ∉ q)
    (hr : requeue a new c = some c') :
    c'.status = c.status ∧ ∀ q' e', Good db c' q' e' → a ∈ q' := by
  rw [requeue, Option.bind_eq_some_iff] at hr
  obtain ⟨c₀, hcancel, hr⟩ := hr
  have hsame := cancelTrigger_notMem hg.queue ha hcancel
  rw [hsame] at hr
  obtain ⟨nx, h, hins, hchain, -⟩ := insertAbsTrigger_queue c _ a new rfl hg.queue ha
  rw [hins] at hr
  obtain rfl := Option.some.inj hr
  refine ⟨rfl, fun q' e' hg' => ?_⟩
  rw [hg'.queue.unique hchain]
  exact List.mem_append_right _ List.mem_cons_self

/-! ### The shift -/

section Shift

variable {k : BitVec w}

omit [DecidableEq α] [Fintype α] in
/-- Subtracting `k` moves the trigger by `k` ticks. -/
lemma earlier_iff (hv : c.value.toNat ≤ db.maxallowedvalue.toNat)
    (hx : (c.when a).toNat ≤ db.maxallowedvalue.toNat) (hvalue : c'.value = c.value)
    (hwhen : c'.when a = c.when a - k) :
    ((c'.when a).toNat ≤ db.maxallowedvalue.toNat ∧ away db c' a + k.toNat = away db c a) ↔
      Shortens db c a k.toNat := by
  have hM := db.maxallowedvalue.isLt
  have hk := k.isLt
  have hd := dist_le db.maxallowedvalue.toNat c.value.toNat (c.when a).toNat
  unfold Shortens away
  rw [hvalue, hwhen, toNat_sub_cond]
  constructor
  · rintro ⟨hle, hdist⟩
    obtain ⟨hk', heq⟩ := (dist_add_eq_iff hv hx hle).mp hdist
    refine ⟨hk', ?_⟩
    unfold behind at heq
    split_ifs at heq with hkx
    · exact Or.inl hkx
    · right
      omega
  · rintro ⟨hk', hor⟩
    have heq : (if k.toNat ≤ (c.when a).toNat then (c.when a).toNat - k.toNat
        else (c.when a).toNat + 2 ^ w - k.toNat) =
        behind db.maxallowedvalue.toNat (c.when a).toNat k.toNat := by
      unfold behind
      split_ifs with hkx
      · rfl
      · rw [hor.resolve_left hkx]
    rw [heq]
    exact ⟨behind_le hx, dist_behind hv hx hk'⟩

omit [DecidableEq α] [Fintype α] in
/-- Adding `k` moves the trigger by `k` ticks. -/
lemma later_iff (hv : c.value.toNat ≤ db.maxallowedvalue.toNat)
    (hx : (c.when a).toNat ≤ db.maxallowedvalue.toNat) (hvalue : c'.value = c.value)
    (hwhen : c'.when a = c.when a + k) :
    ((c'.when a).toNat ≤ db.maxallowedvalue.toNat ∧ away db c' a = away db c a + k.toNat) ↔
      Lengthens db c a k.toNat := by
  have hM := db.maxallowedvalue.isLt
  have hk := k.isLt
  have hd := dist_le db.maxallowedvalue.toNat c.value.toNat (c.when a).toNat
  unfold Lengthens away
  rw [hvalue, hwhen, toNat_add_cond]
  constructor
  · rintro ⟨hle, hdist⟩
    obtain ⟨hk', heq⟩ := (dist_eq_add_iff hv hx hle).mp hdist
    refine ⟨hk', ?_⟩
    unfold ahead at heq
    by_cases hsum : (c.when a).toNat + k.toNat ≤ db.maxallowedvalue.toNat
    · exact Or.inl hsum
    · rw [if_neg hsum] at heq
      split_ifs at heq hle <;> omega
  · rintro ⟨hk', hor⟩
    have heq : (if (c.when a).toNat + k.toNat < 2 ^ w then (c.when a).toNat + k.toNat
        else (c.when a).toNat + k.toNat - 2 ^ w) =
        ahead db.maxallowedvalue.toNat (c.when a).toNat k.toNat := by
      unfold ahead
      rcases hor with hor | hor
      · rw [if_pos hor, if_pos (by omega)]
      · split_ifs <;> omega
    rw [heq]
    have hle := ahead_le k.toNat hx (show k.toNat ≤ db.maxallowedvalue.toNat by omega)
    exact ⟨hle, (dist_eq_add_iff hv hx hle).mpr ⟨hk', rfl⟩⟩

end Shift

/-! ### The move -/

section Move

variable {shorten lengthen : ℕ}

omit [DecidableEq α] [Fintype α] in
lemma moved_refl (hg : Good db c q e) : Moved db a shorten lengthen 0 0 c c where
  good := ⟨q, e, hg⟩
  status := rfl
  earlier := by simp [shift]
  later := by simp [shift]
  ahead := by simp
  residual := by simp [shift]
  positive := by simp
  negative := by simp

/-- A trigger that does not wait in the queue is not to be moved. -/
lemma not_moved {new : BitVec w} {deviation left : ℤ} (hg : Good db c q e)
    (ha : c.status a ≠ .active) (hr : requeue a new c = some c') :
    ¬ Moved db a shorten lengthen deviation left c c' := by
  intro hm
  have haq : a ∉ q := fun haq => ha ((hg.active a).mpr haq)
  obtain ⟨hstatus, hin⟩ := requeue_off hg haq hr
  obtain ⟨q', e', hg'⟩ := hm.good
  apply ha
  rw [← hstatus]
  exact (hg'.active a).mpr (hin q' e' hg')

omit [DecidableEq α] [Fintype α] in
lemma Moved.when_le {deviation left : ℤ} (hm : Moved db a shorten lengthen deviation left c c')
    (ha : c.status a = .active) : (c'.when a).toNat ≤ db.maxallowedvalue.toNat := by
  obtain ⟨q', e', hg'⟩ := hm.good
  have ha' : c'.status a = .active := hm.status.trans ha
  exact hg'.when_le a ((hg'.active a).mp ha')

/-- **The expiry comes earlier.** -/
lemma moved_earlier_iff (lengthen : ℕ) {S D : BitVec w} (hg : Good db c q e) (ha : c.status a = .active)
    (hD : 0 < D.toInt) (hS : S.toNat = min shorten D.toNat)
    (hr : requeue a (c.when a - S) c = some c') :
    Moved db a shorten lengthen D.toInt (D - S).toInt c c' ↔
      Shortens db c a (min shorten D.toNat) := by
  have haq := (hg.active a).mp ha
  obtain ⟨c₁, hc₁, hwhen, hvalue, hgood⟩ := requeue_spec hg haq (c.when a - S)
  rw [hr] at hc₁
  obtain rfl := Option.some.inj hc₁
  have hiff := earlier_iff hg.value_le (hg.when_le a haq) hvalue hwhen
  have hDint : D.toInt = D.toNat := by
    have := D.isLt
    rcases toInt_cases D with ⟨-, h⟩ | ⟨-, h⟩ <;> omega
  have hleft : (D - S).toInt = D.toNat - S.toNat := by
    have hsub : (D - S).toNat = D.toNat - S.toNat := by
      rw [toNat_sub_cond, if_pos (by omega)]
    rcases toInt_cases D with ⟨hhalf, h⟩ | ⟨-, h⟩
    · rcases toInt_cases (D - S) with ⟨-, h'⟩ | ⟨hhalf', -⟩ <;> omega
    · omega
  rw [← hS, ← hiff, hleft, hDint]
  constructor
  · intro hm
    have hres := hm.residual
    unfold shift at hres
    exact ⟨hm.when_le ha, by omega⟩
  · rintro ⟨hle, hdist⟩
    obtain ⟨q', hg', haq'⟩ := hgood (by rw [← hwhen]; exact hle)
    have hshift : shift db a c c' = S.toNat := by
      unfold shift
      omega
    refine ⟨⟨q', e, hg'⟩, ?_, ?_, ?_, ?_, ?_, ?_, ?_⟩
    · rw [(hg'.active a).mpr haq', ha]
    · rw [hshift]
      omega
    · rw [hshift]
      omega
    · omega
    · rw [hshift]
    · omega
    · omega

/-- **The expiry comes later.** The deviation is then moved the wrong way. -/
lemma moved_later_iff (shorten : ℕ) {L D : BitVec w} (hg : Good db c q e) (ha : c.status a = .active)
    (hD : D.toInt < 0) (hL : L.toNat = min lengthen (2 ^ w - D.toNat))
    (hr : requeue a (c.when a + L) c = some c') :
    Moved db a shorten lengthen D.toInt (D - L).toInt c c' ↔
      lengthen = 0 ∨ 2 * D.toNat = 2 ^ w ∧ D.toNat ≤ lengthen ∧ Lengthens db c a D.toNat := by
  have haq := (hg.active a).mp ha
  obtain ⟨c₁, hc₁, hwhen, hvalue, hgood⟩ := requeue_spec hg haq (c.when a + L)
  rw [hr] at hc₁
  obtain rfl := Option.some.inj hc₁
  have hiff := later_iff hg.value_le (hg.when_le a haq) hvalue hwhen
  have hDlt := D.isLt
  obtain ⟨hhalf, hDint⟩ : 2 ^ w ≤ 2 * D.toNat ∧ D.toInt = D.toNat - (2 ^ w : ℕ) := by
    rcases toInt_cases D with ⟨-, h⟩ | h
    · omega
    · exact h
  have hsub : (D - L).toNat = D.toNat - L.toNat := by
    rw [toNat_sub_cond, if_pos (by omega)]
  rw [hDint]
  constructor
  · intro hm
    have hres := hm.residual
    obtain ⟨hge, hle⟩ := hm.negative (by omega)
    unfold shift at hres
    rcases toInt_cases (D - L) with ⟨hhalf', hleft⟩ | ⟨hhalf', hleft⟩
    · -- what is left has changed its sign
      right
      have hLD : L.toNat = D.toNat := by omega
      rw [hLD] at hiff
      exact ⟨by omega, by omega, hiff.mp ⟨hm.when_le ha, by omega⟩⟩
    · left
      omega
  · intro hor
    have hmove : (c'.when a).toNat ≤ db.maxallowedvalue.toNat ∧
        away db c' a = away db c a + L.toNat := by
      rcases hor with rfl | ⟨htwice, hlen, hlengthens⟩
      · rw [hiff]
        unfold Lengthens
        rw [hL, Nat.zero_min]
        exact ⟨dist_le _ _ _, Or.inl (hg.when_le a haq)⟩
      · rw [hiff, show L.toNat = D.toNat by omega]
        exact hlengthens
    have hleft : (D - L).toInt = D.toNat - (2 ^ w : ℕ) + L.toNat := by
      rcases toInt_cases (D - L) with ⟨hhalf', hleft⟩ | ⟨hhalf', hleft⟩ <;> omega
    obtain ⟨q', hg', haq'⟩ := hgood (by rw [← hwhen]; exact hmove.1)
    have hshift : shift db a c c' = -L.toNat := by
      unfold shift
      omega
    rw [hleft]
    refine ⟨⟨q', e, hg'⟩, ?_, ?_, ?_, ?_, ?_, ?_, ?_⟩
    · rw [(hg'.active a).mpr haq', ha]
    · omega
    · omega
    · omega
    · omega
    · omega
    · omega

end Move

/-! ### The call -/

section Call

variable {σ : α → SyncTabDb w} {s : SyncTables w α} {value : BitVec w}

omit [DecidableEq α] [Fintype α] in
/-- The two comparisons with the precision. -/
lemma synchronous_iff (D P : BitVec w) :
    (D.slt P ∧ (-P).slt D) ↔ |D.toInt| < P.toInt := by
  rw [BitVec.slt_iff_toInt_lt, BitVec.slt_iff_toInt_lt, abs_lt, and_comm]
  have hneg : (-P).toInt = -P.toInt ∨ P.toInt < 0 := by
    have hP := P.isLt
    rcases toInt_cases P with ⟨hhalf, hint⟩ | ⟨-, hint⟩
    · left
      by_cases hzero : P = 0
      · simp [hzero]
      · have hsub := toNat_neg_of_ne hzero
        rcases toInt_cases (-P) with ⟨hhalf', hint'⟩ | ⟨hhalf', hint'⟩ <;> omega
    · right
      omega
  rcases hneg with hneg | hneg
  · rw [hneg]
  · -- a deviation is not below a negative precision, and not between it and its opposite
    constructor
    · rintro ⟨h₁, h₂⟩
      have hP := P.isLt
      rcases toInt_cases P with ⟨hhalf, hint⟩ | ⟨hhalf, hint⟩
      · omega
      · have hsub := toNat_neg_of_ne (x := P) (by rintro rfl; simp at hneg)
        rcases toInt_cases (-P) with ⟨hhalf', hint'⟩ | ⟨hhalf', hint'⟩ <;> omega
    · rintro ⟨h₁, h₂⟩
      omega

/-- The states that the call leaves. -/
lemma synchronizes_iff (hstatus : (s.stStatus a).isRunning)
    (hstrategy : (σ a).syncStrategy = SynchStrategy.explicit) (hvalue : value < (σ a).duration) :
    Synchronizes db σ a value s ↔ ∃ c' D', adjusted σ a value s = some (c', D') ∧
      Moved db a (shortenBound σ a s) (lengthenBound σ a s) (s.behindBy a value).toInt D'.toInt
        s.counter c' := by
  have hcall : syncScheduleTable σ a value s = stSyncronize σ a value s := by
    have hon : ¬ (s.stStatus a = .stopped ∨ s.stStatus a = .next) := by
      rintro (h | h) <;> simp [h, StStatus.isRunning] at hstatus
    rw [syncScheduleTable, if_neg (by simp [hstrategy]), if_neg (BitVec.not_le.mpr hvalue),
      if_neg hon]
  unfold Synchronizes
  rw [hcall, stSyncronize, if_pos hstatus]
  constructor
  · rintro ⟨s', hs', hadj⟩
    rw [Option.map_eq_some_iff] at hs'
    obtain ⟨⟨c', D'⟩, hD', hs'⟩ := hs'
    have hmoved := hadj.moved
    rw [← (Prod.mk.inj hs').1] at hmoved
    dsimp only at hmoved
    rw [Function.update_self] at hmoved
    exact ⟨c', D', hD', hmoved⟩
  · rintro ⟨c', D', hD', hmoved⟩
    rw [hD', Option.map_some]
    refine ⟨_, rfl, ?_, ?_⟩
    · dsimp only
      rw [Function.update_self]
      exact hmoved
    · dsimp only
      rw [Function.update_self, Function.update_self, ← synchronous_iff]
      split_ifs with h <;> simp [h]

lemma moved_iff_inStep (hg : Good db s.counter q e) :
    (∃ c' D', adjusted σ a value s = some (c', D') ∧
      Moved db a (shortenBound σ a s) (lengthenBound σ a s) (s.behindBy a value).toInt D'.toInt
        s.counter c') ↔ InStep db σ a value s := by
  unfold InStep adjusted shortenBound lengthenBound
  dsimp only
  generalize hD : s.behindBy a value = D
  by_cases hzero : D = 0
  · subst hzero
    simp only [ne_eq, not_true, if_false, true_or, iff_true]
    exact ⟨_, _, rfl, by simpa using moved_refl hg⟩
  rw [if_pos hzero]
  cases hp : s.point σ a with
  | none =>
    have hzero' : ¬ D = 0#w := hzero
    simp [hzero']
  | some p =>
    simp only [hzero, false_or, Option.bind_some, Option.elim_some, Option.some.injEq,
      exists_eq_left']
    by_cases hact : s.counter.status a = .active
    · have haq := (hg.active a).mp hact
      have hDlt := D.isLt
      by_cases hpos : (0 : BitVec w).slt D
      · have hint : 0 < D.toInt := by simpa [BitVec.slt_iff_toInt_lt] using hpos
        rw [if_pos hpos]
        have hSnat := toNat_clamp p.maxShorten D
        generalize (if p.maxShorten < D then p.maxShorten else D) = S at hSnat ⊢
        obtain ⟨c', hr, -⟩ := requeue_spec hg haq (s.counter.when a - S)
        have hiff := moved_earlier_iff p.maxLengthen.toNat hg hact hint hSnat hr
        rw [hr]
        simp only [Option.map_some, Option.some.injEq, Prod.mk.injEq, hact, true_and, hint,
          not_lt.mpr hint.le, false_and, or_false]
        simpa using hiff
      · have hint : D.toInt < 0 := by
          have hle : D.toInt ≤ 0 := by simpa [BitVec.slt_iff_toInt_lt] using hpos
          have hne : D.toInt ≠ 0 := fun h => hzero (BitVec.eq_of_toInt_eq (by simpa using h))
          omega
        rw [if_neg hpos]
        have hLnat := toNat_clamp p.maxLengthen (-D)
        rw [toNat_neg_of_ne hzero] at hLnat
        generalize (if p.maxLengthen < -D then p.maxLengthen else -D) = L at hLnat ⊢
        obtain ⟨c', hr, -⟩ := requeue_spec hg haq (s.counter.when a + L)
        have hiff := moved_later_iff p.maxShorten.toNat hg hact hint hLnat hr
        rw [hr]
        simp only [Option.map_some, Option.some.injEq, Prod.mk.injEq, hact, true_and, hint,
          not_lt.mpr hint.le, false_and, false_or]
        simpa using hiff
    · simp only [hact, false_and, iff_false, not_exists, not_and]
      intro c' D' hr
      obtain ⟨new, hr⟩ : ∃ new, requeue a new s.counter = some c' := by
        by_cases hpos : (0 : BitVec w).slt D
        · rw [if_pos hpos, Option.map_eq_some_iff] at hr
          obtain ⟨c₁, hr, heq⟩ := hr
          exact ⟨_, by rw [hr, (Prod.mk.inj heq).1]⟩
        · rw [if_neg hpos, Option.map_eq_some_iff] at hr
          obtain ⟨c₁, hr, heq⟩ := hr
          exact ⟨_, by rw [hr, (Prod.mk.inj heq).1]⟩
      exact not_moved hg hact hr

end Call

/-- The states of a run whose sums are in reach have a queue in order. -/
lemma good_of_run {σ : α → SchedTabDb w} {ys : List (SchedTable.Step w α)} {s : Tables w α}
    (hv : ∀ a, OnTime.Valid db (σ a))
    (hy : Along (SchedTable.step db σ) (OnTime.InReach db σ) SchedTable.init ys)
    (hs : exec (SchedTable.step db σ) SchedTable.init ys = some s) :
    ∃ q e, Good db s.counter q e := by
  obtain ⟨T, -, hk⟩ := exec_seen (OnTime.shows db σ)
    (fun s y s' T hk hr hs => OnTime.kept_step hv hk hr hs) OnTime.kept_init hy hs
  exact hk.good

/-- **A synchronisation moves the next expiry as it should** exactly where the table is in step,
or where the next expiry is an expiry point that can be moved. -/
theorem synchronizes_iff_inStep (db : CounterDb w) (σ : α → SyncTabDb w) (a : α)
    (value : BitVec w) (s : SyncTables w α) {q e : List α} (hg : Good db s.counter q e)
    (hstatus : (s.stStatus a).isRunning)
    (hstrategy : (σ a).syncStrategy = SynchStrategy.explicit) (hvalue : value < (σ a).duration) :
    Synchronizes db σ a value s ↔ InStep db σ a value s := by
  rw [synchronizes_iff hstatus hstrategy hvalue]
  exact moved_iff_inStep hg

/-- A repeating table with one point, which can be moved by two ticks either way. -/
def onePoint (_ : Unit) : SyncTabDb 8 where
  expiryPoints := [2]
  syncStrategy := .explicit
  duration := 5
  repeated := true
  adjust := [⟨2, 2⟩]
  precision := 1
  adjust_length := rfl

/-- What a synchronisation reads of the table. -/
def reads (s : Tables 8 Unit) : (TriggerStatus × StStatus × Option ℕ) × ℕ × ℕ × ℕ :=
  ((s.counter.status (), s.stStatus (), s.position ()), s.counter.value.toNat,
    (s.counter.when ()).toNat, (s.start ()).toNat)

/-- The table before its point, which is two ticks away. -/
def beforePoint : List (SchedTable.Step 8 Unit) := [.startAbs () 1, .increment]

/-- The table in its final delay. -/
def finalDelay : List (SchedTable.Step 8 Unit) :=
  [.startAbs () 1, .increment, .increment, .increment, .handle (), .point, .handled]

theorem synchronizes_beforePoint : ∃ s : SyncTables 8 Unit,
    exec (SchedTable.step ⟨9, 1⟩ fun a => (onePoint a).toSchedTabDb) SchedTable.init beforePoint =
      some s.toTables ∧ Synchronizes ⟨9, 1⟩ onePoint () 1 s := by
  obtain ⟨u, hu⟩ : ∃ u, exec (SchedTable.step ⟨9, 1⟩ fun a => (onePoint a).toSchedTabDb)
      SchedTable.init beforePoint = some u := Option.isSome_iff_exists.mp (by decide +kernel)
  have hv : (exec (SchedTable.step ⟨9, 1⟩ fun a => (onePoint a).toSchedTabDb) SchedTable.init
      beforePoint).map reads = some ((.active, .running, some 0), 1, 3, 1) := by decide +kernel
  rw [hu, Option.map_some, Option.some.injEq, reads] at hv
  simp only [Prod.mk.injEq] at hv
  obtain ⟨⟨hstatus, hst, hpos⟩, hval, hwhen, hstart⟩ := hv
  obtain ⟨q, e, hg⟩ := good_of_run (by decide +kernel) (by decide +kernel) hu
  refine ⟨⟨u, fun _ => 0⟩, hu, ?_⟩
  have hD : SyncTables.behindBy () 1 ⟨u, fun _ => 0⟩ = 1 := by
    unfold SyncTables.behindBy
    apply BitVec.eq_of_toNat_eq
    simp [BitVec.toNat_sub, hwhen, hstart]
  refine (synchronizes_iff_inStep ⟨9, 1⟩ onePoint () 1 _ hg (by simp [hst, StStatus.isRunning]) rfl
    (by decide)).mpr (Or.inr ⟨hstatus, ⟨2, 2⟩, by simp [SyncTables.point, hpos, onePoint], ?_⟩)
  left
  rw [hD]
  refine ⟨by decide, ?_⟩
  simp [Shortens, away, hval, hwhen, Lib.Circular.dist]

/-- Before its point the table is moved to a time that has passed, or its deviation away from
zero; in the final delay the adjustments are read behind the end of the array. -/
theorem synchronize_goes_wrong : ∃ s t : SyncTables 8 Unit,
    exec (SchedTable.step ⟨9, 1⟩ fun a => (onePoint a).toSchedTabDb) SchedTable.init beforePoint =
      some s.toTables ∧
    exec (SchedTable.step ⟨9, 1⟩ fun a => (onePoint a).toSchedTabDb) SchedTable.init finalDelay =
      some t.toTables ∧
    ((∃ q e, Good ⟨9, 1⟩ s.counter q e) ∧ ∃ q e, Good ⟨9, 1⟩ t.counter q e) ∧
    (s.stStatus () = .running ∧ t.stStatus () = .running) ∧
    ¬ Synchronizes ⟨9, 1⟩ onePoint () 0 s ∧ ¬ Synchronizes ⟨9, 1⟩ onePoint () 3 s ∧
    ¬ Synchronizes ⟨9, 1⟩ onePoint () 0 t := by
  obtain ⟨u, hu⟩ : ∃ u, exec (SchedTable.step ⟨9, 1⟩ fun a => (onePoint a).toSchedTabDb)
      SchedTable.init beforePoint = some u := Option.isSome_iff_exists.mp (by decide +kernel)
  obtain ⟨v, hv⟩ : ∃ v, exec (SchedTable.step ⟨9, 1⟩ fun a => (onePoint a).toSchedTabDb)
      SchedTable.init finalDelay = some v := Option.isSome_iff_exists.mp (by decide +kernel)
  have hreads : (exec (SchedTable.step ⟨9, 1⟩ fun a => (onePoint a).toSchedTabDb) SchedTable.init
      beforePoint).map reads = some ((.active, .running, some 0), 1, 3, 1) := by decide +kernel
  have hreads' : (exec (SchedTable.step ⟨9, 1⟩ fun a => (onePoint a).toSchedTabDb)
      SchedTable.init finalDelay).map reads = some ((.active, .running, none), 3, 6, 1) := by
    decide +kernel
  rw [hu, Option.map_some, Option.some.injEq, reads] at hreads
  rw [hv, Option.map_some, Option.some.injEq, reads] at hreads'
  simp only [Prod.mk.injEq] at hreads hreads'
  obtain ⟨⟨-, hst, hpos⟩, hval, hwhen, hstart⟩ := hreads
  obtain ⟨⟨-, hst', hpos'⟩, -, hwhen', hstart'⟩ := hreads'
  have hgood := good_of_run (by decide +kernel) (by decide +kernel) hu
  have hgood' := good_of_run (by decide +kernel) (by decide +kernel) hv
  refine ⟨⟨u, fun _ => 0⟩, ⟨v, fun _ => 0⟩, hu, hv, ⟨hgood, hgood'⟩, ⟨hst, hst'⟩, ?_⟩
  obtain ⟨q, e, hg⟩ := hgood
  obtain ⟨q', e', hg'⟩ := hgood'
  refine ⟨?_, ?_, ?_⟩
  · rw [synchronizes_iff (by simp [hst, StStatus.isRunning]) rfl (by decide), moved_iff_inStep hg]
    have hD : SyncTables.behindBy () 0 ⟨u, fun _ => 0⟩ = 2 :=
      BitVec.eq_of_toNat_eq (by simp [SyncTables.behindBy, BitVec.toNat_sub, hwhen, hstart])
    rw [InStep, hD]
    simp [SyncTables.point, hpos, onePoint, Shortens, away, hval, hwhen, Lib.Circular.dist]
  · rw [synchronizes_iff (by simp [hst, StStatus.isRunning]) rfl (by decide), moved_iff_inStep hg]
    have hD : SyncTables.behindBy () 3 ⟨u, fun _ => 0⟩ = 255 :=
      BitVec.eq_of_toNat_eq (by simp [SyncTables.behindBy, BitVec.toNat_sub, hwhen, hstart])
    rw [InStep, hD]
    simp [SyncTables.point, hpos, onePoint]
  · rw [synchronizes_iff (by simp [hst', StStatus.isRunning]) rfl (by decide), moved_iff_inStep hg']
    have hD : SyncTables.behindBy () 0 ⟨v, fun _ => 0⟩ = 5 :=
      BitVec.eq_of_toNat_eq (by simp [SyncTables.behindBy, BitVec.toNat_sub, hwhen', hstart'])
    rw [InStep, hD]
    simp [SyncTables.point, hpos']

end FpMemSched.Erika.Synchronize
