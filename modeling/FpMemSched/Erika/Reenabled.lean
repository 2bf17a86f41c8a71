import FpMemSched.Erika.TwoCores

/-!
Alarms that are cancelled or set again while they are handled, by any core.

By the comment on the trigger status an alarm that is cancelled after it has expired is inactive
at the end of its handling, and one that is then set again is active, with its new start. The
countdowns of this protocol differ from the plain ones in the end of an action: an alarm that was
cancelled meanwhile stays as it is. And a tick is in two parts: an alarm that is set between them
does not count the tick that is under way. The kernel leaves a cancelled alarm in the intermediate
status, and one that is set between the parts can be put in front of those that expire; otherwise
it follows the protocol.
-/

namespace FpMemSched.Erika.Reenabled

open FpMemSched.Lib.Runs FpMemSched.Lib.Linked FpMemSched.Lib.Circular FpMemSched.Erika.Alarm
open FpMemSched.Erika.Countdown FpMemSched.Erika.AlarmsAgree FpMemSched.Erika.TwoCores

variable {w : ℕ} {α : Type} [DecidableEq α] [Fintype α] {db : CounterDb w}
variable {c c' : Counter w α} {s s' : Shared w α} {y : Turn w α} {zs : List (Turn w α)} {a : α}
variable {v p start cycle : BitVec w} {q e : List α}

/-! ### The documented protocol -/

/-- Countdowns, with a tick whose first part is over. -/
structure Ticking (α : Type) extends Naive α where
  ticking : Bool

def Ticking.init : Ticking α := ⟨Naive.init, false⟩

/-- A countdown from `k`, by the ticks that have not taken their triggers. -/
def Ticking.late (n : Ticking α) (k : ℕ) : ℕ := if n.ticking then k + 1 else k

def protocol (db : CounterDb w) (n : Ticking α) : Turn w α → Option (Ticking α)
  | .call (.setRel a increment cycle) =>
    if 0 < increment ∧ increment ≤ db.maxallowedvalue ∧ cycle ≤ db.maxallowedvalue then
      some ⟨n.set a (n.late increment.toNat) cycle.toNat, n.ticking⟩
    else none
  | .call (.setAbs a start cycle) =>
    if start ≤ db.maxallowedvalue ∧ cycle ≤ db.maxallowedvalue then
      some ⟨n.set a (n.late (dist db.maxallowedvalue.toNat n.value start.toNat + 1)) cycle.toNat,
        n.ticking⟩
    else none
  | .call (.cancel a) => some { n with count := Function.update n.count a none }
  | .call .increment => none
  | .call (.action a) =>
    if n.pending a = true ∧ n.acting = none then
      some { n with pending := Function.update n.pending a false, acting := some a }
    else none
  | .call .finish =>
    match n.acting with
    | none => none
    | some a => some
        { n with
          count :=
            if n.count a = some 0 then
              Function.update n.count a (if n.cycle a = 0 then none else some (n.cycle a))
            else n.count
          acting := none }
  | .advance =>
    if n.ticking = false ∧ (∀ a, n.pending a = false) ∧ n.acting = none then some
      (if n.Ticks db.ticksperbase.toNat then
        { n with
          value := advance db.maxallowedvalue.toNat n.value
          sub := if db.ticksperbase.toNat ≤ 1 then n.sub else 0
          ticking := true }
      else { n with sub := n.sub + 1 })
    else none
  | .take =>
    if n.ticking then some
      { n with
        count := fun a => (n.count a).map (· - 1)
        pending := fun a => decide (n.count a = some 1)
        ticking := false }
    else none

/-- The alarm whose action the step begins. -/
def begins : Turn w α → Option α
  | .call (.action a) => some a
  | _ => none

/-- The alarms whose actions run, in order. -/
def handled (zs : List (Turn w α)) : List α := zs.filterMap begins

/-! ### The invariant -/

/-- Between the parts of a tick the countdowns are those at the value before. -/
inductive Follows (db : CounterDb w) : Shared w α → Ticking α → Prop
  | whole {c : Counter w α} {q e : List α} (hg : Good db c q e) :
    Follows db ⟨c, false⟩ ⟨countdowns db c, false⟩
  | between {c : Counter w α} {q : List α} {v p : BitVec w} (hg : Good db c q [])
      (hh : c.handled = none)
      (hv : v.toNat = advance db.maxallowedvalue.toNat c.value.toNat)
      (hp : p.toNat = 0 ∨ p.toNat < db.ticksperbase.toNat) :
    Follows db ⟨Counter.at c v p, true⟩
      ⟨{ countdowns db c with value := v.toNat, sub := p.toNat }, true⟩

omit [Fintype α] in
lemma follows_init (db : CounterDb w) : Follows db (Shared.init : Shared w α) Ticking.init := by
  obtain ⟨hn, q, e, hg⟩ := agree_init (α := α) db
  have hw := Follows.whole hg
  rwa [← hn] at hw

/-- As long as no expired alarm is cancelled the protocol asks for nothing else than the
countdowns. -/
lemma protocol_call (hg : Good db c q e) {x : Step w α} (hx : x ≠ .increment) :
    protocol db ⟨countdowns db c, false⟩ (.call x) =
      ((countdowns db c).step db x).map (⟨·, false⟩) := by
  cases x with
  | finish =>
    dsimp only [protocol, Naive.step]
    rcases hh : c.handled with _ | a
    · rw [show (countdowns db c).acting = none from hh]
      rfl
    · have hexp : c.status a = .expired := (hg.expired a).mpr (Or.inr hh)
      have hzero : (countdowns db c).count a = some 0 := count_of_expired hexp
      rw [show (countdowns db c).acting = some a from hh]
      dsimp only
      rw [if_pos hzero]
      rfl
  | setRel a increment cycle =>
    dsimp only [protocol, Naive.step]
    split_ifs <;> rfl
  | setAbs a start cycle =>
    dsimp only [protocol, Naive.step]
    split_ifs <;> rfl
  | cancel a => rfl
  | increment => exact absurd rfl hx
  | action a =>
    dsimp only [protocol, Naive.step]
    split_ifs <;> rfl

omit [Fintype α] in
/-- Where nothing is left of the tick for the countdowns nothing is for the counter. -/
lemma good_of_quiet {n : Naive α} (h : Agree db c n) (hp : ∀ b, n.pending b = false)
    (ha : n.acting = none) : ∃ q, Good db c q [] ∧ c.handled = none := by
  obtain ⟨rfl, q, e, hg⟩ := h
  have hquiet : c.Quiet := (quiet_iff hg).mpr ⟨hp, ha⟩
  obtain rfl := todo_eq_nil hg hquiet
  exact ⟨q, hg, hquiet.2⟩

omit [Fintype α] in
lemma pending_of_handled (hg : Good db c q []) (hh : c.handled = none) (b : α) :
    (countdowns db c).pending b = false :=
  ((quiet_iff hg).mp ⟨hg.todo, hh⟩).1 b

/-! ### Calls between the parts of a tick -/

section Between

variable (hg : Good db c q []) (hh : c.handled = none)

include hg hh

lemma between_cancel (ha : c.status a ≠ .expired) :
    ∃ d q', (alarmCancel a (Counter.at c v p)).map Prod.fst = some (Counter.at d v p) ∧
      Good db d q' [] ∧ d.handled = none ∧
      countdowns db d =
        { countdowns db c with count := Function.update (count db c) a none } := by
  obtain ⟨d, heq, hag⟩ := agree_cancel hg ha
  obtain ⟨q', hgd, hhd⟩ := good_of_quiet hag (pending_of_handled hg hh) hh
  refine ⟨d, q', ?_, hgd, hhd, hag.1.symm⟩
  rw [alarmCancel_at, Option.map_map]
  calc (alarmCancel a c).map (Prod.fst ∘ fun r => (Counter.at r.1 v p, r.2))
      = ((alarmCancel a c).map Prod.fst).map fun d => Counter.at d v p := by
        rw [Option.map_map]
        rfl
    _ = some (Counter.at d v p) := by rw [heq, Option.map_some]

variable (hv : v.toNat = advance db.maxallowedvalue.toNat c.value.toNat)
  (hp : p.toNat = 0 ∨ p.toNat < db.ticksperbase.toNat)

include hv hp

/-- An alarm that is set between the parts does not expire with the tick. -/
lemma between_setAbs (hs : start.toNat ≤ db.maxallowedvalue.toNat)
    (hcy : cycle.toNat ≤ db.maxallowedvalue.toNat)
    (hin : c.status a = .inactive → NoneDue (Counter.at c v p) ∧ start ≠ v) :
    ∃ d q', (alarmSetAbs a start cycle (Counter.at c v p)).map Prod.fst =
        some (Counter.at d v p) ∧ Good db d q' [] ∧ d.handled = none ∧
      countdowns db d = (countdowns db c).set a
        (dist db.maxallowedvalue.toNat v.toNat start.toNat + 1 + 1) cycle.toNat := by
  by_cases hst : c.status a = .inactive
  · obtain ⟨hnone, hne⟩ := hin hst
    have hn : ∀ b ∈ q, c.when b ≠ v := fun b hb => hnone b ((hg.active b).mpr hb)
    have hg₁ : Good db (Counter.at c v p) q [] :=
      (good_at_iff hv hg.value_le hg.prescaler_lt hp hg.when_le hn).mpr hg
    obtain ⟨c₁, ev, heq, hag, -⟩ := agree_setAbs (a := a) hg₁ hs hcy
    -- the countdowns after the call, of the value after the tick
    have hoff : (countdowns db (Counter.at c v p)).count a = none := (count_eq_none hg₁).mpr hst
    have hset : countdowns db c₁ = { countdowns db (Counter.at c v p) with
        count := Function.update (count db (Counter.at c v p)) a
          (some (dist db.maxallowedvalue.toNat v.toNat start.toNat + 1))
        cycle := Function.update (countdowns db c).cycle a cycle.toNat } := by
      rw [← hag.1, Naive.set, if_pos hoff]
      rfl
    obtain ⟨q', hg', hh'⟩ := good_of_quiet ⟨rfl, _, _, hag.2.choose_spec.choose_spec⟩
      (fun b => by rw [hset]; exact pending_of_handled hg₁ hh b) (by rw [hset]; exact hh)
    have hcount : count db c₁ = Function.update (count db (Counter.at c v p)) a
        (some (dist db.maxallowedvalue.toNat v.toNat start.toNat + 1)) :=
      congrArg Naive.count hset
    have hnone' : NoneDue c₁ := by
      refine (noneDue_iff hg').mpr fun b => ?_
      rw [hcount]
      by_cases hb : b = a
      · have hmax := (dist_eq_max (hv ▸ advance_le hg.value_le) hs).not.mpr
          (BitVec.toNat_inj.not.mpr hne)
        rw [hb, Function.update_self]
        simpa using hmax
      · rw [Function.update_of_ne hb]
        exact (noneDue_iff hg₁).mp hnone b
    -- the same counter at the value before the tick
    have hvalue : c₁.value = v := BitVec.toNat_inj.mp (congrArg Naive.value hset)
    have hpre : c₁.prescaler = p := BitVec.toNat_inj.mp (congrArg Naive.sub hset)
    have hd : Counter.at (Counter.at c₁ c.value c.prescaler) v p = c₁ := by
      rw [← hvalue, ← hpre]
      rfl
    have hn' : ∀ b ∈ q', c₁.when b ≠ v := by
      intro b hb
      rw [← hvalue]
      exact hnone' b ((hg'.active b).mpr hb)
    have hgd : Good db (Counter.at c₁ c.value c.prescaler) q' [] :=
      (good_at_iff (c := Counter.at c₁ c.value c.prescaler) hv hg.value_le hg.prescaler_lt hp
        hg'.when_le hn').mp (hd.symm ▸ hg')
    refine ⟨_, q', by rw [heq, hd]; rfl, hgd, hh', ?_⟩
    have hold : ∀ b, count db c b = (count db (Counter.at c v p) b).map (· + 1) :=
      count_at hv hg hh hn
    have hnew : ∀ b, count db (Counter.at c₁ c.value c.prescaler) b =
        (count db c₁ b).map (· + 1) := by
      intro b
      rw [count_at (c := Counter.at c₁ c.value c.prescaler) hv hgd hh' hn' b, hd]
    have hoff' : (countdowns db c).count a = none := (count_eq_none hg).mpr hst
    have hcycle : (countdowns db c₁).cycle =
        Function.update (countdowns db c).cycle a cycle.toNat := congrArg Naive.cycle hset
    have hpending : (countdowns db c₁).pending = (countdowns db c).pending := by
      rw [hset]
      rfl
    rw [Naive.set, if_pos hoff']
    refine Naive.ext rfl rfl (funext fun b => ?_) hcycle hpending (hh'.trans hh.symm)
    change _ = Function.update (count db c) a _ b
    refine (hnew b).trans ?_
    rw [hcount]
    by_cases hb : b = a
    · rw [hb, Function.update_self, Function.update_self, Option.map_some]
    · rw [Function.update_of_ne hb, Function.update_of_ne hb, ← hold]
  · have hon : (countdowns db c).count a ≠ none := (count_eq_none hg).not.mpr hst
    rw [Naive.set, if_neg hon]
    refine ⟨c, q, ?_, hg, hh, rfl⟩
    have hcan := (hg.settled a).1
    unfold alarmSetAbs
    rw [show (Counter.at c v p).status a = c.status a from rfl]
    rcases hc : c.status a with _ | _ | _ | _ | _
    · exact absurd hc hst
    · exact absurd hc hcan
    all_goals rfl

end Between

/-! ### One step -/

omit [Fintype α] in
lemma set_at (n : Naive α) (x y k cycle : ℕ) :
    ({ n with value := x, sub := y } : Naive α).set a k cycle =
      { n.set a k cycle with value := x, sub := y } := by
  unfold Naive.set
  split_ifs <;> rfl

section Step

variable (hg : Good db c q []) (hh : c.handled = none)
  (hv : v.toNat = advance db.maxallowedvalue.toNat c.value.toNat)
  (hp : p.toNat = 0 ∨ p.toNat < db.ticksperbase.toNat)

include hg hh hv hp

/-- **Between the parts of a tick.** -/
lemma follows_between {x : Step w α} (hy : InTime ⟨Counter.at c v p, true⟩ (.call x))
    (ht : turn db ⟨Counter.at c v p, true⟩ (.call x) = some s') :
    ∃ n', protocol db ⟨{ countdowns db c with value := v.toNat, sub := p.toNat }, true⟩
      (.call x) = some n' ∧ Follows db s' n' := by
  have hvle : v.toNat ≤ db.maxallowedvalue.toNat := hv ▸ advance_le hg.value_le
  have hset : ∀ {b : α} {start cycle : BitVec w}, start.toNat ≤ db.maxallowedvalue.toNat →
      cycle.toNat ≤ db.maxallowedvalue.toNat →
      (c.status b = .inactive → NoneDue (Counter.at c v p) ∧ start ≠ v) →
      ∃ d, (alarmSetAbs b start cycle (Counter.at c v p)).map Prod.fst = some d ∧
        Follows db ⟨d, true⟩ ⟨Naive.set b
          (dist db.maxallowedvalue.toNat v.toNat start.toNat + 1 + 1) cycle.toNat
          { countdowns db c with value := v.toNat, sub := p.toNat }, true⟩ := by
    intro b start cycle hs hcy hin
    obtain ⟨d, q', heq, hgd, hhd, hd⟩ := between_setAbs hg hh hv hp hs hcy hin
    have hvalue : d.value.toNat = c.value.toNat := by
      refine (congrArg Naive.value hd).trans ?_
      unfold Naive.set
      split_ifs <;> rfl
    refine ⟨_, heq, ?_⟩
    rw [set_at, ← hd]
    exact Follows.between hgd hhd (hvalue ▸ hv) hp
  cases x with
  | setRel b increment cycle =>
    obtain ⟨c', hc', rfl⟩ := Option.map_eq_some_iff.mp ht
    dsimp only [step] at hc'
    split_ifs at hc' with hok
    have hdist : dist db.maxallowedvalue.toNat v.toNat
        (counterEvalWhen db increment (Counter.at c v p)).toNat + 1 = increment.toNat :=
      dist_counterEvalWhen (c := Counter.at c v p) hvle hok.1 hok.2.1
    have hle : (counterEvalWhen db increment (Counter.at c v p)).toNat ≤
        db.maxallowedvalue.toNat := by
      rw [toNat_counterEvalWhen (c := Counter.at c v p) hvle hok.2.1]
      exact ahead_le _ hvle hok.2.1
    -- the increment is less than a round
    have hne : counterEvalWhen db increment (Counter.at c v p) ≠ v := by
      intro he
      have hmax := (dist_eq_max hvle hle).mpr (congrArg BitVec.toNat he)
      have hinc : increment.toNat ≤ db.maxallowedvalue.toNat := hok.2.1
      omega
    obtain ⟨d, heq, hf⟩ := hset (b := b) hle hok.2.2 fun hst => ⟨hy rfl hst, hne⟩
    rw [alarmSetRel_eq] at hc'
    obtain rfl : d = c' := Option.some.inj (heq.symm.trans hc')
    rw [hdist] at hf
    exact ⟨_, if_pos hok, hf⟩
  | setAbs b start cycle =>
    obtain ⟨c', hc', rfl⟩ := Option.map_eq_some_iff.mp ht
    dsimp only [step] at hc'
    split_ifs at hc' with hok
    obtain ⟨d, heq, hf⟩ := hset (b := b) hok.1 hok.2 fun hst => hy rfl hst
    obtain rfl : d = c' := Option.some.inj (heq.symm.trans hc')
    exact ⟨_, if_pos hok, hf⟩
  | cancel b =>
    obtain ⟨c', hc', rfl⟩ := Option.map_eq_some_iff.mp ht
    obtain ⟨d, q', heq, hgd, hhd, hd⟩ := between_cancel (v := v) (p := p) hg hh (a := b) hy
    obtain rfl : Counter.at d v p = c' := Option.some.inj (heq.symm.trans hc')
    have hvalue : d.value.toNat = c.value.toNat := congrArg Naive.value hd
    refine ⟨_, rfl, ?_⟩
    have hf := Follows.between (p := p) hgd hhd (hvalue ▸ hv) hp
    rwa [hd] at hf
  | increment => cases ht
  | action b =>
    obtain ⟨c', hc', -⟩ := Option.map_eq_some_iff.mp ht
    dsimp only [step] at hc'
    split_ifs at hc' with hb
    have hnone : c.triggered = none := hg.todo
    exact absurd (hnone.symm.trans hb.1) (by simp)
  | finish =>
    obtain ⟨c', hc', -⟩ := Option.map_eq_some_iff.mp ht
    dsimp only [step] at hc'
    rw [show (Counter.at c v p).handled = none from hh] at hc'
    cases hc'

lemma follows_take :
    ∃ d, Counter.popTriggered (Counter.at c v p) = some d ∧
      ∃ n', protocol db ⟨{ countdowns db c with value := v.toNat, sub := p.toNat }, true⟩ .take =
        some n' ∧ Follows db ⟨d, false⟩ n' := by
  obtain ⟨d, q', e', hpop, hgd, hd⟩ := good_pop hg hh hv hp
  refine ⟨d, hpop, _, rfl, ?_⟩
  have hf := Follows.whole hgd
  rw [hd, ← hv] at hf
  exact hf

end Step

/-- The first part of an increment. -/
lemma follows_advance (hg : Good db c q e) (hquiet : c.Quiet) :
    ∃ n', protocol db ⟨countdowns db c, false⟩ .advance = some n' ∧
      Follows db ⟨(c.incrementValue db).1, (c.incrementValue db).2⟩ n' := by
  obtain rfl := todo_eq_nil hg hquiet
  refine ⟨_, if_pos ⟨rfl, (quiet_iff hg).mp hquiet⟩, ?_⟩
  unfold Counter.incrementValue
  by_cases hticks : (countdowns db c).Ticks db.ticksperbase.toNat
  · obtain ⟨p, hp, hpv⟩ := prescale_tick hg hticks
    rw [hp, if_pos hticks]
    have hlt : p.toNat = 0 ∨ p.toNat < db.ticksperbase.toNat := by
      rw [hpv]
      split_ifs
      · exact hg.prescaler_lt
      · exact Or.inl rfl
    have hf := Follows.between hg hquiet.2 (toNat_advance db c) hlt
    rw [toNat_advance, hpv] at hf
    exact hf
  · obtain ⟨p, hp, hpv, hlt⟩ := prescale_sub hg hticks
    rw [hp, if_neg hticks]
    have hgood : Good db { c with prescaler := p } q [] :=
      ⟨hg.value_le, Or.inr hlt, hg.queue, hg.todo, hg.once, hg.active, hg.expired, hg.settled,
        hg.handled, hg.order, hg.when_le, hg.cycle_le⟩
    have hf := Follows.whole hgood
    rw [show countdowns db { c with prescaler := p } =
      { countdowns db c with sub := (countdowns db c).sub + 1 } from
        Naive.ext rfl hpv rfl rfl rfl rfl] at hf
    exact hf

/-- **The step lemma.** -/
lemma follows_turn {n : Ticking α} (h : Follows db s n) (hy : InTime s y)
    (ht : turn db s y = some s') : ∃ n', protocol db n y = some n' ∧ Follows db s' n' := by
  cases h with
  | @whole c q e hg =>
    cases y with
    | call x =>
      have hx : x ≠ .increment := by
        rintro rfl
        cases ht
      obtain ⟨c', hc', rfl⟩ : ∃ c', step db c x = some c' ∧ ⟨c', false⟩ = s' := by
        cases x with
        | increment => exact absurd rfl hx
        | _ => exact Option.map_eq_some_iff.mp ht
      have hunexp : Unexpired c x := by
        cases x with
        | cancel b => exact hy
        | _ => trivial
      obtain ⟨n₁, hn₁, rfl, q', e', hg'⟩ := agree_step ⟨rfl, _, _, hg⟩ hunexp hc'
      rw [protocol_call hg hx, hn₁]
      exact ⟨_, rfl, Follows.whole hg'⟩
    | advance =>
      dsimp only [turn] at ht
      split_ifs at ht with hq
      obtain rfl := Option.some.inj ht
      exact follows_advance hg hq.2
    | take => cases ht
  | between hg hh hv hp =>
    cases y with
    | call x => exact follows_between hg hh hv hp hy ht
    | advance => cases ht
    | take =>
      obtain ⟨d, hd, hf⟩ := follows_take hg hh hv hp
      dsimp only [turn] at ht
      rw [if_pos rfl, hd] at ht
      obtain rfl := Option.some.inj ht
      exact hf

lemma exec_protocol {n : Ticking α} (h : Follows db s n) (hy : Along (turn db) InTime s zs)
    (he : exec (turn db) s zs = some s') :
    ∃ n', exec (protocol db) n zs = some n' ∧ Follows db s' n' := by
  induction zs generalizing s n with
  | nil =>
    obtain rfl : s = s' := by simpa using he
    exact ⟨n, rfl, h⟩
  | cons y zs ih =>
    obtain ⟨s₁, hs₁, he⟩ := (exec_cons _).mp he
    obtain ⟨n₁, hn₁, h₁⟩ := follows_turn h hy.1 hs₁
    obtain ⟨n', hn', h'⟩ := ih h₁ (hy.2 s₁ hs₁) he
    exact ⟨n', (exec_cons _).mpr ⟨n₁, hn₁, hn'⟩, h'⟩

/-! ### What the protocol promises -/

/-- The ticks until the alarm expires, one that is under way included. -/
def remaining (db : CounterDb w) (s : Shared w α) (a : α) : ℕ :=
  if s.advanced then
    if s.counter.when a = s.counter.value then 1 else away db s.counter a + 2
  else away db s.counter a + 1

/-- An alarm that is not in handling is off, or in the queue at its countdown. -/
def Settled (db : CounterDb w) (s : Shared w α) (q : List α) (n : Ticking α) : Prop :=
  ∀ a, n.pending a = false → n.acting ≠ some a →
    (n.count a = none → s.counter.status a = .inactive ∧ a ∉ q) ∧
    ∀ k, n.count a = some k → s.counter.status a = .active ∧ a ∈ q ∧ remaining db s a = k

/-- A set call succeeds for the alarms that are off, and puts the alarm where it asks for. -/
def SetsUp (db : CounterDb w) (c : Counter w α) (n : Naive α) : Prop :=
  (∀ a start cycle c' ev, alarmSetAbs a start cycle c = some (c', ev) →
    (ev = .eOk ↔ n.count a = none) ∧
    (ev = .eOk → c'.status a = .active ∧ c'.when a = start)) ∧
  ∀ a increment cycle c' ev, alarmSetRel db a increment cycle c = some (c', ev) →
    (ev = .eOk ↔ n.count a = none) ∧
    (ev = .eOk → c'.status a = .active ∧ c'.when a = counterEvalWhen db increment c)

/-- What an increment has begun can be finished. -/
def Goes (db : CounterDb w) (s : Shared w α) : Prop :=
  (s.advanced = true → (turn db s .take).isSome) ∧
    (¬ s.counter.Quiet → (turn db s (.call .finish)).isSome ∨
      ∃ a, (turn db s (.call (.action a))).isSome)

lemma insertAbsTrigger_sets (h : counterInsertAbsTrigger a start c = some c') :
    c'.status = c.status ∧ c'.when a = start := by
  obtain ⟨⟨prev, cur⟩, -, rfl⟩ := Option.map_eq_some_iff.mp h
  cases prev <;> exact ⟨rfl, Function.update_self ..⟩

lemma setAbs_sets {ev : StatusType} (hc : c.status a ≠ .canceled)
    (h : alarmSetAbs a start cycle c = some (c', ev)) :
    (ev = .eOk ↔ c.status a = .inactive) ∧
      (ev = .eOk → c'.status a = .active ∧ c'.when a = start) := by
  unfold alarmSetAbs at h
  rcases hst : c.status a with _ | _ | _ | _ | _
  · rw [hst] at h
    obtain ⟨d, hd, he⟩ := Option.map_eq_some_iff.mp h
    obtain ⟨rfl, rfl⟩ := Prod.mk.inj he
    obtain ⟨hs, hw⟩ := insertAbsTrigger_sets hd
    refine ⟨iff_of_true rfl rfl, fun _ => ⟨?_, hw⟩⟩
    rw [hs]
    exact Function.update_self ..
  · exact absurd hst hc
  all_goals
    rw [hst] at h
    obtain ⟨rfl, rfl⟩ := Prod.mk.inj (Option.some.inj h)
    simp

omit [DecidableEq α] [Fintype α] in
/-- What the countdowns say of an alarm that is not in handling. -/
lemma status_of_count (hg : Good db c q e) (hexp : c.status a ≠ .expired) :
    (count db c a = none → c.status a = .inactive ∧ a ∉ q) ∧
      ∀ k, count db c a = some k → c.status a = .active ∧ a ∈ q ∧ k = away db c a + 1 := by
  refine ⟨fun hn => ?_, fun k hk => ?_⟩
  · have hoff := (count_eq_none hg).mp hn
    refine ⟨hoff, fun hq => ?_⟩
    rw [(hg.active a).mpr hq] at hoff
    cases hoff
  · have hact : c.status a = .active := by
      by_contra hno
      rw [count_of_off hno hexp] at hk
      cases hk
    rw [count_of_active hact] at hk
    exact ⟨hact, (hg.active a).mp hact, (Option.some.inj hk).symm⟩

omit [Fintype α] in
lemma settled_of_follows {n : Ticking α} (h : Follows db s n) :
    ∃ q, Chain s.counter.next s.counter.triggerQueue q ∧ q.Nodup ∧ Settled db s q n ∧
      (∀ a, s.counter.status a ≠ .canceled ∧ s.counter.status a ≠ .reenabled) ∧
      ∀ a, n.count a = none ↔ s.counter.status a = .inactive := by
  cases h with
  | @whole c q e hg =>
    refine ⟨q, hg.queue, (List.nodup_append.mp hg.once).1, fun a hp ha => ?_, hg.settled,
      fun a => count_eq_none hg⟩
    have hexp : c.status a ≠ .expired := by
      intro hexp
      simp only [countdowns, hexp, true_and, decide_eq_false_iff_not, not_not] at hp
      exact ha hp
    obtain ⟨hoff, hon⟩ := status_of_count hg hexp
    refine ⟨hoff, fun k hk => ?_⟩
    obtain ⟨hact, hq, hk⟩ := hon k hk
    exact ⟨hact, hq, hk.symm⟩
  | @between c q v p hg hh hv hp =>
    refine ⟨q, hg.queue, (List.nodup_append.mp hg.once).1, fun a _ _ => ?_, hg.settled,
      fun a => count_eq_none hg⟩
    have hexp : c.status a ≠ .expired := by simp [hg.expired, hh]
    obtain ⟨hoff, hon⟩ := status_of_count hg hexp
    refine ⟨hoff, fun k hk => ?_⟩
    obtain ⟨hact, hq, hk'⟩ := hon k hk
    refine ⟨hact, hq, ?_⟩
    change (if c.when a = v then 1 else away db (Counter.at c v p) a + 2) = k
    split_ifs with hw
    · exact Option.some.inj (((count_eq_one hg hh hv a).mpr ⟨hact, hw⟩).symm.trans hk)
    · have haway := away_at (p := p) hv hg.value_le (hg.when_le a hq) hw
      omega

lemma setsUp_of_follows {n : Ticking α} (h : Follows db s n) :
    SetsUp db s.counter n.toNaive := by
  obtain ⟨-, -, -, -, hset, hcount⟩ := settled_of_follows h
  have habs : ∀ {a start cycle c' ev}, alarmSetAbs a start cycle s.counter = some (c', ev) →
      (ev = .eOk ↔ n.count a = none) ∧
        (ev = .eOk → c'.status a = .active ∧ c'.when a = start) := by
    intro a start cycle c' ev hcall
    rw [hcount]
    exact setAbs_sets (hset a).1 hcall
  refine ⟨fun a start cycle c' ev hcall => habs hcall, fun a increment cycle c' ev hcall => ?_⟩
  rw [alarmSetRel_eq] at hcall
  exact habs hcall

lemma goes_of_follows {n : Ticking α} (h : Follows db s n) : Goes db s := by
  cases h with
  | @whole c q e hg =>
    refine ⟨fun ht => absurd ht Bool.false_ne_true, fun hq => ?_⟩
    have hgo := (Agree.goes ⟨rfl, _, _, hg⟩).2 hq
    simpa [turn] using hgo
  | between hg hh hv hp =>
    obtain ⟨d, hd, -⟩ := follows_take hg hh hv hp
    refine ⟨fun _ => ?_, fun hq => absurd ⟨hg.todo, hh⟩ hq⟩
    dsimp only [turn]
    rw [if_pos rfl, hd]
    rfl

/-! ### The alarms of a tick -/

/-- Until the next tick has its triggers, only the begin of an action takes something up. -/
lemma protocol_pending {n n' : Ticking α} (hn : protocol db n y = some n') (hy : y ≠ .take) :
    match begins y with
    | none => n'.pending = n.pending
    | some a => n.pending a = true ∧ n'.pending = Function.update n.pending a false := by
  have hset : ∀ b k cy, (n.set b k cy).pending = n.pending := by
    intro b k cy
    unfold Naive.set
    split_ifs <;> rfl
  rcases y with (⟨b, increment, cycle⟩ | ⟨b, start, cycle⟩ | b | _ | b | _) | _ | _
  · dsimp only [protocol] at hn
    split_ifs at hn
    obtain rfl := Option.some.inj hn
    exact hset ..
  · dsimp only [protocol] at hn
    split_ifs at hn
    obtain rfl := Option.some.inj hn
    exact hset ..
  · obtain rfl := Option.some.inj hn
    rfl
  · cases hn
  · dsimp only [protocol] at hn
    split_ifs at hn with hb
    obtain rfl := Option.some.inj hn
    exact ⟨hb.1, rfl⟩
  · dsimp only [protocol] at hn
    rcases ha : n.acting with _ | a
    · rw [ha] at hn
      cases hn
    · rw [ha] at hn
      obtain rfl := Option.some.inj hn
      rfl
  · dsimp only [protocol] at hn
    split_ifs at hn <;> obtain rfl := Option.some.inj hn <;> rfl
  · exact absurd rfl hy

/-- The alarms that are handled after a tick. -/
lemma handled_due {pre seg : List (Turn w α)} {s₀ : Shared w α}
    (hy : Along (turn db) InTime Shared.init (pre ++ .take :: seg))
    (hs : exec (turn db) Shared.init (pre ++ .take :: seg) = some s) (hseg : .take ∉ seg)
    (hs₀ : exec (turn db) Shared.init pre = some s₀) (hq : s.counter.Quiet) :
    (handled seg).Nodup ∧ ∀ a, a ∈ handled seg ↔
      s₀.counter.status a = .active ∧ s₀.counter.when a = s₀.counter.value := by
  obtain ⟨n₀, hn₀, h₀⟩ := exec_protocol (follows_init db) (along_take hy) hs₀
  have hrest := along_append hy hs₀
  obtain ⟨t, ht, hs⟩ := (exec_append _).mp hs
  obtain rfl : s₀ = t := Option.some.inj (hs₀.symm.trans ht)
  obtain ⟨s₁, hs₁, hs⟩ := (exec_cons _).mp hs
  obtain ⟨n₁, hn₁, h₁⟩ := follows_turn h₀ hrest.1 hs₁
  obtain ⟨n, hn, h⟩ := exec_protocol h₁ (hrest.2 s₁ hs₁) hs
  obtain ⟨hnd, -, hall⟩ := taken_spec (fun n : Ticking α => n.pending) begins
    (fun x hx m m' hm => protocol_pending hm fun he => hseg (he ▸ hx)) hn
  have hnone : ∀ a, n.pending a = false := by
    cases h with
    | whole hg => exact ((quiet_iff hg).mp hq).1
    | between hg hh hv hp => exact pending_of_handled hg hh
  refine ⟨hnd, fun a => ?_⟩
  have ha := hall a
  rw [hnone a] at ha
  have hdue : n₁.pending a = true ↔
      s₀.counter.status a = .active ∧ s₀.counter.when a = s₀.counter.value := by
    cases h₀ with
    | whole hg => cases hs₁
    | between hg hh hv hp =>
      obtain rfl := Option.some.inj hn₁
      exact decide_eq_true_iff.trans (count_eq_one hg hh hv a)
  rw [← hdue, ha]
  simp [handled]

/-- **The protocol of the trigger status** is kept in every run in which no alarm is cancelled
that has expired and is not handled yet, and no alarm is put in the queue between the parts of a
tick that expires with it, or while others do. -/
theorem handled_settled (db : CounterDb w) (zs : List (Turn w α))
    (hz : Along (turn db) InTime Shared.init zs) (s : Shared w α)
    (hs : exec (turn db) Shared.init zs = some s) :
    (∃ n q, exec (protocol db) Ticking.init zs = some n ∧
      Chain s.counter.next s.counter.triggerQueue q ∧ q.Nodup ∧ Settled db s q n ∧
      SetsUp db s.counter n.toNaive ∧ Goes db s) ∧
    (∀ a, s.counter.status a ≠ .canceled ∧ s.counter.status a ≠ .reenabled) ∧
    ∀ pre seg s₀, zs = pre ++ .take :: seg → .take ∉ seg →
      exec (turn db) Shared.init pre = some s₀ → s.counter.Quiet →
      (handled seg).Nodup ∧ ∀ a, a ∈ handled seg ↔
        s₀.counter.status a = .active ∧ s₀.counter.when a = s₀.counter.value := by
  obtain ⟨n, hn, h⟩ := exec_protocol (follows_init db) hz hs
  obtain ⟨q, hq, hnd, hset, hstatus, -⟩ := settled_of_follows h
  refine ⟨⟨n, q, hn, hq, hnd, hset, setsUp_of_follows h, goes_of_follows h⟩, hstatus,
    fun pre seg s₀ hzs hseg hs₀ hquiet => ?_⟩
  subst hzs
  exact handled_due hz hs hseg hs₀ hquiet

/-- An alarm is set while a tick is under way at which nothing expires; one is cancelled just before
it would expire; and one is cancelled and set again while the action of another runs. -/
def overlapped (a b c : α) : List (Turn 8 α) :=
  [.call (.setAbs a 2 7), .call (.setRel b 2 0), .advance, .advance, .call (.setRel c 3 0), .take,
    .advance, .advance, .call (.cancel b), .take, .call (.action a), .call (.cancel c),
    .call (.setAbs c 1 0), .call .finish]

theorem handled_settled_overlapped :
    ∃ s : Shared 8 (Fin 3), exec (turn halfTicks) Shared.init (overlapped 0 1 2) = some s ∧
      ∃ n q, exec (protocol halfTicks) Ticking.init (overlapped 0 1 2) = some n ∧
        Chain s.counter.next s.counter.triggerQueue q ∧ q.Nodup ∧ Settled halfTicks s q n := by
  have hsome : (exec (turn halfTicks) Shared.init (overlapped (0 : Fin 3) 1 2)).isSome := by
    decide +kernel
  obtain ⟨s, hs⟩ := Option.isSome_iff_exists.mp hsome
  obtain ⟨⟨n, q, hn, hq, hd, hset, -⟩, -⟩ :=
    handled_settled halfTicks (overlapped 0 1 2) (by decide +kernel) s hs
  exact ⟨s, hs, n, q, hn, hq, hd, hset⟩

/-- An alarm that its own action cancels. -/
def cancelled : List (Turn 8 (Fin 1)) :=
  [.call (.setRel 0 1 0), .advance, .take, .call (.action 0), .call (.cancel 0), .call .finish]

/-- Another alarm is set between the parts of the tick at which the first one expires. -/
def overtaken (a b : α) : List (Turn 8 α) :=
  [.call (.setRel a 2 0), .advance, .take, .advance, .call (.setRel b 1 0), .take]

/-- At the end of its handling the cancelled alarm is still canceled, not inactive. When it is set
again the call succeeds, but the alarm is not in the queue and does not expire in three rounds of
the counter. And the alarm that is overtaken does not expire when the counter reaches it. -/
theorem canceled_stays :
    ((exec (protocol ⟨3, 1⟩) Ticking.init cancelled).map fun n => (n.count 0, n.acting)) =
        some (none, none) ∧
      ((exec (turn ⟨3, 1⟩) Shared.init cancelled).map fun s =>
        (s.counter.status 0, s.counter.triggered, s.counter.handled)) =
          some (.canceled, none, none) ∧
      ((exec (turn ⟨3, 1⟩) Shared.init cancelled).bind fun s =>
        alarmSetRel ⟨3, 1⟩ 0 2 0 s.counter).map Prod.snd = some .eOk ∧
      ((exec (turn ⟨3, 1⟩) Shared.init (cancelled ++ .call (.setRel 0 2 0) ::
          (List.replicate 12 [.advance, .take]).flatten)).map fun s =>
        (s.counter.status 0, s.counter.triggerQueue, s.counter.triggered)) =
          some (.reenabled, none, none) ∧
      ((exec (protocol ⟨3, 1⟩) Ticking.init (overtaken (0 : Fin 2) 1)).map fun n =>
        n.pending 0) = some true ∧
      ((exec (turn ⟨3, 1⟩) Shared.init (overtaken (0 : Fin 2) 1)).map fun s =>
        (s.counter.status 0, s.counter.when 0, s.counter.value, s.counter.triggered)) =
          some (.active, 2, 2, none) := by
  decide +kernel

end FpMemSched.Erika.Reenabled
