import FpMemSched.Erika.AlarmsAgree

/-!
A counter whose ticks are counted.

The queue is in order and the value of the counter is the number of ticks since its start, up to
whole rounds. What the operations on triggers do is then said by their countdowns alone.
-/

namespace FpMemSched.Erika.TickCount

open FpMemSched.Lib.Circular FpMemSched.Lib.Linked
open FpMemSched.Erika.Alarm hiding Step init step
open FpMemSched.Erika.Countdown FpMemSched.Erika.AlarmsAgree

variable {w : ℕ} {α : Type}

structure Clocked (db : CounterDb w) (c : Counter w α) (now : ℕ) : Prop where
  good : ∃ q e, Good db c q e
  clock : c.value.toNat = now % (db.maxallowedvalue.toNat + 1)

variable {db : CounterDb w} {c c' : Counter w α} {q e : List α} {a : α} {now d : ℕ}

/-! ### Triggers outside of the lists -/

lemma inactive_of_count (hg : Good db c q e) (h : count db c a = none) :
    c.status a = .inactive := by
  rcases hst : c.status a with _ | _ | _ | _ | _
  · rfl
  · exact absurd hst (hg.settled a).1
  · rw [count_of_active hst] at h
    cases h
  · rw [count_of_expired hst] at h
    cases h
  · exact absurd hst (hg.settled a).2

lemma notMem_of_inactive (hg : Good db c q e) (h : c.status a = .inactive) :
    a ∉ q ++ e ∧ c.handled ≠ some a := by
  have hexp := hg.expired a
  rw [h] at hexp
  rw [List.mem_append, not_or, ← hg.active, h]
  exact ⟨⟨by decide, fun hae => by simpa using hexp.mpr (Or.inl hae)⟩,
    fun hh => by simpa using hexp.mpr (Or.inr hh)⟩

lemma notMem_of_handled (hg : Good db c q e) (hh : c.handled = some a) :
    a ∉ q ++ e ∧ c.status a = .expired := by
  have hexp : c.status a = .expired := (hg.expired a).mpr (Or.inr hh)
  rw [List.mem_append, not_or, ← hg.active, hexp]
  exact ⟨⟨by decide, hg.handled a hh⟩, rfl⟩

lemma Clocked.inactive (hk : Clocked db c now) (h : count db c a = none) :
    c.status a = .inactive ∧ c.handled ≠ some a := by
  obtain ⟨q, e, hg⟩ := hk.good
  have hin := inactive_of_count hg h
  exact ⟨hin, (notMem_of_inactive hg hin).2⟩

lemma Clocked.expired (hk : Clocked db c now) (hh : c.handled = some a) :
    c.status a = .expired ∧ count db c a = some 0 := by
  obtain ⟨q, e, hg⟩ := hk.good
  have hexp := (notMem_of_handled hg hh).2
  exact ⟨hexp, count_of_expired hexp⟩

/-- The queue of the counter. -/
lemma Clocked.queued (hk : Clocked db c now) :
    ∃ q, Chain c.next c.triggerQueue q ∧ q.Nodup ∧ (∀ a, a ∈ q ↔ c.status a = .active) ∧
      ∀ a ∈ q, c.when a ≤ db.maxallowedvalue := by
  obtain ⟨q, e, hg⟩ := hk.good
  exact ⟨q, hg.queue, (List.nodup_append.mp hg.once).1, fun a => (hg.active a).symm, hg.when_le⟩

variable [DecidableEq α]

/-- Between the ticks every trigger that is on has some way to go. -/
lemma pos_of_quiet (hg : Good db c q e) (hq : c.Quiet) (h : count db c a = some d) : 0 < d := by
  by_cases hact : c.status a = .active
  · rw [count_of_active hact] at h
    obtain rfl := Option.some.inj h
    exact Nat.succ_pos _
  · have hpend := ((quiet_iff hg).mp hq).1 a
    have hexp : c.status a ≠ .expired := by
      intro hexp
      simp [countdowns, hexp, hq.2] at hpend
    rw [count_of_off hact hexp] at h
    cases h

/-! ### Operations -/

lemma clocked_handle (hk : Clocked db c now) (ht : c.triggered = some a) (hh : c.handled = none) :
    Clocked db { c with triggered := c.next a, handled := some a } now := by
  obtain ⟨q, e, hg⟩ := hk.good
  obtain ⟨⟨e', hg'⟩, -⟩ := good_action hg ht hh
  exact ⟨⟨q, e', hg'⟩, hk.clock⟩

/-- The handling ends and the trigger is off. -/
lemma clocked_off (hk : Clocked db c now) (hh : c.handled = some a) :
    Clocked db { c with status := Function.update c.status a .inactive, handled := none } now ∧
      count db { c with status := Function.update c.status a .inactive, handled := none } =
        Function.update (count db c) a none := by
  obtain ⟨q, e, hg⟩ := hk.good
  obtain ⟨hg', habs⟩ := good_off hg hh
  exact ⟨⟨⟨q, e, hg'⟩, hk.clock⟩, congrArg Naive.count habs⟩

variable [Fintype α]

/-- **A trigger is put in the queue**: one that is off, or the one that is handled. -/
lemma clocked_insert {new : BitVec w} {o : Option α} (hk : Clocked db c now) (hd : 0 < d)
    (hd' : d ≤ db.maxallowedvalue.toNat + 1)
    (hnew : new.toNat = (now + d) % (db.maxallowedvalue.toNat + 1))
    (ho : o = c.handled ∧ count db c a = none ∨ o = none ∧ c.handled = some a) :
    ∃ c', counterInsertAbsTrigger a new { c with
        status := Function.update c.status a .active } = some c' ∧
      c'.handled = c.handled ∧ Clocked db { c' with handled := o } now ∧
      count db c' = Function.update (count db c) a (some d) := by
  obtain ⟨q, e, hg⟩ := hk.good
  have hn : new.toNat ≤ db.maxallowedvalue.toNat := by
    rw [hnew]
    exact Nat.le_of_lt_succ (Nat.mod_lt _ (Nat.succ_pos _))
  obtain ⟨hout, hoa⟩ : a ∉ q ++ e ∧ o ≠ some a := by
    rcases ho with ⟨rfl, h⟩ | ⟨rfl, h⟩
    · exact notMem_of_inactive hg (inactive_of_count hg h)
    · exact ⟨(notMem_of_handled hg h).1, by simp⟩
  have hob : ∀ b, b ≠ a → (o = some b ↔ c.handled = some b) := by
    intro b hb
    rcases ho with ⟨rfl, -⟩ | ⟨rfl, h⟩
    · rfl
    · simp [h, Ne.symm hb]
  obtain ⟨c', q', heq, ⟨hsh, -⟩, hg', habs⟩ := good_insert hg hout hn hg.cycle_le hoa hob
  have hdist : dist db.maxallowedvalue.toNat c.value.toNat new.toNat + 1 = d := by
    rw [hk.clock, hnew, dist_mod hd hd']
  refine ⟨c', heq, hsh, ⟨⟨q', e, hg'⟩, ?_⟩, ?_⟩
  · rw [← hk.clock]
    exact congrArg Naive.value habs
  · rw [← hdist]
    exact congrArg Naive.count habs

/-- **Another trigger is put in the queue** in place of the one that is handled. -/
lemma clocked_replace {new : BitVec w} {b : α} (hk : Clocked db c now) (hh : c.handled = some a)
    (hb : count db c b = none) (hd : 0 < d) (hd' : d ≤ db.maxallowedvalue.toNat + 1)
    (hnew : new.toNat = (now + d) % (db.maxallowedvalue.toNat + 1)) :
    ∃ c', counterInsertAbsTrigger b new { c with
        status := Function.update (Function.update c.status a .inactive) b .active
        handled := some b } = some c' ∧
      Clocked db { c' with handled := none } now ∧
      count db c' = Function.update (Function.update (count db c) a none) b (some d) := by
  have hba : b ≠ a := by
    rintro rfl
    rw [(hk.expired hh).2] at hb
    cases hb
  obtain ⟨hk', hcount'⟩ := clocked_off hk hh
  have hb' := congrFun hcount' b
  rw [Function.update_of_ne hba, hb] at hb'
  obtain ⟨c', heq, -, hclocked, hcount⟩ := clocked_insert (o := none) hk' hd hd' hnew
    (Or.inl ⟨rfl, hb'⟩)
  have hins := insertAbsTrigger_handled (c := { c with
    status := Function.update (Function.update c.status a .inactive) b .active
    handled := none }) (some b) b new
  rw [heq, Option.map_some] at hins
  rw [hcount'] at hcount
  exact ⟨_, hins, hclocked, hcount⟩

/-- **A trigger is taken out of the queue.** -/
lemma clocked_cancel (hk : Clocked db c now) (ha : c.status a = .active) :
    ∃ c', counterCancelTrigger a
        { c with status := Function.update c.status a .inactive } = some c' ∧
      c'.handled = c.handled ∧ Clocked db c' now ∧
      count db c' = Function.update (count db c) a none := by
  obtain ⟨q, e, hg⟩ := hk.good
  obtain ⟨c', heq, hg', habs⟩ := good_cancel hg ha
  refine ⟨c', heq, congrArg Naive.acting habs, ⟨⟨_, e, hg'⟩, ?_⟩, congrArg Naive.count habs⟩
  rw [← hk.clock]
  exact congrArg Naive.value habs

/-- **An increment of the counter** is a tick, which takes one off all countdowns, or it is not. -/
lemma clocked_increment (hk : Clocked db c now) (hq : c.Quiet) :
    ∃ c', counterIncrement db c = some c' ∧
      ((c.prescale db).2 = true ∧ Clocked db c' (now + 1) ∧
          (∀ b d, count db c b = some d → 0 < d) ∧
          (∀ b, count db c' b = (count db c b).map (· - 1)) ∨
        (c.prescale db).2 = false ∧ Clocked db c' now ∧ count db c' = count db c) := by
  obtain ⟨q, e, hg⟩ := hk.good
  obtain ⟨c', q', e', heq, hg', habs⟩ := good_increment hg hq
  refine ⟨c', heq, ?_⟩
  unfold Naive.increment at habs
  by_cases hticks : (countdowns db c).Ticks db.ticksperbase.toNat
  · obtain ⟨p, hp, -⟩ := prescale_tick hg hticks
    rw [if_pos hticks] at habs
    have hvalue : c'.value.toNat = advance db.maxallowedvalue.toNat c.value.toNat :=
      congrArg Naive.value habs
    refine Or.inl ⟨by rw [hp], ⟨⟨q', e', hg'⟩, ?_⟩, fun b d hb => pos_of_quiet hg hq hb,
      fun b => congrFun (congrArg Naive.count habs) b⟩
    rw [hvalue, hk.clock, advance_mod]
  · obtain ⟨p, hp, -⟩ := prescale_sub hg hticks
    rw [if_neg hticks] at habs
    refine Or.inr ⟨by rw [hp], ⟨⟨q', e', hg'⟩, ?_⟩, congrArg Naive.count habs⟩
    rw [← hk.clock]
    exact congrArg Naive.value habs

/-! ### Times -/

omit [DecidableEq α] [Fintype α] in
/-- When the initial expiry point of a relative start expires. -/
lemma toNat_evalWhen_sum {x y : BitVec w}
    (hc : c.value.toNat = now % (db.maxallowedvalue.toNat + 1))
    (h : x.toNat + y.toNat ≤ db.maxallowedvalue.toNat ∨
      db.maxallowedvalue.toNat + 1 = 2 ^ w ∧
        x.toNat + y.toNat = db.maxallowedvalue.toNat + 1) :
    (counterEvalWhen db (x + y) c).toNat =
      (now + (x.toNat + y.toNat)) % (db.maxallowedvalue.toNat + 1) := by
  have hM := db.maxallowedvalue.isLt
  have hv : c.value.toNat ≤ db.maxallowedvalue.toNat := by
    rw [hc]
    exact Nat.le_of_lt_succ (Nat.mod_lt _ (Nat.succ_pos _))
  rcases h with h | ⟨hfull, h⟩
  · have hsum : (x + y).toNat = x.toNat + y.toNat := BitVec.toNat_add_of_lt (by omega)
    rw [toNat_counterEvalWhen hv (by omega), hsum, hc, ahead_mod h]
  · have hsum : (x + y).toNat = 0 := by
      rw [BitVec.toNat_add, h, hfull, Nat.mod_self]
    rw [toNat_counterEvalWhen hv (by omega), hsum, h, hc, ahead_mod (Nat.zero_le _),
      Nat.add_mod_right]
    rfl

end FpMemSched.Erika.TickCount
