import FpMemSched.Erika.Alarm
import FpMemSched.Lib.Circular
import FpMemSched.Lib.Linked
import FpMemSched.Lib.Runs

/-!
The alarm queue is a countdown for each alarm.

The abstract counter has one countdown for each alarm that runs, which a tick takes one off;
the alarms that get to zero are due, and each of them is handled once, in any order, before the
next tick. The queue of the kernel holds the triggers of the alarms that run, ordered by their
circular distance from the value of the counter, which is the countdown less one; so the due
ones are in front.
-/

namespace FpMemSched.Erika.Countdown

open FpMemSched.Lib.Runs FpMemSched.Lib.Linked FpMemSched.Lib.Circular FpMemSched.Erika.Alarm

variable {w : ℕ} {α : Type} [DecidableEq α]

/-! ### One countdown for each alarm -/

@[ext]
structure Naive (α : Type) where
  value : ℕ
  /-- The increments since the last tick. -/
  sub : ℕ
  count : α → Option ℕ
  cycle : α → ℕ
  /-- Due and not yet handled. -/
  pending : α → Bool
  acting : Option α

def Naive.init : Naive α := ⟨0, 0, fun _ => none, fun _ => 0, fun _ => false, none⟩

/-- An alarm that runs already is not set again. -/
def Naive.set (a : α) (k cycle : ℕ) (n : Naive α) : Naive α :=
  if n.count a = none then
    { n with
      count := Function.update n.count a (some k)
      cycle := Function.update n.cycle a cycle }
  else n

/-- The next increment is a tick. -/
def Naive.Ticks (base : ℕ) (n : Naive α) : Prop := base ≤ 1 ∨ base ≤ n.sub + 1

instance (base : ℕ) (n : Naive α) : Decidable (n.Ticks base) :=
  inferInstanceAs (Decidable (_ ∨ _))

/-- The alarms that get to zero with the next increment. -/
def Naive.Due (base : ℕ) (n : Naive α) (a : α) : Prop := n.Ticks base ∧ n.count a = some 1

instance (base : ℕ) (n : Naive α) (a : α) : Decidable (n.Due base a) :=
  inferInstanceAs (Decidable (_ ∧ _))

def Naive.increment (M base : ℕ) (n : Naive α) : Naive α :=
  if n.Ticks base then
    { n with
      value := advance M n.value
      sub := if base ≤ 1 then n.sub else 0
      count := fun a => (n.count a).map (· - 1)
      pending := fun a => decide (n.count a = some 1) }
  else { n with sub := n.sub + 1 }

variable [Fintype α]

def Naive.step (db : CounterDb w) (n : Naive α) : Step w α → Option (Naive α)
  | .setRel a increment cycle =>
    if 0 < increment ∧ increment ≤ db.maxallowedvalue ∧ cycle ≤ db.maxallowedvalue then
      some (n.set a increment.toNat cycle.toNat)
    else none
  | .setAbs a start cycle =>
    if start ≤ db.maxallowedvalue ∧ cycle ≤ db.maxallowedvalue then
      some (n.set a (dist db.maxallowedvalue.toNat n.value start.toNat + 1) cycle.toNat)
    else none
  | .cancel a => some { n with count := Function.update n.count a none }
  | .increment =>
    if (∀ a, n.pending a = false) ∧ n.acting = none then
      some (n.increment db.maxallowedvalue.toNat db.ticksperbase.toNat)
    else none
  | .action a =>
    if n.pending a = true ∧ n.acting = none then
      some { n with pending := Function.update n.pending a false, acting := some a }
    else none
  | .finish =>
    match n.acting with
    | none => none
    | some a => some
        { n with
          count := Function.update n.count a (if n.cycle a = 0 then none else some (n.cycle a))
          acting := none }

/-! ### The alarms of a tick -/

/-- The alarms whose actions run, in order. -/
def fired : List (Step w α) → List α
  | [] => []
  | .action a :: ys => a :: fired ys
  | _ :: ys => fired ys

section Tick

variable {db : CounterDb w} {n n' : Naive α} {y : Step w α} {ys : List (Step w α)}

lemma step_pending (hs : n.step db y = some n') (hi : y ≠ .increment)
    (ha : ∀ a, y ≠ .action a) : n'.pending = n.pending := by
  cases y with
  | setRel a increment cycle =>
    dsimp only [Naive.step, Naive.set] at hs
    split_ifs at hs <;> obtain rfl := Option.some.inj hs <;> rfl
  | setAbs a start cycle =>
    dsimp only [Naive.step, Naive.set] at hs
    split_ifs at hs <;> obtain rfl := Option.some.inj hs <;> rfl
  | cancel a =>
    obtain rfl := Option.some.inj hs
    rfl
  | increment => exact absurd rfl hi
  | action a => exact absurd rfl (ha a)
  | finish =>
    dsimp only [Naive.step] at hs
    split at hs
    · cases hs
    · obtain rfl := Option.some.inj hs
      rfl

/-- The alarm whose action the step begins. -/
def acts : Step w α → Option α
  | .action a => some a
  | _ => none

omit [DecidableEq α] [Fintype α] in
lemma fired_eq (ys : List (Step w α)) : fired ys = ys.filterMap acts := by
  induction ys with
  | nil => rfl
  | cons y ys ih => cases y <;> simp [fired, acts, ih, List.filterMap_cons]

/-- Until the next increment each alarm that is due is handled at most once, and it is either
handled or still to be. -/
lemma fired_spec (hi : .increment ∉ ys) (he : exec (Naive.step db) n ys = some n') :
    (fired ys).Nodup ∧ (∀ a ∈ fired ys, n'.pending a = false) ∧
      ∀ a, n.pending a = true ↔ a ∈ fired ys ∨ n'.pending a = true := by
  rw [fired_eq]
  refine taken_spec Naive.pending acts (fun y hy n n' hs => ?_) he
  by_cases ha : ∀ a, y ≠ .action a
  · have hacts : acts y = none := by cases y <;> simp_all [acts]
    rw [hacts]
    exact step_pending hs (fun hinc => hi (hinc ▸ hy)) ha
  · obtain ⟨a, rfl⟩ : ∃ a, y = .action a := by simpa using ha
    dsimp only [Naive.step] at hs
    split_ifs at hs with hp
    obtain rfl := Option.some.inj hs
    exact ⟨hp.1, rfl⟩

/-- What is due at an increment is then to be handled. -/
lemma increment_pending (hs : n.step db .increment = some n') (a : α) :
    n'.pending a = true ↔ n.Due db.ticksperbase.toNat a := by
  dsimp only [Naive.step] at hs
  split_ifs at hs with hquiet
  obtain rfl := Option.some.inj hs
  unfold Naive.increment Naive.Due
  by_cases ht : n.Ticks db.ticksperbase.toNat
  · rw [if_pos ht]
    simp [ht]
  · rw [if_neg ht]
    simp [ht, hquiet.1 a]

end Tick

/-! ### The queue -/

section Queue

variable {db : CounterDb w} {c : Counter w α} {q e l : List α} {a x : α}

omit [DecidableEq α] [Fintype α] in
lemma insertLoop_eq {new : BitVec w} {k : ℕ} {prev cur : Option α} (hc : Chain c.next cur l)
    (hk : l.length < k) : c.insertLoop new k prev cur =
      some ((l.takeWhile fun x => c.Passes new x).getLast?.or prev,
        (l.dropWhile fun x => c.Passes new x).head?) := by
  induction l generalizing k prev cur with
  | nil =>
    rw [show cur = none from hc]
    cases k with
    | zero => exact absurd hk (Nat.not_lt_zero _)
    | succ k => rfl
  | cons x l ih =>
    obtain ⟨rfl, hl⟩ := hc
    cases k with
    | zero => exact absurd hk (Nat.not_lt_zero _)
    | succ k =>
      rw [List.length_cons] at hk
      rw [Counter.insertLoop]
      by_cases hp : c.Passes new x
      · rw [if_pos hp, ih hl (by omega), List.takeWhile_cons_of_pos (by simpa using hp),
          List.dropWhile_cons_of_pos (by simpa using hp), List.getLast?_cons]
        rcases (l.takeWhile fun x => c.Passes new x).getLast? with _ | y <;> rfl
      · rw [if_neg hp, List.takeWhile_cons_of_neg (by simpa using hp),
          List.dropWhile_cons_of_neg (by simpa using hp)]
        rfl

/-- **The insertion** puts the trigger behind all those it passes, and a list that holds neither
the trigger nor one of the queue does not change. -/
lemma insertAbsTrigger_queue (c c₁ : Counter w α) (a : α) (new : BitVec w)
    (hc₁ : c₁ = { c with when := Function.update c.when a new })
    (hq : Chain c.next c.triggerQueue q) (ha : a ∉ q) :
    ∃ nx h, counterInsertAbsTrigger a new c = some { c₁ with next := nx, triggerQueue := h } ∧
      Chain nx h (q.takeWhile (fun x => c₁.Passes new x) ++
        a :: q.dropWhile fun x => c₁.Passes new x) ∧
      ∀ h' e, Chain c.next h' e → a ∉ e → (∀ x ∈ q, x ∉ e) → Chain nx h' e := by
  have hloop : c₁.insertLoop new (Fintype.card α + 1) none c.triggerQueue =
      some ((q.takeWhile fun x => c₁.Passes new x).getLast?.or none,
        (q.dropWhile fun x => c₁.Passes new x).head?) := by
    refine insertLoop_eq ?_ (Nat.lt_succ_of_le hq.nodup.length_le_card)
    rw [hc₁]
    exact hq
  have hsplit := List.takeWhile_append_dropWhile (p := fun x => decide (c₁.Passes new x)) (l := q)
  unfold counterInsertAbsTrigger
  subst hc₁
  simp only [hloop, Option.map_some]
  generalize q.takeWhile _ = l₁ at *
  generalize q.dropWhile _ = l₂ at *
  subst hsplit
  obtain ⟨hfirst, hafter⟩ := hq.insert ha
  rcases hlast : l₁.getLast? with _ | p
  · have hnil : l₁ = [] := List.getLast?_eq_none_iff.mp hlast
    refine ⟨_, _, rfl, ?_, fun h' e he hae _ => he.update _ hae⟩
    rw [hnil]
    exact hfirst hnil
  · refine ⟨_, _, rfl, hafter p hlast, fun h' e he hae hapart => ?_⟩
    have hpe : p ∉ e := hapart p (List.mem_append_left _ (List.mem_of_getLast? hlast))
    exact (he.update _ hpe).update _ hae

lemma insertAbsTrigger_eq (c c₁ : Counter w α) (a : α) (new : BitVec w)
    (hc₁ : c₁ = { c with when := Function.update c.when a new })
    (hq : Chain c.next c.triggerQueue q) (he : Chain c.next c.triggered e)
    (hd : (q ++ e).Nodup) (ha : a ∉ q ++ e) :
    ∃ nx h, counterInsertAbsTrigger a new c = some { c₁ with next := nx, triggerQueue := h } ∧
      Chain nx h (q.takeWhile (fun x => c₁.Passes new x) ++
        a :: q.dropWhile fun x => c₁.Passes new x) ∧
      Chain nx c.triggered e := by
  rw [List.mem_append, not_or] at ha
  obtain ⟨-, -, hapart⟩ := List.nodup_append.mp hd
  obtain ⟨nx, h, hins, hqueue, hrest⟩ := insertAbsTrigger_queue c c₁ a new hc₁ hq ha.1
  exact ⟨nx, h, hins, hqueue, hrest _ e he ha.2 fun x hx hxe => hapart x hx x hxe rfl⟩

omit [DecidableEq α] [Fintype α] in
lemma insertLoop_handled (o : Option α) (new : BitVec w) (k : ℕ) (prev cur : Option α) :
    Counter.insertLoop { c with handled := o } new k prev cur = c.insertLoop new k prev cur := by
  induction k generalizing prev cur with
  | zero => rfl
  | succ k ih =>
    rcases cur with _ | x
    · rfl
    · rw [Counter.insertLoop, Counter.insertLoop, ih]
      rfl

/-- The insertion does not look at the trigger that is handled. -/
lemma insertAbsTrigger_handled (o : Option α) (a : α) (new : BitVec w) :
    counterInsertAbsTrigger a new { c with handled := o } =
      (counterInsertAbsTrigger a new c).map fun c => { c with handled := o } := by
  unfold counterInsertAbsTrigger
  dsimp only
  rw [Option.map_map]
  refine congrArg₂ Option.map (funext fun p => ?_) ?_
  · rcases p with ⟨_ | prev, cur⟩ <;> rfl
  · exact insertLoop_handled (c := { c with when := Function.update c.when a new }) o new _ _ _

omit [Fintype α] in
lemma cancelLoop_eq {k : ℕ} {h : Option α} (hc : Chain c.next h (x :: l)) (ha : a ∈ l)
    (hk : l.length < k) :
    ∃ l₁ p l₂, x :: l = l₁ ++ p :: a :: l₂ ∧ c.cancelLoop a k x = some (p, some a) := by
  induction l generalizing k x h with
  | nil => simp at ha
  | cons y l ih =>
    cases k with
    | zero => exact absurd hk (Nat.not_lt_zero _)
    | succ k =>
      rw [List.length_cons] at hk
      obtain ⟨-, hy, hl⟩ := hc
      rw [Counter.cancelLoop, hy]
      dsimp only
      by_cases hya : y = a
      · subst hya
        exact ⟨[], x, l, rfl, by rw [if_pos rfl]⟩
      · have hal : a ∈ l := by
          rcases List.mem_cons.mp ha with rfl | hal
          · exact absurd rfl hya
          · exact hal
        obtain ⟨l₁, p, l₂, hsplit, hloop⟩ := ih (k := k) (h := some y) ⟨rfl, hl⟩ hal (by omega)
        refine ⟨x :: l₁, p, l₂, by rw [hsplit]; rfl, ?_⟩
        rw [if_neg hya]
        exact hloop

omit [Fintype α] in
/-- A trigger that is not in the queue is not found. -/
lemma cancelLoop_notMem {k : ℕ} {h : Option α} {r : α × Option α}
    (hc : Chain c.next h (x :: l)) (ha : a ∉ l) (hr : c.cancelLoop a k x = some r) :
    r.2 = none := by
  induction k generalizing x h l with
  | zero => simp [Counter.cancelLoop] at hr
  | succ k ih =>
    rw [Counter.cancelLoop] at hr
    cases l with
    | nil =>
      rw [show c.next x = none from hc.2] at hr
      rw [← Option.some.inj hr]
    | cons y l =>
      obtain ⟨-, hy, hl⟩ := hc
      rw [hy] at hr
      rw [List.mem_cons, not_or] at ha
      dsimp only at hr
      rw [if_neg (Ne.symm ha.1)] at hr
      exact ih (h := some y) ⟨rfl, hl⟩ ha.2 hr

lemma cancelTrigger_notMem {c' : Counter w α} (hq : Chain c.next c.triggerQueue q) (ha : a ∉ q)
    (hc : counterCancelTrigger a c = some c') : c' = c := by
  unfold counterCancelTrigger at hc
  cases q with
  | nil =>
    rw [show c.triggerQueue = none from hq] at hc
    simp at hc
  | cons x l =>
    rw [List.mem_cons, not_or] at ha
    rw [hq.1] at hc
    dsimp only at hc
    rw [if_neg (Ne.symm ha.1), Option.map_eq_some_iff] at hc
    obtain ⟨r, hr, hc⟩ := hc
    rw [cancelLoop_notMem hq ha.2 hr] at hc
    exact hc.symm

/-- **The removal** takes the trigger out of the queue. -/
lemma cancelTrigger_eq (hq : Chain c.next c.triggerQueue q) (he : Chain c.next c.triggered e)
    (hd : (q ++ e).Nodup) (ha : a ∈ q) :
    ∃ nx h, counterCancelTrigger a c = some { c with next := nx, triggerQueue := h } ∧
      Chain nx h (q.erase a) ∧ Chain nx c.triggered e := by
  obtain ⟨hqd, -, hapart⟩ := List.nodup_append.mp hd
  cases q with
  | nil => simp at ha
  | cons x l =>
    have hhead := hq.1
    unfold counterCancelTrigger
    rw [hhead]
    dsimp only
    by_cases hxa : x = a
    · subst hxa
      rw [if_pos rfl, List.erase_cons_head]
      exact ⟨c.next, c.next x, rfl, hq.2, he⟩
    · have hal : a ∈ l := by
        rcases List.mem_cons.mp ha with rfl | hal
        · exact absurd rfl hxa
        · exact hal
      obtain ⟨l₁, p, l₂, hsplit, hloop⟩ := cancelLoop_eq hq hal (k := Fintype.card α + 1) (by
        have := hqd.length_le_card
        rw [List.length_cons] at this
        omega)
      rw [if_neg hxa, hloop]
      rw [hsplit] at hq ⊢
      have hpe : p ∉ e := fun hpe => hapart p (by rw [hsplit]; simp) p hpe rfl
      refine ⟨Function.update c.next p (c.next a), some x, rfl, ?_, he.update _ hpe⟩
      have herase : (l₁ ++ p :: a :: l₂).erase a = l₁ ++ p :: l₂ := by
        rw [show l₁ ++ p :: a :: l₂ = (l₁ ++ [p]) ++ a :: l₂ by simp] at hq ⊢
        rw [List.erase_append_right _ hq.notMem.1, List.erase_cons_head]
        simp
      rw [herase, ← hhead]
      exact hq.remove

/-- The statuses once these triggers are marked. -/
def expire (l : List α) (status : α → TriggerStatus) (a : α) : TriggerStatus :=
  if a ∈ l then .expired else status a

omit [Fintype α] in
lemma expire_nil (status : α → TriggerStatus) : expire [] status = status := by
  ext b
  exact if_neg List.not_mem_nil

omit [Fintype α] in
lemma expire_singleton (status : α → TriggerStatus) :
    expire [x] status = Function.update status x .expired := by
  ext b
  by_cases hb : b = x
  · rw [hb, Function.update_self]
    exact if_pos (List.mem_singleton_self x)
  · rw [Function.update_of_ne hb]
    exact if_neg fun hm => hb (List.mem_singleton.mp hm)

omit [Fintype α] in
lemma expire_cons (status : α → TriggerStatus) :
    expire (x :: l) status = expire l (Function.update status x .expired) := by
  ext b
  unfold expire
  by_cases hl : b ∈ l
  · rw [if_pos hl, if_pos (List.mem_cons_of_mem _ hl)]
  · rw [if_neg hl]
    by_cases hb : b = x
    · rw [hb, Function.update_self, if_pos List.mem_cons_self]
    · rw [Function.update_of_ne hb, if_neg]
      exact fun hm => (List.mem_cons.mp hm).elim hb hl

omit [Fintype α] in
lemma expireLoop_eq {k : ℕ} {h : Option α} (hc : Chain c.next h (x :: l))
    (hk : l.length < k) :
    c.expireLoop k x = some
      ({ c with status := expire (x :: l.takeWhile fun y => c.when y = c.value) c.status },
        ((l.takeWhile fun y => c.when y = c.value).getLast?.getD x),
        (l.dropWhile fun y => c.when y = c.value).head?) := by
  induction l generalizing k x h c with
  | nil =>
    cases k with
    | zero => exact absurd hk (Nat.not_lt_zero _)
    | succ k =>
      rw [Counter.expireLoop, show c.next x = none from hc.2, List.takeWhile_nil,
        expire_singleton]
      rfl
  | cons y l ih =>
    cases k with
    | zero => exact absurd hk (Nat.not_lt_zero _)
    | succ k =>
      rw [List.length_cons] at hk
      obtain ⟨-, hy, hl⟩ := hc
      rw [Counter.expireLoop, hy]
      dsimp only
      by_cases hw : c.when y = c.value
      · rw [if_pos hw, List.takeWhile_cons_of_pos (by simpa using hw),
          List.dropWhile_cons_of_pos (by simpa using hw), expire_cons, List.getLast?_cons]
        exact ih (h := some y) ⟨rfl, hl⟩ (by omega)
      · rw [if_neg hw, List.takeWhile_cons_of_neg (by simpa using hw),
          List.dropWhile_cons_of_neg (by simpa using hw), expire_singleton]
        rfl

/-- **The triggers that expire** are those in front of the queue; they are cut off it. -/
lemma popTriggered_eq (hq : Chain c.next c.triggerQueue q) (hd : q.Nodup)
    (ht : c.triggered = none) :
    ∃ nx, c.popTriggered = some { c with
        status := expire (q.takeWhile fun y => c.when y = c.value) c.status
        next := nx
        triggerQueue := (q.dropWhile fun y => c.when y = c.value).head?
        triggered := (q.takeWhile fun y => c.when y = c.value).head? } ∧
      Chain nx (q.dropWhile fun y => c.when y = c.value).head?
        (q.dropWhile fun y => c.when y = c.value) ∧
      Chain nx (q.takeWhile fun y => c.when y = c.value).head?
        (q.takeWhile fun y => c.when y = c.value) := by
  have hsplit := List.takeWhile_append_dropWhile (l := q) (p := fun y => decide (c.when y = c.value))
  have hkeep : (q.takeWhile fun y => c.when y = c.value) = [] → some c = some { c with
      status := expire (q.takeWhile fun y => c.when y = c.value) c.status
      triggerQueue := (q.dropWhile fun y => c.when y = c.value).head?
      triggered := (q.takeWhile fun y => c.when y = c.value).head? } := by
    intro hnil
    rw [hnil, List.nil_append] at hsplit
    rw [hnil, hsplit, expire_nil, List.head?_nil, ← hq.head_eq, ← ht]
  unfold Counter.popTriggered
  cases q with
  | nil =>
    refine ⟨c.next, ?_, rfl, rfl⟩
    rw [show c.triggerQueue = none from hq]
    exact hkeep rfl
  | cons x l =>
    have hhead := hq.1
    rw [hhead]
    dsimp only
    by_cases hx : c.when x = c.value
    · have hloop := expireLoop_eq hq (k := Fintype.card α + 1) (by
        have := hd.length_le_card
        rw [List.length_cons] at this
        omega)
      rw [if_pos hx, hloop, Option.map_some]
      rw [List.takeWhile_cons_of_pos (by simpa using hx),
        List.dropWhile_cons_of_pos (by simpa using hx)] at hsplit ⊢
      obtain ⟨l₁, hl₁⟩ := List.getLast?_eq_some_iff.mp
        (List.getLast?_cons (a := x) (l := l.takeWhile fun y => c.when y = c.value))
      rw [← hsplit, hl₁, List.append_assoc, List.singleton_append] at hq
      obtain ⟨htodo, hrest⟩ := hq.cut
      refine ⟨_, rfl, hrest, ?_⟩
      rw [← hl₁, hhead] at htodo
      exact htodo
    · rw [if_neg hx]
      have hnil : ((x :: l).takeWhile fun y => c.when y = c.value) = [] :=
        List.takeWhile_cons_of_neg (by simpa using hx)
      refine ⟨c.next, hkeep hnil, ?_, ?_⟩
      · rw [hnil, List.nil_append] at hsplit
        rw [hsplit, ← hq.head_eq]
        exact hq
      · rw [hnil]
        rfl

end Queue

end FpMemSched.Erika.Countdown
