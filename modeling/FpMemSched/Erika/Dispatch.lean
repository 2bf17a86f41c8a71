import FpMemSched.Erika.Started
import FpMemSched.Lib.Buckets

/-!
Fixed-priority dispatching with memory phases.

The kernel compares the head of the ready queue with the running task whenever it reschedules,
and a newly activated task with the running one. This keeps the running task the one of
highest priority as long as no other place lowers a priority. The end of an execution phase is
such a place, and the law is kept where it happens to lower the priority to one that is still
high enough.
-/

namespace FpMemSched.Erika.Dispatch

open FpMemSched.Lib FpMemSched.Lib.Runs FpMemSched.Erika.Kernel FpMemSched.Erika.Dprem
open FpMemSched.Erika.Order FpMemSched.Erika.Started
open FpMemSched.Arbiter (Reply)

variable {ν : Type} {κ : Kdb} {prio : Tid → ℕ} {stk rq susp : List (Node ν)} {n : Node ν}

/-- The order of the ready queue. -/
def Sorted (κ : Kdb) (rq : List (Node ν)) : Prop :=
  rq.Pairwise fun a b => (κ.tdb b.task).readyPrio ≤ (κ.tdb a.task).readyPrio

lemma Sorted.insert (h : Sorted κ rq) : Sorted κ (rqInsert κ n rq) :=
  @Buckets.Descending.insert _ (fun m => (κ.tdb (Node.task m)).readyPrio) n rq h

/-- No ready task exceeds a regular task on top of the stack; with an empty stack none is
ready. -/
def TopLaw (κ : Kdb) (prio : Tid → ℕ) (stk rq : List (Node ν)) : Prop :=
  ∀ m ∈ rq, ∃ x ∈ stk.head?, (κ.tdb x.task).Regular → prio m.task ≤ prio x.task

/-- All tasks take part in the order of the stack. -/
abbrev Everyone : Tid → Prop := fun _ => True

structure Law (κ : Kdb) (s : Core ν) : Prop where
  sorted : Sorted κ s.rq
  raised : ∀ t, (κ.tdb t).Regular → (κ.tdb t).readyPrio ≤ s.prio t
  idle : s.prio κ.idle = 0
  top : TopLaw κ s.prio s.stk s.rq

/-! ### A rescheduling -/

lemma settle_sorted {s : Core ν} (h : Sorted κ s.rq) : Sorted κ (settle κ s).rq := by
  rcases settle_cases κ s with ⟨he, -⟩ | ⟨m, rq, hr, -, he⟩
  · rw [he]; exact h
  · rw [he]
    rw [hr] at h
    exact (List.pairwise_cons.mp h).2

lemma settle_idle {s : Core ν} (h : ∀ m ∈ s.rq, (κ.tdb m.task).Regular) :
    (settle κ s).prio κ.idle = s.prio κ.idle := by
  rcases settle_cases κ s with ⟨he, -⟩ | ⟨m, rq, hr, -, he⟩
  · rw [he]
  · rw [he]
    simp only [stkNext, dispatch_prio]
    rw [Function.update_of_ne]
    rintro hi
    exact regular_ne_idle (h m (by rw [hr]; simp)) ((κ.idle_iff _).mpr hi.symm)

/-- **After a rescheduling the top is the highest**: no ready task exceeds it, apart from the
one just taken off the stack, whose priority is about to be reset. -/
lemma settle_top {s : Core ν} (h : Ordered κ Everyone s.prio s.stk s.rq s.suspended)
    (hf : Fresh κ s.prio (n :: s.stk ++ s.suspended)) (hs : Sorted κ s.rq)
    (hr : ∀ t, (κ.tdb t).Regular → (κ.tdb t).readyPrio ≤ s.prio t) :
    ∀ m ∈ (settle κ s).rq, ∃ x ∈ (settle κ s).stk.head?, (κ.tdb x.task).Regular →
      (κ.tdb m.task).readyPrio ≤ (settle κ s).prio x.task ∧
      (m.task ≠ n.task → (settle κ s).prio m.task ≤ (settle κ s).prio x.task) := by
  have hfresh : ∀ m ∈ s.rq, m.task ≠ n.task → m.task ∉ s.stk.map Node.task →
      s.prio m.task = (κ.tdb m.task).readyPrio := by
    intro m hm hne hst
    refine hf _ (h.ready m hm) fun hmem => ?_
    simp only [List.cons_append, List.map_cons, List.map_append, List.mem_cons,
      List.mem_append] at hmem
    rcases hmem with he | hmem | hmem
    · exact hne he
    · exact hst hmem
    · obtain ⟨x, hx, he⟩ := List.mem_map.mp hmem
      exact (h.parked x hx).2 m hm he.symm
  intro m hm
  rcases settle_cases κ s with ⟨he, hkeep⟩ | ⟨q, rq, hrq, hp, he⟩
  · rw [he] at hm ⊢
    obtain ⟨q, rq, hrq⟩ := List.exists_cons_of_ne_nil (List.ne_nil_of_mem hm)
    obtain ⟨top, stk, hstk, hle⟩ := hkeep q rq hrq
    have hready : (κ.tdb m.task).readyPrio ≤ s.prio top.task := by
      have hq := hr q.task (h.ready q (by rw [hrq]; simp))
      rw [hrq] at hm hs
      rcases List.mem_cons.mp hm with rfl | hm
      · omega
      · have := (List.pairwise_cons.mp hs).1 m hm
        omega
    refine ⟨top, by simp [hstk], fun htop => ⟨hready, fun hne => ?_⟩⟩
    by_cases hmem : m.task ∈ s.stk.map Node.task
    · -- another activation of a task that is on the stack
      obtain ⟨y, hy, hym⟩ := List.mem_map.mp hmem
      have habove := h.above
      rw [hstk] at hy habove
      show s.prio m.task ≤ s.prio top.task
      rw [← hym]
      rcases List.mem_cons.mp hy with rfl | hy
      · exact le_refl _
      · exact ((List.pairwise_cons.mp habove).1 y hy htop).2 trivial
    · exact (hfresh m hm hne hmem).trans_le hready
  · rw [he] at hm ⊢
    have hq : q ∈ s.rq := by rw [hrq]; simp
    have hmrq : m ∈ s.rq := by rw [hrq]; exact List.mem_cons_of_mem _ hm
    have hready : (κ.tdb m.task).readyPrio ≤ s.prio q.task := by
      rw [hrq] at hs
      exact ((List.pairwise_cons.mp hs).1 m hm).trans (hr _ (h.ready q hq))
    refine ⟨q, rfl, fun _ => ?_⟩
    simp only [stkNext, dispatch_prio, Function.update_self]
    refine ⟨hready.trans (le_max_left _ _), fun hne => ?_⟩
    by_cases hmq : m.task = q.task
    · rw [hmq, Function.update_self]
    · rw [Function.update_of_ne hmq]
      refine le_trans ?_ (le_max_left _ _)
      by_cases hmem : m.task ∈ s.stk.map Node.task
      · obtain ⟨y, hy, hym⟩ := List.mem_map.mp hmem
        rw [← hym]
        exact ((h.exceeds (h.ready q hq) hp y hy).2 trivial).le
      · exact (hfresh m hmrq hne hmem).trans_le hready

/-- The priority of the task taken off the stack is reset. -/
lemma topLaw_reset {u : Tid} (h : ∀ m ∈ rq, ∃ x ∈ stk.head?, (κ.tdb x.task).Regular →
      (κ.tdb m.task).readyPrio ≤ prio x.task ∧ (m.task ≠ u → prio m.task ≤ prio x.task))
    (hu : u ∉ stk.map Node.task) :
    TopLaw κ (Function.update prio u (κ.tdb u).readyPrio) stk rq := by
  intro m hm
  obtain ⟨x, hx, hle⟩ := h m hm
  refine ⟨x, hx, fun hr => ?_⟩
  have hxu : x.task ≠ u := by
    rintro rfl
    exact hu (List.mem_map_of_mem (List.mem_of_mem_head? hx))
  rw [Function.update_of_ne hxu]
  by_cases hmu : m.task = u
  · rw [hmu, Function.update_self, ← hmu]
    exact (hle hr).1
  · rw [Function.update_of_ne hmu]
    exact (hle hr).2 hmu

/-- A task taken off the stack starts again at once. -/
lemma topLaw_again {u : Tid} (h : ∀ m ∈ rq, ∃ x ∈ stk.head?, (κ.tdb x.task).Regular →
      (κ.tdb m.task).readyPrio ≤ prio x.task ∧ (m.task ≠ u → prio m.task ≤ prio x.task))
    (hu : ∀ x ∈ stk.head?, x.task = u) : TopLaw κ prio stk rq := by
  intro m hm
  obtain ⟨x, hx, hle⟩ := h m hm
  refine ⟨x, hx, fun hr => ?_⟩
  by_cases hmu : m.task = u
  · rw [hmu, hu x hx]
  · exact (hle hr).2 hmu

/-- The running task gets a priority that no ready task exceeds. -/
lemma topLaw_set {p : ℕ} (hx : n ∈ stk.head?) (hle : ∀ m ∈ rq, prio m.task ≤ p) :
    TopLaw κ (Function.update prio n.task p) stk rq := by
  intro m hm
  refine ⟨n, hx, fun _ => ?_⟩
  rw [Function.update_self]
  by_cases hmn : m.task = n.task
  · rw [hmn, Function.update_self]
  · rw [Function.update_of_ne hmn]
    exact hle m hm

/-- While an ISR2 runs the law asks for nothing. -/
lemma topLaw_isr {s : Core ν} (h : Good κ Everyone s) (hi : (κ.tdb s.curr).taskType = .isr2) :
    TopLaw κ s.prio s.stk s.rq := by
  obtain ⟨n, stk, hstk, hn⟩ := h.cons (isr2_ne_idle hi)
  intro m _
  refine ⟨n, by simp [hstk], fun hr => ?_⟩
  rw [hn] at hr
  exact absurd hr (not_regular_of_isr2 hi)

/-! ### Services -/

lemma law_activate {s s' : Core ν} {t : Tid} (hg : Good κ Everyone s) (h : Law κ s)
    (ht : (κ.tdb t).Regular) (he : activateTask κ t s = some s') : Law κ s' := by
  obtain ⟨hact, he⟩ | rfl := activateTask_some he
  · obtain ⟨m, free, hf, ⟨hp, rfl⟩ | ⟨hp, rfl⟩⟩ := schedulerTaskActivated_cases he
    · refine ⟨h.sorted, h.raised, h.idle, fun q hq => ?_⟩
      obtain ⟨x, hx, hle⟩ := h.top q hq
      refine ⟨_, rfl, fun _ => ?_⟩
      have hlt := hg.below hp
      have hreg := (hg.ordered.exceeds ht hlt x (List.mem_of_mem_head? hx)).1
      exact (hle hreg).trans (hlt x hx).le
    · refine ⟨h.sorted.insert, h.raised, h.idle, fun q hq => ?_⟩
      rcases (List.mem_orderedInsert _).mp hq with rfl | hq
      · -- the idle task is below every task, so the stack is not empty
        have hpos := ((κ.regular_prio t ht).1).trans_le (h.raised t ht)
        have hcurr : (κ.tdb s.curr).taskType ≠ .idle := by
          intro hi
          have := (κ.idle_iff _).mp hi
          rw [this] at hp
          exact hp (h.idle.symm ▸ hpos)
        obtain ⟨n, stk, hstk, hn⟩ := hg.cons hcurr
        refine ⟨n, by simp [hstk], fun _ => ?_⟩
        show s.prio t ≤ s.prio n.task
        rw [hn]
        exact Nat.not_lt.mp hp
      · exact h.top q hq
  · exact h

lemma update_raised {t u : Tid} {p : ℕ}
    (h : ∀ t, (κ.tdb t).Regular → (κ.tdb t).readyPrio ≤ prio t)
    (hp : (κ.tdb u).readyPrio ≤ p) (ht : (κ.tdb t).Regular) :
    (κ.tdb t).readyPrio ≤ Function.update prio u p t := by
  by_cases htu : t = u
  · subst htu
    rwa [Function.update_self]
  · rw [Function.update_of_ne htu]
    exact h t ht

lemma update_idle {u : Tid} {p : ℕ} (hu : (κ.tdb u).taskType ≠ .idle) :
    Function.update prio u p κ.idle = prio κ.idle := by
  rw [Function.update_of_ne]
  rintro rfl
  exact hu ((κ.idle_iff _).mpr rfl)

lemma law_terminate {s s' : Core ν} (hg : Good κ Everyone s) (h : Law κ s)
    (hc : (κ.tdb s.curr).taskType ≠ .idle) (he : taskTerminated κ s = some s') : Law κ s' := by
  obtain ⟨n, stk, hstk, hn⟩ := hg.cons hc
  rw [taskTerminated_cons κ hg.run hstk] at he
  obtain rfl := Option.some.inj he
  have hord := hg.ordered
  have hfresh := hg.fresh
  rw [hstk] at hord hfresh
  have htop := settle_top (s := { s with stk := stk }) hord.pop hfresh h.sorted h.raised
  have hraised : ∀ t, (κ.tdb t).Regular →
      (κ.tdb t).readyPrio ≤ (settle κ { s with stk := stk }).prio t :=
    fun t ht => (h.raised t ht).trans (settle_raised { s with stk := stk } t)
  have hidle : (settle κ { s with stk := stk }).prio κ.idle = 0 :=
    (settle_idle (s := { s with stk := stk }) hord.ready).trans h.idle
  unfold Tcbs.ended
  rw [← hn] at hc ⊢
  split_ifs with hne
  · exact ⟨settle_sorted h.sorted, fun t ht => update_raised hraised (le_refl _) ht,
      (update_idle hc).trans hidle, topLaw_reset htop (settle_notMem hord.popped.1 hne)⟩
  · refine ⟨settle_sorted h.sorted, hraised, hidle, topLaw_again htop fun x hx => ?_⟩
    rw [← topTask_eq (κ := κ) hx, ← (settle_ordered hord.pop (by simp)).2]
    exact (not_not.mp hne).symm

lemma law_suspendRunning {s s' : Core ν} (hg : Good κ Everyone s) (h : Law κ s)
    (hr : (κ.tdb s.curr).Regular) (hrq : s.curr ∉ s.rq.map Node.task)
    (he : suspendRunningTask κ s = some s') : Law κ s' := by
  obtain ⟨n, stk, hstk, hn⟩ := hg.cons (regular_ne_idle hr)
  rw [suspendRunningTask_cons κ hstk (hn ▸ hr)] at he
  obtain rfl := Option.some.inj he
  have hord := hg.ordered
  have hfresh := hg.fresh
  rw [hstk] at hord hfresh
  have htop := settle_top (s := { s with stk := stk }) hord.pop hfresh h.sorted h.raised
  have hidle : (settle κ { s with stk := stk }).prio κ.idle = 0 :=
    (settle_idle (s := { s with stk := stk }) hord.ready).trans h.idle
  rw [← hn] at hr hrq ⊢
  -- the task is not ready, so it is not the one that runs next
  have hnot := (settle_nowhere (κ := κ) (s := { s with stk := stk }) hord.popped.1 hrq).1
  exact ⟨settle_sorted h.sorted,
    fun t ht => update_raised
      (fun t ht => (h.raised t ht).trans (settle_raised { s with stk := stk } t)) (le_refl _) ht,
    (update_idle (regular_ne_idle hr)).trans hidle, topLaw_reset htop hnot⟩

lemma law_turn {s s' : Core ν} {r : Reply} (hg : Good κ Everyone s) (h : Law κ s)
    (hr : (κ.tdb s.curr).Regular)
    (hrq : s.memArbitStatus = .requested → s.curr ∉ s.rq.map Node.task)
    (he : beginTurn κ r s = some s') : Law κ s' := by
  unfold beginTurn at he
  cases hm : s.memArbitStatus with
  | acquired =>
    rw [hm] at he
    obtain rfl := Option.some.inj he
    obtain ⟨n, stk, hstk, hn⟩ := hg.cons (regular_ne_idle hr)
    have htop : TopLaw κ (Function.update s.prio n.task maxTaskPriority) s.stk s.rq :=
      topLaw_set (by simp [hstk]) fun m hm => hg.ordered.bound _ (hg.ordered.ready m hm)
    exact ⟨h.sorted, fun t ht => update_raised h.raised (κ.regular_prio _ hr).2.1 ht,
      (update_idle (regular_ne_idle hr)).trans h.idle, hn ▸ htop⟩
  | none =>
    rw [hm] at he
    cases r <;> exact Option.some.inj he ▸ ⟨h.sorted, h.raised, h.idle, h.top⟩
  | requested =>
    rw [hm] at he
    exact law_suspendRunning hg h hr (hrq hm) he

section Isr

variable [DecidableEq ν]

lemma law_started {s : Core ν} (hg : Good κ Everyone s) (h : Law κ s)
    (hi : (κ.tdb s.curr).taskType = .isr2) : Law κ (memoryPhaseStartedIsr κ s) := by
  have htop := topLaw_isr (good_started hg hi)
  rcases startedIsr_cases (κ := κ) (s := s) with ⟨-, he⟩ | ⟨-, -, he⟩ | ⟨-, n, hn, he⟩
  · rw [he]; exact h
  · rw [he]
    exact ⟨h.sorted, h.raised, h.idle, h.top⟩
  · rw [he] at htop ⊢
    obtain ⟨c, d, hs, -, -, -⟩ := highestSuspended_some hn
    have hreg : (κ.tdb n.task).Regular := (hg.ordered.parked n (by rw [hs]; simp)).1
    exact ⟨h.sorted, fun t ht => update_raised h.raised (κ.regular_prio _ hreg).2.1 ht,
      (update_idle (regular_ne_idle hreg)).trans h.idle, htop hi⟩

lemma law_ended {s : Core ν} (h : Law κ s)
    (hi : (κ.tdb s.curr).taskType = .isr2) (hg' : Good κ Everyone (memoryPhaseEndedIsr κ s)) :
    Law κ (memoryPhaseEndedIsr κ s) := by
  have htop := topLaw_isr hg'
  rcases endedIsr_cases (κ := κ) (s := s) with ⟨-, he⟩ | ⟨-, -, he⟩ | ⟨-, n, hn, he⟩
  · rw [he]; exact h
  · rw [he]
    exact ⟨h.sorted, h.raised, h.idle, h.top⟩
  · rw [he] at htop ⊢
    exact ⟨h.sorted, h.raised, h.idle, htop hi⟩

lemma law_endExecution {s : Core ν} (hg : Good κ Everyone s) (h : Law κ s)
    (hr : (κ.tdb s.curr).Regular)
    (hκ : (κ.tdb s.curr).readyPrio = (κ.tdb s.curr).dispatchPrio)
    (hrq : ∀ m ∈ s.rq, s.prio m.task ≤ (κ.tdb s.curr).dispatchPrio) :
    Law κ (endExecutionPhase κ s) := by
  obtain ⟨top, stk, hstk, htop⟩ := hg.cons (regular_ne_idle hr)
  have hord := hg.ordered
  rw [hstk] at hord
  have hcurr : ∀ m ∈ s.suspended, m.task ≠ s.curr := by
    rintro m hm he
    exact hord.popped.2 (htop ▸ he ▸ List.mem_map_of_mem hm)
  have hlaw : ∀ stk', top ∈ stk'.head? →
      TopLaw κ (Function.update s.prio s.curr (κ.tdb s.curr).dispatchPrio) stk' s.rq :=
    fun stk' hx => htop ▸ topLaw_set hx (htop ▸ hrq)
  have hraised := fun t ht => update_raised (t := t) h.raised hκ.le ht
  have hidle : Function.update s.prio s.curr (κ.tdb s.curr).dispatchPrio κ.idle = 0 :=
    (update_idle (regular_ne_idle hr)).trans h.idle
  rcases endExecutionPhase_cases (κ := κ) hstk hcurr with ⟨-, he⟩ | ⟨n, -, he⟩
  · rw [he]
    exact ⟨h.sorted, hraised, hidle, hlaw s.stk (by simp [hstk])⟩
  · rw [he]
    exact ⟨h.sorted, hraised, hidle, hlaw _ rfl⟩

/-! ### Runs -/

/-- The end of an execution phase respects the ready queue as well. -/
def Respects (κ : Kdb) (s : Core ν) (a : Action) : Prop :=
  Orderly κ Everyone s a ∧
    (a = .endExecutionPhase → ∀ m ∈ s.rq, s.prio m.task ≤ (κ.tdb s.curr).dispatchPrio)

instance (s : Core ν) (a : Action) : Decidable (Respects κ s a) :=
  inferInstanceAs (Decidable (_ ∧ _))

lemma law_step (hκ : ∀ t, (κ.tdb t).Regular → (κ.tdb t).readyPrio = (κ.tdb t).dispatchPrio)
    {s s' : Core ν} {a : Action} (hg : Good κ Everyone s) (h : Law κ s) (hp : Plain a)
    (ho : Respects κ s a) (he : step κ s a = some s') : Good κ Everyone s' ∧ Law κ s' := by
  have hg' := good_step (fun _ _ => trivial) hg hp ho.1 he
  refine ⟨hg', ?_⟩
  obtain ⟨ho, hrq⟩ := ho
  cases a with
  | activateTask t =>
    obtain ⟨⟨-, ht⟩, he⟩ := Option.ite_none_right_eq_some.mp he
    exact law_activate hg h ht he
  | terminate =>
    obtain ⟨hc, he⟩ := Option.ite_none_right_eq_some.mp he
    refine law_terminate hg h ?_ he
    rcases hc with hi | hr
    · exact isr2_ne_idle hi
    · exact regular_ne_idle hr.1
  | interrupt i =>
    obtain ⟨⟨-, hi, -⟩, he⟩ := Option.ite_none_right_eq_some.mp he
    obtain ⟨m, free, hf, rfl⟩ := taskSetRunning_some he
    exact ⟨h.sorted, h.raised, h.idle, topLaw_isr hg' hi⟩
  | startedIsr =>
    obtain ⟨⟨hi, -⟩, he⟩ := Option.ite_none_right_eq_some.mp he
    exact Option.some.inj he ▸ law_started hg h hi
  | endedIsr =>
    obtain ⟨⟨hi, -⟩, he⟩ := Option.ite_none_right_eq_some.mp he
    obtain rfl := Option.some.inj he
    exact law_ended h hi hg'
  | beginMemoryPhase =>
    obtain ⟨-, he⟩ := Option.ite_none_right_eq_some.mp he
    obtain rfl := Option.some.inj he
    exact ⟨h.sorted, h.raised, h.idle, h.top⟩
  | beginTurn r =>
    obtain ⟨hr, he⟩ := Option.ite_none_right_eq_some.mp he
    exact law_turn hg h (hr.elim And.left And.left) ho he
  | endMemoryPhase r =>
    obtain ⟨-, he⟩ := Option.ite_none_right_eq_some.mp he
    obtain rfl := Option.some.inj he
    cases r <;> exact ⟨h.sorted, h.raised, h.idle, h.top⟩
  | endExecutionPhase =>
    obtain ⟨hr, he⟩ := Option.ite_none_right_eq_some.mp he
    exact Option.some.inj he ▸ law_endExecution hg h hr.1 (hκ _ hr.1) (hrq rfl)
  | _ => simp [Plain] at hp

omit [DecidableEq ν] in
lemma law_init (free : List (Node ν)) : Law κ (init κ free) :=
  ⟨List.Pairwise.nil, fun _ _ => le_refl _, κ.idle_prio, fun m hm => by simp [init] at hm⟩

/-- **The running task has the highest priority**: in every run in which the ends of execution
phases respect the stack and the ready queue, and no task is suspended while it has another
activation, no regular task on the stack and no ready task exceeds a regular task that runs,
whether interrupts are enabled or not. -/
theorem highest_runs
    (hκ : ∀ t, (κ.tdb t).Regular → (κ.tdb t).readyPrio = (κ.tdb t).dispatchPrio)
    {free : List (Node ν)} {as : List Action} {s : Core ν}
    (hc : Along (step κ) (fun s a => Plain a ∧ Respects κ s a) (init κ free) as)
    (he : exec (step κ) (init κ free) as = some s) (hr : (κ.tdb s.curr).Regular) :
    (∀ m ∈ s.stk, (κ.tdb m.task).Regular → s.prio m.task ≤ s.prio s.curr) ∧
      ∀ m ∈ s.rq, s.prio m.task ≤ s.prio s.curr := by
  obtain ⟨hg, h⟩ : Good κ Everyone s ∧ Law κ s :=
    exec_inv_along (fun s a t h ha ht => law_step hκ h.1 h.2 ha.1 ha.2 ht)
      ⟨good_init free, law_init free⟩ hc he
  obtain ⟨n, stk, hstk, hn⟩ := hg.cons (regular_ne_idle hr)
  rw [← hn] at hr ⊢
  constructor
  · intro m hm _
    have habove := hg.ordered.above
    rw [hstk] at hm habove
    rcases List.mem_cons.mp hm with rfl | hm
    · exact le_refl _
    · exact ((List.pairwise_cons.mp habove).1 m hm hr).2 trivial
  · intro m hm
    obtain ⟨x, hx, hle⟩ := h.top m hm
    obtain rfl : n = x := by simpa [hstk] using hx
    exact hle hr

/-- A task in its memory phase activates one of lower priority. -/
def highestRun : List Action :=
  [.activateTask 5, .beginMemoryPhase, .beginTurn .ack, .beginTurn .ack, .activateTask 4,
    .endMemoryPhase .ack, .endExecutionPhase]

theorem highest_runs_highestRun :
    ∃ s, exec (step (smallKdb 1)) (init (smallKdb 1) tenNodes) highestRun = some s ∧
      s.curr = 5 ∧ s.rq.map Node.task = [4] ∧ ∀ m ∈ s.rq, s.prio m.task ≤ s.prio s.curr := by
  have hc : Along (step (smallKdb 1)) (fun s a => Plain a ∧ Respects (smallKdb 1) s a)
      (init (smallKdb 1) tenNodes) highestRun := by decide
  have hκ := fun t (_ : ((smallKdb 1).tdb t).Regular) => smallKdb_dispatchPrio 1 t
  exact ⟨_, rfl, rfl, rfl, (highest_runs hκ hc rfl (by decide)).2⟩

/-- An interrupt makes a task of higher priority ready during the memory phase. -/
def keptWaitingRun : List Action :=
  [.activateTask 4, .beginMemoryPhase, .beginTurn .ack, .beginTurn .ack,
    .interrupt 3, .activateTask 5, .terminate, .endMemoryPhase .ack, .endExecutionPhase]

theorem higher_kept_waiting :
    (∀ a ∈ keptWaitingRun, Plain a) ∧
    ∃ s, exec (step (smallKdb 1)) (init (smallKdb 1) tenNodes) keptWaitingRun = some s ∧
      s.curr = 4 ∧ ((smallKdb 1).tdb s.curr).Regular ∧ IrqEnabled (smallKdb 1) s ∧
      s.rq.map Node.task = [5] ∧ s.prio s.curr < s.prio 5 :=
  ⟨by decide, _, rfl, rfl, by decide, by decide, rfl, by decide⟩

end Isr

end FpMemSched.Erika.Dispatch
