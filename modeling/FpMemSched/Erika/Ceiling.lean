import FpMemSched.Erika.Started

/-!
Priority ceilings and memory phases.

A task that takes a resource runs at the ceiling of the resource at least, so no task that may
want the resource starts before it is released. Four places write the current priority:
`GetResource`, `ReleaseResource`, the memory phases and the interrupt routines of DPREM. Each
forgets what the others had raised it for, so the ceilings hold where resources and memory
phases are kept apart: no memory phase is begun with a resource held, none is taken in a
memory phase, and no task comes out of its phases above a resource it may want.
-/

namespace FpMemSched.Erika.Ceiling

open FpMemSched.Lib.Runs FpMemSched.Erika.Kernel FpMemSched.Erika.Dprem
open FpMemSched.Erika.Order FpMemSched.Erika.Started
open FpMemSched.Arbiter (Reply)

variable {ν : Type} {κ : Kdb} {t u : Tid} {r : Res}

/-! ### Resources -/

/-- The records of the resources: a resource held names its owner, its ceiling does not exceed
the priority of the owner, nor the priority to go back to of one taken later. -/
structure Locks (κ : Kdb) (s : Tcbs ν) : Prop where
  own : ∀ t r, r ∈ s.lastM t ↔ s.owner r = some t
  nodup : ∀ t, (s.lastM t).Nodup
  ceil : ∀ t, ∀ r ∈ s.lastM t, κ.resPrio r ≤ s.prio t
  chain : ∀ t, (s.lastM t).Pairwise fun r r' => κ.resPrio r' ≤ s.prevPrio r
  prev : ∀ t, ∀ r ∈ s.lastM t, s.prevPrio r ≤ maxTaskPriority

lemma Locks.frame {s s' : Tcbs ν} (h : Locks κ s) (hl : s'.lastM = s.lastM)
    (ho : s'.owner = s.owner) (hv : s'.prevPrio = s.prevPrio)
    (hp : ∀ t, s.lastM t ≠ [] → s.prio t ≤ s'.prio t) : Locks κ s' := by
  refine ⟨?_, ?_, fun t r hr => ?_, ?_, ?_⟩
  · rw [hl, ho]; exact h.own
  · rw [hl]; exact h.nodup
  · rw [hl] at hr
    exact (h.ceil t r hr).trans (hp t (List.ne_nil_of_mem hr))
  · rw [hl, hv]; exact h.chain
  · rw [hl, hv]; exact h.prev

/-- The tasks whose place in the stack matters: those with several activations and those that
hold a resource. -/
def Held (κ : Kdb) (lastM : Tid → List Res) (t : Tid) : Prop := Multi κ t ∨ lastM t ≠ []

instance (lastM : Tid → List Res) : DecidablePred (Held κ lastM) :=
  fun _ => inferInstanceAs (Decidable (_ ∨ _))

/-- A task `x` that lies above `y` outside its phases may want no resource of `y`, and no
priority that it can go back to is below that of `y`. -/
def Under (κ : Kdb) (s : Tcbs ν) (x y : Tid) : Prop :=
  (κ.tdb x).Regular → s.phase x = .outside →
    (∀ r ∈ s.lastM y, κ.resPrio r < (κ.tdb x).readyPrio) ∧
    (Held κ s.lastM y → s.prio y ≤ max (κ.tdb x).readyPrio (κ.tdb x).dispatchPrio ∧
      ∀ r ∈ s.lastM x, s.prio y ≤ s.prevPrio r)

lemma Under.frame {s s' : Tcbs ν} {x y : Tid} (h : Under κ s x y) (hl : s'.lastM = s.lastM)
    (hv : s'.prevPrio = s.prevPrio) (hx : s'.phase x = .outside → s.phase x = .outside)
    (hy : s'.prio y = s.prio y) : Under κ s' x y := by
  intro hr hp
  rw [hl, hv, hy]
  exact h hr (hx hp)

/-- A task that starts above all resources held. -/
lemma Locks.under {s : Tcbs ν} {x y : Tid} (h : Locks κ s) (hx : s.lastM x = [])
    (hy : Held κ s.lastM y → s.prio y < (κ.tdb x).readyPrio) : Under κ s x y := by
  intro _ _
  refine ⟨fun r hr => ?_, fun hh => ⟨(hy hh).le.trans (le_max_left _ _), by simp [hx]⟩⟩
  exact (h.ceil y r hr).trans_lt (hy (Or.inr (List.ne_nil_of_mem hr)))

structure Ceil (κ : Kdb) (s : Core ν) : Prop where
  locks : Locks κ s.toTcbs
  here : ∀ t, s.lastM t ≠ [] → t ∈ s.stk.map Node.task ∧ s.phase t = .outside ∧
    (κ.tdb t).Regular ∧ (κ.tdb t).readyPrio ≤ (κ.tdb t).dispatchPrio
  mem : ∀ t, (κ.tdb t).Regular → s.phase t = .memory → maxTaskPriority ≤ s.prio t
  parked : ∀ n ∈ s.suspended, s.phase n.task ≠ .outside
  below : s.stk.Pairwise fun x y => Under κ s.toTcbs x.task y.task

/-- The order of the stack and the ceilings together. -/
abbrev Safe (κ : Kdb) (s : Core ν) : Prop := Good κ (Held κ s.lastM) s ∧ Ceil κ s

lemma Ceil.lastM_nil {s : Core ν} (h : Ceil κ s) (ht : s.phase t ≠ .outside) :
    s.lastM t = [] := by
  by_contra hne
  exact ht (h.here t hne).2.1

/-- What does not concern the resources, the phases or the priorities of the stack. -/
lemma Ceil.frame {s : Core ν} {tcbs : Tcbs ν} {free rq susp : List (Node ν)}
    {blocked : Sem → List (Node ν)} (h : Ceil κ s) (hl : tcbs.lastM = s.lastM)
    (ho : tcbs.owner = s.owner) (hv : tcbs.prevPrio = s.prevPrio) (hph : tcbs.phase = s.phase)
    (hp : ∀ t ∈ s.stk.map Node.task, tcbs.prio t = s.prio t)
    (hm : ∀ t, (κ.tdb t).Regular → s.phase t = .memory → s.prio t ≤ tcbs.prio t)
    (hs : ∀ n ∈ susp, s.phase n.task ≠ .outside) :
    Ceil κ ⟨tcbs, free, rq, s.stk, susp, blocked⟩ := by
  refine ⟨h.locks.frame hl ho hv fun t ht => (hp t (h.here t ht).1).ge, ?_, ?_, ?_, ?_⟩
  · simp only [hl, hph]
    exact h.here
  · simp only [hph]
    exact fun t ht hpt => (h.mem t ht hpt).trans (hm t ht hpt)
  · simp only [hph]
    exact hs
  · refine h.below.imp_of_mem fun {x y} _ hy hu => hu.frame hl hv ?_ ?_
    · rw [hph]; exact id
    · exact hp _ (List.mem_map_of_mem hy)

lemma Ceil.push {s : Core ν} {n : Node ν} {tcbs : Tcbs ν} {free rq : List (Node ν)}
    {blocked : Sem → List (Node ν)} (h : Ceil κ s) (hl : tcbs.lastM = s.lastM)
    (ho : tcbs.owner = s.owner) (hv : tcbs.prevPrio = s.prevPrio) (hph : tcbs.phase = s.phase)
    (hp : tcbs.prio = s.prio) (hn : ∀ y ∈ s.stk, Under κ s.toTcbs n.task y.task) :
    Ceil κ ⟨tcbs, free, rq, n :: s.stk, s.suspended, blocked⟩ := by
  have hf : Ceil κ ⟨tcbs, free, rq, s.stk, s.suspended, blocked⟩ :=
    h.frame hl ho hv hph (fun t _ => congrFun hp t) (fun t _ _ => (congrFun hp t).ge) h.parked
  refine ⟨hf.locks, fun t ht => ?_, hf.mem, hf.parked, List.pairwise_cons.mpr ⟨fun y hy => ?_,
    hf.below⟩⟩
  · exact ⟨List.mem_cons_of_mem _ (hf.here t ht).1, (hf.here t ht).2⟩
  · exact (hn y hy).frame hl hv (fun hx => hph ▸ hx) (congrFun hp _)

/-- A task that holds no resource gets a phase and a priority. -/
lemma Ceil.setTask {s : Core ν} {tcbs : Tcbs ν} {p : Phase} {q : ℕ} {free rq : List (Node ν)}
    {blocked : Sem → List (Node ν)} (h : Ceil κ s) (hl : tcbs.lastM = s.lastM)
    (ho : tcbs.owner = s.owner) (hv : tcbs.prevPrio = s.prevPrio)
    (hph : tcbs.phase = Function.update s.phase u p)
    (hpr : tcbs.prio = Function.update s.prio u q) (hnil : s.lastM u = [])
    (hmem : p = .memory → maxTaskPriority ≤ q)
    (hpark : u ∈ s.suspended.map Node.task → p ≠ .outside)
    (hy : s.stk.Pairwise fun _ y => y.task ≠ u)
    (hx : p = .outside → ∀ y ∈ s.stk, y.task ≠ u → Under κ tcbs u y.task) :
    Ceil κ ⟨tcbs, free, rq, s.stk, s.suspended, blocked⟩ := by
  have hne : ∀ t, s.lastM t ≠ [] → t ≠ u := by
    rintro t ht rfl
    exact ht hnil
  refine ⟨h.locks.frame hl ho hv fun t ht => ?_, fun t ht => ?_, fun t ht hp => ?_,
    fun n hn => ?_, ?_⟩
  · rw [hpr, Function.update_of_ne (hne t ht)]
  · simp only [hl] at ht
    simp only [hph, Function.update_of_ne (hne t ht)]
    exact h.here t ht
  · simp only [hph, hpr] at hp ⊢
    by_cases htu : t = u
    · subst htu
      rw [Function.update_self] at hp ⊢
      exact hmem hp
    · rw [Function.update_of_ne htu] at hp ⊢
      exact h.mem t ht hp
  · simp only [hph]
    by_cases hnu : n.task = u
    · rw [hnu, Function.update_self]
      exact hpark (hnu ▸ List.mem_map_of_mem hn)
    · rw [Function.update_of_ne hnu]
      exact h.parked n hn
  · refine (h.below.and hy).imp_of_mem fun {x y} _ hym hxy => ?_
    by_cases hxu : x.task = u
    · by_cases hp : p = .outside
      · rw [hxu]
        exact hx hp y hym hxy.2
      · intro _ hout
        simp only [hph, hxu, Function.update_self] at hout
        exact absurd hout hp
    · refine hxy.1.frame hl hv (fun hout => ?_) ?_
      · rwa [hph, Function.update_of_ne hxu] at hout
      · rw [hpr, Function.update_of_ne hxy.2]

/-- A suspended task is put back on the stack. -/
lemma Ceil.unpark {s : Core ν} {a b c d : List (Node ν)} {n : Node ν} (h : Ceil κ s)
    (hstk : s.stk = a ++ b) (hs : s.suspended = c ++ n :: d)
    (ha : ∀ x ∈ a, Under κ s.toTcbs x.task n.task) :
    Ceil κ { s with stk := a ++ n :: b, suspended := c ++ d } := by
  have hn : s.phase n.task ≠ .outside := h.parked n (by rw [hs]; simp)
  refine ⟨h.locks, fun t ht => ?_, h.mem, fun m hm => h.parked m ?_, ?_⟩
  · obtain ⟨hm, hrest⟩ := h.here t ht
    refine ⟨?_, hrest⟩
    rw [hstk, List.map_append] at hm
    rw [List.map_append, List.map_cons]
    exact mem_middle.mpr (Or.inr hm)
  · rw [hs]
    exact mem_middle.mpr (Or.inr hm)
  · have hb := h.below
    rw [hstk] at hb
    obtain ⟨haa, hbb, hab⟩ := List.pairwise_append.mp hb
    refine List.pairwise_append.mpr ⟨haa, List.pairwise_cons.mpr
      ⟨fun y _ _ hout => absurd hout hn, hbb⟩, fun x hx y hy => ?_⟩
    rcases List.mem_cons.mp hy with rfl | hy
    · exact ha x hx
    · exact hab x hx y hy

/-- A task in its phases is suspended. -/
lemma Ceil.park {s : Core ν} {a b : List (Node ν)} {n : Node ν} (h : Ceil κ s)
    (hstk : s.stk = a ++ n :: b) (hn : s.phase n.task ≠ .outside) :
    Ceil κ { s with stk := a ++ b, suspended := n :: s.suspended } := by
  refine ⟨h.locks, fun t ht => ?_, h.mem, fun m hm => ?_, ?_⟩
  · obtain ⟨hm, hrest⟩ := h.here t ht
    refine ⟨?_, hrest⟩
    have htn : t ≠ n.task := by
      rintro rfl
      exact hn hrest.1
    rw [hstk, List.map_append, List.map_cons] at hm
    rw [List.map_append]
    exact (mem_middle.mp hm).resolve_left htn
  · rcases List.mem_cons.mp hm with rfl | hm
    · exact hn
    · exact h.parked m hm
  · have hb := h.below
    rw [hstk] at hb
    exact hb.sublist ((List.sublist_cons_self n b).append_left a)

/-! ### A rescheduling -/

lemma settle_stk_suffix (s : Core ν) : s.stk <:+ (settle κ s).stk := by
  rcases settle_cases κ s with ⟨he, -⟩ | ⟨n, rq, -, -, he⟩
  · rw [he]
  · rw [he]
    exact List.suffix_cons n s.stk

/-- What is pushed on the stack starts above all resources held, or is a task just taken off
that was there before. -/
lemma settle_below {s : Core ν}
    (h : Ordered κ (Held κ s.lastM) s.prio s.stk s.rq s.suspended)
    (hM : ∀ n ∈ s.rq, n.task ∈ s.stk.map Node.task → Held κ s.lastM n.task)
    (hl : Locks κ s.toTcbs) (hhere : ∀ t, s.lastM t ≠ [] → t ∈ s.stk.map Node.task)
    (hb : s.stk.Pairwise fun x y => Under κ s.toTcbs x.task y.task)
    (hq : ∀ q ∈ s.rq, q.task ∉ s.stk.map Node.task →
      s.prio q.task = (κ.tdb q.task).readyPrio ∨ ∀ y ∈ s.stk, Under κ s.toTcbs q.task y.task) :
    (settle κ s).stk.Pairwise fun x y => Under κ (settle κ s).toTcbs x.task y.task := by
  rcases settle_cases κ s with ⟨he, -⟩ | ⟨q, rq, hrq, hp, he⟩
  · rw [he]
    exact hb.imp fun {x y} hu => hu.frame rfl rfl id rfl
  · rw [he]
    have hqm : q ∈ s.rq := by rw [hrq]; simp
    have hnot := h.notMem (h.ready q hqm) hp (hM q hqm)
    -- nothing below the new top changes
    have hframe : ∀ x y : Node ν, y ∈ s.stk → Under κ s.toTcbs x.task y.task →
        Under κ (s.toTcbs.dispatch κ q.task) x.task y.task := by
      intro x y hy hu
      refine hu.frame rfl rfl id ?_
      rw [dispatch_prio]
      exact update_of_notMem hnot y hy
    refine List.pairwise_cons.mpr ⟨fun y hy => hframe q y hy ?_,
      hb.imp_of_mem fun {x y} _ hy hu => hframe x y hy hu⟩
    rcases hq q hqm hnot with hready | hunder
    · have hx : s.lastM q.task = [] := by
        by_contra hne
        exact hnot (hhere _ hne)
      refine hl.under hx fun hh => ?_
      rw [← hready]
      exact (h.exceeds (h.ready q hqm) hp y hy).2 hh
    · exact hunder y hy

/-- The parts of the invariant after a rescheduling, for a stack without its top or not. -/
lemma settle_locks {s : Core ν} (hl : Locks κ s.toTcbs) : Locks κ (settle κ s).toTcbs := by
  refine hl.frame ?_ ?_ ?_ fun t _ => settle_raised s t
  · rw [settle_toTcbs]
  · rw [settle_toTcbs]
  · rw [settle_toTcbs]

/-- The running task holds no resource and is taken off the stack. -/
lemma ceil_pop {s : Core ν} {n : Node ν} {stk : List (Node ν)} (hg : Good κ (Held κ s.lastM) s)
    (h : Ceil κ s) (hstk : s.stk = n :: stk) (hnil : s.lastM n.task = []) :
    Ceil κ (settle κ { s with stk := stk }) := by
  have hlast : (settle κ { s with stk := stk }).lastM = s.lastM := by rw [settle_toTcbs]
  have hphase : (settle κ { s with stk := stk }).phase = s.phase := by rw [settle_toTcbs]
  have hord := hg.ordered
  have hagain := hg.again fun _ => Or.inl
  have hfresh := hg.fresh
  have hbelow := h.below
  rw [hstk] at hord hagain hfresh hbelow
  obtain ⟨hun, hbelow⟩ := List.pairwise_cons.mp hbelow
  have hhere : ∀ t, s.lastM t ≠ [] → t ∈ stk.map Node.task := by
    intro t ht
    have hm := (h.here t ht).1
    rw [hstk] at hm
    rcases List.mem_cons.mp hm with rfl | hm
    · exact absurd hnil ht
    · exact hm
  refine ⟨settle_locks h.locks, fun t ht => ?_, fun t ht hp => ?_, fun m hm => ?_, ?_⟩
  · rw [hlast] at ht
    rw [hphase]
    exact ⟨List.map_subset _ (settle_stk_suffix { s with stk := stk }).subset (hhere t ht),
      (h.here t ht).2⟩
  · rw [hphase] at hp
    exact (h.mem t ht hp).trans (settle_raised { s with stk := stk } t)
  · rw [settle_suspended] at hm
    rw [hphase]
    exact h.parked m hm
  · refine settle_below (s := { s with stk := stk }) hord.pop
      (fun m hm hmt => hagain m hm (List.mem_cons_of_mem _ hmt)) h.locks hhere hbelow ?_
    intro q hqm hqn
    by_cases hqu : q.task = n.task
    · right
      intro y hy
      rw [hqu]
      exact hun y hy
    · left
      refine hfresh _ (hord.ready q hqm) fun hmem => ?_
      rw [List.cons_append, List.map_cons, List.map_append, List.mem_cons, List.mem_append] at hmem
      rcases hmem with he | hm | hm
      · exact hqu he
      · exact hqn hm
      · obtain ⟨x, hx, he⟩ := List.mem_map.mp hm
        exact (hord.parked x hx).2 q hqm he.symm

/-! ### Services -/

lemma ceil_activate {s s' : Core ν} (hg : Good κ (Held κ s.lastM) s) (h : Ceil κ s)
    (ht : (κ.tdb t).Regular) (hs : s.numOfAct t < (κ.tdb t).maxNumOfAct →
      t ∉ s.suspended.map Node.task) (he : activateTask κ t s = some s') : Ceil κ s' := by
  obtain ⟨hact, he⟩ | rfl := activateTask_some he
  · obtain ⟨m, free, hf, ⟨hp, rfl⟩ | ⟨-, rfl⟩⟩ := schedulerTaskActivated_cases he
    · have hlt := hg.below hp
      have hnot := hg.ordered.notMem ht hlt fun hm => Or.inl (hg.multi ht hact hm)
      have hready : s.prio t = (κ.tdb t).readyPrio := hg.fresh t ht <| by
        rw [List.map_append, List.mem_append]
        exact fun hm => hm.elim hnot (hs hact)
      have hnil : s.lastM t = [] := by
        by_contra hne
        exact hnot (h.here t hne).1
      refine h.push rfl rfl rfl rfl rfl fun y hy => h.locks.under hnil fun hh => ?_
      rw [← hready]
      exact (hg.ordered.exceeds ht hlt y hy).2 hh
    · exact h.frame rfl rfl rfl rfl (fun _ _ => rfl) (fun _ _ _ => le_refl _) h.parked
  · exact h

lemma ceil_interrupt {s s' : Core ν} {i : Tid} (h : Ceil κ s) (hi : (κ.tdb i).taskType = .isr2)
    (he : activateIsr2 i s = some s') : Ceil κ s' := by
  obtain ⟨m, free, hf, rfl⟩ := taskSetRunning_some he
  exact h.push rfl rfl rfl rfl rfl fun y _ hr => absurd hr (not_regular_of_isr2 hi)

/-- The task that ends is in no phase and holds no resource. -/
lemma ceil_terminate {s s' : Core ν} (hg : Good κ (Held κ s.lastM) s) (h : Ceil κ s)
    (hc : (κ.tdb s.curr).taskType = .isr2 ∨ AtRest κ s) (he : taskTerminated κ s = some s') :
    Ceil κ s' := by
  have hnil : s.lastM s.curr = [] := by
    rcases hc with hi | hrest
    · by_contra hne
      exact not_regular_of_isr2 hi (h.here _ hne).2.2.1
    · exact hrest.2.2
  have hphase : (κ.tdb s.curr).Regular → s.phase s.curr ≠ .memory := by
    rcases hc with hi | hrest
    · exact fun hr => absurd hr (not_regular_of_isr2 hi)
    · intro _
      rw [hrest.2.1]
      simp
  have hidle : (κ.tdb s.curr).taskType ≠ .idle := hc.elim isr2_ne_idle fun hr => regular_ne_idle hr.1
  obtain ⟨n, stk, hstk, hn⟩ := hg.cons hidle
  rw [taskTerminated_cons κ hg.run hstk] at he
  obtain rfl := Option.some.inj he
  have hpop := ceil_pop hg h hstk (hn ▸ hnil)
  unfold Tcbs.ended
  split_ifs with hne
  · have hord := hg.ordered
    rw [hstk] at hord
    have hnot := settle_notMem (s := { s with stk := stk }) (hn ▸ hord.popped.1) hne
    refine hpop.frame rfl rfl rfl rfl (fun t ht => ?_) (fun t ht hp => ?_) hpop.parked
    · refine Function.update_of_ne ?_ _ _
      rintro rfl
      exact hnot ht
    · have hpe : (settle κ { s with stk := stk }).phase = s.phase := by rw [settle_toTcbs]
      rw [hpe] at hp
      have hte : t ≠ s.curr := by
        rintro rfl
        exact hphase ht hp
      exact (Function.update_of_ne hte _ _).ge
  · exact hpop.frame rfl rfl rfl rfl (fun _ _ => rfl) (fun _ _ _ => le_refl _) hpop.parked

lemma ceil_suspendRunning {s s' : Core ν} (hg : Good κ (Held κ s.lastM) s) (h : Ceil κ s)
    (hr : (κ.tdb s.curr).Regular) (hph : s.phase s.curr = .loop ∨ s.phase s.curr = .returning)
    (hrq : s.curr ∉ s.rq.map Node.task) (he : suspendRunningTask κ s = some s') :
    Ceil κ s' := by
  have hout : s.phase s.curr ≠ .outside := by rcases hph with hp | hp <;> rw [hp] <;> simp
  have hmem : s.phase s.curr ≠ .memory := by rcases hph with hp | hp <;> rw [hp] <;> simp
  obtain ⟨n, stk, hstk, hn⟩ := hg.cons (regular_ne_idle hr)
  rw [suspendRunningTask_cons κ hstk (hn ▸ hr)] at he
  obtain rfl := Option.some.inj he
  have hpop := ceil_pop hg h hstk (hn ▸ h.lastM_nil hout)
  have hpe : (settle κ { s with stk := stk }).phase = s.phase := by rw [settle_toTcbs]
  have hord := hg.ordered
  rw [hstk] at hord
  have hnot := (settle_nowhere (κ := κ) (s := { s with stk := stk }) (hn ▸ hord.popped.1) hrq).1
  refine hpop.frame rfl rfl rfl rfl (fun t ht => ?_) (fun t ht hp => ?_) fun m hm => ?_
  · refine Function.update_of_ne ?_ _ _
    rintro rfl
    exact hnot ht
  · rw [hpe] at hp
    have hte : t ≠ s.curr := by
      rintro rfl
      exact hmem hp
    exact (Function.update_of_ne hte _ _).ge
  · rcases List.mem_cons.mp hm with rfl | hm
    · rw [hpe, hn]
      exact hout
    · exact hpop.parked m hm

/-! ### Memory phases -/

/-- The running task is not below another one. -/
lemma curr_above {s : Core ν} (hg : Good κ (Held κ s.lastM) s) (hr : (κ.tdb s.curr).Regular) :
    s.stk.Pairwise (fun _ y => y.task ≠ s.curr) ∧ s.curr ∉ s.suspended.map Node.task := by
  obtain ⟨n, stk, hstk, hn⟩ := hg.cons (regular_ne_idle hr)
  have hord := hg.ordered
  rw [hstk] at hord
  have hne : ∀ y ∈ stk, y.task ≠ s.curr := by
    rintro y hy he
    exact hord.popped.1 (hn ▸ he ▸ List.mem_map_of_mem hy)
  refine ⟨?_, hn ▸ hord.popped.2⟩
  rw [hstk]
  refine List.pairwise_cons.mpr ⟨hne, ?_⟩
  exact List.pairwise_of_forall_mem_list fun _ _ y hy => hne y hy

/-- The running task goes on to a phase of its memory phase. -/
lemma ceil_phase {s : Core ν} {tcbs : Tcbs ν} {p : Phase} {q : ℕ}
    (hg : Good κ (Held κ s.lastM) s) (h : Ceil κ s) (hr : (κ.tdb s.curr).Regular)
    (hl : tcbs.lastM = s.lastM) (ho : tcbs.owner = s.owner) (hv : tcbs.prevPrio = s.prevPrio)
    (hph : tcbs.phase = Function.update s.phase s.curr p)
    (hpr : tcbs.prio = Function.update s.prio s.curr q) (hnil : s.lastM s.curr = [])
    (hp : p ≠ .outside) (hmem : p = .memory → maxTaskPriority ≤ q) :
    Ceil κ ⟨tcbs, s.free, s.rq, s.stk, s.suspended, s.blocked⟩ := by
  obtain ⟨hy, -⟩ := curr_above hg hr
  exact h.setTask hl ho hv hph hpr hnil hmem (fun _ => hp) hy fun he => absurd he hp

lemma ceil_turn {s s' : Core ν} {a : Reply} (hg : Good κ (Held κ s.lastM) s) (h : Ceil κ s)
    (hr : (κ.tdb s.curr).Regular) (hph : s.phase s.curr = .loop ∨ s.phase s.curr = .returning)
    (hrq : s.memArbitStatus = .requested → s.curr ∉ s.rq.map Node.task)
    (he : beginTurn κ a s = some s') : Ceil κ s' := by
  have hnil : s.lastM s.curr = [] :=
    h.lastM_nil (by rcases hph with hp | hp <;> rw [hp] <;> simp)
  unfold beginTurn at he
  cases hm : s.memArbitStatus with
  | acquired =>
    rw [hm] at he
    obtain rfl := Option.some.inj he
    exact ceil_phase hg h hr rfl rfl rfl rfl rfl hnil (by simp) fun _ => le_refl _
  | none =>
    rw [hm] at he
    cases a with
    | ack =>
      obtain rfl := Option.some.inj he
      exact ceil_phase (q := s.prio s.curr) hg h hr rfl rfl rfl rfl
        (Function.update_eq_self _ _).symm hnil (by simp) (by simp)
    | nack =>
      obtain rfl := Option.some.inj he
      exact h.frame rfl rfl rfl rfl (fun _ _ => rfl) (fun _ _ _ => le_refl _) h.parked
    | invalid => exact Option.some.inj he ▸ h
  | requested =>
    rw [hm] at he
    exact ceil_suspendRunning hg h hr hph (hrq hm) he

section Isr

variable [DecidableEq ν]

lemma ceil_started {s : Core ν} (hg : Good κ (Held κ s.lastM) s) (h : Ceil κ s)
    (hi : (κ.tdb s.curr).taskType = .isr2) : Ceil κ (memoryPhaseStartedIsr κ s) := by
  rcases startedIsr_cases (κ := κ) (s := s) with ⟨-, he⟩ | ⟨-, -, he⟩ | ⟨-, n, hn, he⟩
  · rw [he]; exact h
  · rw [he]
    exact h.frame rfl rfl rfl rfl (fun _ _ => rfl) (fun _ _ _ => le_refl _) h.parked
  · rw [he]
    obtain ⟨c, d, hs, hrem, -, -⟩ := highestSuspended_some hn
    obtain ⟨x, a, b, hstk, ha, -, hins⟩ := hg.insertBefore hi n
    rw [hins, hrem]
    have hord := hg.ordered
    rw [hs] at hord
    obtain ⟨-, -, hnot, -, -⟩ := hord.unpark
    have hpark : s.phase n.task ≠ .outside := h.parked n (highestSuspended_mem hn)
    -- the task gets its phase and priority, and then its place
    have hset : Ceil κ { s with
        memArbitStatus := .acquired
        prio := Function.update s.prio n.task maxTaskPriority
        phase := if s.phase n.task = .loop then Function.update s.phase n.task .returning
          else s.phase } := by
      refine h.setTask (p := if s.phase n.task = .loop then .returning else s.phase n.task)
        rfl rfl rfl ?_ rfl (h.lastM_nil hpark) (fun _ => le_refl _) (fun _ => ?_) ?_ fun hp => ?_
      · split_ifs
        · rfl
        · rw [Function.update_eq_self]
      · split_ifs
        · simp
        · exact hpark
      · exact List.pairwise_of_forall_mem_list fun _ _ y hy he =>
          hnot (he ▸ List.mem_map_of_mem hy)
      · split_ifs at hp
        exact absurd hp hpark
    exact hset.unpark hstk hs fun m hm hr => absurd hr (not_regular_of_isr2 (ha m hm))

lemma ceil_ended {s : Core ν} (hg : Good κ (Held κ s.lastM) s) (h : Ceil κ s)
    (hph : s.memArbitStatus = .acquired → ∀ n ∈ highestStacked κ s,
      s.phase n.task = .returning ∨ s.phase n.task = .memory) :
    Ceil κ (memoryPhaseEndedIsr κ s) := by
  rcases endedIsr_cases (κ := κ) (s := s) with ⟨-, he⟩ | ⟨-, -, he⟩ | ⟨hm, n, hn, he⟩
  · rw [he]; exact h
  · rw [he]
    exact h.frame rfl rfl rfl rfl (fun _ _ => rfl) (fun _ _ _ => le_refl _) h.parked
  · rw [he]
    obtain ⟨a, b, hstk, hreg, hrem, -, -⟩ := highestStacked_some hn
    rw [hrem]
    have hout : s.phase n.task ≠ .outside := by
      rcases hph hm n hn with hp | hp <;> rw [hp] <;> simp
    have honce := hg.ordered.once
    rw [hstk, List.append_assoc, List.cons_append, (perm_tasks a (b ++ s.suspended) n).nodup_iff,
      List.nodup_cons, ← List.append_assoc, List.map_append, List.mem_append, not_or] at honce
    have hpark := h.park hstk hout
    refine hpark.setTask (u := n.task) (p := if s.phase n.task = .returning then .loop
      else s.phase n.task) (q := s.prio n.task) rfl rfl rfl ?_
      (Function.update_eq_self _ _).symm (h.lastM_nil hout) ?_ ?_ ?_ ?_
    · split_ifs
      · rfl
      · rw [Function.update_eq_self]
    · split_ifs
      · simp
      · exact h.mem _ hreg
    · split_ifs
      · simp
      · exact fun _ => hout
    · exact List.pairwise_of_forall_mem_list fun _ _ y hy he =>
        honce.1.1 (he ▸ List.mem_map_of_mem hy)
    · intro hp
      split_ifs at hp
      exact absurd hp hout

lemma ceil_endExecution {s : Core ν} (hg : Good κ (Held κ s.lastM) s) (h : Ceil κ s)
    (hr : (κ.tdb s.curr).Regular) (hph : s.phase s.curr = .execution)
    (hf : Fits κ (Held κ s.lastM) s)
    (hheld : ∀ m ∈ s.stk.tail, ∀ r ∈ s.lastM m.task, κ.resPrio r < (κ.tdb s.curr).readyPrio) :
    Ceil κ (endExecutionPhase κ s) := by
  obtain ⟨top, stk, hstk, htop⟩ := hg.cons (regular_ne_idle hr)
  obtain ⟨hbelow, hfit⟩ := hf
  obtain ⟨hy, hsusp⟩ := curr_above hg hr
  have hnil : s.lastM s.curr = [] := h.lastM_nil (by rw [hph]; simp)
  have hmax := le_max_right (κ.tdb s.curr).readyPrio (κ.tdb s.curr).dispatchPrio
  -- the running task comes out of its phases above no resource it may want
  have hset : Ceil κ { s with
      prio := Function.update s.prio s.curr (κ.tdb s.curr).dispatchPrio
      phase := Function.update s.phase s.curr .outside } := by
    refine h.setTask rfl rfl rfl rfl rfl hnil (by simp) (fun hm => absurd hm hsusp) hy
      fun _ y hym hne _ _ => ?_
    have hyt : y ∈ s.stk.tail := by
      rw [hstk] at hym ⊢
      rcases List.mem_cons.mp hym with rfl | hym
      · exact absurd htop hne
      · exact hym
    refine ⟨hheld y hyt, fun hh => ⟨?_, by simp [hnil]⟩⟩
    exact (Function.update_of_ne hne _ s.prio).trans_le ((hbelow y hyt hh).trans hmax)
  have hcurr : ∀ m ∈ s.suspended, m.task ≠ s.curr := by
    rintro m hm he
    exact hsusp (he ▸ List.mem_map_of_mem hm)
  rcases endExecutionPhase_cases (κ := κ) hstk hcurr with ⟨-, he⟩ | ⟨n, hn, he⟩
  · rw [he]; exact hset
  · rw [he]
    obtain ⟨c, d, hs, hrem, -, -⟩ := highestSuspended_some hn
    have hnm := highestSuspended_mem hn
    have hnn : s.lastM n.task = [] := h.lastM_nil (h.parked n hnm)
    rw [hrem]
    refine hset.unpark (a := [top]) hstk hs fun x hx _ _ => ?_
    rw [List.mem_singleton.mp hx, htop]
    refine ⟨by simp [hnn], fun hh => ⟨?_, by simp [hnil]⟩⟩
    exact (Function.update_of_ne (hcurr n hnm) _ s.prio).trans_le (((hfit n hn).1 hh).trans hmax)

end Isr

/-! ### Resources taken and released -/

/-- The records after a resource that nobody holds is taken. -/
lemma Locks.take {s : Tcbs ν} (h : Locks κ s) (hfree : s.owner r = none)
    (hb : s.prio u ≤ maxTaskPriority) :
    Locks κ { s with
      prio := Function.update s.prio u (max (s.prio u) (κ.resPrio r))
      owner := Function.update s.owner r (some u)
      prevPrio := Function.update s.prevPrio r (s.prio u)
      lastM := Function.update s.lastM u (r :: s.lastM u) } := by
  have hnew : ∀ t, r ∉ s.lastM t := by
    intro t hm
    rw [h.own, hfree] at hm
    simp at hm
  have hprev : ∀ t, ∀ q ∈ s.lastM t, Function.update s.prevPrio r (s.prio u) q = s.prevPrio q := by
    intro t q hq
    refine Function.update_of_ne ?_ _ _
    rintro rfl
    exact hnew t hq
  refine ⟨fun t q => ?_, fun t => ?_, fun t q hq => ?_, fun t => ?_, fun t q hq => ?_⟩
  · dsimp only
    by_cases hqr : q = r
    · subst hqr
      rw [Function.update_self]
      by_cases htu : t = u
      · subst htu
        simp
      · rw [Function.update_of_ne htu]
        exact ⟨fun hm => absurd hm (hnew t), fun he => absurd (Option.some.inj he).symm htu⟩
    · rw [Function.update_of_ne hqr, ← h.own]
      by_cases htu : t = u
      · subst htu
        rw [Function.update_self, List.mem_cons]
        tauto
      · rw [Function.update_of_ne htu]
  · dsimp only
    by_cases htu : t = u
    · subst htu
      rw [Function.update_self]
      exact List.nodup_cons.mpr ⟨hnew t, h.nodup t⟩
    · rw [Function.update_of_ne htu]
      exact h.nodup t
  · dsimp only at hq ⊢
    by_cases htu : t = u
    · subst htu
      rw [Function.update_self] at hq ⊢
      rcases List.mem_cons.mp hq with rfl | hq
      · exact le_max_right _ _
      · exact (h.ceil t q hq).trans (le_max_left _ _)
    · rw [Function.update_of_ne htu] at hq ⊢
      exact h.ceil t q hq
  · dsimp only
    have hold : (s.lastM t).Pairwise
        fun q q' => κ.resPrio q' ≤ Function.update s.prevPrio r (s.prio u) q :=
      (h.chain t).imp_of_mem fun {q q'} hq _ hle => (hprev t q hq).symm ▸ hle
    by_cases htu : t = u
    · subst htu
      rw [Function.update_self]
      refine List.pairwise_cons.mpr ⟨fun q hq => ?_, hold⟩
      rw [Function.update_self]
      exact h.ceil t q hq
    · rw [Function.update_of_ne htu]
      exact hold
  · dsimp only at hq ⊢
    by_cases hqr : q = r
    · subst hqr
      rw [Function.update_self]
      exact hb
    · rw [Function.update_of_ne hqr]
      by_cases htu : t = u
      · subst htu
        rw [Function.update_self] at hq
        rcases List.mem_cons.mp hq with rfl | hq
        · exact absurd rfl hqr
        · exact h.prev t q hq
      · rw [Function.update_of_ne htu] at hq
        exact h.prev t q hq

/-- The records after the resource taken last is given back. -/
lemma Locks.give {s : Tcbs ν} {rest : List Res} {p : ℕ} (h : Locks κ s)
    (hlast : s.lastM u = r :: rest) (hp : ∀ q ∈ rest, κ.resPrio q ≤ p) :
    Locks κ { s with
      prio := Function.update s.prio u p
      owner := Function.update s.owner r none
      lastM := Function.update s.lastM u rest } := by
  have hnd := h.nodup u
  rw [hlast, List.nodup_cons] at hnd
  have hch := h.chain u
  rw [hlast] at hch
  have hsub : ∀ t, (Function.update s.lastM u rest t).Sublist (s.lastM t) := by
    intro t
    by_cases htu : t = u
    · subst htu
      rw [Function.update_self, hlast]
      exact List.sublist_cons_self r rest
    · rw [Function.update_of_ne htu]
  refine ⟨fun t q => ?_, fun t => (h.nodup t).sublist (hsub t), fun t q hq => ?_,
    fun t => (h.chain t).sublist (hsub t), fun t q hq => h.prev t q ((hsub t).subset hq)⟩
  · dsimp only
    by_cases hqr : q = r
    · subst hqr
      rw [Function.update_self]
      refine ⟨fun hm => ?_, fun he => by simp at he⟩
      by_cases htu : t = u
      · subst htu
        rw [Function.update_self] at hm
        exact absurd hm hnd.1
      · -- nobody else holds it
        rw [Function.update_of_ne htu, h.own] at hm
        have hu : s.owner q = some u := (h.own u q).mp (by rw [hlast]; simp)
        rw [hm] at hu
        exact absurd (Option.some.inj hu) htu
    · rw [Function.update_of_ne hqr, ← h.own]
      by_cases htu : t = u
      · subst htu
        rw [Function.update_self, hlast, List.mem_cons]
        tauto
      · rw [Function.update_of_ne htu]
  · dsimp only at hq ⊢
    by_cases htu : t = u
    · subst htu
      rw [Function.update_self] at hq ⊢
      exact hp q hq
    · rw [Function.update_of_ne htu] at hq ⊢
      exact h.ceil t q hq

/-- What lies below the running task when it takes a resource. -/
lemma Under.take {s : Tcbs ν} {x y : Tid} (h : Under κ s x y) (hy : y ≠ u)
    (hnew : ∀ q ∈ s.lastM x, q ≠ r) (hle : Held κ s.lastM y → s.prio y ≤ s.prio u) :
    Under κ { s with
      prio := Function.update s.prio u (max (s.prio u) (κ.resPrio r))
      owner := Function.update s.owner r (some u)
      prevPrio := Function.update s.prevPrio r (s.prio u)
      lastM := Function.update s.lastM u (r :: s.lastM u) } x y := by
  intro hx hp
  obtain ⟨hres, hback⟩ := h hx hp
  dsimp only [Held]
  rw [Function.update_of_ne hy, Function.update_of_ne hy]
  refine ⟨hres, fun hh => ⟨(hback hh).1, fun q hq => ?_⟩⟩
  by_cases hxu : x = u
  · subst hxu
    rw [Function.update_self] at hq
    rcases List.mem_cons.mp hq with rfl | hq
    · rw [Function.update_self]
      exact hle hh
    · rw [Function.update_of_ne (hnew q hq)]
      exact (hback hh).2 q hq
  · rw [Function.update_of_ne hxu] at hq
    rw [Function.update_of_ne (hnew q hq)]
    exact (hback hh).2 q hq

/-- **A resource is taken**: the priority of the running task goes up to the ceiling, and what
it was is kept in the resource. -/
lemma safe_get {s : Core ν} (hg : Good κ (Held κ s.lastM) s) (h : Ceil κ s)
    (hr : (κ.tdb s.curr).Regular) (hph : s.phase s.curr = .outside)
    (hres : κ.resPrio r ≤ maxTaskPriority)
    (hd : (κ.tdb s.curr).readyPrio ≤ (κ.tdb s.curr).dispatchPrio) :
    Safe κ (getResource κ r s) := by
  rw [getResource_eq]
  by_cases hfree : s.owner r ≠ none ∨ κ.resPrio r < (κ.tdb s.curr).readyPrio
  · rw [if_pos hfree]
    exact ⟨hg, h⟩
  rw [if_neg hfree]
  rw [not_or, not_not] at hfree
  obtain ⟨n, stk, hstk, hn⟩ := hg.cons (regular_ne_idle hr)
  have hmem : s.curr ∈ s.stk.map Node.task := by
    rw [hstk, ← hn]
    exact List.mem_cons_self
  have hbound := hg.ordered.bound _ hr
  have hord := hg.ordered
  rw [hstk] at hord
  -- the tasks below whose place matters do not exceed the running one
  have hbelow : ∀ m ∈ stk, Held κ s.lastM m.task → s.prio m.task ≤ s.prio s.curr := by
    intro m hm hM
    rw [← hn]
    exact ((List.pairwise_cons.mp hord.above).1 m hm (hn ▸ hr)).2 hM
  constructor
  · have hset := hord.setPrio_top (hn ▸ hr) (max_le hbound hres)
      fun m hm hM => (hbelow m hm hM).trans (le_max_left _ (κ.resPrio r))
    have hheld : ∀ t, Held κ (Function.update s.lastM s.curr (r :: s.lastM s.curr)) t →
        Held κ s.lastM t ∨ t = n.task := by
      intro t ht
      by_cases htc : t = n.task
      · exact Or.inr htc
      · rw [hn] at htc
        unfold Held at ht
        rw [Function.update_of_ne htc] at ht
        exact Or.inl ht
    have hfin := hset.ofTop hheld
    rw [hn, ← hstk] at hfin
    refine ⟨hfin, hg.acts, hg.fresh.update ?_, hg.top, hg.run⟩
    rw [List.map_append, List.mem_append]
    exact Or.inl hmem
  · refine ⟨h.locks.take hfree.1 hbound, fun t ht => ?_, fun t ht hp => ?_, h.parked, ?_⟩
    · by_cases htc : t = s.curr
      · subst htc
        exact ⟨hmem, hph, hr, hd⟩
      · simp only [Function.update_of_ne htc] at ht
        exact h.here t ht
    · have htc : t ≠ s.curr := by
        rintro rfl
        rw [hph] at hp
        simp at hp
      exact (h.mem t ht hp).trans (Function.update_of_ne htc _ s.prio).ge
    · refine (h.below.and (curr_above hg hr).1).imp_of_mem fun {x y} _ hy hxy => ?_
      have hyt : y ∈ stk := by
        rw [hstk] at hy
        rcases List.mem_cons.mp hy with rfl | hy
        · exact absurd hn hxy.2
        · exact hy
      refine hxy.1.take hxy.2 (fun q hq => ?_) (hbelow y hyt)
      rintro rfl
      rw [h.locks.own, hfree.1] at hq
      simp at hq

lemma safe_preemptionPoint {s : Core ν} (hg : Good κ (Held κ s.lastM) s) (h : Ceil κ s) :
    Safe κ (taskPreemptionPoint κ s) := by
  have hgood := good_preemptionPoint (fun _ => Or.inl) hg
  rcases preemptionPoint_cases κ s hg.top with ⟨he, -⟩ | he
  · rw [he]
    exact ⟨hg, h⟩
  · rw [he] at hgood ⊢
    have hlast : (settle κ s).lastM = s.lastM := by rw [settle_toTcbs]
    have hphase : (settle κ s).phase = s.phase := by rw [settle_toTcbs]
    have hset : Ceil κ (settle κ s) := by
      refine ⟨settle_locks h.locks, fun t ht => ?_, fun t ht hp => ?_, fun m hm => ?_, ?_⟩
      · rw [hlast] at ht
        rw [hphase]
        exact ⟨List.map_subset _ (settle_stk_suffix s).subset (h.here t ht).1, (h.here t ht).2⟩
      · rw [hphase] at hp
        exact (h.mem t ht hp).trans (settle_raised s t)
      · rw [settle_suspended] at hm
        rw [hphase]
        exact h.parked m hm
      · refine settle_below hg.ordered (hg.again fun _ => Or.inl) h.locks
          (fun t ht => (h.here t ht).1) h.below fun q hqm hqn => Or.inl ?_
        refine hg.fresh _ (hg.ordered.ready q hqm) fun hmem => ?_
        rw [List.map_append, List.mem_append] at hmem
        rcases hmem with hm | hm
        · exact hqn hm
        · obtain ⟨x, hx, he⟩ := List.mem_map.mp hm
          exact (hg.ordered.parked x hx).2 q hqm he.symm
    refine ⟨?_, hset.frame rfl rfl rfl rfl (fun _ _ => rfl) (fun _ _ _ => le_refl _) hset.parked⟩
    show Good κ (Held κ (settle κ s).lastM) _
    rw [hlast]
    exact hgood

/-- **A resource is given back**: the priority goes back to what it was when the resource was
taken, or with the last one to the dispatch priority, which no task below exceeds. -/
lemma safe_release {s : Core ν} (hg : Good κ (Held κ s.lastM) s) (h : Ceil κ s)
    (hr : (κ.tdb s.curr).Regular) : Safe κ (releaseResource κ r s) := by
  rcases releaseResource_cases κ r s with he | ⟨rest, hlast, he⟩
  · rw [he]
    exact ⟨hg, h⟩
  rw [he]
  have hrl : r ∈ s.lastM s.curr := by rw [hlast]; simp
  obtain ⟨hmem, hph, -, hd⟩ := h.here s.curr (List.ne_nil_of_mem hrl)
  obtain ⟨n, stk, hstk, hn⟩ := hg.cons (regular_ne_idle hr)
  have hord := hg.ordered
  rw [hstk] at hord
  obtain ⟨p, hp⟩ : ∃ p, p = if rest ≠ [] then s.prevPrio r else (κ.tdb s.curr).dispatchPrio :=
    ⟨_, rfl⟩
  rw [← hp]
  have hpmax : p ≤ maxTaskPriority := by
    rw [hp]
    split_ifs
    · exact h.locks.prev _ r hrl
    · exact (κ.regular_prio _ hr).2.2
  have hbelow : ∀ m ∈ stk, Held κ s.lastM m.task → s.prio m.task ≤ p := by
    intro m hm hM
    have hunder := h.below
    rw [hstk] at hunder
    have hum := (List.pairwise_cons.mp hunder).1 m hm
    rw [hn] at hum
    obtain ⟨hle, hback⟩ := (hum hr hph).2 hM
    rw [hp]
    split_ifs
    · exact hback r hrl
    · exact hle.trans (max_le hd (le_refl _))
  have hrest : ∀ q ∈ rest, κ.resPrio q ≤ p := by
    intro q hq
    have hch := h.locks.chain s.curr
    rw [hlast] at hch
    rw [hp, if_pos (List.ne_nil_of_mem hq)]
    exact (List.pairwise_cons.mp hch).1 q hq
  have hheld : ∀ t, Held κ (Function.update s.lastM s.curr rest) t → Held κ s.lastM t := by
    intro t ht
    by_cases htc : t = s.curr
    · subst htc
      exact Or.inr (List.ne_nil_of_mem hrl)
    · unfold Held at ht
      rwa [Function.update_of_ne htc] at ht
  refine safe_preemptionPoint ?_ ?_
  · have hset := hord.setPrio_top (hn ▸ hr) hpmax hbelow
    have hfin := hset.ofTop fun t ht => Or.inl (hheld t ht)
    rw [hn, ← hstk] at hfin
    refine ⟨hfin, hg.acts, hg.fresh.update ?_, hg.top, hg.run⟩
    rw [List.map_append, List.mem_append]
    exact Or.inl hmem
  · refine ⟨h.locks.give hlast hrest, fun t ht => ?_, fun t ht hpt => ?_, h.parked, ?_⟩
    · refine h.here t ?_
      by_cases htc : t = s.curr
      · subst htc
        exact List.ne_nil_of_mem hrl
      · simpa only [Function.update_of_ne htc] using ht
    · have htc : t ≠ s.curr := by
        rintro rfl
        rw [hph] at hpt
        simp at hpt
      exact (h.mem t ht hpt).trans (Function.update_of_ne htc _ s.prio).ge
    · refine (h.below.and (curr_above hg hr).1).imp fun {x y} hxy hx hpx => ?_
      obtain ⟨hres, hback⟩ := hxy.1 hx hpx
      dsimp only
      rw [Function.update_of_ne hxy.2, Function.update_of_ne hxy.2]
      refine ⟨hres, fun hh => ?_⟩
      obtain ⟨hle, hq⟩ := hback (hheld _ hh)
      refine ⟨hle, fun q hqm => hq q ?_⟩
      by_cases hxc : x.task = s.curr
      · rw [hxc, Function.update_self] at hqm
        rw [hxc, hlast]
        exact List.mem_cons_of_mem _ hqm
      · rwa [Function.update_of_ne hxc] at hqm

/-! ### Runs -/

section Run

variable [DecidableEq ν]

/-- Resources besides activations, terminations, interrupts and memory phases. -/
def Locking : Action → Bool
  | .getResource _ | .releaseResource _ => true
  | a => Plain a

/-- Resources and memory phases are kept apart. A resource is taken outside the phases, not
twice, by a task that goes back to no less than its ready priority, and its ceiling is the
priority of a task. -/
def Apart (κ : Kdb) (s : Core ν) : Action → Prop
  | .getResource r => s.phase s.curr = .outside ∧ s.owner r ≠ some s.curr ∧
    κ.resPrio r ≤ maxTaskPriority ∧ (κ.tdb s.curr).readyPrio ≤ (κ.tdb s.curr).dispatchPrio
  | .beginMemoryPhase => s.lastM s.curr = []
  | .endedIsr => s.memArbitStatus = .acquired → ∀ n ∈ highestStacked κ s,
    s.phase n.task = .returning ∨ s.phase n.task = .memory
  | .endExecutionPhase => ∀ m ∈ s.stk.tail, ∀ r ∈ s.lastM m.task,
    κ.resPrio r < (κ.tdb s.curr).readyPrio
  | _ => True

/-- The condition on a step. -/
def Separate (κ : Kdb) (s : Core ν) (a : Action) : Prop :=
  Locking a ∧ Orderly κ (Held κ s.lastM) s a ∧ Apart κ s a

omit [DecidableEq ν] in
instance (s : Core ν) : ∀ a, Decidable (Apart κ s a)
  | .getResource _ => inferInstanceAs (Decidable (_ ∧ _))
  | .beginMemoryPhase => inferInstanceAs (Decidable (_ = _))
  | .endedIsr => inferInstanceAs (Decidable (_ → _))
  | .endExecutionPhase => inferInstanceAs (Decidable (∀ m ∈ s.stk.tail, _))
  | .activateTask _ | .terminate | .chainTask _ | .interrupt _ | .startedIsr | .waitEvent _
  | .setEvent _ _ | .waitSem _ | .postSem _ | .releaseResource _ | .beginTurn _
  | .endMemoryPhase _ => isTrue trivial

omit [DecidableEq ν] in
instance (s : Core ν) (a : Action) : Decidable (Separate κ s a) :=
  inferInstanceAs (Decidable (_ ∧ _))

omit [DecidableEq ν] in
lemma settle_lastM (s : Core ν) : (settle κ s).lastM = s.lastM := by rw [settle_toTcbs]

/-- Only the services for resources touch the records of the resources. -/
lemma plain_lastM {s s' : Core ν} {a : Action} (hg : Good κ (Held κ s.lastM) s) (hp : Plain a)
    (he : step κ s a = some s') : s'.lastM = s.lastM := by
  cases a with
  | activateTask t =>
    obtain ⟨-, he⟩ := Option.ite_none_right_eq_some.mp he
    obtain ⟨hact, he⟩ | rfl := activateTask_some he
    · obtain ⟨m, free, -, ⟨-, rfl⟩ | ⟨-, rfl⟩⟩ := schedulerTaskActivated_cases he <;> rfl
    · rfl
  | terminate =>
    obtain ⟨hc, he⟩ := Option.ite_none_right_eq_some.mp he
    obtain ⟨n, stk, hstk, -⟩ := hg.cons (hc.elim isr2_ne_idle fun hr => regular_ne_idle hr.1)
    rw [taskTerminated_cons κ hg.run hstk] at he
    obtain rfl := Option.some.inj he
    unfold Tcbs.ended
    split_ifs
    · exact settle_lastM { s with stk := stk }
    · exact settle_lastM { s with stk := stk }
  | interrupt i =>
    obtain ⟨-, he⟩ := Option.ite_none_right_eq_some.mp he
    obtain ⟨m, free, -, rfl⟩ := taskSetRunning_some he
    rfl
  | startedIsr =>
    obtain ⟨-, he⟩ := Option.ite_none_right_eq_some.mp he
    obtain rfl := Option.some.inj he
    rcases startedIsr_cases (κ := κ) (s := s) with ⟨-, he⟩ | ⟨-, -, he⟩ | ⟨-, n, -, he⟩ <;> rw [he]
  | endedIsr =>
    obtain ⟨-, he⟩ := Option.ite_none_right_eq_some.mp he
    obtain rfl := Option.some.inj he
    rcases endedIsr_cases (κ := κ) (s := s) with ⟨-, he⟩ | ⟨-, -, he⟩ | ⟨-, n, -, he⟩ <;> rw [he]
  | beginMemoryPhase =>
    obtain ⟨-, he⟩ := Option.ite_none_right_eq_some.mp he
    obtain rfl := Option.some.inj he
    rfl
  | beginTurn r =>
    obtain ⟨hr, he⟩ := Option.ite_none_right_eq_some.mp he
    unfold beginTurn at he
    cases hm : s.memArbitStatus with
    | acquired =>
      rw [hm] at he
      exact Option.some.inj he ▸ rfl
    | none =>
      rw [hm] at he
      cases r <;> exact Option.some.inj he ▸ rfl
    | requested =>
      rw [hm] at he
      have hreg := hr.elim And.left And.left
      obtain ⟨n, stk, hstk, hn⟩ := hg.cons (regular_ne_idle hreg)
      rw [suspendRunningTask_cons κ hstk (hn ▸ hreg)] at he
      obtain rfl := Option.some.inj he
      exact settle_lastM { s with stk := stk }
  | endMemoryPhase r =>
    obtain ⟨-, he⟩ := Option.ite_none_right_eq_some.mp he
    obtain rfl := Option.some.inj he
    cases r <;> rfl
  | endExecutionPhase =>
    obtain ⟨-, he⟩ := Option.ite_none_right_eq_some.mp he
    obtain rfl := Option.some.inj he
    unfold endExecutionPhase resumeHighestPriorityTask
    dsimp only
    split_ifs
    · split <;> rfl
    · rfl
  | _ => simp [Plain] at hp

lemma ceil_step {s s' : Core ν} {a : Action} (hg : Good κ (Held κ s.lastM) s) (h : Ceil κ s)
    (hp : Plain a) (ho : Orderly κ (Held κ s.lastM) s a) (ha : Apart κ s a)
    (he : step κ s a = some s') : Ceil κ s' := by
  cases a with
  | activateTask t =>
    obtain ⟨⟨-, ht⟩, he⟩ := Option.ite_none_right_eq_some.mp he
    exact ceil_activate hg h ht ho he
  | terminate =>
    obtain ⟨hc, he⟩ := Option.ite_none_right_eq_some.mp he
    exact ceil_terminate hg h hc he
  | interrupt i =>
    obtain ⟨⟨-, hi, -⟩, he⟩ := Option.ite_none_right_eq_some.mp he
    exact ceil_interrupt h hi he
  | startedIsr =>
    obtain ⟨⟨hi, -⟩, he⟩ := Option.ite_none_right_eq_some.mp he
    exact Option.some.inj he ▸ ceil_started hg h hi
  | endedIsr =>
    obtain ⟨-, he⟩ := Option.ite_none_right_eq_some.mp he
    exact Option.some.inj he ▸ ceil_ended hg h ha
  | beginMemoryPhase =>
    obtain ⟨hr, he⟩ := Option.ite_none_right_eq_some.mp he
    obtain rfl := Option.some.inj he
    exact ceil_phase (q := s.prio s.curr) hg h hr.1 rfl rfl rfl rfl
      (Function.update_eq_self _ _).symm ha (by simp) (by simp)
  | beginTurn r =>
    obtain ⟨hr, he⟩ := Option.ite_none_right_eq_some.mp he
    exact ceil_turn hg h (hr.elim And.left And.left) (hr.imp And.right And.right) ho he
  | endMemoryPhase r =>
    obtain ⟨hr, he⟩ := Option.ite_none_right_eq_some.mp he
    obtain rfl := Option.some.inj he
    have hnil : s.lastM s.curr = [] := h.lastM_nil (by rw [hr.2]; simp)
    cases r <;> exact ceil_phase (s := s) (q := s.prio s.curr) hg h hr.1 rfl rfl rfl rfl
      (Function.update_eq_self _ _).symm hnil (by simp) (by simp)
  | endExecutionPhase =>
    obtain ⟨hr, he⟩ := Option.ite_none_right_eq_some.mp he
    exact Option.some.inj he ▸ ceil_endExecution hg h hr.1 hr.2 ho ha
  | _ => simp [Plain] at hp

lemma safe_step {s s' : Core ν} {a : Action} (h : Safe κ s) (hc : Separate κ s a)
    (he : step κ s a = some s') : Safe κ s' := by
  obtain ⟨hg, h⟩ := h
  obtain ⟨hl, ho, ha⟩ := hc
  by_cases hp : Plain a
  · refine ⟨?_, ceil_step hg h hp ho ha he⟩
    rw [plain_lastM hg hp he]
    exact good_step (fun _ => Or.inl) hg hp ho he
  · cases a with
    | getResource r =>
      obtain ⟨⟨-, hr⟩, he⟩ := Option.ite_none_right_eq_some.mp he
      exact Option.some.inj he ▸ safe_get hg h hr ha.1 ha.2.2.1 ha.2.2.2
    | releaseResource r =>
      obtain ⟨⟨-, hr⟩, he⟩ := Option.ite_none_right_eq_some.mp he
      exact Option.some.inj he ▸ safe_release hg h hr
    | _ => exact absurd hl hp

omit [DecidableEq ν] in
lemma safe_init (free : List (Node ν)) : Safe κ (init κ free) := by
  refine ⟨good_init free, ⟨?_, ?_, ?_, ?_, List.Pairwise.nil⟩⟩
  · exact ⟨by simp [init], by simp [init], by simp [init], by simp [init], by simp [init]⟩
  · simp [init]
  · simp [init]
  · simp [init]

/-- **Ceilings and memory phases**: in every run that keeps resources and memory phases apart,
a task runs at the ceiling of each resource it owns at least, and at the highest priority
during its memory phase; and a task that asks for a resource it may have finds it free. -/
theorem ceilings_hold {free : List (Node ν)} {as : List Action} {s : Core ν}
    (hc : Along (step κ) (Separate κ) (init κ free) as)
    (he : exec (step κ) (init κ free) as = some s) :
    (∀ t, (κ.tdb t).Regular → t ∉ s.suspended.map Node.task →
      (∀ r, s.owner r = some t → κ.resPrio r ≤ s.prio t) ∧
      (s.phase t = .memory → maxTaskPriority ≤ s.prio t)) ∧
    ∀ r, (κ.tdb s.curr).Regular → Separate κ s (.getResource r) →
      (κ.tdb s.curr).readyPrio ≤ κ.resPrio r → s.owner r = none := by
  obtain ⟨hg, h⟩ : Safe κ s :=
    exec_inv_along (fun s a t h ha ht => safe_step h ha ht) (safe_init free) hc he
  refine ⟨fun t ht _ => ⟨fun r hr => ?_, h.mem t ht⟩, fun r hr hsep hle => ?_⟩
  · exact h.locks.ceil t r ((h.locks.own t r).mpr hr)
  · obtain ⟨-, -, hph, hown, -⟩ := hsep
    by_contra hne
    obtain ⟨t, ht⟩ := Option.ne_none_iff_exists'.mp hne
    have htm : r ∈ s.lastM t := (h.locks.own t r).mpr ht
    have htc : t ≠ s.curr := by
      rintro rfl
      exact hown ht
    -- the owner lies below the running task, which may not want the resource then
    obtain ⟨n, stk, hstk, hn⟩ := hg.cons (regular_ne_idle hr)
    obtain ⟨hmem, -⟩ := h.here t (List.ne_nil_of_mem htm)
    have hbelow := h.below
    rw [hstk] at hmem hbelow
    obtain ⟨y, hy, rfl⟩ := List.mem_map.mp hmem
    rcases List.mem_cons.mp hy with rfl | hy
    · exact htc hn
    · have hunder := (List.pairwise_cons.mp hbelow).1 y hy
      rw [hn] at hunder
      have := (hunder hr hph).1 r htm
      omega

/-- A task takes two resources, one inside the other, gives them back, and goes through a
memory phase. -/
def nestedRun : List Action :=
  [.activateTask 4, .getResource 1, .getResource 2, .releaseResource 2, .releaseResource 1,
    .beginMemoryPhase, .beginTurn .ack, .beginTurn .ack, .endMemoryPhase .ack,
    .endExecutionPhase, .getResource 1]

theorem ceilings_hold_nestedRun :
    ∃ s, exec (step (smallKdb 1)) (init (smallKdb 1) tenNodes) nestedRun = some s ∧
      s.owner 1 = some 4 ∧ (smallKdb 1).resPrio 1 ≤ s.prio 4 := by
  have hc : Along (step (smallKdb 1)) (Separate (smallKdb 1))
      (init (smallKdb 1) tenNodes) nestedRun := by decide
  exact ⟨_, rfl, rfl, ((ceilings_hold hc rfl).1 4 (by decide) (by decide)).1 1 rfl⟩

/-- A resource is taken and given back during the memory phase. -/
def releasedRun : List Action :=
  [.activateTask 4, .beginMemoryPhase, .beginTurn .ack, .beginTurn .ack, .getResource 0,
    .releaseResource 0]

/-- The owner of a resource is suspended, and another task asks for the resource. -/
def suspendedOwnerRun : List Action :=
  [.activateTask 4, .getResource 1, .beginMemoryPhase, .beginTurn .nack, .beginTurn .ack,
    .interrupt 3, .activateTask 5, .terminate]

theorem ceilings_broken :
    (∀ a ∈ releasedRun ++ suspendedOwnerRun, Locking a) ∧
    (∃ s, exec (step (smallKdb 1)) (init (smallKdb 1) tenNodes) releasedRun = some s ∧
      s.curr = 4 ∧ s.phase 4 = .memory ∧ s.prio 4 < maxTaskPriority) ∧
    ∃ s, exec (step (smallKdb 1)) (init (smallKdb 1) tenNodes) suspendedOwnerRun = some s ∧
      s.curr = 5 ∧ ((smallKdb 1).tdb 5).readyPrio ≤ (smallKdb 1).resPrio 1 ∧
      s.owner 1 = some 4 :=
  ⟨by decide, ⟨_, rfl, rfl, rfl, by decide⟩, _, rfl, rfl, by decide, rfl⟩

end Run

end FpMemSched.Erika.Ceiling
