import FpMemSched.Erika.Services
import FpMemSched.Erika.Refinement

/-!
The shape of the stack, and what may move in it.

The functions of the kernel take the head of the stack for the running task. DPREM takes nodes
out below the head and links them in there. The ISR2s stay on top of the regular tasks because
no ready task has a priority of an ISR2: a task is ready at its ready priority, and the tasks
whose priority is raised are on the stack. Tasks have one activation each.
-/

namespace FpMemSched.Erika.StackShape

open FpMemSched.Lib FpMemSched.Lib.Linked FpMemSched.Lib.Runs
open FpMemSched.Erika.Kernel FpMemSched.Erika.Dprem FpMemSched.Erika.Order
open FpMemSched.Erika.Started hiding Fits
open FpMemSched.Erika.Nodes FpMemSched.Erika.Operations FpMemSched.Erika.Services
open FpMemSched.Erika.Carried FpMemSched.Erika.Refinement
open FpMemSched.Erika.Pointers (Queue Ccb)

variable {ν : Type} {κ : Kdb} {s s' : Core ν} {n : Node ν} {stk : List (Node ν)}

/-! ### The invariant -/

/-- Below a regular task are regular tasks, which have been preempted; so have been the
suspended ones. Only started tasks have a priority above those of tasks. -/
structure Stacked (κ : Kdb) (s : Core ν) : Prop where
  order : s.stk.Pairwise fun x y => (κ.tdb x.task).Regular → (κ.tdb y.task).Regular
  kind : ∀ m ∈ s.stk, (κ.tdb m.task).taskType = .isr2 ∨ (κ.tdb m.task).Regular
  ready : ∀ m ∈ s.rq, (κ.tdb m.task).Regular ∧ s.prio m.task ≤ maxTaskPriority
  parked : ∀ m ∈ s.suspended, (κ.tdb m.task).Regular ∧ s.status m.task = .readyStacked
  rest : ∀ m ∈ s.stk, (κ.tdb m.task).Regular → m.task ≠ topTask κ s.stk →
    s.status m.task = .readyStacked
  fresh : ∀ t, (κ.tdb t).Regular → s.numOfAct t = 0 → s.prio t ≤ maxTaskPriority
  isr : ∀ t, (κ.tdb t).taskType = .isr2 → isr2PrioBit ≤ s.prio t

lemma Stacked.frame (h : Stacked κ s) (hp : s'.prio = s.prio) (hst : s'.status = s.status)
    (ha : s'.numOfAct = s.numOfAct) (hstk : s'.stk = s.stk) (hrq : s'.rq = s.rq)
    (hsusp : s'.suspended = s.suspended) : Stacked κ s' := by
  refine ⟨?_, ?_, ?_, ?_, ?_, ?_, ?_⟩
  · rw [hstk]; exact h.order
  · rw [hstk]; exact h.kind
  · rw [hrq, hp]; exact h.ready
  · rw [hsusp, hst]; exact h.parked
  · rw [hstk, hst]; exact h.rest
  · rw [ha, hp]; exact h.fresh
  · rw [hp]; exact h.isr

/-- The priority of a task may be that of its kind, or any one while it is started. -/
lemma Stacked.setPrio (h : Stacked κ s) {t : Tid} {x : ℕ}
    (hi : (κ.tdb t).taskType = .isr2 → isr2PrioBit ≤ x)
    (hr : (κ.tdb t).Regular → x ≤ maxTaskPriority ∨
      t ∉ s.rq.map Node.task ∧ s.numOfAct t ≠ 0) :
    Stacked κ { s with prio := Function.update s.prio t x } := by
  refine ⟨h.order, h.kind, fun m hm => ?_, h.parked, h.rest, fun u hu ha => ?_, fun u hu => ?_⟩
  · refine ⟨(h.ready m hm).1, ?_⟩
    dsimp only
    by_cases he : m.task = t
    · rw [he, Function.update_self]
      exact (hr (he ▸ (h.ready m hm).1)).resolve_right fun hx => hx.1 (he ▸ List.mem_map_of_mem hm)
    · rw [Function.update_of_ne he]
      exact (h.ready m hm).2
  · dsimp only
    by_cases he : u = t
    · subst he
      rw [Function.update_self]
      exact (hr hu).resolve_right fun hx => hx.2 ha
    · rw [Function.update_of_ne he]
      exact h.fresh u hu ha
  · dsimp only
    by_cases he : u = t
    · subst he
      rw [Function.update_self]
      exact hi hu
    · rw [Function.update_of_ne he]
      exact h.isr u hu

/-- The status of a task that is not started. -/
lemma Stacked.setStatus (h : Stacked κ s) {t : Tid} (x : TaskStatus)
    (hstk : (κ.tdb t).Regular → t ∉ s.stk.map Node.task)
    (hsusp : t ∉ s.suspended.map Node.task) :
    Stacked κ { s with status := Function.update s.status t x } := by
  refine ⟨h.order, h.kind, h.ready, fun m hm => ⟨(h.parked m hm).1, ?_⟩, fun m hm hr hne => ?_,
    h.fresh, h.isr⟩
  · have he : m.task ≠ t := fun he => hsusp (he ▸ List.mem_map_of_mem hm)
    exact (Function.update_of_ne he ..).trans (h.parked m hm).2
  · have he : m.task ≠ t := fun he => hstk (he ▸ hr) (he ▸ List.mem_map_of_mem hm)
    exact (Function.update_of_ne he ..).trans (h.rest m hm hr hne)

lemma Stacked.preempted (h : Stacked κ s) (t : Tid) :
    Stacked κ { s with status := Function.update s.status t .readyStacked } :=
  ⟨h.order, h.kind, h.ready, fun m hm => ⟨(h.parked m hm).1, stacked_update (h.parked m hm).2⟩,
    fun m hm hr hne => stacked_update (h.rest m hm hr hne), h.fresh, h.isr⟩

lemma Stacked.acts (h : Stacked κ s) (act : Tid → ℕ)
    (ha : ∀ t, (κ.tdb t).Regular → act t = 0 → s.numOfAct t = 0 ∨ s.prio t ≤ maxTaskPriority) :
    Stacked κ { s with numOfAct := act } :=
  ⟨h.order, h.kind, h.ready, h.parked, h.rest,
    fun t ht hz => (ha t ht hz).elim (h.fresh t ht) id, h.isr⟩

lemma Stacked.enqueue (h : Stacked κ s) (hn : (κ.tdb n.task).Regular)
    (hp : s.prio n.task ≤ maxTaskPriority) : Stacked κ { s with rq := rqInsert κ n s.rq } := by
  refine ⟨h.order, h.kind, fun m hm => ?_, h.parked, h.rest, h.fresh, h.isr⟩
  rcases (List.mem_orderedInsert _).mp hm with rfl | hm
  · exact ⟨hn, hp⟩
  · exact h.ready m hm

lemma readyPrio_le (prio : Tid → ℕ) {t : Tid} (ht : (κ.tdb t).Regular) :
    Function.update prio t (κ.tdb t).readyPrio t ≤ maxTaskPriority := by
  rw [Function.update_self]
  exact (κ.regular_prio t ht).2.1

/-- What exceeds the top of the stack at a priority of tasks exceeds no ISR2. -/
lemma Stacked.exceeds (h : Stacked κ s) {t : Tid} (ht : s.prio t ≤ maxTaskPriority)
    (hp : ∀ top ∈ s.stk.head?, s.prio top.task < s.prio t) :
    ∀ m ∈ s.stk, (κ.tdb m.task).Regular := by
  have horder := h.order
  have hkind := h.kind
  cases hs : s.stk with
  | nil => simp
  | cons top stk =>
    rw [hs] at horder hkind hp
    have htop : (κ.tdb top.task).Regular := by
      refine (hkind top List.mem_cons_self).resolve_left fun hi => ?_
      have h₁ := h.isr _ hi
      have h₂ := hp top rfl
      unfold maxTaskPriority isr2PrioBit at *
      omega
    intro m hm
    rcases List.mem_cons.mp hm with rfl | hm
    · exact htop
    · exact (List.pairwise_cons.mp horder).1 m hm htop

/-- An ISR2, or a regular task above regular ones, preempts the top of the stack. -/
lemma Stacked.push (h : Stacked κ s)
    (hn : (κ.tdb n.task).taskType = .isr2 ∨
      (κ.tdb n.task).Regular ∧ ∀ m ∈ s.stk, (κ.tdb m.task).Regular) :
    Stacked κ { s with
      stk := n :: s.stk
      status := Function.update s.status (topTask κ s.stk) .readyStacked } := by
  have h' := h.preempted (topTask κ s.stk)
  refine ⟨List.pairwise_cons.mpr ⟨fun m hm hr => ?_, h.order⟩, fun m hm => ?_, h.ready, h'.parked,
    fun m hm hr hne => ?_, h.fresh, h.isr⟩
  · rcases hn with hi | ⟨-, hall⟩
    · exact absurd hr (not_regular_of_isr2 hi)
    · exact hall m hm
  · rcases List.mem_cons.mp hm with rfl | hm
    · exact hn.imp id And.left
    · exact h.kind m hm
  · rcases List.mem_cons.mp hm with rfl | hm
    · exact absurd rfl hne
    · by_cases he : m.task = topTask κ s.stk
      · rw [he]
        exact Function.update_self ..
      · exact h'.rest m hm hr he

/-- **A rescheduling keeps the shape.** -/
lemma Stacked.settle (h : Stacked κ s) : Stacked κ (settle κ s) := by
  rcases settle_cases κ s with ⟨he, -⟩ | ⟨q, rq, hr, hp, he⟩
  · rw [he]
    exact h.frame rfl rfl rfl rfl rfl rfl
  · rw [he]
    obtain ⟨hreg, hle⟩ := h.ready q (by rw [hr]; exact List.mem_cons_self)
    have hdeq : Stacked κ { s with rq := rq } :=
      ⟨h.order, h.kind, fun m hm => h.ready m (by rw [hr]; exact List.mem_cons_of_mem _ hm),
        h.parked, h.rest, h.fresh, h.isr⟩
    have hpush := (hdeq.push (n := q) (Or.inr ⟨hreg, h.exceeds hle hp⟩)).setPrio (t := q.task)
      (x := max (s.prio q.task) (κ.tdb q.task).dispatchPrio)
      (fun hi => absurd hreg (not_regular_of_isr2 hi))
      fun _ => Or.inl (max_le hle (κ.regular_prio _ hreg).2.2)
    exact hpush.frame (dispatch_prio ..) rfl rfl rfl rfl rfl

/-! ### One operation -/

section Steps

variable [DecidableEq ν] {N : ν → Prop} {t : Tid}
  (h₁ : ∀ t, (κ.tdb t).Regular → (κ.tdb t).maxNumOfAct = 1)

include h₁

lemma parked_ne_curr (hs : Sound κ N s) (hp : ∀ m ∈ s.suspended, (κ.tdb m.task).Regular) :
    s.curr ∉ s.suspended.map Node.task := by
  intro hm
  obtain ⟨m, hm, he⟩ := List.mem_map.mp hm
  have hr : (κ.tdb s.curr).Regular := he ▸ hp m hm
  obtain ⟨n, stk, hstk, hn⟩ := hs.cons (ne_idle_of_regular hr)
  exact (alone_of_sound h₁ hs hstk (hn ▸ hr)).2.2.1 (hn ▸ he ▸ List.mem_map_of_mem hm)

/-- The context of the task on top goes on. -/
lemma Stacked.switchIn {free : List (Node ν)} {blocked : Sem → List (Node ν)} (h : Stacked κ s)
    (hs : Sound κ N ⟨s.toTcbs.switchIn, free, s.rq, s.stk, s.suspended, blocked⟩) :
    Stacked κ ⟨s.toTcbs.switchIn, free, s.rq, s.stk, s.suspended, blocked⟩ := by
  have hne := parked_ne_curr h₁ hs fun m hm => (h.parked m hm).1
  have htop : s.curr = topTask κ s.stk := hs.top
  refine ⟨h.order, h.kind, h.ready, fun m hm => ⟨(h.parked m hm).1, ?_⟩, fun m hm hr hm' => ?_,
    h.fresh, h.isr⟩
  · have he : m.task ≠ s.curr := fun he => hne (he ▸ List.mem_map_of_mem hm)
    exact (Function.update_of_ne he ..).trans (h.parked m hm).2
  · exact (Function.update_of_ne (htop ▸ hm') ..).trans (h.rest m hm hr hm')

/-- The task that is taken off the stack is nowhere else. -/
lemma Stacked.popped (h : Stacked κ s) (hs : Sound κ N s) (hstk : s.stk = n :: stk) :
    Stacked κ { s with stk := stk } ∧
      ((κ.tdb n.task).Regular → n.task ∉ stk.map Node.task ∧ n.task ∉ s.rq.map Node.task) ∧
      n.task ∉ s.suspended.map Node.task := by
  have halone := fun hr => alone_of_sound h₁ hs hstk hr
  have horder := h.order
  have hkind := h.kind
  have hrest := h.rest
  rw [hstk] at horder hkind hrest
  refine ⟨⟨(List.pairwise_cons.mp horder).2, fun m hm => hkind m (List.mem_cons_of_mem _ hm),
    h.ready, h.parked, fun m hm hr _ => ?_, h.fresh, h.isr⟩,
    fun hr => ⟨(halone hr).2.1, (halone hr).2.2.2⟩, fun hm => ?_⟩
  · refine hrest m (List.mem_cons_of_mem _ hm) hr fun he => ?_
    have he : m.task = n.task := he
    exact (halone (he ▸ hr)).2.1 (he ▸ List.mem_map_of_mem hm)
  · obtain ⟨m, hm', he⟩ := List.mem_map.mp hm
    exact (halone (he ▸ (h.parked m hm').1)).2.2.1 hm

omit [DecidableEq ν] h₁ in
/-- The task that is taken off the stack is nowhere after the rescheduling either. -/
lemma settle_apart (hn : (κ.tdb n.task).Regular → n.task ∉ stk.map Node.task ∧
      n.task ∉ s.rq.map Node.task) (hr : (κ.tdb n.task).Regular) :
    n.task ∉ (settle κ { s with stk := stk }).stk.map Node.task :=
  (settle_nowhere (κ := κ) (s := { s with stk := stk }) (hn hr).1 (hn hr).2).1

omit [DecidableEq ν] h₁ in
/-- The priority that a task starts its next activation with. -/
lemma Stacked.resetPrio (h : Stacked κ s) (t : Tid) :
    Stacked κ { s with prio := Function.update s.prio t (κ.tdb t).readyPrio } :=
  h.setPrio (κ.isr2_prio t) fun hr => Or.inl (κ.regular_prio t hr).2.1

omit [DecidableEq ν] h₁ in
lemma Stacked.ended (h : Stacked κ s) {t : Tid}
    (hstk : (κ.tdb t).Regular → t ∉ s.stk.map Node.task)
    (hsusp : t ∉ s.suspended.map Node.task) (htop : s.curr = topTask κ s.stk) :
    Stacked κ { s with toTcbs := s.toTcbs.ended κ t } := by
  unfold Tcbs.ended
  split_ifs with hne
  · have hset := (h.resetPrio t).acts (Function.update s.numOfAct t (s.numOfAct t - 1))
      fun u hu hz => ?_
    · exact hset.setStatus (if s.numOfAct t - 1 = 0 then .suspended else .ready) hstk hsusp
    · by_cases he : u = t
      · subst he
        exact Or.inr (readyPrio_le s.prio hu)
      · rw [Function.update_of_ne he] at hz
        exact Or.inl hz
  · -- a further run of the same ISR2
    have hne : t = topTask κ s.stk := (not_not.mp hne).trans htop
    refine h.acts _ fun u hu hz => ?_
    by_cases he : u = t
    · subst he
      exact absurd (topTask_mem hne.symm (ne_idle_of_regular hu)) (hstk hu)
    · rw [Function.update_of_ne he] at hz
      exact Or.inl hz

lemma stacked_terminate (hs : Sound κ N s) (h : Stacked κ s) (hc : s.curr ≠ κ.idle)
    (he : taskTerminated κ s = some s') (hs' : Sound κ N s') : Stacked κ s' := by
  obtain ⟨n, stk, hstk, hn⟩ := hs.cons hc
  rw [taskTerminated_cons κ hs.run hstk] at he
  obtain rfl := Option.some.inj he
  obtain ⟨hpop, hout, hsusp⟩ := h.popped h₁ hs hstk
  have hend := hpop.settle.ended (t := n.task) (fun hr => settle_apart hout hr)
    (by rw [settle_suspended]; exact hsusp) (settle_top _)
  rw [hn] at hend
  exact hend.switchIn h₁ hs'

omit [DecidableEq ν] in
/-- A task with one activation that may be activated has none. -/
lemma inactive (ht : (κ.tdb t).Regular) (hact : s.numOfAct t < (κ.tdb t).maxNumOfAct) :
    s.numOfAct t = 0 :=
  inactive_of_lt hact ⟨ht, h₁ t ht⟩

omit [DecidableEq ν] h₁ in
lemma Stacked.activated (h : Stacked κ s) (t : Tid) :
    Stacked κ { s with numOfAct := Function.update s.numOfAct t (s.numOfAct t + 1) } := by
  refine h.acts _ fun u _ hz => Or.inl ?_
  by_cases he : u = t
  · subst he
    rw [Function.update_self] at hz
    omega
  · rwa [Function.update_of_ne he] at hz

omit [DecidableEq ν] in
lemma stacked_ready {m : Node ν} {free : List (Node ν)} (h : Stacked κ s)
    (ht : (κ.tdb t).Regular) (hact : s.numOfAct t < (κ.tdb t).maxNumOfAct) :
    Stacked κ ⟨Tcbs.makeReady t { s.toTcbs with
        numOfAct := Function.update s.numOfAct t (s.numOfAct t + 1) },
      free, rqInsert κ ⟨m.sn, t⟩ s.rq, s.stk, s.suspended, s.blocked⟩ := by
  have hle := h.fresh t ht (inactive h₁ ht hact)
  have hins := (h.activated t).enqueue (n := ⟨m.sn, t⟩) ht hle
  exact ⟨hins.order, hins.kind, hins.ready,
    fun x hx => ⟨(hins.parked x hx).1, makeReady_status (hins.parked x hx).2 (by simp)⟩,
    fun x hx hr hne => makeReady_status (hins.rest x hx hr hne) (by simp), hins.fresh, hins.isr⟩

lemma stacked_activate (hs : Sound κ N s) (h : Stacked κ s) (ht : (κ.tdb t).Regular)
    (he : activateTask κ t s = some s') (hs' : Sound κ N s') : Stacked κ s' := by
  obtain ⟨hact, he⟩ | rfl := activateTask_some he
  · obtain ⟨m, free, hf, ⟨hp, rfl⟩ | ⟨-, rfl⟩⟩ := schedulerTaskActivated_cases he
    · -- what runs has a priority of tasks, so no ISR2 is on the stack
      have hle := h.fresh t ht (inactive h₁ ht hact)
      have hbelow : ∀ top ∈ s.stk.head?, s.prio top.task < s.prio t := by
        intro top htop
        rw [← topTask_eq (κ := κ) htop, ← hs.top]
        exact hp
      have hpush := (h.activated t).push (n := ⟨m.sn, t⟩) (Or.inr ⟨ht, h.exceeds hle hbelow⟩)
      refine Stacked.switchIn h₁ (s := ⟨_, free, _, _, _, s.blocked⟩) ?_ hs'
      refine hpush.frame rfl ?_ rfl rfl rfl rfl
      dsimp only
      rw [hs.top]
    · exact stacked_ready h₁ h ht hact
  · exact h

lemma stacked_interrupt {i : Tid} (hs : Sound κ N s) (h : Stacked κ s)
    (hi : (κ.tdb i).taskType = .isr2) (he : activateIsr2 i s = some s') (hs' : Sound κ N s') :
    Stacked κ s' := by
  obtain ⟨m, free, hf, rfl⟩ := taskSetRunning_some he
  have hpush := (h.activated i).push (n := ⟨m.sn, i⟩) (Or.inl hi)
  refine Stacked.switchIn h₁ (s := ⟨_, free, _, _, _, s.blocked⟩) ?_ hs'
  refine hpush.frame rfl ?_ rfl rfl rfl rfl
  dsimp only
  rw [if_pos hs.run, hs.top]

lemma stacked_chainSelf (hs : Sound κ N s) (h : Stacked κ s) (hr : (κ.tdb s.curr).Regular)
    (he : chainTask κ s.curr s = some s') (hs' : Sound κ N s') : Stacked κ s' := by
  obtain ⟨n, stk, hstk, hn⟩ := hs.cons (ne_idle_of_regular hr)
  rw [chainSelf_cons κ hstk] at he
  obtain rfl := Option.some.inj he
  obtain ⟨hpop, hout, hsusp⟩ := h.popped h₁ hs hstk
  rw [hn] at hout hsusp
  have hset := (hpop.resetPrio s.curr).setStatus .ready (fun hr => (hout hr).1) hsusp
  have hins := hset.enqueue (n := ⟨n.sn, s.curr⟩) hr (readyPrio_le s.prio hr)
  have hready : Stacked κ { s with
      stk := stk
      prio := Function.update s.prio s.curr (κ.tdb s.curr).readyPrio
      status := Function.update s.status s.curr .ready
      eventMask := if s.numOfAct s.curr = 1 then Function.update s.eventMask s.curr 0
        else s.eventMask
      rq := rqInsert κ ⟨n.sn, s.curr⟩ s.rq } := hins.frame rfl rfl rfl rfl rfl rfl
  exact hready.settle.switchIn h₁ hs'

lemma stacked_chain (hs : Sound κ N s) (h : Stacked κ s) (hr : (κ.tdb s.curr).Regular)
    (ht : (κ.tdb t).Regular) (he : chainTask κ t s = some s') (hs' : Sound κ N s') :
    Stacked κ s' := by
  by_cases hc : t = s.curr
  · rw [hc] at he
    exact stacked_chainSelf h₁ hs h hr he hs'
  · obtain ⟨hact, s₁, hins, he⟩ | rfl := chainTask_some hc he
    · obtain ⟨m, free, hf, rfl⟩ := taskInsertRq_some hins
      exact stacked_terminate h₁ (sound_ready hs hact hf) (stacked_ready h₁ h ht hact)
        (ne_idle_of_regular hr) he hs'
    · exact h

lemma stacked_waitEvent {mask : ℕ} (hs : Sound κ N s) (h : Stacked κ s)
    (hr : (κ.tdb s.curr).Regular) (he : waitEvent κ mask s = some s') (hs' : Sound κ N s') :
    Stacked κ s' := by
  obtain ⟨n, stk, hstk, hn⟩ := hs.cons (ne_idle_of_regular hr)
  rw [waitEvent_cons κ hstk] at he
  split_ifs at he
  · obtain rfl := Option.some.inj he
    obtain ⟨hpop, hout, hsusp⟩ := h.popped h₁ hs hstk
    rw [hn] at hout hsusp
    have hmask : Stacked κ { s with
        waitMask := Function.update s.waitMask s.curr mask
        stk := stk } := hpop.frame rfl rfl rfl rfl rfl rfl
    have hset := hmask.settle.setStatus .waiting
      (fun hr => (settle_nowhere (s := { s with
        waitMask := Function.update s.waitMask s.curr mask
        stk := stk }) (hout hr).1 (hout hr).2).1)
      (by rw [settle_suspended]; exact hsusp)
    refine Stacked.switchIn h₁ (s := ⟨_, [], _, _, _, s.blocked⟩) ?_ hs'
    exact hset.frame rfl rfl rfl rfl rfl rfl
  · exact Option.some.inj he ▸ h

lemma stacked_waitSem {k : Sem} (hs : Sound κ N s) (h : Stacked κ s)
    (hr : (κ.tdb s.curr).Regular) (he : waitSem κ k s = some s') (hs' : Sound κ N s') :
    Stacked κ s' := by
  obtain ⟨n, stk, hstk, hn⟩ := hs.cons (ne_idle_of_regular hr)
  rw [waitSem_cons κ hstk] at he
  split_ifs at he
  · exact Option.some.inj he ▸ h.frame rfl rfl rfl rfl rfl rfl
  · obtain rfl := Option.some.inj he
    obtain ⟨hpop, hout, hsusp⟩ := h.popped h₁ hs hstk
    rw [hn] at hout hsusp
    have hset := hpop.settle.setStatus .waiting
      (fun hr => (settle_nowhere (s := { s with stk := stk }) (hout hr).1 (hout hr).2).1)
      (by rw [settle_suspended]; exact hsusp)
    exact hset.switchIn h₁ hs'

omit [DecidableEq ν] h₁ in
lemma Stacked.park (h : Stacked κ s) (hn : (κ.tdb n.task).Regular)
    (hst : s.status n.task = .readyStacked) :
    Stacked κ { s with suspended := n :: s.suspended } := by
  refine ⟨h.order, h.kind, h.ready, fun m hm => ?_, h.rest, h.fresh, h.isr⟩
  rcases List.mem_cons.mp hm with rfl | hm
  · exact ⟨hn, hst⟩
  · exact h.parked m hm

lemma stacked_suspendRunning (hs : Sound κ N s) (h : Stacked κ s)
    (he : suspendRunningTask κ s = some s') (hs' : Sound κ N s') : Stacked κ s' := by
  by_cases hr : (κ.tdb s.curr).Regular
  · obtain ⟨n, stk, hstk, hn⟩ := hs.cons (ne_idle_of_regular hr)
    rw [suspendRunningTask_cons κ hstk (hn ▸ hr)] at he
    obtain rfl := Option.some.inj he
    have hset := ((h.popped h₁ hs hstk).1.settle.preempted s.curr).resetPrio s.curr
    have hpark := hset.park (n := n) (hn ▸ hr) (by rw [hn]; exact Function.update_self ..)
    refine Stacked.switchIn h₁ (s := ⟨_, [], _, _, _, s.blocked⟩) ?_ hs'
    exact hpark.frame rfl rfl rfl rfl rfl rfl
  · -- ignored
    unfold suspendRunningTask at he
    rcases hstk : s.stk with _ | ⟨top, stk⟩
    · simp only [hstk, Option.some.injEq] at he
      exact he ▸ h
    · have htop : top.task = s.curr := by
        rw [hs.top, hstk]
        rfl
      simp only [hstk, htop, hr, if_false, Option.some.injEq] at he
      exact he ▸ h

lemma stacked_preemptionPoint (hs : Sound κ N s) (h : Stacked κ s)
    (hs' : Sound κ N (taskPreemptionPoint κ s)) : Stacked κ (taskPreemptionPoint κ s) := by
  rcases preemptionPoint_cases κ s hs.top with ⟨he, -⟩ | he
  · rw [he]; exact h
  · rw [he] at hs' ⊢
    exact h.settle.switchIn h₁ hs'

/-- A task that waited is ready again. -/
lemma stacked_release (h : Stacked κ s) (hn : (κ.tdb n.task).Regular)
    (hs : Sound κ N (unblocked κ n s)) (hs' : Sound κ N (release κ n s)) :
    Stacked κ (release κ n s) := by
  have hun : Stacked κ (unblocked κ n s) :=
    ((h.preempted n.task).resetPrio n.task).enqueue hn (readyPrio_le s.prio hn)
  rcases release_cases (s := s) κ n hs.top with he | he
  · rw [he]; exact hun
  · rw [he] at hs' ⊢
    exact hun.settle.switchIn h₁ hs'

lemma stacked_postSem {k : Sem} (hs : Sound κ N s) (h : Stacked κ s)
    (hs' : Sound κ N (postSem κ k s)) : Stacked κ (postSem κ k s) := by
  have hx : ∀ t, (κ.tdb t).taskType = .extended → (κ.tdb t).maxNumOfAct = 1 :=
    fun t ht => h₁ t (Or.inr ht)
  unfold postSem at hs' ⊢
  rcases hk : s.blocked k with _ | ⟨n, q⟩
  · exact h.frame rfl rfl rfl rfl rfl rfl
  · simp only [hk] at hs' ⊢
    have hn : (κ.tdb n.task).Regular := Or.inr (hs.sem k n (by rw [hk]; exact List.mem_cons_self))
    have hq : Stacked κ { s with blocked := Function.update s.blocked k q } :=
      h.frame rfl rfl rfl rfl rfl rfl
    exact stacked_release h₁ hq hn (sound_post hx hs hk) hs'

lemma stacked_setEvent {mask : ℕ} (hs : Sound κ N s) (h : Stacked κ s)
    (hs' : Sound κ N (setEvent κ t mask s)) : Stacked κ (setEvent κ t mask s) := by
  rcases setEvent_cases κ t mask s with ⟨em, he⟩ | ⟨em, sn, hm, ho, he⟩
  · rw [he]
    exact h.frame rfl rfl rfl rfl rfl rfl
  · rw [he] at hs' ⊢
    have hn : (κ.tdb t).Regular := Or.inr (hs.waits.extended t (hs.waits.mask t hm))
    have hev : Stacked κ { s with eventMask := em, ownSn := Function.update s.ownSn t none } :=
      h.frame rfl rfl rfl rfl rfl rfl
    exact stacked_release h₁ hev hn (sound_wake hs hm ho) hs'

omit [DecidableEq ν] h₁ in
lemma topTask_append {a : List (Node ν)} (ha : a ≠ []) (b c : List (Node ν)) :
    topTask κ (a ++ b) = topTask κ (a ++ c) := by
  cases a with
  | nil => exact absurd rfl ha
  | cons x a => rfl

omit [DecidableEq ν] h₁ in
/-- A task that has been preempted is taken out below the top of the stack. -/
lemma Stacked.suspend (h : Stacked κ s) {a b : List (Node ν)} (hstk : s.stk = a ++ n :: b)
    (ha : a ≠ []) (hn : (κ.tdb n.task).Regular) (htop : n.task ≠ topTask κ s.stk) :
    Stacked κ { s with stk := a ++ b, suspended := n :: s.suspended } := by
  have hst := h.rest n (by rw [hstk]; simp) hn htop
  have hsub : (a ++ b).Sublist s.stk := by
    rw [hstk]
    exact (List.sublist_cons_self n b).append_left a
  have hout : Stacked κ { s with stk := a ++ b } := by
    refine ⟨h.order.sublist hsub, fun m hm => h.kind m (hsub.subset hm), h.ready, h.parked,
      fun m hm hr hne => h.rest m (hsub.subset hm) hr ?_, h.fresh, h.isr⟩
    rwa [hstk, topTask_append ha (n :: b) b]
  exact hout.park hn hst

omit h₁ in
/-- A suspended task is linked in below the top of the stack, with no ISR2 under it. -/
lemma Stacked.resume (h : Stacked κ s) {a b : List (Node ν)} (hstk : s.stk = a ++ b)
    (ha : a ≠ []) (hb : ∀ m ∈ b, (κ.tdb m.task).Regular) (hn : n ∈ s.suspended) :
    Stacked κ { s with suspended := listRemove n s.suspended, stk := a ++ n :: b } := by
  obtain ⟨hr, hst⟩ := h.parked n hn
  have horder := h.order
  rw [hstk, List.pairwise_append] at horder
  have hbelow : ∀ m ∈ n :: b, (κ.tdb m.task).Regular := by
    intro m hm
    rcases List.mem_cons.mp hm with rfl | hm
    · exact hr
    · exact hb m hm
  have hmem : ∀ m ∈ a ++ n :: b, m = n ∨ m ∈ s.stk := by
    rw [hstk]
    exact fun m hm => mem_middle.mp hm
  refine ⟨List.pairwise_append.mpr ⟨horder.1, List.pairwise_cons.mpr ⟨fun m hm _ => hb m hm,
    horder.2.1⟩, fun _ _ m hm _ => hbelow m hm⟩, fun m hm => ?_, h.ready,
    fun m hm => h.parked m (List.mem_of_mem_erase hm), fun m hm hm' hne => ?_, h.fresh, h.isr⟩
  · rcases hmem m hm with rfl | hm
    · exact Or.inr hr
    · exact h.kind m hm
  · rcases hmem m hm with rfl | hm
    · exact hst
    · refine h.rest m hm hm' ?_
      rwa [hstk, topTask_append ha b (n :: b)]

omit h₁ in
lemma stacked_suspendHighest (hs : Sound κ N s) (h : Stacked κ s)
    (hi : (κ.tdb s.curr).taskType = .isr2) :
    Stacked κ (suspendHighestPriorityActiveTaskFromIsr κ s) := by
  unfold suspendHighestPriorityActiveTaskFromIsr
  rcases hn : highestStacked κ s with _ | n
  · exact h
  · obtain ⟨a, b, hstk, hr, hrem, -, -⟩ := highestStacked_some hn
    have htop : n.task ≠ topTask κ s.stk := by
      intro he
      rw [← hs.top] at he
      exact not_regular_of_isr2 hi (he ▸ hr)
    have ha : a ≠ [] := by
      rintro rfl
      rw [hstk] at htop
      exact htop rfl
    dsimp only
    rw [hrem]
    exact h.suspend hstk ha hr htop

omit h₁ in
lemma stacked_resumeFromIsr (hs : Sound κ N s) (h : Stacked κ s)
    (hi : (κ.tdb s.curr).taskType = .isr2) :
    Stacked κ (resumeHighestPriorityTaskFromIsr κ s) := by
  unfold resumeHighestPriorityTaskFromIsr
  rcases hn : highestSuspended s with _ | n
  · exact h
  · have hmem := highestSuspended_mem hn
    obtain ⟨a, b, hstk, ha, hb⟩ := split_regular h.order h.kind
    have hne : a ≠ [] := by
      rintro rfl
      -- else a regular task would be on top
      obtain ⟨top, stk, hcons, htop⟩ := hs.cons (ne_idle_of_isr2 hi)
      rw [hcons] at hstk
      have hr := hb top (by rw [← List.nil_append b, ← hstk]; exact List.mem_cons_self)
      exact not_regular_of_isr2 hi (htop ▸ hr)
    have hres := (h.resume hstk hne hb hmem).setPrio (t := n.task) (x := maxTaskPriority)
      (fun hi => absurd (h.parked n hmem).1 (not_regular_of_isr2 hi)) fun _ => Or.inl le_rfl
    dsimp only
    rw [hstk, listInsertBefore_split hne (fun m hm => not_regular_of_isr2 (ha m hm)) hb]
    exact hres

omit h₁ in
lemma stacked_resumeHighest (hs : Sound κ N s) (h : Stacked κ s)
    (hr : (κ.tdb s.curr).Regular) : Stacked κ (resumeHighestPriorityTask s) := by
  unfold resumeHighestPriorityTask
  rcases hn : highestSuspended s with _ | n
  · exact h
  · obtain ⟨top, stk, hstk, htop⟩ := hs.cons (ne_idle_of_regular hr)
    have horder := h.order
    rw [hstk] at horder
    have hres := h.resume (n := n) (a := [top]) (b := stk) hstk (by simp)
      (fun m hm => (List.pairwise_cons.mp horder).1 m hm (htop ▸ hr)) (highestSuspended_mem hn)
    dsimp only
    rw [hstk, listInsertAfter_head]
    exact hres

/-- The running task gets a priority from the resources it takes and gives back, and in its memory
phases. -/
lemma stacked_setPrio {x : ℕ} (hs : Sound κ N s) (h : Stacked κ s)
    (hi : (κ.tdb s.curr).taskType = .isr2 → isr2PrioBit ≤ x) :
    Stacked κ { s with prio := Function.update s.prio s.curr x } := by
  refine h.setPrio hi fun hr => Or.inr ?_
  obtain ⟨n, stk, hstk, hn⟩ := hs.cons (ne_idle_of_regular hr)
  have halone := alone_of_sound h₁ hs hstk (hn ▸ hr)
  rw [hn] at halone
  exact ⟨halone.2.2.2, halone.1⟩

/-- **One operation keeps the shape.** -/
lemma stacked_perform {o : Op} (hs : Sound κ N s) (h : Stacked κ s)
    (ho : ∀ t x, o = .setPrio t x → t = s.curr ∧ (κ.tdb t).Regular)
    (he : perform κ s o = some s') : Stacked κ s' := by
  have hx : ∀ t, (κ.tdb t).taskType = .extended → (κ.tdb t).maxNumOfAct = 1 :=
    fun t ht => h₁ t (Or.inr ht)
  have hs' := sound_perform hx hs he
  cases o with
  | activateTask t =>
    obtain ⟨ht, he⟩ := Option.ite_none_right_eq_some.mp he
    exact stacked_activate h₁ hs h ht he hs'
  | chainTask t =>
    obtain ⟨⟨hr, ht⟩, he⟩ := Option.ite_none_right_eq_some.mp he
    exact stacked_chain h₁ hs h hr ht he hs'
  | terminate =>
    obtain ⟨hc, he⟩ := Option.ite_none_right_eq_some.mp he
    exact stacked_terminate h₁ hs h hc he hs'
  | interrupt i =>
    obtain ⟨hi, he⟩ := Option.ite_none_right_eq_some.mp he
    exact stacked_interrupt h₁ hs h hi he hs'
  | preemptionPoint =>
    obtain rfl := Option.some.inj he
    exact stacked_preemptionPoint h₁ hs h hs'
  | waitEvent mask =>
    obtain ⟨hc, he⟩ := Option.ite_none_right_eq_some.mp he
    exact stacked_waitEvent h₁ hs h (Or.inr hc) he hs'
  | setEvent t mask =>
    obtain rfl := Option.some.inj he
    exact stacked_setEvent h₁ hs h hs'
  | waitSem k =>
    obtain ⟨hc, he⟩ := Option.ite_none_right_eq_some.mp he
    exact stacked_waitSem h₁ hs h (Or.inr hc) he hs'
  | postSem k =>
    obtain rfl := Option.some.inj he
    exact stacked_postSem h₁ hs h hs'
  | suspendRunningTask => exact stacked_suspendRunning h₁ hs h he hs'
  | suspendHighestPriorityActiveTaskFromIsr =>
    obtain ⟨hi, he⟩ := Option.ite_none_right_eq_some.mp he
    exact Option.some.inj he ▸ stacked_suspendHighest hs h hi
  | resumeHighestPriorityTaskFromIsr =>
    obtain ⟨hi, he⟩ := Option.ite_none_right_eq_some.mp he
    exact Option.some.inj he ▸ stacked_resumeFromIsr hs h hi
  | resumeHighestPriorityTask =>
    obtain ⟨hr, he⟩ := Option.ite_none_right_eq_some.mp he
    exact Option.some.inj he ▸ stacked_resumeHighest hs h hr
  | setPrio t x =>
    obtain ⟨rfl, hr⟩ := ho t x rfl
    exact Option.some.inj he ▸ stacked_setPrio h₁ hs h fun hi =>
      absurd hr (not_regular_of_isr2 hi)

end Steps

/-! ### What moves -/

section Moves

variable {α β : Type} {l l' susp susp' : List α}

/-- The elements that stay keep their order. The others are taken off the head, put on the
head, or go to or come from the suspended ones. -/
def Rearranged (l l' susp susp' : List α) : Prop :=
  ∃ kept : List α, kept.Sublist l ∧ kept.Sublist l' ∧
    (∀ n ∈ l, n ∈ kept ∨ n ∈ l.head? ∨ n ∈ susp') ∧
    ∀ n ∈ l', n ∈ kept ∨ n ∈ l'.head? ∨ n ∈ susp

lemma Rearranged.map (h : Rearranged l l' susp susp') (f : α → β) :
    Rearranged (l.map f) (l'.map f) (susp.map f) (susp'.map f) := by
  have hmap : ∀ {a b c : List α}, (∀ n ∈ a, n ∈ b ∨ n ∈ a.head? ∨ n ∈ c) →
      ∀ m ∈ a.map f, m ∈ b.map f ∨ m ∈ (a.map f).head? ∨ m ∈ c.map f := by
    intro a b c hn m hm
    obtain ⟨n, hn', rfl⟩ := List.mem_map.mp hm
    rw [List.head?_map]
    exact (hn n hn').imp List.mem_map_of_mem (Or.imp (Option.mem_map_of_mem f) List.mem_map_of_mem)
  obtain ⟨kept, h₁, h₂, hout, hin⟩ := h
  exact ⟨kept.map f, h₁.map f, h₂.map f, hmap hout, hmap hin⟩

lemma Rearranged.grown (h : l.Sublist l') (hin : ∀ n ∈ l', n ∈ l ∨ n ∈ l'.head? ∨ n ∈ susp) :
    Rearranged l l' susp susp' :=
  ⟨l, List.Sublist.refl l, h, fun _ hn => Or.inl hn, hin⟩

lemma Rearranged.shrunk (h : l'.Sublist l) (hout : ∀ n ∈ l, n ∈ l' ∨ n ∈ susp') :
    Rearranged l l' susp susp' :=
  ⟨l', h, List.Sublist.refl l', fun n hn => (hout n hn).imp_right Or.inr, fun _ hn => Or.inl hn⟩

/-- At most one element is put on the head. -/
def Topped (l l' : List α) : Prop := l' = l ∨ ∃ q, l' = q :: l

lemma Topped.sublist (h : Topped l l') : l.Sublist l' := by
  rcases h with rfl | ⟨q, rfl⟩
  · exact List.Sublist.refl _
  · exact List.sublist_cons_self q l

lemma Topped.mem (h : Topped l l') : ∀ n ∈ l', n ∈ l ∨ n ∈ l'.head? := by
  rcases h with rfl | ⟨q, rfl⟩
  · exact fun n hn => Or.inl hn
  · intro n hn
    rcases List.mem_cons.mp hn with rfl | hn
    · exact Or.inr rfl
    · exact Or.inl hn

lemma Topped.rearranged (h : Topped l l') : Rearranged l l' susp susp' :=
  Rearranged.grown h.sublist fun n hn => (h.mem n hn).imp_right Or.inl

/-- The head is taken off first. -/
lemma Topped.replaced {n : α} (h : Topped l l') : Rearranged (n :: l) l' susp susp' := by
  refine ⟨l, List.sublist_cons_self n l, h.sublist, fun m hm => ?_,
    fun m hm => (h.mem m hm).imp_right Or.inl⟩
  rcases List.mem_cons.mp hm with rfl | hm
  · exact Or.inr (Or.inl rfl)
  · exact Or.inl hm

end Moves

/-- The resources that are occupied, and the priorities they give back. -/
def loans (T : Tcbs ν) : (Tid → List Res) × (Res → Option Tid) × (Res → ℕ) :=
  (T.lastM, T.owner, T.prevPrio)

structure Moved (s s' : Core ν) : Prop where
  stk : Rearranged s.stk s'.stk s.suspended s'.suspended
  loans : loans s'.toTcbs = loans s.toTcbs

structure Pushed (s s' : Core ν) : Prop where
  top : Topped s.stk s'.stk
  loans : loans s'.toTcbs = loans s.toTcbs

lemma Pushed.moved (h : Pushed s s') : Moved s s' := ⟨h.top.rearranged, h.loans⟩

lemma Pushed.refl (s : Core ν) : Pushed s s := ⟨Or.inl rfl, rfl⟩

lemma moved_popped (hstk : s.stk = n :: stk) (h : Topped stk s'.stk)
    (hl : loans s'.toTcbs = loans s.toTcbs) : Moved s s' :=
  ⟨by rw [hstk]; exact h.replaced, hl⟩

lemma pushed_settle (s : Core ν) : Pushed s (settle κ s) := by
  rcases settle_cases κ s with ⟨he, -⟩ | ⟨q, rq, -, -, he⟩
  · rw [he]
    exact ⟨Or.inl rfl, rfl⟩
  · rw [he]
    exact ⟨Or.inr ⟨q, rfl⟩, rfl⟩

lemma pushed_preemptionPoint (h : s.curr = topTask κ s.stk) :
    Pushed s (taskPreemptionPoint κ s) := by
  rcases preemptionPoint_cases κ s h with ⟨he, -⟩ | he
  · rw [he]
    exact Pushed.refl s
  · rw [he]
    exact ⟨(pushed_settle s).top, (pushed_settle s).loans⟩

lemma pushed_release (h : s.curr = topTask κ s.stk) : Pushed s (release κ n s) := by
  rcases release_cases (s := s) κ n h with he | he
  · rw [he]
    exact ⟨Or.inl rfl, rfl⟩
  · rw [he]
    have hset := pushed_settle (κ := κ) (unblocked κ n s)
    exact ⟨hset.top, hset.loans⟩

lemma pushed_postSem (k : Sem) (h : s.curr = topTask κ s.stk) : Pushed s (postSem κ k s) := by
  unfold postSem
  split
  · next n q hk =>
    have hrel := pushed_release (n := n)
      (s := { s with blocked := Function.update s.blocked k q }) h
    exact ⟨hrel.top, hrel.loans⟩
  · exact ⟨Or.inl rfl, rfl⟩

lemma pushed_setEvent (t : Tid) (mask : ℕ) (h : s.curr = topTask κ s.stk) :
    Pushed s (setEvent κ t mask s) := by
  rcases setEvent_cases κ t mask s with ⟨em, he⟩ | ⟨em, sn, -, -, he⟩
  · rw [he]
    exact ⟨Or.inl rfl, rfl⟩
  · rw [he]
    have hrel := pushed_release (n := ⟨sn, t⟩)
      (s := { s with eventMask := em, ownSn := Function.update s.ownSn t none }) h
    exact ⟨hrel.top, hrel.loans⟩

lemma pushed_activate {t : Tid} (he : activateTask κ t s = some s') : Pushed s s' := by
  obtain ⟨hact, he⟩ | rfl := activateTask_some he
  · obtain ⟨m, free, -, ⟨-, rfl⟩ | ⟨-, rfl⟩⟩ := schedulerTaskActivated_cases he
    · exact ⟨Or.inr ⟨_, rfl⟩, rfl⟩
    · exact ⟨Or.inl rfl, rfl⟩
  · exact Pushed.refl _

lemma pushed_interrupt {i : Tid} (he : activateIsr2 i s = some s') : Pushed s s' := by
  obtain ⟨m, free, -, rfl⟩ := taskSetRunning_some he
  exact ⟨Or.inr ⟨_, rfl⟩, rfl⟩

lemma ended_loans (t : Tid) (T : Tcbs ν) : loans (T.ended κ t) = loans T := by
  unfold Tcbs.ended
  split_ifs <;> rfl

lemma moved_terminate (hr : s.status s.curr = .running) (hstk : s.stk = n :: stk)
    (he : taskTerminated κ s = some s') : Moved s s' := by
  rw [taskTerminated_cons κ hr hstk] at he
  obtain rfl := Option.some.inj he
  have hset := pushed_settle (κ := κ) { s with stk := stk }
  exact moved_popped hstk hset.top ((ended_loans ..).trans hset.loans)

lemma moved_waitEvent {mask : ℕ} (hstk : s.stk = n :: stk)
    (he : waitEvent κ mask s = some s') : Moved s s' := by
  rw [waitEvent_cons κ hstk] at he
  split_ifs at he
  · obtain rfl := Option.some.inj he
    have hset := pushed_settle (κ := κ) { s with
      waitMask := Function.update s.waitMask s.curr mask
      stk := stk }
    exact moved_popped hstk hset.top hset.loans
  · exact Option.some.inj he ▸ (Pushed.refl s).moved

lemma moved_waitSem {k : Sem} (hstk : s.stk = n :: stk) (he : waitSem κ k s = some s') :
    Moved s s' := by
  rw [waitSem_cons κ hstk] at he
  split_ifs at he
  · obtain rfl := Option.some.inj he
    exact Pushed.moved ⟨Or.inl rfl, rfl⟩
  · obtain rfl := Option.some.inj he
    have hset := pushed_settle (κ := κ) { s with stk := stk }
    exact moved_popped hstk hset.top hset.loans

lemma moved_suspendRunning (he : suspendRunningTask κ s = some s') : Moved s s' := by
  rcases hstk : s.stk with _ | ⟨n, stk⟩
  · unfold suspendRunningTask at he
    simp only [hstk, Option.some.injEq] at he
    exact he ▸ (Pushed.refl s).moved
  · by_cases hr : (κ.tdb n.task).Regular
    · rw [suspendRunningTask_cons κ hstk hr] at he
      obtain rfl := Option.some.inj he
      have hset := pushed_settle (κ := κ) { s with stk := stk }
      exact moved_popped hstk hset.top hset.loans
    · unfold suspendRunningTask at he
      simp only [hstk, if_neg hr, Option.some.injEq] at he
      exact he ▸ (Pushed.refl s).moved

lemma rearranged_resume {l : List (Node ν)} (hn : highestSuspended s = some n)
    (hsub : s.stk.Sublist l) (hl : l.Perm (n :: s.stk)) (susp : List (Node ν)) :
    Rearranged s.stk l s.suspended susp := by
  refine Rearranged.grown hsub fun m hm => ?_
  rcases List.mem_cons.mp (hl.mem_iff.mp hm) with rfl | hm
  · exact Or.inr (Or.inr (highestSuspended_mem hn))
  · exact Or.inl hm

section Perform

variable [DecidableEq ν] {N : ν → Prop}

lemma moved_chain {t : Tid} (hs : Sound κ N s) (hc : s.curr ≠ κ.idle)
    (he : chainTask κ t s = some s') : Moved s s' := by
  obtain ⟨n, stk, hstk, -⟩ := hs.cons hc
  by_cases ht : t = s.curr
  · rw [ht, chainSelf_cons κ hstk] at he
    obtain rfl := Option.some.inj he
    exact moved_popped hstk (pushed_settle _).top (pushed_settle _).loans
  · obtain ⟨hact, s₁, hins, he⟩ | rfl := chainTask_some ht he
    · obtain ⟨m, free, hf, rfl⟩ := taskInsertRq_some hins
      have hready := sound_ready hs hact hf
      have hend := moved_terminate hready.run hstk he
      exact ⟨hend.stk, hend.loans⟩
    · exact (Pushed.refl _).moved

lemma moved_suspendHighest (s : Core ν) :
    Moved s (suspendHighestPriorityActiveTaskFromIsr κ s) := by
  unfold suspendHighestPriorityActiveTaskFromIsr
  rcases highestStacked κ s with _ | n
  · exact (Pushed.refl s).moved
  · refine ⟨Rearranged.shrunk List.erase_sublist fun m hm => ?_, rfl⟩
    by_cases he : m = n
    · exact Or.inr (by rw [he]; exact List.mem_cons_self)
    · exact Or.inl ((List.mem_erase_of_ne he).mpr hm)

lemma listInsertBefore_sublist (ref : Option (Node ν)) (l : List (Node ν)) :
    l.Sublist (listInsertBefore n ref l) := by
  fun_induction listInsertBefore n ref l with
  | case1 => exact List.nil_sublist _
  | case2 a => exact (List.nil_sublist [n]).cons_cons a
  | case3 a b l => exact (List.sublist_cons_self n (b :: l)).cons_cons a
  | case4 a b l _ ih => exact ih.cons_cons a

lemma moved_resumeFromIsr (hstk : s.stk = n :: stk) :
    Moved s (resumeHighestPriorityTaskFromIsr κ s) := by
  unfold resumeHighestPriorityTaskFromIsr
  rcases hm : highestSuspended s with _ | m
  · exact (Pushed.refl s).moved
  · obtain ⟨l, hl, hperm⟩ := listInsertBefore_cons (n := m) (firstRegular κ s.stk) n stk
    rw [← hstk] at hl
    refine ⟨rearranged_resume hm (listInsertBefore_sublist _ _) ?_ _, rfl⟩
    rw [hl, hstk]
    exact (hperm.cons n).trans (List.Perm.swap m n stk)

lemma moved_resumeHighest (hstk : s.stk = n :: stk) :
    Moved s (resumeHighestPriorityTask s) := by
  unfold resumeHighestPriorityTask
  rcases hm : highestSuspended s with _ | m
  · exact (Pushed.refl s).moved
  · have hins : listInsertAfter m s.stk.head? s.stk = n :: m :: stk := by
      rw [hstk]
      exact listInsertAfter_head n stk
    dsimp only
    rw [hins]
    refine ⟨rearranged_resume hm ?_ ?_ _, rfl⟩
    · rw [hstk]
      exact (List.sublist_cons_self m stk).cons_cons n
    · rw [hstk]
      exact List.Perm.swap m n stk

/-- **One operation moves the nodes as the stack allows.** -/
lemma moved_perform {o : Op} (hs : Sound κ N s) (he : perform κ s o = some s') : Moved s s' := by
  cases o with
  | activateTask t => exact (pushed_activate (Option.ite_none_right_eq_some.mp he).2).moved
  | chainTask t =>
    obtain ⟨⟨hr, -⟩, he⟩ := Option.ite_none_right_eq_some.mp he
    exact moved_chain hs (ne_idle_of_regular hr) he
  | terminate =>
    obtain ⟨hc, he⟩ := Option.ite_none_right_eq_some.mp he
    obtain ⟨n, stk, hstk, -⟩ := hs.cons hc
    exact moved_terminate hs.run hstk he
  | interrupt i => exact (pushed_interrupt (Option.ite_none_right_eq_some.mp he).2).moved
  | preemptionPoint => exact Option.some.inj he ▸ (pushed_preemptionPoint hs.top).moved
  | waitEvent mask =>
    obtain ⟨hc, he⟩ := Option.ite_none_right_eq_some.mp he
    obtain ⟨n, stk, hstk, -⟩ := hs.cons (ne_idle_of_regular (Or.inr hc))
    exact moved_waitEvent hstk he
  | setEvent t mask => exact Option.some.inj he ▸ (pushed_setEvent t mask hs.top).moved
  | waitSem k =>
    obtain ⟨hc, he⟩ := Option.ite_none_right_eq_some.mp he
    obtain ⟨n, stk, hstk, -⟩ := hs.cons (ne_idle_of_regular (Or.inr hc))
    exact moved_waitSem hstk he
  | postSem k => exact Option.some.inj he ▸ (pushed_postSem k hs.top).moved
  | suspendRunningTask => exact moved_suspendRunning he
  | suspendHighestPriorityActiveTaskFromIsr =>
    exact Option.some.inj (Option.ite_none_right_eq_some.mp he).2 ▸ moved_suspendHighest s
  | resumeHighestPriorityTaskFromIsr =>
    obtain ⟨hi, he⟩ := Option.ite_none_right_eq_some.mp he
    obtain ⟨n, stk, hstk, -⟩ := hs.cons (ne_idle_of_isr2 hi)
    exact Option.some.inj he ▸ moved_resumeFromIsr hstk
  | resumeHighestPriorityTask =>
    obtain ⟨hr, he⟩ := Option.ite_none_right_eq_some.mp he
    obtain ⟨n, stk, hstk, -⟩ := hs.cons (ne_idle_of_regular hr)
    exact Option.some.inj he ▸ moved_resumeHighest hstk
  | setPrio t x => exact Option.some.inj he ▸ Pushed.moved ⟨Or.inl rfl, rfl⟩

end Perform

/-! ### Resources -/

/-- A resource is with one task, once, and gives an ISR2 back a priority of ISR2s. -/
structure Lent (κ : Kdb) (T : Tcbs ν) : Prop where
  owner : ∀ t, ∀ r ∈ T.lastM t, T.owner r = some t
  once : ∀ t, (T.lastM t).Nodup
  prev : ∀ t, (κ.tdb t).taskType = .isr2 → ∀ r ∈ T.lastM t, isr2PrioBit ≤ T.prevPrio r

section Resources

variable {T T' : Tcbs ν} {r : Res}

lemma Lent.congr (h : Lent κ T) (hl : loans T' = loans T) : Lent κ T' := by
  obtain ⟨hm, ho, hp⟩ : T'.lastM = T.lastM ∧ T'.owner = T.owner ∧ T'.prevPrio = T.prevPrio := by
    simpa only [loans, Prod.mk.injEq] using hl
  refine ⟨?_, ?_, ?_⟩
  · rw [hm, ho]; exact h.owner
  · rw [hm]; exact h.once
  · rw [hm, hp]; exact h.prev

/-- Resources of the tasks before `r` is taken, or after it has been given back. -/
lemma Lent.take (h : Lent κ T) {prio : Tid → ℕ} (hr : T.owner r = none)
    (hi : (κ.tdb T.curr).taskType = .isr2 → isr2PrioBit ≤ T.prio T.curr) :
    Lent κ { T with
      prio := prio
      owner := Function.update T.owner r (some T.curr)
      prevPrio := Function.update T.prevPrio r (T.prio T.curr)
      lastM := Function.update T.lastM T.curr (r :: T.lastM T.curr) } := by
  have hnew : ∀ t, r ∉ T.lastM t := by
    intro t hm
    rw [h.owner t r hm] at hr
    cases hr
  have hmem : ∀ t, ∀ q ∈ Function.update T.lastM T.curr (r :: T.lastM T.curr) t,
      q = r ∧ t = T.curr ∨ q ≠ r ∧ q ∈ T.lastM t := by
    intro t q hq
    by_cases ht : t = T.curr
    · rw [ht, Function.update_self, List.mem_cons] at hq
      rcases hq with hq | hq
      · exact Or.inl ⟨hq, ht⟩
      · exact Or.inr ⟨fun he => hnew _ (he ▸ hq), ht ▸ hq⟩
    · rw [Function.update_of_ne ht] at hq
      exact Or.inr ⟨fun he => hnew _ (he ▸ hq), hq⟩
  refine ⟨fun t q hq => ?_, fun t => ?_, fun t ht q hq => ?_⟩
  · rcases hmem t q hq with ⟨rfl, rfl⟩ | ⟨hne, hq⟩
    · exact Function.update_self ..
    · exact (Function.update_of_ne hne ..).trans (h.owner t q hq)
  · dsimp only
    by_cases ht : t = T.curr
    · rw [ht, Function.update_self]
      exact List.nodup_cons.mpr ⟨hnew _, h.once _⟩
    · rw [Function.update_of_ne ht]
      exact h.once t
  · dsimp only
    rcases hmem t q hq with ⟨rfl, rfl⟩ | ⟨hne, hq⟩
    · rw [Function.update_self]
      exact hi ht
    · rw [Function.update_of_ne hne]
      exact h.prev t ht q hq

lemma Lent.give (h : Lent κ T) {prio : Tid → ℕ} {rest : List Res}
    (hr : T.lastM T.curr = r :: rest) :
    Lent κ { T with
      lastM := Function.update T.lastM T.curr rest
      prio := prio
      owner := Function.update T.owner r none } := by
  have hown : T.owner r = some T.curr := h.owner _ r (by rw [hr]; exact List.mem_cons_self)
  have honce := h.once T.curr
  rw [hr, List.nodup_cons] at honce
  have hmem : ∀ t, ∀ q ∈ Function.update T.lastM T.curr rest t, q ≠ r ∧ q ∈ T.lastM t := by
    intro t q hq
    by_cases ht : t = T.curr
    · rw [ht, Function.update_self] at hq
      refine ⟨fun he => honce.1 (he ▸ hq), ?_⟩
      rw [ht, hr]
      exact List.mem_cons_of_mem r hq
    · rw [Function.update_of_ne ht] at hq
      refine ⟨?_, hq⟩
      rintro rfl
      rw [h.owner t q hq] at hown
      exact ht (Option.some.inj hown)
  refine ⟨fun t q hq => ?_, fun t => ?_, fun t ht q hq => h.prev t ht q (hmem t q hq).2⟩
  · exact (Function.update_of_ne (hmem t q hq).1 ..).trans (h.owner t q (hmem t q hq).2)
  · dsimp only
    by_cases ht : t = T.curr
    · rw [ht, Function.update_self]
      exact honce.2
    · rw [Function.update_of_ne ht]
      exact h.once t

end Resources

/-- What holds of the stack between two services. -/
structure Shaped [DecidableEq ν] (κ : Kdb) (N : ν → Prop) (s : Core ν) : Prop where
  sound : Sound κ N s
  stacked : Stacked κ s
  lent : Lent κ s.toTcbs

section Shaped

variable [DecidableEq ν] {N : ν → Prop} {r : Res}
  (h₁ : ∀ t, (κ.tdb t).Regular → (κ.tdb t).maxNumOfAct = 1)

include h₁

lemma shaped_perform {o : Op} (h : Shaped κ N s)
    (ho : ∀ t x, o = .setPrio t x → t = s.curr ∧ (κ.tdb t).Regular)
    (he : perform κ s o = some s') : Shaped κ N s' where
  sound := sound_perform (fun t ht => h₁ t (Or.inr ht)) h.sound he
  stacked := stacked_perform h₁ h.sound h.stacked ho he
  lent := h.lent.congr (moved_perform h.sound he).loans

lemma shaped_getResource (h : Shaped κ N s) : Shaped κ N (getResource κ r s) := by
  rw [getResource_eq]
  split_ifs with hno
  · exact h
  · rw [not_or, not_not] at hno
    have hset := stacked_setPrio h₁ (x := max (s.prio s.curr) (κ.resPrio r)) h.sound h.stacked
      fun hi => le_max_of_le_left (h.stacked.isr _ hi)
    exact ⟨h.sound.frame rfl rfl rfl rfl rfl rfl, hset.frame rfl rfl rfl rfl rfl rfl,
      h.lent.take hno.1 fun hi => h.stacked.isr _ hi⟩

lemma shaped_releaseResource
    (hd : ∀ t, (κ.tdb t).taskType = .isr2 → isr2PrioBit ≤ (κ.tdb t).dispatchPrio)
    (h : Shaped κ N s) :
    Shaped κ N (releaseResource κ r s) ∧ Topped s.stk (releaseResource κ r s).stk := by
  rcases releaseResource_cases κ r s with he | ⟨rest, hlast, he⟩
  · rw [he]
    exact ⟨h, Or.inl rfl⟩
  · rw [he]
    have hset := stacked_setPrio h₁
      (x := if rest ≠ [] then s.prevPrio r else (κ.tdb s.curr).dispatchPrio) h.sound h.stacked
      fun hi => ?_
    · have hgive : Shaped κ N { s with
          lastM := Function.update s.lastM s.curr rest
          prio := Function.update s.prio s.curr
            (if rest ≠ [] then s.prevPrio r else (κ.tdb s.curr).dispatchPrio)
          owner := Function.update s.owner r none } :=
        ⟨h.sound.frame rfl rfl rfl rfl rfl rfl, hset.frame rfl rfl rfl rfl rfl rfl,
          h.lent.give hlast⟩
      exact ⟨shaped_perform h₁ (o := .preemptionPoint) hgive (by simp) rfl,
        (pushed_preemptionPoint hgive.sound.top).top⟩
    · split_ifs
      · exact h.lent.prev _ hi r (by rw [hlast]; exact List.mem_cons_self)
      · exact hd _ hi

end Shaped

/-! ### Runs -/

/-- The operations, with the services that set priorities. -/
inductive Service
  | op (o : Op)
  | getResource (r : Res)
  | releaseResource (r : Res)
  deriving DecidableEq

/-- What DPREM writes to the priority of the running task: the highest priority of tasks when it has
the memory, and the dispatch priority when its execution phase is over. -/
def PhasePrio (κ : Kdb) (curr t : Tid) (x : ℕ) : Prop :=
  t = curr ∧ (κ.tdb t).Regular ∧ (x = maxTaskPriority ∨ x = (κ.tdb t).dispatchPrio)

instance (κ : Kdb) (curr t : Tid) (x : ℕ) : Decidable (PhasePrio κ curr t x) :=
  inferInstanceAs (Decidable (_ ∧ _))

def serve [DecidableEq ν] (κ : Kdb) (fuel : ℕ) (p : Ccb ν) : Service → Option (Ccb ν)
  | .op (.setPrio t x) =>
    if PhasePrio κ p.curr t x then Pointers.perform κ fuel p (.setPrio t x) else none
  | .op o => Pointers.perform κ fuel p o
  | .getResource r => some (Pointers.getResource κ r p)
  | .releaseResource r => some (Pointers.releaseResource κ r p)

/-- The calls of DPREM from the ISR2s. -/
def FromIsr : Service → Prop
  | .op .suspendHighestPriorityActiveTaskFromIsr | .op .resumeHighestPriorityTaskFromIsr => True
  | _ => False

section Runs

variable [DecidableEq ν] {N : ν → Prop} {nodes : List ν} {fuel : ℕ} {p p' p₀ : Ccb ν}

lemma head_suspendHighest (hs : Sound κ N s) (hi : (κ.tdb s.curr).taskType = .isr2) :
    (suspendHighestPriorityActiveTaskFromIsr κ s).stk.head? = s.stk.head? := by
  unfold suspendHighestPriorityActiveTaskFromIsr
  rcases hn : highestStacked κ s with _ | n
  · rfl
  · obtain ⟨a, b, -, hr, -⟩ := highestStacked_some hn
    obtain ⟨top, stk, hstk, htop⟩ := hs.cons (ne_idle_of_isr2 hi)
    have hne : top ≠ n := by
      rintro rfl
      exact not_regular_of_isr2 hi (htop ▸ hr)
    dsimp only
    unfold listRemove
    rw [hstk, List.erase_cons_tail (by simpa using hne)]
    rfl

lemma head_resumeFromIsr (hs : Sound κ N s) (hi : (κ.tdb s.curr).taskType = .isr2) :
    (resumeHighestPriorityTaskFromIsr κ s).stk.head? = s.stk.head? := by
  unfold resumeHighestPriorityTaskFromIsr
  rcases highestSuspended s with _ | n
  · rfl
  · obtain ⟨top, stk, hstk, -⟩ := hs.cons (ne_idle_of_isr2 hi)
    obtain ⟨l, hl, -⟩ := listInsertBefore_cons (n := n) (firstRegular κ s.stk) top stk
    dsimp only
    rw [hstk] at hl ⊢
    rw [hl]
    rfl

lemma head_fromIsr {o : Op} (hs : Sound κ N s) (hi : FromIsr (.op o))
    (he : perform κ s o = some s') : s'.stk.head? = s.stk.head? := by
  cases o with
  | suspendHighestPriorityActiveTaskFromIsr =>
    obtain ⟨hc, he⟩ := Option.ite_none_right_eq_some.mp he
    exact Option.some.inj he ▸ head_suspendHighest hs hc
  | resumeHighestPriorityTaskFromIsr =>
    obtain ⟨hc, he⟩ := Option.ite_none_right_eq_some.mp he
    exact Option.some.inj he ▸ head_resumeFromIsr hs hc
  | _ => exact hi.elim

lemma serve_op {o : Op} (he : serve κ fuel p (.op o) = some p') :
    (∀ t x, o = .setPrio t x → PhasePrio κ p.curr t x) ∧
      Pointers.perform κ fuel p o = some p' := by
  cases o with
  | setPrio t x =>
    obtain ⟨hp, he⟩ := Option.ite_none_right_eq_some.mp he
    refine ⟨fun u y hu => ?_, he⟩
    cases hu
    exact hp
  | _ => exact ⟨by simp, he⟩

variable (h₁ : ∀ t, (κ.tdb t).Regular → (κ.tdb t).maxNumOfAct = 1)
  (hd : ∀ t, (κ.tdb t).taskType = .isr2 → isr2PrioBit ≤ (κ.tdb t).dispatchPrio)

include h₁ hd

/-- **One service**, on the nodes and on the queues. -/
lemma shaped_serve {v : Service} (hr : Refines p s) (h : Shaped κ (· ∈ nodes) s)
    (hf : nodes.length < fuel) (he : serve κ fuel p v = some p') :
    ∃ s', Refines p' s' ∧ Shaped κ (· ∈ nodes) s' ∧
      Rearranged s.stk s'.stk s.suspended s'.suspended ∧
      (FromIsr v → s'.stk.head? = s.stk.head?) := by
  cases v with
  | op o =>
    obtain ⟨ho, hp⟩ := serve_op he
    have hrunning : ∀ t x, o = .setPrio t x → t = s.curr ∧ (κ.tdb t).Regular := by
      intro t x hx
      obtain ⟨ht, hreg, -⟩ := ho t x hx
      exact ⟨ht.trans (congrArg Tcbs.curr hr.tcbs), hreg⟩
    have hrel := refines_perform hr h.sound hf o
    rw [hp] at hrel
    rcases hk : perform κ s o with _ | s'
    · rw [hk] at hrel
      cases hrel
    · rw [hk] at hrel
      cases hrel with
      | some hr' =>
        exact ⟨s', hr', shaped_perform h₁ h hrunning hk, (moved_perform h.sound hk).stk,
          fun hi => head_fromIsr h.sound hi hk⟩
  | getResource r =>
    obtain rfl := Option.some.inj he
    have hget := shaped_getResource h₁ (r := r) h
    refine ⟨_, refines_getResource hr, hget, Topped.rearranged (Or.inl ?_), fun hi => hi.elim⟩
    rw [getResource_eq]
    split_ifs <;> rfl
  | releaseResource r =>
    obtain rfl := Option.some.inj he
    obtain ⟨hrel, htop⟩ := shaped_releaseResource h₁ (r := r) hd h
    exact ⟨_, refines_releaseResource hr, hrel, htop.rearranged, fun hi => hi.elim⟩

omit h₁ hd in
lemma shaped_init (κ : Kdb) (hn : nodes.Nodup) :
    Shaped κ (· ∈ nodes) (init κ (nodes.map fun n => (⟨n, κ.idle⟩ : Node ν))) := by
  have hmap : (nodes.map fun n => (⟨n, κ.idle⟩ : Node ν)).map Node.sn = nodes := by
    rw [List.map_map]
    exact List.map_id _
  have hsound := sound_init κ (nodes.map fun n => (⟨n, κ.idle⟩ : Node ν)) (by rw [hmap]; exact hn)
  simp only [hmap] at hsound
  refine ⟨hsound, ⟨List.Pairwise.nil, by simp [init], by simp [init], by simp [init],
    by simp [init], fun t ht _ => (κ.regular_prio t ht).2.1, κ.isr2_prio⟩, ⟨?_, ?_, ?_⟩⟩
  · simp [init]
  · simp [init]
  · simp [init]

/-- What a run of services on the nodes leaves. -/
lemma run_shaped {vs : List Service} (hn : nodes.Nodup) (hb : Boot κ nodes p₀)
    (hf : nodes.length < fuel) (he : exec (serve κ fuel) p₀ vs = some p) :
    ∃ s, Refines p s ∧ Shaped κ (· ∈ nodes) s := by
  refine exec_inv (P := fun p => ∃ s, Refines p s ∧ Shaped κ (· ∈ nodes) s)
    (fun p v p' => ?_) ⟨_, hb.refines hn, shaped_init κ hn⟩ he
  rintro ⟨s, hr, h⟩ hv
  obtain ⟨s', hr', h', -⟩ := shaped_serve h₁ hd hr h hf hv
  exact ⟨s', hr', h'⟩

end Runs

/-- Task 4 has been through a memory phase and is in the next one, with a resource, when an ISR2
suspends it; task 5 starts, and a second ISR2 puts task 4 back. -/
def nestedRun : List Service :=
  [.op (.activateTask 4), .op (.setPrio 4 maxTaskPriority), .op (.setPrio 4 1),
    .op (.setPrio 4 maxTaskPriority), .getResource 2, .op (.interrupt 1),
    .op .suspendHighestPriorityActiveTaskFromIsr, .op (.activateTask 5), .op .terminate,
    .op (.interrupt 1), .op (.interrupt 2), .op .resumeHighestPriorityTaskFromIsr]

lemma smallKdb_once (t : Tid) (_ : ((smallKdb 1).tdb t).Regular) :
    ((smallKdb 1).tdb t).maxNumOfAct = 1 := by
  simp only [smallKdb]
  split_ifs <;> rfl

end FpMemSched.Erika.StackShape
