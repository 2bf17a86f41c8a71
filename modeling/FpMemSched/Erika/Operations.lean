import FpMemSched.Erika.Nodes

/-!
The operations on the scheduler nodes, and that they lose none.

An operation is one of the calls by which the kernel and DPREM move nodes, in the widest
context it is issued in; what else the services do in between changes no more than priorities
here. Tasks that wait for events have one activation: the field that keeps the node of a
waiting task, `p_own_sn`, is one for all its activations.
-/

namespace FpMemSched.Erika.Operations

open FpMemSched.Lib.Runs FpMemSched.Lib.Places FpMemSched.Erika.Kernel FpMemSched.Erika.Dprem
open FpMemSched.Erika.Order FpMemSched.Erika.Started FpMemSched.Erika.Nodes

variable {ν : Type} {κ : Kdb} {s s' : Core ν} {n : Node ν} {stk : List (Node ν)}

/-! ### Tasks that wait for an event -/

/-- The node of an activation that has begun and is not ready. -/
def Begun (s : Core ν) (m : Node ν) : Prop :=
  m ∈ s.stk ∨ m ∈ s.suspended ∨ ∃ k, m ∈ s.blocked k

/-- What a task in `WaitEvent` looks like: it waits, or it has been woken and is ready, or it
goes on just now. -/
structure Waits (κ : Kdb) (s : Core ν) : Prop where
  mask : ∀ t, s.waitMask t ≠ 0 → s.inWait t = true
  extended : ∀ t, s.inWait t = true → (κ.tdb t).taskType = .extended
  woken : ∀ t, s.inWait t = true → s.ownSn t = none → s.status t = .readyStacked
  awake : ∀ m, Begun s m → s.inWait m.task = true → m.task = s.curr

/-- What matters to waiting tasks. -/
lemma Waits.frame (h : Waits κ s) (hw : s'.inWait = s.inWait) (hm : s'.waitMask = s.waitMask)
    (ho : ∀ t, s.inWait t = true → s'.ownSn t = s.ownSn t)
    (hst : ∀ t, s.inWait t = true → s.status t = .readyStacked → s'.status t = .readyStacked)
    (hb : ∀ m, Begun s' m → s.inWait m.task = true → m.task = s'.curr) : Waits κ s' := by
  refine ⟨?_, ?_, fun t ht hn => ?_, ?_⟩
  · rw [hw, hm]; exact h.mask
  · rw [hw]; exact h.extended
  · rw [hw] at ht
    rw [ho t ht] at hn
    exact hst t ht (h.woken t ht hn)
  · rw [hw]; exact hb

lemma settle_inWait (s : Core ν) : (settle κ s).inWait = s.inWait := by rw [settle_toTcbs]

lemma settle_ownSn (s : Core ν) : (settle κ s).ownSn = s.ownSn := by rw [settle_toTcbs]

lemma settle_waitMask (s : Core ν) : (settle κ s).waitMask = s.waitMask := by rw [settle_toTcbs]

lemma settle_top (s : Core ν) : (settle κ s).curr = topTask κ (settle κ s).stk := by
  rcases settle_cases κ s with ⟨he, -⟩ | ⟨q, rq, -, -, he⟩
  · rw [he]
  · rw [he]; rfl

lemma settle_blocked (s : Core ν) : (settle κ s).blocked = s.blocked := by
  rcases settle_cases κ s with ⟨he, -⟩ | ⟨q, rq, -, -, he⟩
  · rw [he]
  · rw [he]; rfl

lemma stacked_update {t u : Tid} {f : Tid → TaskStatus} (h : f t = .readyStacked) :
    Function.update f u .readyStacked t = .readyStacked := by
  by_cases ht : t = u
  · rw [ht, Function.update_self]
  · rw [Function.update_of_ne ht]; exact h

/-- A rescheduling sets no status but the one of a stacked task. -/
lemma settle_stacked {t : Tid} (h : s.status t = .readyStacked) :
    (settle κ s).status t = .readyStacked := by
  rcases settle_cases κ s with ⟨he, -⟩ | ⟨q, rq, -, -, he⟩
  · rw [he]; exact h
  · rw [he]
    exact stacked_update h

lemma settle_begun {m : Node ν} (h : Begun (settle κ s) m) :
    Begun s m ∨ m.task = (settle κ s).curr := by
  rcases settle_cases κ s with ⟨he, -⟩ | ⟨q, rq, -, -, he⟩
  · rw [he] at h
    exact Or.inl h
  · rw [he] at h ⊢
    unfold Begun at h ⊢
    dsimp only [stkNext] at h
    rw [List.mem_cons] at h
    rcases h with (rfl | h) | h
    · exact Or.inr rfl
    · exact Or.inl (Or.inl h)
    · exact Or.inl (Or.inr h)

/-- The end of an activation touches priority, status and counter only. -/
lemma ended_eq (t : Tid) (s : Tcbs ν) : s.ended κ t = { s with
    prio := (s.ended κ t).prio, status := (s.ended κ t).status
    numOfAct := Function.update s.numOfAct t (s.numOfAct t - 1) } := by
  unfold Tcbs.ended
  split_ifs <;> rfl

lemma ended_status {t u : Tid} (s : Tcbs ν) (h : u ≠ t) :
    (s.ended κ t).status u = s.status u := by
  unfold Tcbs.ended
  split_ifs
  · exact Function.update_of_ne h ..
  · rfl

/-! ### The core -/

variable [DecidableEq ν] {place : ν → Option Place} {job : ν → Tid}

/-- The nodes of `N`, and no others, are somewhere. -/
def Kept (κ : Kdb) (N : ν → Prop) (s : Core ν) : Prop :=
  ∃ place job, Holds κ s place job ∧ ∀ m, place m = none ↔ ¬ N m

structure Sound (κ : Kdb) (N : ν → Prop) (s : Core ν) : Prop where
  nodes : Kept κ N s
  waits : Waits κ s
  sem : ∀ k, ∀ m ∈ s.blocked k, (κ.tdb m.task).taskType = .extended
  here : s.inWait s.curr = false
  top : s.curr = topTask κ s.stk
  run : s.status s.curr = .running

variable {N : ν → Prop}

omit [DecidableEq ν] in
lemma mem_of_placed {a : ν} {P : Place} (h : ∀ m, place m = none ↔ ¬ N m)
    (ha : place a = some P) : N a := by
  by_contra hN
  rw [(h a).mpr hN] at ha
  simp at ha

lemma placed_put {a : ν} {P : Place} (h : ∀ m, m ≠ a → (place m = none ↔ ¬ N m)) (ha : N a)
    (m : ν) : Function.update place a (some P) m = none ↔ ¬ N m := by
  by_cases hm : m = a
  · subst hm
    simp [ha]
  · rw [Function.update_of_ne hm]
    exact h m hm

lemma Kept.settle (h : Kept κ N s) : Kept κ N (settle κ s) := by
  obtain ⟨place, job, h, hp⟩ := h
  obtain ⟨place', h', hset⟩ := h.settle
  exact ⟨place', job, h', fun m => (hset m).trans (hp m)⟩

lemma Kept.frame (h : Kept κ N s) {T : Tcbs ν}
    (hw : ∀ t m, T.inWait t = true ∧ T.ownSn t = some m ↔
      s.inWait t = true ∧ s.ownSn t = some m)
    (ha : T.numOfAct = s.numOfAct) :
    Kept κ N ⟨T, s.free, s.rq, s.stk, s.suspended, s.blocked⟩ := by
  obtain ⟨place, job, h, hp⟩ := h
  exact ⟨place, job, h.frame hw ha, hp⟩

/-- The running node is taken off and another one is chosen. -/
lemma Kept.pop (h : Kept κ N s) (hstk : s.stk = n :: stk) :
    ∃ place job, Holds κ (Kernel.settle κ { s with stk := stk }) place job ∧
      place n.sn = none ∧ job n.sn = n.task ∧ N n.sn ∧
      ∀ m, m ≠ n.sn → (place m = none ↔ ¬ N m) := by
  obtain ⟨place, job, h, hp⟩ := h
  obtain ⟨hpn, hjn⟩ := h.stk_mem (n := n) (by rw [hstk]; simp)
  obtain ⟨place', h', hset⟩ := (h.fromStk (show s.stk.Perm (n :: stk) by rw [hstk])).settle
  have hN : N n.sn := mem_of_placed hp hpn
  refine ⟨place', job, h', ?_, hjn, hN, fun m hm => ?_⟩
  · rw [hset, Function.update_self]
  · rw [hset, Function.update_of_ne hm]
    exact hp m

lemma Sound.quiet (h : Sound κ N s) {m : Node ν} (hm : Begun s m) : s.inWait m.task = false := by
  by_contra hw
  rw [Bool.not_eq_false] at hw
  have hc := h.waits.awake m hm hw
  rw [hc, h.here] at hw
  simp at hw

section Switch

variable (hx : ∀ t, (κ.tdb t).taskType = .extended → (κ.tdb t).maxNumOfAct = 1)

include hx

/-- A task that goes on in `WaitEvent` has been woken. -/
lemma Kept.woken (h : Kept κ N s) (hw : Waits κ s) (ht : s.curr = topTask κ s.stk)
    (hin : s.inWait s.curr = true) : s.ownSn s.curr = none := by
  obtain ⟨place, job, h, -⟩ := h
  have hext := hw.extended _ hin
  have hne : s.curr ≠ κ.idle := by
    intro he
    rw [(κ.idle_iff _).mpr he] at hext
    simp at hext
  obtain ⟨m, hm, hmt⟩ := List.mem_map.mp (topTask_mem ht.symm hne)
  obtain ⟨hpm, hjm⟩ := h.stk_mem hm
  rcases ho : s.ownSn s.curr with _ | q
  · rfl
  · obtain ⟨hpq, hjq⟩ := h.held_mem hin ho
    have hs : Single κ (job q) := by
      rw [hjq]
      exact ⟨Or.inr hext, hx _ hext⟩
    have hqm := (h.single q hs (by rw [hpq]; simp)).2 m.sn (by rw [hpm]; simp)
      (by rw [hjm, hjq, hmt])
    rw [← hqm, hpm] at hpq
    simp at hpq

/-- The context of the task on top of the stack goes on. -/
lemma sound_switchIn (hk : Kept κ N s) (hw : Waits κ s)
    (hsem : ∀ k, ∀ m ∈ s.blocked k, (κ.tdb m.task).taskType = .extended)
    (ht : s.curr = topTask κ s.stk) : Sound κ N { s with toTcbs := s.toTcbs.switchIn } := by
  by_cases hin : s.inWait s.curr = true
  · have hown := hk.woken hx hw ht hin
    have hst := hw.woken _ hin hown
    have hw₁ : s.toTcbs.switchIn.inWait = Function.update s.inWait s.curr false := by
      simp [Tcbs.switchIn, hst, hin]
    have hw₂ : s.toTcbs.switchIn.waitMask = Function.update s.waitMask s.curr 0 := by
      simp [Tcbs.switchIn, hst, hin]
    -- the running task is the only one that leaves `WaitEvent`
    have hleft : ∀ t, s.toTcbs.switchIn.inWait t = true → t ≠ s.curr ∧ s.inWait t = true := by
      intro t htw
      rw [hw₁] at htw
      by_cases he : t = s.curr
      · rw [he, Function.update_self] at htw
        simp at htw
      · rw [Function.update_of_ne he] at htw
        exact ⟨he, htw⟩
    refine ⟨hk.frame (fun t m => ?_) rfl, ⟨fun t hm => ?_, fun t htw => ?_, fun t htw ho => ?_,
      fun m hm hmw => ?_⟩, hsem, ?_, ht, Function.update_self ..⟩
    · constructor
      · rintro ⟨htw, ho⟩
        exact ⟨(hleft t htw).2, ho⟩
      · rintro ⟨htw, ho⟩
        have he : t ≠ s.curr := by
          rintro rfl
          rw [hown] at ho
          simp at ho
        refine ⟨?_, ho⟩
        rw [hw₁, Function.update_of_ne he]
        exact htw
    · have he : t ≠ s.curr := by
        rintro rfl
        dsimp only at hm
        rw [hw₂, Function.update_self] at hm
        exact hm rfl
      dsimp only at hm ⊢
      rw [hw₂, Function.update_of_ne he] at hm
      rw [hw₁, Function.update_of_ne he]
      exact hw.mask t hm
    · exact hw.extended t (hleft t htw).2
    · obtain ⟨he, htw⟩ := hleft t htw
      exact (Function.update_of_ne he ..).trans (hw.woken t htw ho)
    · obtain ⟨he, hmw⟩ := hleft _ hmw
      exact absurd (hw.awake m hm hmw) he
    · exact (congrFun hw₁ _).trans (Function.update_self ..)
  · have hin' : s.inWait s.curr = false := Bool.not_eq_true _ ▸ hin
    have he : s.toTcbs.switchIn =
        { s.toTcbs with status := Function.update s.status s.curr .running } := by
      simp [Tcbs.switchIn, hin']
    rw [he]
    refine ⟨hk.frame (fun _ _ => Iff.rfl) rfl, hw.frame rfl rfl (fun _ _ => rfl)
      (fun t htw hst => ?_) hw.awake, hsem, hin', ht, Function.update_self ..⟩
    have hne : t ≠ s.curr := by
      rintro rfl
      exact hin htw
    exact (Function.update_of_ne hne ..).trans hst

end Switch

/-! ### Services -/

/-- A regular task or an ISR2 runs, so the stack has it on top. -/
lemma Sound.cons (h : Sound κ N s) (hc : s.curr ≠ κ.idle) :
    ∃ n stk, s.stk = n :: stk ∧ n.task = s.curr :=
  cons_of_top κ h.top hc

omit [DecidableEq ν] in
lemma begun_pop (hstk : s.stk = n :: stk) {T : Tcbs ν} {free rq : List (Node ν)} {m : Node ν}
    (hm : Begun ⟨T, free, rq, stk, s.suspended, s.blocked⟩ m) : Begun s m := by
  unfold Begun at hm ⊢
  rw [hstk, List.mem_cons]
  dsimp only at hm
  tauto

/-- After a rescheduling only the task that runs next may be in `WaitEvent`. -/
lemma Sound.settled (h : Sound κ N s) (hsub : ∀ m, Begun s' m → Begun s m) {m : Node ν}
    (hm : Begun (settle κ s') m) (hw : s.inWait m.task = true) :
    m.task = (settle κ s').curr := by
  rcases settle_begun hm with hm | hm
  · rw [h.quiet (hsub m hm)] at hw
    simp at hw
  · exact hm

/-- A task in `WaitEvent` is not the one that runs. -/
lemma Sound.ne_curr (h : Sound κ N s) {t : Tid} (ht : s.inWait t = true) : t ≠ s.curr := by
  rintro rfl
  rw [h.here] at ht
  simp at ht

/-- Priorities, phases and the like do not matter. -/
lemma Sound.frame (h : Sound κ N s) {T : Tcbs ν} (hw : T.inWait = s.inWait)
    (ho : T.ownSn = s.ownSn) (hm : T.waitMask = s.waitMask)
    (ha : T.numOfAct = s.numOfAct) (hst : T.status = s.status) (hc : T.curr = s.curr) :
    Sound κ N ⟨T, s.free, s.rq, s.stk, s.suspended, s.blocked⟩ := by
  refine ⟨h.nodes.frame (fun t m => by rw [hw, ho]) ha,
    h.waits.frame hw hm (fun t _ => congrFun ho t) (fun t _ => (congrFun hst t).trans)
      (fun m hb hmw => (h.waits.awake m hb hmw).trans hc.symm), h.sem, ?_, hc.trans h.top, ?_⟩
  · show T.inWait T.curr = false
    rw [hw, hc]
    exact h.here
  · show T.status T.curr = .running
    rw [hst, hc]
    exact h.run

/-- A node for a new activation of the task that runs next. -/
lemma Sound.begun_cons (h : Sound κ N s) {T : Tcbs ν} {free rq : List (Node ν)} {m : Node ν}
    (hm : Begun ⟨T, free, rq, n :: s.stk, s.suspended, s.blocked⟩ m)
    (hw : s.inWait m.task = true) : m.task = n.task := by
  unfold Begun at hm
  dsimp only at hm
  rw [List.mem_cons] at hm
  rcases hm with (rfl | hm) | hm
  · rfl
  · rw [h.quiet (Or.inl hm)] at hw
    simp at hw
  · rw [h.quiet (Or.inr hm)] at hw
    simp at hw

lemma inactive_of_lt {act : Tid → ℕ} {t : Tid} (h : act t < (κ.tdb t).maxNumOfAct)
    (hs : Single κ t) : act t = 0 := by
  rw [hs.2] at h
  omega

/-- A new activation that is ready. -/
lemma sound_ready {m : Node ν} {free : List (Node ν)} {t : Tid} (h : Sound κ N s)
    (hact : s.numOfAct t < (κ.tdb t).maxNumOfAct) (hf : s.free = m :: free) :
    Sound κ N ⟨Tcbs.makeReady t { s.toTcbs with
        numOfAct := Function.update s.numOfAct t (s.numOfAct t + 1) },
      free, rqInsert κ ⟨m.sn, t⟩ s.rq, s.stk, s.suspended, s.blocked⟩ := by
  obtain ⟨place, job, hh, hp⟩ := h.nodes
  obtain ⟨place', job', hh', hp'⟩ := hh.start hf (inactive_of_lt hact)
    (T := Tcbs.makeReady t { s.toTcbs with
      numOfAct := Function.update s.numOfAct t (s.numOfAct t + 1) })
    (Or.inl ⟨rqInsert_perm (κ := κ) _ _, rfl⟩) rfl rfl rfl
  exact ⟨⟨_, _, hh', fun x => (hp' x).trans (hp x)⟩,
    h.waits.frame rfl rfl (fun _ _ => rfl) (fun u hu hst => makeReady_status hst (by simp))
      h.waits.awake, h.sem, h.here, h.top, makeReady_status h.run (by simp)⟩

section Services

variable (hx : ∀ t, (κ.tdb t).taskType = .extended → (κ.tdb t).maxNumOfAct = 1)

include hx

lemma sound_terminate (h : Sound κ N s) (hc : s.curr ≠ κ.idle)
    (he : taskTerminated κ s = some s') : Sound κ N s' := by
  obtain ⟨n, stk, hstk, hn⟩ := h.cons hc
  rw [taskTerminated_cons κ h.run hstk] at he
  obtain rfl := Option.some.inj he
  obtain ⟨place, job, hh, hpn, hjn, hN, hp⟩ := h.nodes.pop hstk
  have hfree := hh.toFree hpn hjn
    (T := (settle κ { s with stk := stk }).toTcbs.ended κ s.curr)
    (by rw [ended_eq]) (by rw [ended_eq]) (by rw [ended_eq, hn])
  refine sound_switchIn hx (s := ⟨_, _, _, _, _, _⟩) ⟨_, _, hfree, placed_put hp hN⟩
    (h.waits.frame ?_ ?_ (fun t _ => ?_) (fun t ht hst => ?_) fun m hm hmw => ?_) ?_ ?_
  · exact (congrArg Tcbs.inWait (ended_eq ..)).trans (settle_inWait _)
  · exact (congrArg Tcbs.waitMask (ended_eq ..)).trans (settle_waitMask _)
  · exact congrFun ((congrArg Tcbs.ownSn (ended_eq ..)).trans (settle_ownSn _)) t
  · exact (ended_status _ (h.ne_curr ht)).trans (settle_stacked hst)
  · exact (h.settled (fun _ => begun_pop hstk) hm hmw).trans
      (congrArg Tcbs.curr (ended_eq ..)).symm
  · rw [settle_blocked]
    exact h.sem
  · exact (congrArg Tcbs.curr (ended_eq ..)).trans (settle_top _)

lemma sound_activate {t : Tid} (h : Sound κ N s) (he : activateTask κ t s = some s') :
    Sound κ N s' := by
  obtain ⟨hact, he⟩ | rfl := activateTask_some he
  · obtain ⟨place, job, hh, hp⟩ := h.nodes
    obtain ⟨m, free, hf, ⟨-, rfl⟩ | ⟨-, rfl⟩⟩ := schedulerTaskActivated_cases he
    · obtain ⟨place', job', hh', hp'⟩ := hh.start hf (inactive_of_lt hact)
        (T := { s.toTcbs with
          numOfAct := Function.update s.numOfAct t (s.numOfAct t + 1)
          status := Function.update s.status s.curr .readyStacked
          curr := t
          eventMask := Function.update s.eventMask t 0 }) (Or.inr ⟨rfl, rfl⟩) rfl rfl rfl
      refine sound_switchIn hx (s := ⟨_, _, _, _, _, _⟩) ⟨_, _, hh', fun x => (hp' x).trans (hp x)⟩
        (h.waits.frame rfl rfl (fun _ _ => rfl) (fun u hu hst => stacked_update hst)
          fun x hxb hxw => ?_) h.sem rfl
      exact h.begun_cons hxb hxw
    · exact sound_ready h hact hf
  · exact h

lemma sound_interrupt {i : Tid} (h : Sound κ N s) (hi : (κ.tdb i).taskType = .isr2)
    (he : activateIsr2 i s = some s') : Sound κ N s' := by
  obtain ⟨m, free, hf, rfl⟩ := taskSetRunning_some he
  obtain ⟨place, job, hh, hp⟩ := h.nodes
  obtain ⟨place', job', hh', hp'⟩ := hh.start hf (t := i)
    (fun hs => absurd hs.1 (not_regular_of_isr2 hi))
    (T := { s.toTcbs with
      numOfAct := Function.update s.numOfAct i (s.numOfAct i + 1)
      status := if s.status s.curr = .running then
          Function.update s.status s.curr .readyStacked
        else s.status
      curr := i }) (Or.inr ⟨rfl, rfl⟩) rfl rfl rfl
  refine sound_switchIn hx (s := ⟨_, _, _, _, _, _⟩) ⟨_, _, hh', fun x => (hp' x).trans (hp x)⟩
    (h.waits.frame rfl rfl (fun _ _ => rfl) (fun u hu hst => ?_)
      fun x hxb hxw => h.begun_cons hxb hxw) h.sem rfl
  simp only [h.run, if_true]
  exact stacked_update hst

/-- A rescheduling in a core whose running task is on top of the stack. -/
lemma sound_resched (h : Sound κ N s) :
    Sound κ N { settle κ s with toTcbs := (settle κ s).toTcbs.switchIn } := by
  refine sound_switchIn hx h.nodes.settle (h.waits.frame (settle_inWait s) (settle_waitMask s)
    (fun t _ => congrFun (settle_ownSn s) t) (fun t _ hst => settle_stacked hst)
    fun m hm hmw => h.settled (fun _ => id) hm hmw) ?_ (settle_top s)
  rw [settle_blocked]
  exact h.sem

lemma sound_preemptionPoint (h : Sound κ N s) : Sound κ N (taskPreemptionPoint κ s) := by
  rcases preemptionPoint_cases κ s h.top with ⟨he, -⟩ | he
  · rw [he]; exact h
  · rw [he]; exact sound_resched hx h

lemma sound_chainSelf (h : Sound κ N s) (hc : s.curr ≠ κ.idle)
    (he : chainTask κ s.curr s = some s') : Sound κ N s' := by
  obtain ⟨n, stk, hstk, hn⟩ := h.cons hc
  rw [chainSelf_cons κ hstk] at he
  obtain rfl := Option.some.inj he
  obtain ⟨place, job, hh, hp⟩ := h.nodes
  obtain ⟨hpn, hjn⟩ := hh.stk_mem (n := n) (by rw [hstk]; simp)
  have hN : N n.sn := mem_of_placed hp hpn
  have hput := (hh.fromStk (show s.stk.Perm (n :: stk) by rw [hstk])).toRq (n := ⟨n.sn, s.curr⟩)
    (Function.update_self ..) (hjn.trans hn) (rqInsert_perm (κ := κ) _ _)
  have hkept : Kept κ N { s with stk := stk, rq := rqInsert κ ⟨n.sn, s.curr⟩ s.rq } := by
    refine ⟨_, _, hput, placed_put (fun m hm => ?_) hN⟩
    rw [Function.update_of_ne hm]
    exact hp m
  refine sound_switchIn hx (hkept.frame (T := { s.toTcbs with
      prio := Function.update s.prio s.curr (κ.tdb s.curr).readyPrio
      status := Function.update s.status s.curr .ready
      eventMask := if s.numOfAct s.curr = 1 then Function.update s.eventMask s.curr 0
        else s.eventMask }) (fun _ _ => Iff.rfl) rfl).settle
    (h.waits.frame (settle_inWait _) (settle_waitMask _) (fun t _ => congrFun (settle_ownSn _) t)
      (fun t ht hst => settle_stacked ((Function.update_of_ne (h.ne_curr ht) ..).trans hst))
      fun m hm hmw => h.settled (fun _ => begun_pop hstk) hm hmw) ?_ (settle_top _)
  rw [settle_blocked]
  exact h.sem

lemma sound_suspendRunning (h : Sound κ N s) (he : suspendRunningTask κ s = some s') :
    Sound κ N s' := by
  by_cases hr : (κ.tdb s.curr).Regular
  · obtain ⟨n, stk, hstk, hn⟩ := h.cons fun hi => regular_ne_idle hr ((κ.idle_iff _).mpr hi)
    rw [suspendRunningTask_cons κ hstk (hn ▸ hr)] at he
    obtain rfl := Option.some.inj he
    obtain ⟨place, job, hh, hpn, hjn, hN, hp⟩ := h.nodes.pop hstk
    have hkept : Kept κ N _ :=
      ⟨_, _, hh.toSusp hpn hjn (List.Perm.refl _), placed_put hp hN⟩
    -- the node in `p_own_sn` does not count: the task is in no `WaitEvent`
    have hown : ∀ t, s.inWait t = true →
        Function.update (settle κ { s with stk := stk }).ownSn s.curr (some n.sn) t =
          s.ownSn t := by
      intro t ht
      rw [Function.update_of_ne (h.ne_curr ht), settle_ownSn]
    refine sound_switchIn hx (s := ⟨_, _, _, _, _, _⟩) (hkept.frame (fun t m => ?_) rfl)
      (h.waits.frame (settle_inWait _) (settle_waitMask _) hown (fun t ht hst => ?_)
        fun m hm hmw => ?_) ?_ (settle_top _)
    · dsimp only
      rw [settle_inWait, settle_ownSn]
      refine and_congr_right fun ht => ?_
      rw [Function.update_of_ne (h.ne_curr ht)]
    · exact (Function.update_of_ne (h.ne_curr ht) ..).trans (settle_stacked hst)
    · unfold Begun at hm
      dsimp only at hm
      rw [List.mem_cons] at hm
      rcases hm with hm | (rfl | hm) | hm
      · exact h.settled (fun _ => begun_pop hstk) (Or.inl hm) hmw
      · exact absurd hn (h.ne_curr hmw)
      · exact h.settled (fun _ => begun_pop hstk) (Or.inr (Or.inl hm)) hmw
      · exact h.settled (fun _ => begun_pop hstk) (Or.inr (Or.inr hm)) hmw
    · rw [settle_blocked]
      exact h.sem
  · unfold suspendRunningTask at he
    rcases hs : s.stk with _ | ⟨top, stk⟩
    · simp only [hs, Option.some.injEq] at he
      exact he ▸ h
    · have htop : s.curr = top.task := by
        rw [h.top, hs]
        rfl
      rw [htop] at hr
      simp only [hs, if_neg hr, Option.some.injEq] at he
      exact he ▸ h

lemma sound_waitSem {k : Sem} (h : Sound κ N s) (hc : (κ.tdb s.curr).taskType = .extended)
    (he : waitSem κ k s = some s') : Sound κ N s' := by
  obtain ⟨n, stk, hstk, hn⟩ := h.cons fun hi => by simp [(κ.idle_iff _).mpr hi] at hc
  rw [waitSem_cons κ hstk] at he
  split_ifs at he with hcount
  · obtain rfl := Option.some.inj he
    exact h.frame rfl rfl rfl rfl rfl rfl
  · obtain rfl := Option.some.inj he
    obtain ⟨place, job, hh, hpn, hjn, hN, hp⟩ := h.nodes.pop hstk
    have hperm := List.perm_orderedInsert
      (fun a b : Node ν => (settle κ { s with stk := stk }).prio b.task <
        (settle κ { s with stk := stk }).prio a.task) n
      ((settle κ { s with stk := stk }).blocked k)
    have hkept : Kept κ N _ := ⟨_, _, hh.toSem hpn hjn hperm, placed_put hp hN⟩
    have hmem : ∀ j, ∀ m ∈ Function.update (settle κ { s with stk := stk }).blocked k
        (semInsert (settle κ { s with stk := stk }).prio n
          ((settle κ { s with stk := stk }).blocked k)) j,
        m = n ∨ m ∈ (settle κ { s with stk := stk }).blocked j := by
      intro j m hm
      by_cases hj : j = k
      · subst hj
        rw [Function.update_self, semInsert, hperm.mem_iff, List.mem_cons] at hm
        exact hm
      · rw [Function.update_of_ne hj] at hm
        exact Or.inr hm
    refine sound_switchIn hx (s := ⟨_, _, _, _, _, _⟩) (hkept.frame (fun _ _ => Iff.rfl) rfl)
      (h.waits.frame (settle_inWait _) (settle_waitMask _)
        (fun t _ => congrFun (settle_ownSn _) t) (fun t ht hst => ?_) fun m hm hmw => ?_)
      (fun j m hm => ?_) (settle_top _)
    · exact (Function.update_of_ne (h.ne_curr ht) ..).trans (settle_stacked hst)
    · rcases hm with hm | hm | ⟨j, hm⟩
      · exact h.settled (fun _ => begun_pop hstk) (Or.inl hm) hmw
      · exact h.settled (fun _ => begun_pop hstk) (Or.inr (Or.inl hm)) hmw
      · rcases hmem j m hm with rfl | hm
        · exact absurd hn (h.ne_curr hmw)
        · exact h.settled (fun _ => begun_pop hstk) (Or.inr (Or.inr ⟨j, hm⟩)) hmw
    · rcases hmem j m hm with rfl | hm
      · rw [hn]
        exact hc
      · rw [settle_blocked] at hm
        exact h.sem j m hm

/-- The running task enters `WaitEvent`: its node has been taken off in `s₁`, where another
task has been chosen, and is left in `p_own_sn`. -/
lemma sound_leaveNode {s₁ : Core ν} {mask : ℕ} (h : Sound κ N s)
    (hc : (κ.tdb s.curr).taskType = .extended) (hn : n.task = s.curr)
    (hh : Holds κ s₁ place job) (hpn : place n.sn = none) (hjn : job n.sn = n.task)
    (hN : N n.sn) (hp : ∀ m, m ≠ n.sn → (place m = none ↔ ¬ N m))
    (hin : s₁.inWait = s.inWait) (hown : s₁.ownSn = s.ownSn)
    (hmask : s₁.waitMask = Function.update s.waitMask s.curr mask)
    (hst : ∀ t, s.status t = .readyStacked → s₁.status t = .readyStacked)
    (hb : ∀ m, Begun s₁ m → s.inWait m.task = true → m.task = s₁.curr)
    (hsem : s₁.blocked = s.blocked) (htop : s₁.curr = topTask κ s₁.stk) :
    Sound κ N ⟨Tcbs.switchIn { s₁.toTcbs with
        ownSn := Function.update s₁.ownSn s.curr (some n.sn)
        status := Function.update s₁.status s.curr .waiting
        inWait := Function.update s₁.inWait s.curr true },
      s₁.free, s₁.rq, s₁.stk, s₁.suspended, s₁.blocked⟩ := by
  have hheld := hh.toHeld hpn hjn (T := { s₁.toTcbs with
      ownSn := Function.update s₁.ownSn s.curr (some n.sn)
      status := Function.update s₁.status s.curr .waiting
      inWait := Function.update s₁.inWait s.curr true })
    (by rw [hin, hn]; exact h.here) (by rw [hn]) (by rw [hn]) rfl
  refine sound_switchIn hx (s := ⟨_, _, _, _, _, _⟩) ⟨_, _, hheld, placed_put hp hN⟩
    ⟨fun t ht => ?_, fun t ht => ?_, fun t ht ho => ?_, fun m hm hmw => ?_⟩
    (by rw [hsem]; exact h.sem) htop
  · by_cases he : t = s.curr
    · rw [he]
      exact Function.update_self ..
    · refine (Function.update_of_ne he ..).trans ?_
      rw [hmask, Function.update_of_ne he] at ht
      rw [hin]
      exact h.waits.mask t ht
  · by_cases he : t = s.curr
    · rw [he]
      exact hc
    · dsimp only at ht
      rw [Function.update_of_ne he, hin] at ht
      exact h.waits.extended t ht
  · dsimp only at ht ho
    by_cases he : t = s.curr
    · rw [he, Function.update_self] at ho
      simp at ho
    · rw [Function.update_of_ne he, hin] at ht
      rw [Function.update_of_ne he, hown] at ho
      exact (Function.update_of_ne he ..).trans (hst t (h.waits.woken t ht ho))
  · by_cases he : m.task = s.curr
    · -- the task has no other node
      have hl : Listed s₁ m := Or.inr hm
      obtain ⟨P, hP, hpm⟩ := hh.listed_place hl
      have hs : Single κ (job n.sn) := by
        rw [hjn, hn]
        exact ⟨Or.inr hc, hx _ hc⟩
      have hmn := (hh.single n.sn hs (by rw [hpn]; simp)).2 m.sn (by rw [hpm]; simpa using hP)
        (by rw [hh.listed m hl, hjn, hn, he])
      rw [hmn, hpn] at hpm
      simp at hpm
    · dsimp only at hmw
      rw [Function.update_of_ne he, hin] at hmw
      exact hb m hm hmw

lemma sound_waitEvent {mask : ℕ} (h : Sound κ N s) (hc : (κ.tdb s.curr).taskType = .extended)
    (he : waitEvent κ mask s = some s') : Sound κ N s' := by
  obtain ⟨n, stk, hstk, hn⟩ := h.cons fun hi => by simp [(κ.idle_iff _).mpr hi] at hc
  rw [waitEvent_cons κ hstk] at he
  split_ifs at he with hev
  · obtain rfl := Option.some.inj he
    have hmask : Kept κ N { s with waitMask := Function.update s.waitMask s.curr mask } :=
      h.nodes.frame (fun _ _ => Iff.rfl) rfl
    obtain ⟨place, job, hh, hpn, hjn, hN, hp⟩ := hmask.pop hstk
    exact sound_leaveNode hx h hc hn hh hpn hjn hN hp (settle_inWait _) (settle_ownSn _)
      (settle_waitMask _) (fun t ht => settle_stacked ht)
      (fun m => h.settled fun _ => begun_pop hstk) (settle_blocked _) (settle_top _)
  · exact Option.some.inj he ▸ h

omit hx in
/-- A node in hand is made ready. -/
lemma sound_unblocked (hh : Holds κ s place job) (hpn : place n.sn = none)
    (hjn : job n.sn = n.task) (hN : N n.sn) (hp : ∀ m, m ≠ n.sn → (place m = none ↔ ¬ N m))
    (hw : Waits κ { s with status := Function.update s.status n.task .readyStacked })
    (hsem : ∀ k, ∀ m ∈ s.blocked k, (κ.tdb m.task).taskType = .extended)
    (here : s.inWait s.curr = false) (htop : s.curr = topTask κ s.stk)
    (hrun : s.status s.curr = .running) (hne : n.task ≠ s.curr) :
    Sound κ N (unblocked κ n s) := by
  have hrq := hh.toRq hpn hjn (rqInsert_perm (κ := κ) n s.rq)
  have hkept : Kept κ N { s with rq := rqInsert κ n s.rq } := ⟨_, _, hrq, placed_put hp hN⟩
  exact ⟨hkept.frame (fun _ _ => Iff.rfl) rfl,
    hw.frame rfl rfl (fun _ _ => rfl) (fun _ _ => id) hw.awake, hsem, here, htop,
    (Function.update_of_ne hne.symm ..).trans hrun⟩

lemma sound_release (h : Sound κ N (unblocked κ n s)) : Sound κ N (release κ n s) := by
  rcases release_cases (s := s) κ n h.top with he | he
  · rw [he]; exact h
  · rw [he]; exact sound_resched hx h

/-- The task at the head of a semaphore queue is woken. -/
lemma sound_post {k : Sem} {q : List (Node ν)} (h : Sound κ N s) (hk : s.blocked k = n :: q) :
    Sound κ N (unblocked κ n { s with blocked := Function.update s.blocked k q }) := by
  obtain ⟨place, job, hh, hp⟩ := h.nodes
  have hb : Begun s n := Or.inr (Or.inr ⟨k, by rw [hk]; simp⟩)
  have hext : (κ.tdb n.task).taskType = .extended := h.sem k n (by rw [hk]; simp)
  have hpos : 0 < nocc s (.sem k) n.sn :=
    List.count_pos_iff.mpr (List.mem_map_of_mem (by rw [hk]; simp))
  have hpn := hh.exact.place_eq hpos
  have hjn := hh.listed n (Or.inr hb)
  have hsub : ∀ j, ∀ m ∈ Function.update s.blocked k q j, m ∈ s.blocked j := by
    intro j m hm
    by_cases hj : j = k
    · subst hj
      rw [Function.update_self] at hm
      rw [hk]
      exact List.mem_cons_of_mem _ hm
    · rwa [Function.update_of_ne hj] at hm
  have hne : n.task ≠ s.curr := by
    intro he
    -- the running task has its node on the stack
    have hidle : s.curr ≠ κ.idle := by
      intro hi
      rw [he, (κ.idle_iff _).mpr hi] at hext
      simp at hext
    obtain ⟨m, hm, hmt⟩ := List.mem_map.mp (topTask_mem h.top.symm hidle)
    obtain ⟨hpm, hjm⟩ := hh.stk_mem hm
    have hs : Single κ (job n.sn) := by
      rw [hjn]
      exact ⟨Or.inr hext, hx _ hext⟩
    have hmn := (hh.single n.sn hs (by rw [hpn]; simp)).2 m.sn (by rw [hpm]; simp)
      (by rw [hjm, hjn, hmt, he])
    rw [← hmn, hpm] at hpn
    simp at hpn
  refine sound_unblocked (hh.fromSem hk) (Function.update_self ..) hjn ?_ (fun m hm => ?_)
    (h.waits.frame rfl rfl (fun _ _ => rfl) (fun t _ => stacked_update) fun m hm hmw => ?_)
    (fun j m hm => h.sem j m (hsub j m hm)) h.here h.top h.run hne
  · exact mem_of_placed hp hpn
  · rw [Function.update_of_ne hm]
    exact hp m
  · refine h.waits.awake m ?_ hmw
    rcases hm with hm | hm | ⟨j, hm⟩
    · exact Or.inl hm
    · exact Or.inr (Or.inl hm)
    · exact Or.inr (Or.inr ⟨j, hsub j m hm⟩)

lemma sound_postSem {k : Sem} (h : Sound κ N s) : Sound κ N (postSem κ k s) := by
  unfold postSem
  split
  · next n q hk => exact sound_release hx (sound_post hx h hk)
  · exact h.frame rfl rfl rfl rfl rfl rfl

omit hx in
/-- A task that waits for an event is woken. -/
lemma sound_wake {t : Tid} {sn : ν} {em : Tid → ℕ} (h : Sound κ N s) (hm : s.waitMask t ≠ 0)
    (ho : s.ownSn t = some sn) :
    Sound κ N (unblocked κ ⟨sn, t⟩
      { s with eventMask := em, ownSn := Function.update s.ownSn t none }) := by
  have hin := h.waits.mask t hm
  obtain ⟨place, job, hh, hp⟩ := h.nodes
  obtain ⟨hps, hjs⟩ := hh.held_mem hin ho
  refine sound_unblocked (n := ⟨sn, t⟩) (hh.fromHeld hin ho rfl rfl rfl)
    (Function.update_self ..) hjs ?_ (fun m hm => ?_)
    ⟨h.waits.mask, h.waits.extended, fun u hu hou => ?_, h.waits.awake⟩ h.sem h.here h.top h.run
    (h.ne_curr hin)
  · exact mem_of_placed hp hps
  · rw [Function.update_of_ne hm]
    exact hp m
  · by_cases he : u = t
    · subst he
      exact Function.update_self ..
    · refine (Function.update_of_ne he ..).trans (h.waits.woken u hu ?_)
      exact (Function.update_of_ne he ..).symm.trans hou

lemma sound_setEvent {t : Tid} {mask : ℕ} (h : Sound κ N s) : Sound κ N (setEvent κ t mask s) := by
  rcases setEvent_cases κ t mask s with ⟨em, he⟩ | ⟨em, sn, hm, ho, he⟩
  · rw [he]
    exact h.frame rfl rfl rfl rfl rfl rfl
  · rw [he]
    exact sound_release hx (sound_wake h hm ho)

lemma sound_chain {t : Tid} (h : Sound κ N s) (hc : s.curr ≠ κ.idle)
    (he : chainTask κ t s = some s') : Sound κ N s' := by
  by_cases ht : t = s.curr
  · rw [ht] at he
    exact sound_chainSelf hx h hc he
  · obtain ⟨hact, s₁, hins, he⟩ | rfl := chainTask_some ht he
    · obtain ⟨m, free, hf, rfl⟩ := taskInsertRq_some hins
      exact sound_terminate hx (sound_ready h hact hf) hc he
    · exact h

end Services

/-! ### Memory phases -/

lemma sound_suspendHighest (h : Sound κ N s) (hi : (κ.tdb s.curr).taskType = .isr2) :
    Sound κ N (suspendHighestPriorityActiveTaskFromIsr κ s) := by
  unfold suspendHighestPriorityActiveTaskFromIsr
  rcases hn : highestStacked κ s with _ | n
  · exact h
  · obtain ⟨a, b, hstk, hreg, hrem, -, -⟩ := highestStacked_some hn
    dsimp only
    rw [hrem]
    obtain ⟨place, job, hh, hp⟩ := h.nodes
    have hmem : n ∈ s.stk := by
      rw [hstk]
      simp
    obtain ⟨hpn, hjn⟩ := hh.stk_mem hmem
    have hmove := (hh.fromStk (show s.stk.Perm (n :: (a ++ b)) by
      rw [hstk]; exact List.perm_middle)).toSusp (Function.update_self ..) hjn
      (List.Perm.refl _)
    refine ⟨⟨_, _, hmove, placed_put (fun m hm => ?_) (mem_of_placed hp hpn)⟩,
      h.waits.frame rfl rfl (fun _ _ => rfl) (fun _ _ => id) (fun m hm hmw => ?_), h.sem, h.here,
      ?_, h.run⟩
    · rw [Function.update_of_ne hm]
      exact hp m
    · refine h.waits.awake m ?_ hmw
      unfold Begun at hm ⊢
      dsimp only at hm
      rw [List.mem_cons, List.mem_append] at hm
      rw [hstk, List.mem_append, List.mem_cons]
      tauto
    -- the top of the stack is the ISR2, which stays
    · have htop := h.top
      rw [hstk] at htop
      cases a with
      | nil =>
        rw [show s.curr = n.task from htop] at hi
        exact absurd hreg (not_regular_of_isr2 hi)
      | cons x a => exact htop

/-- The suspended task of highest priority goes to the stack, below its top. -/
lemma sound_resume (stk : List (Node ν)) (h : Sound κ N s) (hn : highestSuspended s = some n)
    (hstk : stk.Perm (n :: s.stk)) (htop : topTask κ stk = topTask κ s.stk) :
    Sound κ N { s with suspended := listRemove n s.suspended, stk := stk } := by
  obtain ⟨c, d, hs, hrem, -, -⟩ := highestSuspended_some hn
  rw [hrem]
  obtain ⟨place, job, hh, hp⟩ := h.nodes
  obtain ⟨hpn, hjn⟩ := hh.susp_mem (highestSuspended_mem hn)
  have hmove := (hh.fromSusp (show s.suspended.Perm (n :: (c ++ d)) by
    rw [hs]; exact List.perm_middle)).toStk (Function.update_self ..) hjn hstk
  refine ⟨⟨_, _, hmove, placed_put (fun m hm => ?_) (mem_of_placed hp hpn)⟩,
    h.waits.frame rfl rfl (fun _ _ => rfl) (fun _ _ => id) (fun m hm hmw => ?_), h.sem, h.here,
    h.top.trans htop.symm, h.run⟩
  · rw [Function.update_of_ne hm]
    exact hp m
  · refine h.waits.awake m ?_ hmw
    unfold Begun at hm ⊢
    dsimp only at hm
    rw [hstk.mem_iff, List.mem_cons, List.mem_append] at hm
    rw [hs, List.mem_append, List.mem_cons]
    tauto

lemma sound_resumeFromIsr (h : Sound κ N s) (hc : s.curr ≠ κ.idle) :
    Sound κ N (resumeHighestPriorityTaskFromIsr κ s) := by
  unfold resumeHighestPriorityTaskFromIsr
  rcases hn : highestSuspended s with _ | n
  · exact h
  · obtain ⟨top, stk, hstk, -⟩ := h.cons hc
    obtain ⟨l, hl, hperm⟩ := listInsertBefore_cons (n := n) (firstRegular κ s.stk) top stk
    have hres := sound_resume (listInsertBefore n (firstRegular κ s.stk) s.stk) h hn
      (by rw [hstk] at hl ⊢; rw [hl]; exact (hperm.cons top).trans (List.Perm.swap n top stk))
      (by rw [hstk] at hl ⊢; rw [hl]; rfl)
    exact hres.frame rfl rfl rfl rfl rfl rfl

lemma sound_resumeHighest (h : Sound κ N s) (hc : s.curr ≠ κ.idle) :
    Sound κ N (resumeHighestPriorityTask s) := by
  unfold resumeHighestPriorityTask
  rcases hn : highestSuspended s with _ | n
  · exact h
  · obtain ⟨top, stk, hstk, -⟩ := h.cons hc
    refine sound_resume _ h hn ?_ ?_
    · rw [hstk, listInsertAfter_head]
      exact List.Perm.swap n top stk
    · rw [hstk, listInsertAfter_head]
      rfl

/-! ### Runs -/

/-- The calls that move scheduler nodes. -/
inductive Op
  | activateTask (t : Tid)
  | chainTask (t : Tid)
  /-- `TerminateTask`, or the end of an ISR2. -/
  | terminate
  | interrupt (i : Tid)
  | preemptionPoint
  | waitEvent (mask : ℕ)
  | setEvent (t : Tid) (mask : ℕ)
  | waitSem (k : Sem)
  | postSem (k : Sem)
  | suspendRunningTask
  | suspendHighestPriorityActiveTaskFromIsr
  | resumeHighestPriorityTaskFromIsr
  | resumeHighestPriorityTask
  /-- What the services do to a current priority in between. -/
  | setPrio (t : Tid) (p : ℕ)
  deriving DecidableEq

def perform (κ : Kdb) (s : Core ν) : Op → Option (Core ν)
  | .activateTask t => if (κ.tdb t).Regular then activateTask κ t s else none
  | .chainTask t =>
    if (κ.tdb s.curr).Regular ∧ (κ.tdb t).Regular then chainTask κ t s else none
  | .terminate => if s.curr ≠ κ.idle then taskTerminated κ s else none
  | .interrupt i => if (κ.tdb i).taskType = .isr2 then activateIsr2 i s else none
  | .preemptionPoint => some (taskPreemptionPoint κ s)
  | .waitEvent mask =>
    if (κ.tdb s.curr).taskType = .extended then waitEvent κ mask s else none
  | .setEvent t mask => some (setEvent κ t mask s)
  | .waitSem k => if (κ.tdb s.curr).taskType = .extended then waitSem κ k s else none
  | .postSem k => some (postSem κ k s)
  | .suspendRunningTask => suspendRunningTask κ s
  | .suspendHighestPriorityActiveTaskFromIsr =>
    if (κ.tdb s.curr).taskType = .isr2 then
      some (suspendHighestPriorityActiveTaskFromIsr κ s)
    else none
  | .resumeHighestPriorityTaskFromIsr =>
    if (κ.tdb s.curr).taskType = .isr2 then
      some (resumeHighestPriorityTaskFromIsr κ s)
    else none
  | .resumeHighestPriorityTask =>
    if (κ.tdb s.curr).Regular then some (resumeHighestPriorityTask s) else none
  | .setPrio t p => some { s with prio := Function.update s.prio t p }

lemma ne_idle_of_regular {t : Tid} (h : (κ.tdb t).Regular) : t ≠ κ.idle :=
  fun hi => regular_ne_idle h ((κ.idle_iff t).mpr hi)

lemma ne_idle_of_isr2 {t : Tid} (h : (κ.tdb t).taskType = .isr2) : t ≠ κ.idle :=
  fun hi => isr2_ne_idle h ((κ.idle_iff t).mpr hi)

lemma sound_perform (hx : ∀ t, (κ.tdb t).taskType = .extended → (κ.tdb t).maxNumOfAct = 1)
    {o : Op} (h : Sound κ N s) (he : perform κ s o = some s') : Sound κ N s' := by
  cases o with
  | activateTask t =>
    exact sound_activate hx h (Option.ite_none_right_eq_some.mp he).2
  | chainTask t =>
    obtain ⟨⟨hr, -⟩, he⟩ := Option.ite_none_right_eq_some.mp he
    exact sound_chain hx h (ne_idle_of_regular hr) he
  | terminate =>
    obtain ⟨hc, he⟩ := Option.ite_none_right_eq_some.mp he
    exact sound_terminate hx h hc he
  | interrupt i =>
    obtain ⟨hi, he⟩ := Option.ite_none_right_eq_some.mp he
    exact sound_interrupt hx h hi he
  | preemptionPoint => exact Option.some.inj he ▸ sound_preemptionPoint hx h
  | waitEvent mask =>
    obtain ⟨hc, he⟩ := Option.ite_none_right_eq_some.mp he
    exact sound_waitEvent hx h hc he
  | setEvent t mask => exact Option.some.inj he ▸ sound_setEvent hx h
  | waitSem k =>
    obtain ⟨hc, he⟩ := Option.ite_none_right_eq_some.mp he
    exact sound_waitSem hx h hc he
  | postSem k => exact Option.some.inj he ▸ sound_postSem hx h
  | suspendRunningTask => exact sound_suspendRunning hx h he
  | suspendHighestPriorityActiveTaskFromIsr =>
    obtain ⟨hi, he⟩ := Option.ite_none_right_eq_some.mp he
    exact Option.some.inj he ▸ sound_suspendHighest h hi
  | resumeHighestPriorityTaskFromIsr =>
    obtain ⟨hi, he⟩ := Option.ite_none_right_eq_some.mp he
    exact Option.some.inj he ▸ sound_resumeFromIsr h (ne_idle_of_isr2 hi)
  | resumeHighestPriorityTask =>
    obtain ⟨hr, he⟩ := Option.ite_none_right_eq_some.mp he
    exact Option.some.inj he ▸ sound_resumeHighest h (ne_idle_of_regular hr)
  | setPrio t p => exact Option.some.inj he ▸ h.frame rfl rfl rfl rfl rfl rfl

/-- The context an operation is issued in. -/
def Issued (κ : Kdb) (curr : Tid) : Op → Prop
  | .activateTask t => (κ.tdb t).Regular
  | .chainTask t => (κ.tdb curr).Regular ∧ (κ.tdb t).Regular
  | .terminate => curr ≠ κ.idle
  | .interrupt i => (κ.tdb i).taskType = .isr2
  | .waitEvent _ | .waitSem _ => (κ.tdb curr).taskType = .extended
  | .suspendHighestPriorityActiveTaskFromIsr | .resumeHighestPriorityTaskFromIsr =>
    (κ.tdb curr).taskType = .isr2
  | .resumeHighestPriorityTask => (κ.tdb curr).Regular
  | .preemptionPoint | .setEvent _ _ | .postSem _ | .suspendRunningTask | .setPrio _ _ => True

/-- The operations that may need a free node. -/
def Allocates : Op → Prop
  | .activateTask _ | .chainTask _ | .interrupt _ => True
  | _ => False

omit [DecidableEq ν] in
lemma taskInsertRq_isSome (t : Tid) (hf : s.free ≠ []) : ∃ s', taskInsertRq κ t s = some s' := by
  obtain ⟨m, free, hfree⟩ := List.exists_cons_of_ne_nil hf
  unfold taskInsertRq snAlloc
  rw [hfree]
  exact ⟨_, rfl⟩

lemma terminate_isSome (h : Sound κ N s) (hc : s.curr ≠ κ.idle) :
    ∃ s', taskTerminated κ s = some s' := by
  obtain ⟨n, stk, hstk, -⟩ := h.cons hc
  exact ⟨_, taskTerminated_cons κ h.run hstk⟩

/-- An operation that is issued in its context returns. -/
lemma perform_isSome {o : Op} (h : Sound κ N s) (hi : Issued κ s.curr o)
    (ha : Allocates o → s.free ≠ []) : ∃ s', perform κ s o = some s' := by
  unfold perform
  cases o with
  | activateTask t =>
    have hi : (κ.tdb t).Regular := hi
    simp only [if_pos hi]
    obtain ⟨m, free, hfree⟩ := List.exists_cons_of_ne_nil (ha trivial)
    unfold activateTask Tcbs.taskActivated
    by_cases hact : s.numOfAct t < (κ.tdb t).maxNumOfAct
    · simp only [if_pos hact]
      unfold schedulerTaskActivated
      dsimp only
      split_ifs
      · unfold snAlloc
        rw [hfree]
        exact ⟨_, rfl⟩
      · exact taskInsertRq_isSome t (ha trivial)
    · simp only [if_neg hact]
      exact ⟨_, rfl⟩
  | chainTask t =>
    have hi : (κ.tdb s.curr).Regular ∧ (κ.tdb t).Regular := hi
    simp only [if_pos hi]
    by_cases ht : t = s.curr
    · obtain ⟨n, stk, hstk, -⟩ := h.cons (ne_idle_of_regular hi.1)
      rw [ht, chainSelf_cons κ hstk]
      exact ⟨_, rfl⟩
    · unfold chainTask Tcbs.taskActivated
      rw [if_neg ht]
      by_cases hact : s.numOfAct t < (κ.tdb t).maxNumOfAct
      · simp only [if_pos hact]
        obtain ⟨m, free, hfree⟩ := List.exists_cons_of_ne_nil (ha trivial)
        obtain ⟨s₁, hins⟩ := taskInsertRq_isSome (κ := κ) (s := { s with
          numOfAct := Function.update s.numOfAct t (s.numOfAct t + 1) }) t (ha trivial)
        rw [hins, Option.bind_some]
        obtain ⟨m, free, hf, rfl⟩ := taskInsertRq_some hins
        exact terminate_isSome (sound_ready h hact hf) (ne_idle_of_regular hi.1)
      · simp only [if_neg hact]
        exact ⟨_, rfl⟩
  | terminate =>
    have hi : s.curr ≠ κ.idle := hi
    simp only [if_pos hi]
    exact terminate_isSome h hi
  | interrupt i =>
    have hi : (κ.tdb i).taskType = .isr2 := hi
    simp only [if_pos hi]
    obtain ⟨m, free, hfree⟩ := List.exists_cons_of_ne_nil (ha trivial)
    unfold activateIsr2 taskSetRunning snAlloc
    rw [hfree]
    exact ⟨_, rfl⟩
  | waitEvent mask =>
    have hi : (κ.tdb s.curr).taskType = .extended := hi
    simp only [if_pos hi]
    obtain ⟨n, stk, hstk, -⟩ := h.cons (ne_idle_of_regular (Or.inr hi))
    rw [waitEvent_cons κ hstk]
    split_ifs
    · exact ⟨_, rfl⟩
    · exact ⟨_, rfl⟩
  | waitSem k =>
    have hi : (κ.tdb s.curr).taskType = .extended := hi
    simp only [if_pos hi]
    obtain ⟨n, stk, hstk, -⟩ := h.cons (ne_idle_of_regular (Or.inr hi))
    rw [waitSem_cons κ hstk]
    split_ifs
    · exact ⟨_, rfl⟩
    · exact ⟨_, rfl⟩
  | suspendRunningTask =>
    by_cases hc : s.curr = κ.idle
    · unfold suspendRunningTask
      rcases hs : s.stk with _ | ⟨top, stk⟩
      · exact ⟨_, rfl⟩
      · have htop : top.task = κ.idle := by
          rw [← hc, h.top, hs]
          rfl
        have hr : ¬ (κ.tdb top.task).Regular := by
          rw [htop]
          exact fun hr => ne_idle_of_regular hr rfl
        simp only [if_neg hr]
        exact ⟨_, rfl⟩
    · obtain ⟨n, stk, hstk, -⟩ := h.cons hc
      by_cases hr : (κ.tdb n.task).Regular
      · dsimp only
        rw [suspendRunningTask_cons κ hstk hr]
        exact ⟨_, rfl⟩
      · unfold suspendRunningTask
        simp only [hstk, if_neg hr]
        exact ⟨_, rfl⟩
  | suspendHighestPriorityActiveTaskFromIsr =>
    have hi : (κ.tdb s.curr).taskType = .isr2 := hi
    simp only [if_pos hi]
    exact ⟨_, rfl⟩
  | resumeHighestPriorityTaskFromIsr =>
    have hi : (κ.tdb s.curr).taskType = .isr2 := hi
    simp only [if_pos hi]
    exact ⟨_, rfl⟩
  | resumeHighestPriorityTask =>
    have hi : (κ.tdb s.curr).Regular := hi
    simp only [if_pos hi]
    exact ⟨_, rfl⟩
  | preemptionPoint => exact ⟨_, rfl⟩
  | setEvent t mask => exact ⟨_, rfl⟩
  | postSem k => exact ⟨_, rfl⟩
  | setPrio t p => exact ⟨_, rfl⟩

/-- An event does not wake a task that DPREM has suspended. -/
lemma setEvent_suspended {m : Node ν} (h : Sound κ N s) (hm : m ∈ s.suspended) (mask : ℕ) :
    ∃ em, s.toTcbs.eventSetMask κ m.task mask = ({ s.toTcbs with eventMask := em }, none) := by
  rcases eventSetMask_cases κ m.task mask s.toTcbs with he | ⟨em, sn, hw, -, -⟩
  · exact he
  · have hin := h.waits.mask _ hw
    rw [h.quiet (Or.inr (Or.inl hm))] at hin
    simp at hin

lemma sound_init (κ : Kdb) (free : List (Node ν)) (hf : (free.map Node.sn).Nodup) :
    Sound κ (· ∈ free.map Node.sn) (init κ free) := by
  have hnone : ∀ m, ¬ Listed (init κ free) m := by
    simp [Listed, init]
  have hexact : Exact (nocc (init κ free))
      fun m => if m ∈ free.map Node.sn then some Place.free else none := by
    intro p m
    cases p with
    | free =>
      simp only [nocc, init]
      by_cases hm : m ∈ free.map Node.sn
      · rw [if_pos hm, ind_some, if_pos rfl]
        exact List.count_eq_one_of_mem hf hm
      · rw [if_neg hm, ind_none]
        exact List.count_eq_zero_of_not_mem hm
    | _ =>
      simp only [nocc, init]
      by_cases hm : m ∈ free.map Node.sn
      · simp [hm, ind_some]
      · simp [hm]
  refine ⟨⟨_, fun _ => κ.idle, ⟨hexact, fun m hm => absurd hm (hnone m), ?_, ?_⟩, fun m => ?_⟩,
    ⟨?_, ?_, ?_, fun m hm => absurd (Or.inr hm) (hnone m)⟩,
    fun k m hm => absurd (Or.inr (Or.inr (Or.inr ⟨k, hm⟩))) (hnone m), rfl, rfl, if_pos rfl⟩
  · simp [init]
  · intro m hs
    have := (κ.idle_iff κ.idle).mpr rfl
    exact absurd this (regular_ne_idle hs.1)
  · by_cases hm : m ∈ free.map Node.sn
    · simp [hm]
    · simp [hm]
  · simp [init]
  · simp [init]
  · simp [init]

end FpMemSched.Erika.Operations
