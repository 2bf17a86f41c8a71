import FpMemSched.Erika.Carried

/-!
The operations on the nodes refine the operations on the queues.

Each operation on the nodes does to the lists that the heads lead along what the operation on
the queues says, and it returns: no loop runs on, and no null pointer is read that the
operation on the queues does not stop at. So the nodes in memory are conserved, as they are in
the queues.
-/

namespace FpMemSched.Erika.Refinement

open FpMemSched.Lib FpMemSched.Lib.Linked FpMemSched.Lib.Runs
open FpMemSched.Erika.Kernel FpMemSched.Erika.Dprem FpMemSched.Erika.Order
open FpMemSched.Erika.Started FpMemSched.Erika.Nodes FpMemSched.Erika.Operations
open FpMemSched.Erika.Carried
open FpMemSched.Erika.Pointers (Queue Ccb)

variable {ν : Type} [DecidableEq ν] {κ : Kdb} {fuel : ℕ}

/-! ### Services -/

/-- The control blocks agree, the heads lead along the queues, and a node that a task in
`WaitEvent` keeps stands for this task. -/
structure Refines (p : Ccb ν) (s : Core ν) : Prop where
  tcbs : p.toTcbs = s.toTcbs
  carries : Carries p.toHeap p.tdb (queue s)
  held : ∀ t m, s.inWait t = true → s.ownSn t = some m → p.tdb m = t

section Services

variable {s s' : Core ν} {tdb : ν → Tid} {N : ν → Prop}

omit [DecidableEq ν] in
lemma switchIn_inWait {T : Tcbs ν} {t : Tid} (h : T.switchIn.inWait t = true) :
    T.inWait t = true := by
  unfold Tcbs.switchIn at h
  dsimp only at h
  split_ifs at h
  · by_cases ht : t = T.curr
    · rw [ht, Function.update_self] at h
      simp at h
    · rwa [Function.update_of_ne ht] at h
  · exact h

omit [DecidableEq ν] in
/-- A change that leaves waiting tasks as they are, and then the next task goes on. -/
lemma held_switchIn (h : ∀ t m, s.inWait t = true → s.ownSn t = some m → tdb m = t) {T : Tcbs ν}
    (hw : T.inWait = s.inWait) (ho : T.ownSn = s.ownSn) (t : Tid) (m : ν)
    (ht : T.switchIn.inWait t = true) (hm : T.switchIn.ownSn t = some m) : tdb m = t := by
  refine h t m ?_ ?_
  · rw [← hw]
    exact switchIn_inWait ht
  · rw [← ho]
    exact hm

/-- The place that a queue is. -/
def placeOf : Queue → Place
  | .free => .free
  | .rq => .rq
  | .stk => .stk
  | .suspended => .susp
  | .sem k => .sem k

lemma nocc_placeOf (s : Core ν) (q : Queue) (n : ν) :
    nocc s (placeOf q) n = ((queue s q).map Node.sn).count n := by
  cases q <;> rfl

lemma nocc_pos {q : Queue} {n : ν} (hn : n ∈ (queue s q).map Node.sn) :
    0 < nocc s (placeOf q) n := by
  rw [nocc_placeOf]
  exact List.count_pos_iff.mpr hn

/-- No node that a task in `WaitEvent` keeps is free. -/
def Clear (s : Core ν) : Prop :=
  ∀ t x, s.inWait t = true → s.ownSn t = some x → ∀ m ∈ s.free, x ≠ m.sn

lemma clear_of_sound (hs : Sound κ N s) : Clear s := by
  rintro t x hw ho m hm rfl
  obtain ⟨place, job, hh, -⟩ := hs.nodes
  have hpos : 0 < nocc s .free m.sn := List.count_pos_iff.mpr (List.mem_map_of_mem hm)
  have h₁ := hh.exact.place_eq hpos
  rw [(hh.held_mem hw ho).1] at h₁
  simp at h₁

omit [DecidableEq ν] in
/-- Two calls in a row. -/
lemma rel_bind {x : Option (Ccb ν)} {y : Option (Core ν)} {f : Ccb ν → Option (Ccb ν)}
    {k : Core ν → Option (Core ν)} (h : Option.Rel Refines x y)
    (hf : ∀ p s, y = some s → Refines p s → Option.Rel Refines (f p) (k s)) :
    Option.Rel Refines (x.bind f) (y.bind k) := by
  cases h with
  | none => exact Option.Rel.none
  | some hr => exact hf _ _ rfl hr

variable {p : Ccb ν} (h : Refines p s) (hs : Sound κ N s)

include h

lemma refines_preemptionPoint :
    Refines (Pointers.taskPreemptionPoint κ p) (taskPreemptionPoint κ s) := by
  obtain ⟨T, g, tdb⟩ := p
  obtain rfl : T = s.toTcbs := h.tcbs
  obtain ⟨g', he, hc, -⟩ := rqPreemptStk_eq (κ := κ) h.carries
  have hkeep : (rqPreemptStk κ s).1.inWait = s.inWait ∧ (rqPreemptStk κ s).1.ownSn = s.ownSn := by
    unfold rqPreemptStk
    split
    · exact ⟨rfl, rfl⟩
    · split_ifs <;> exact ⟨rfl, rfl⟩
    · exact ⟨rfl, rfl⟩
  unfold Pointers.taskPreemptionPoint taskPreemptionPoint
  rw [he]
  generalize rqPreemptStk κ s = x at hc hkeep ⊢
  rcases x with ⟨s', _ | t⟩
  · exact ⟨rfl, hc, fun t m hw ho => h.held t m (hkeep.1 ▸ hw) (hkeep.2 ▸ ho)⟩
  · exact ⟨rfl, hc, held_switchIn h.held hkeep.1 hkeep.2⟩

omit [DecidableEq ν] in
lemma refines_getResource {r : Res} :
    Refines (Pointers.getResource κ r p) (getResource κ r s) := by
  obtain ⟨T, g, tdb⟩ := p
  obtain rfl : T = s.toTcbs := h.tcbs
  unfold Pointers.getResource getResource
  dsimp only
  split_ifs
  · exact h
  · exact ⟨rfl, h.carries, h.held⟩
  · exact ⟨rfl, h.carries, h.held⟩

lemma refines_releaseResource {r : Res} :
    Refines (Pointers.releaseResource κ r p) (releaseResource κ r s) := by
  obtain ⟨T, g, tdb⟩ := p
  obtain rfl : T = s.toTcbs := h.tcbs
  unfold Pointers.releaseResource releaseResource
  dsimp only
  split_ifs
  · exact h
  · exact refines_preemptionPoint ⟨rfl, h.carries, h.held⟩
  · exact refines_preemptionPoint ⟨rfl, h.carries, h.held⟩

lemma refines_insertRq {t : Tid} (hcl : Clear s) (hf : s.rq.length < fuel) :
    Option.Rel Refines (Pointers.taskInsertRq κ fuel t p) (taskInsertRq κ t s) := by
  obtain ⟨T, g, tdb⟩ := p
  obtain rfl : T = s.toTcbs := h.tcbs
  unfold Pointers.taskInsertRq taskInsertRq snAlloc
  rcases hfree : s.free with _ | ⟨m, free⟩
  · rw [snAlloc_nil h.carries hfree]
    exact Option.Rel.none
  · obtain ⟨g', he, -, hcar, hin⟩ := snAlloc_eq (T := s.toTcbs.makeReady t) h.carries hfree
    obtain ⟨g'', he', hcar'⟩ := rqInsert_eq (κ := κ) (T := s.toTcbs.makeReady t)
      (t := t) hcar hin hf
    dsimp only at he he' ⊢
    rw [he]
    dsimp only [Option.bind_some]
    rw [he']
    refine Option.Rel.some ⟨rfl, hcar', fun u x hw ho => ?_⟩
    exact (Function.update_of_ne (hcl u x hw ho m (by rw [hfree]; simp)) ..).trans (h.held u x hw ho)

/-- A free node is used for a new activation on the stack. -/
lemma start_eq {T : Tcbs ν} {m : Node ν} {free : List (Node ν)} (hcl : Clear s)
    (hf : s.free = m :: free) (t : Tid) :
    ∃ g', Pointers.snAlloc ⟨T, p.toHeap, p.tdb⟩ = some (⟨T, g', p.tdb⟩, m.sn) ∧
      g'.head .stk = p.head .stk ∧
      Carries ⟨Function.update g'.next m.sn (g'.head .stk),
          Function.update g'.head .stk (some m.sn)⟩ (Function.update p.tdb m.sn t)
        (queue { s with free := free, stk := ⟨m.sn, t⟩ :: s.stk }) ∧
      ∀ u x, s.inWait u = true → s.ownSn u = some x → Function.update p.tdb m.sn t x = u := by
  obtain ⟨g', he, hhead, hcar, hin⟩ := snAlloc_eq (T := T) h.carries hf
  have hpush := (hcar.rename hin t).push (n := ⟨m.sn, t⟩) hin .stk fun _ =>
    Function.update_self ..
  rw [queue_stk] at hpush
  exact ⟨g', he, hhead, hpush, fun u x hw ho =>
    (Function.update_of_ne (hcl u x hw ho m (by rw [hf]; simp)) ..).trans (h.held u x hw ho)⟩

include hs

lemma refines_terminate (hc : s.curr ≠ κ.idle) :
    Option.Rel Refines (Pointers.taskTerminated κ fuel p) (taskTerminated κ s) := by
  obtain ⟨T, g, tdb⟩ := p
  obtain rfl : T = s.toTcbs := h.tcbs
  obtain ⟨n, stk, hstk, hn⟩ := hs.cons hc
  obtain ⟨g', he, hcar, hin⟩ := popRunning_eq (κ := κ) h.carries hstk
  rw [taskTerminated_cons κ hs.run hstk]
  unfold Pointers.taskTerminated
  dsimp only
  rw [if_pos hs.run, he, Option.map_some]
  have hpush := hcar.push hin .free (by simp)
  rw [queue_free] at hpush
  exact Option.Rel.some ⟨rfl, hpush, held_switchIn h.held
    ((congrArg Tcbs.inWait (ended_eq ..)).trans (settle_inWait _))
    ((congrArg Tcbs.ownSn (ended_eq ..)).trans (settle_ownSn _))⟩

lemma refines_interrupt {i : Tid} :
    Option.Rel Refines (Pointers.activateIsr2 i p) (activateIsr2 i s) := by
  obtain ⟨T, g, tdb⟩ := p
  obtain rfl : T = s.toTcbs := h.tcbs
  unfold Pointers.activateIsr2 Pointers.taskSetRunning activateIsr2 taskSetRunning snAlloc
  rcases hfree : s.free with _ | ⟨m, free⟩
  · dsimp only
    rw [snAlloc_nil (g := g) h.carries hfree]
    exact Option.Rel.none
  · obtain ⟨g', he, hhead, hcar, hheld⟩ := start_eq h (clear_of_sound hs) (T := { s.toTcbs with
      numOfAct := Function.update s.numOfAct i (s.numOfAct i + 1)
      status := if s.status s.curr = .running then
          Function.update s.status s.curr .readyStacked
        else s.status
      curr := i }) hfree i
    dsimp only at he hhead ⊢
    rw [he]
    rw [hhead] at hcar
    exact Option.Rel.some ⟨rfl, hcar, held_switchIn hheld rfl rfl⟩

lemma refines_activate {t : Tid} (hf : s.rq.length < fuel) :
    Option.Rel Refines (Pointers.activateTask κ fuel t p) (activateTask κ t s) := by
  unfold Pointers.activateTask activateTask Tcbs.taskActivated
  rw [h.tcbs]
  by_cases hact : s.numOfAct t < (κ.tdb t).maxNumOfAct
  · simp only [if_pos hact]
    have hact' : Refines ⟨{ s.toTcbs with
        numOfAct := Function.update s.numOfAct t (s.numOfAct t + 1) }, p.toHeap, p.tdb⟩
        { s with numOfAct := Function.update s.numOfAct t (s.numOfAct t + 1) } :=
      ⟨rfl, h.carries, h.held⟩
    unfold Pointers.schedulerTaskActivated schedulerTaskActivated
    dsimp only
    by_cases hp : s.prio s.curr < s.prio t
    · rw [if_pos hp, if_pos hp]
      unfold snAlloc
      rcases hfree : s.free with _ | ⟨m, free⟩
      · rw [snAlloc_nil h.carries hfree]
        exact Option.Rel.none
      · obtain ⟨g', he, hhead, hcar, hheld⟩ := start_eq h (clear_of_sound hs) (T := { s.toTcbs with
          numOfAct := Function.update s.numOfAct t (s.numOfAct t + 1) }) hfree t
        rw [he]
        exact Option.Rel.some ⟨rfl, hcar, held_switchIn hheld rfl rfl⟩
    · rw [if_neg hp, if_neg hp]
      have hcl := clear_of_sound hs
      exact refines_insertRq hact' hcl hf
  · simp only [if_neg hact]
    exact Option.Rel.some h

lemma refines_chainSelf (hc : s.curr ≠ κ.idle) (hf : s.rq.length < fuel) :
    Option.Rel Refines (Pointers.chainTask κ fuel s.curr p) (chainTask κ s.curr s) := by
  obtain ⟨T, g, tdb⟩ := p
  obtain rfl : T = s.toTcbs := h.tcbs
  obtain ⟨n, stk, hstk, hn⟩ := hs.cons hc
  rw [chainSelf_cons κ hstk]
  have hcar := h.carries
  have hhead := hcar.head_eq .stk
  rw [show queue s .stk = n :: stk from hstk] at hhead
  obtain ⟨hpop, hin⟩ := hcar.pop (q := .stk) hstk
  rw [queue_stk] at hpop hin
  obtain ⟨g', he, hins⟩ := rqInsert_eq (κ := κ) (t := s.curr) (T := { s.toTcbs with
    prio := Function.update s.prio s.curr (κ.tdb s.curr).readyPrio
    status := Function.update s.status s.curr .ready
    eventMask := if s.numOfAct s.curr = 1 then Function.update s.eventMask s.curr 0
      else s.eventMask }) hpop hin hf
  obtain ⟨g'', he', hcar'⟩ := chainedNext_eq (κ := κ) (s := { s with
    stk := stk
    prio := Function.update s.prio s.curr (κ.tdb s.curr).readyPrio
    status := Function.update s.status s.curr .ready
    eventMask := if s.numOfAct s.curr = 1 then Function.update s.eventMask s.curr 0
      else s.eventMask
    rq := rqInsert κ ⟨n.sn, s.curr⟩ s.rq }) hins
    (List.ne_nil_of_mem ((rqInsert_perm _ _).mem_iff.mpr List.mem_cons_self))
  have htdb : Function.update tdb n.sn s.curr = tdb := by
    rw [← hn, ← hcar.tdb .stk (by simp) n (by simp [queue, hstk]), Function.update_eq_self]
  have hst : Function.update s.status s.curr .chained s.curr ≠ .running := by
    rw [Function.update_self]
    simp
  unfold Pointers.chainTask Pointers.taskTerminated
  dsimp only at hhead he he' ⊢
  rw [if_pos rfl, if_neg hst, hhead]
  dsimp only [Option.map_some, List.head?_cons]
  rw [Function.update_idem, he]
  dsimp only [Option.bind_some]
  rw [he']
  rw [htdb] at hcar' ⊢
  exact Option.Rel.some ⟨rfl, hcar', held_switchIn h.held (settle_inWait _) (settle_ownSn _)⟩

lemma refines_waitEvent {mask : ℕ} (hc : s.curr ≠ κ.idle) :
    Option.Rel Refines (Pointers.waitEvent κ mask p) (waitEvent κ mask s) := by
  obtain ⟨T, g, tdb⟩ := p
  obtain rfl : T = s.toTcbs := h.tcbs
  obtain ⟨n, stk, hstk, hn⟩ := hs.cons hc
  rw [waitEvent_cons κ hstk]
  unfold Pointers.waitEvent
  dsimp only
  by_cases hm : s.eventMask s.curr &&& mask = 0
  · rw [if_pos hm, if_pos hm]
    obtain ⟨g', he, hcar, hin⟩ := popRunning_eq (κ := κ)
      (s := { s with waitMask := Function.update s.waitMask s.curr mask }) h.carries hstk
    rw [he]
    refine Option.Rel.some ⟨rfl, hcar, fun t m hw ho => ?_⟩
    replace hw := switchIn_inWait hw
    dsimp only [Tcbs.switchIn] at hw ho
    by_cases ht : t = s.curr
    · rw [ht, Function.update_self, Option.some.injEq] at ho
      rw [← ho, ht, ← hn]
      exact h.carries.tdb .stk (by simp) n (by simp [queue, hstk])
    · rw [Function.update_of_ne ht, settle_inWait] at hw
      rw [Function.update_of_ne ht, settle_ownSn] at ho
      exact h.held t m hw ho
  · rw [if_neg hm, if_neg hm]
    exact Option.Rel.some h

lemma refines_suspendRunning :
    Option.Rel Refines (Pointers.suspendRunningTask κ p) (suspendRunningTask κ s) := by
  obtain ⟨T, g, tdb⟩ := p
  obtain rfl : T = s.toTcbs := h.tcbs
  have hhead := h.carries.head_eq .stk
  rcases hstk : s.stk with _ | ⟨n, stk⟩
  · rw [show queue s .stk = [] from hstk] at hhead
    unfold Pointers.suspendRunningTask suspendRunningTask
    dsimp only at hhead ⊢
    rw [hhead, hstk]
    exact Option.Rel.some h
  · rw [show queue s .stk = n :: stk from hstk] at hhead
    have hnt : tdb n.sn = n.task := h.carries.tdb .stk (by simp) n (by simp [queue, hstk])
    by_cases hr : (κ.tdb n.task).Regular
    · rw [suspendRunningTask_cons κ hstk hr]
      obtain ⟨g', he, hcar, hin⟩ := popRunning_eq (κ := κ) h.carries hstk
      have hpush := hcar.push hin .suspended fun _ => hnt
      rw [queue_suspended] at hpush
      unfold Pointers.suspendRunningTask
      dsimp only at hhead he ⊢
      rw [hhead]
      dsimp only [Option.map_some, List.head?_cons]
      rw [if_pos (hnt ▸ hr), he]
      refine Option.Rel.some ⟨rfl, hpush, fun t m hw ho => ?_⟩
      replace hw := switchIn_inWait hw
      dsimp only [Tcbs.switchIn] at hw ho
      rw [settle_inWait] at hw
      rw [Function.update_of_ne (hs.ne_curr hw), settle_ownSn] at ho
      exact h.held t m hw ho
    · unfold Pointers.suspendRunningTask suspendRunningTask
      dsimp only at hhead ⊢
      rw [hhead, hstk]
      dsimp only [Option.map_some, List.head?_cons]
      rw [if_neg (hnt ▸ hr), if_neg hr]
      exact Option.Rel.some h

lemma refines_waitSem {k : Sem} (hc : s.curr ≠ κ.idle) (hf : (s.blocked k).length < fuel) :
    Option.Rel Refines (Pointers.waitSem κ fuel k p) (waitSem κ k s) := by
  obtain ⟨T, g, tdb⟩ := p
  obtain rfl : T = s.toTcbs := h.tcbs
  obtain ⟨n, stk, hstk, hn⟩ := hs.cons hc
  rw [waitSem_cons κ hstk]
  unfold Pointers.waitSem
  dsimp only
  by_cases hcount : s.semCount k ≠ 0
  · rw [if_pos hcount, if_pos hcount]
    exact Option.Rel.some ⟨rfl, h.carries, h.held⟩
  · rw [if_neg hcount, if_neg hcount]
    obtain ⟨g', he, hcar, hin⟩ := popRunning_eq (κ := κ) h.carries hstk
    have hnt : tdb n.sn = n.task := h.carries.tdb .stk (by simp) n (by simp [queue, hstk])
    have hlen : (queue (settle κ { s with stk := stk }) (.sem k)).length < fuel := by
      rw [queue, settle_blocked]
      exact hf
    obtain ⟨g'', he', hins⟩ := snPriorityInsert_eq (q := .sem k)
      { (settle κ { s with stk := stk }).toTcbs with
        status := Function.update (settle κ { s with stk := stk }).status s.curr .waiting }
      (settle κ { s with stk := stk }).prio hcar hin (by simp) hnt hlen
    rw [queue_sem] at hins
    dsimp only at he he' ⊢
    rw [he]
    dsimp only [Option.bind_some]
    rw [he']
    exact Option.Rel.some ⟨rfl, hins, held_switchIn h.held (settle_inWait _) (settle_ownSn _)⟩

lemma refines_chain {t : Tid} (hc : s.curr ≠ κ.idle) (hf : s.rq.length < fuel) :
    Option.Rel Refines (Pointers.chainTask κ fuel t p) (chainTask κ t s) := by
  by_cases ht : t = s.curr
  · rw [ht]
    exact refines_chainSelf h hs hc hf
  · unfold Pointers.chainTask chainTask Tcbs.taskActivated
    rw [h.tcbs, if_neg ht, if_neg ht]
    by_cases hact : s.numOfAct t < (κ.tdb t).maxNumOfAct
    · simp only [if_pos hact]
      have hact' : Refines ⟨{ s.toTcbs with
          numOfAct := Function.update s.numOfAct t (s.numOfAct t + 1) }, p.toHeap, p.tdb⟩
          { s with numOfAct := Function.update s.numOfAct t (s.numOfAct t + 1) } :=
        ⟨rfl, h.carries, h.held⟩
      have hcl := clear_of_sound hs
      refine rel_bind (refines_insertRq (κ := κ) (t := t) hact' hcl hf) fun p₁ s₁ hk hr => ?_
      obtain ⟨m, free, hfree, rfl⟩ := taskInsertRq_some hk
      exact refines_terminate hr (sound_ready hs hact hfree) hc
    · simp only [if_neg hact]
      exact Option.Rel.some h

omit hs in
/-- A node in hand is made ready. -/
lemma refines_release {n : Node ν} (hin : InHand (queue s) n.sn) (ht : p.tdb n.sn = n.task)
    (hf : s.rq.length < fuel) :
    Option.Rel Refines (Pointers.release κ fuel n.sn p) (some (release κ n s)) := by
  obtain ⟨T, g, tdb⟩ := p
  obtain rfl : T = s.toTcbs := h.tcbs
  dsimp only at ht
  obtain ⟨g', he, hins⟩ := rqInsert_eq (κ := κ) (t := n.task) (T := { s.toTcbs with
    status := Function.update s.status n.task .readyStacked
    prio := Function.update s.prio n.task (κ.tdb n.task).readyPrio }) h.carries hin hf
  have htdb : Function.update tdb n.sn n.task = tdb := by
    rw [← ht, Function.update_eq_self]
  dsimp only at he hins
  rw [htdb] at he hins
  have hun : Refines ⟨(unblocked κ n s).toTcbs, g', tdb⟩ (unblocked κ n s) :=
    ⟨rfl, hins, h.held⟩
  unfold Pointers.release Pointers.taskUnblocked
  dsimp only
  rw [ht, he, release_eq]
  change Option.Rel Refines (some (if (taskUnblocked κ n s).2 = true then _ else _)) _
  split_ifs
  · exact Option.Rel.some (refines_preemptionPoint hun)
  · exact Option.Rel.some hun

omit h in
lemma inHand_of_held {t : Tid} {x : ν} (hw : s.inWait t = true) (ho : s.ownSn t = some x) :
    InHand (queue s) x := by
  obtain ⟨place, job, hh, -⟩ := hs.nodes
  have hp := (hh.held_mem hw ho).1
  intro q hx
  rw [hh.exact.place_eq (nocc_pos hx)] at hp
  cases q <;> simp [placeOf] at hp

lemma refines_setEvent {t : Tid} {mask : ℕ} (hf : s.rq.length < fuel) :
    Option.Rel Refines (Pointers.setEvent κ fuel t mask p) (some (setEvent κ t mask s)) := by
  unfold Pointers.setEvent setEvent
  rw [h.tcbs]
  rcases eventSetMask_cases κ t mask s.toTcbs with ⟨em, he⟩ | ⟨em, sn, hm, ho, he⟩
  · rw [he]
    exact Option.Rel.some ⟨rfl, h.carries, h.held⟩
  · rw [he]
    have hw := hs.waits.mask t hm
    refine refines_release (n := ⟨sn, t⟩) (p := ⟨_, p.toHeap, p.tdb⟩) (s := { s with
      eventMask := em, ownSn := Function.update s.ownSn t none }) ⟨rfl, h.carries, ?_⟩
      (inHand_of_held hs hw ho) (h.held t sn hw ho) hf
    intro u x hwu hou
    dsimp only at hwu hou
    by_cases hu : u = t
    · rw [hu, Function.update_self] at hou
      simp at hou
    · rw [Function.update_of_ne hu] at hou
      exact h.held u x hwu hou

omit hs in
lemma refines_postSem {k : Sem} (hf : s.rq.length < fuel) :
    Option.Rel Refines (Pointers.postSem κ fuel k p) (some (postSem κ k s)) := by
  have hhead := h.carries.head_eq (.sem k)
  unfold Pointers.postSem postSem
  rcases hk : s.blocked k with _ | ⟨n, l⟩
  · rw [show queue s (.sem k) = [] from hk] at hhead
    rw [hhead]
    refine Option.Rel.some ⟨?_, h.carries, h.held⟩
    dsimp only
    rw [h.tcbs]
  · rw [show queue s (.sem k) = n :: l from hk] at hhead
    rw [hhead]
    have ht := h.carries.tdb (.sem k) (by simp) n (by simp [queue, hk])
    obtain ⟨hpop, hin⟩ := h.carries.pop (q := .sem k) hk
    rw [queue_sem] at hpop hin
    exact refines_release
      (p := { p with head := Function.update p.head (.sem k) (p.next n.sn) })
      (s := { s with blocked := Function.update s.blocked k l }) ⟨h.tcbs, hpop, h.held⟩ hin ht hf

omit hs in
lemma refines_suspendHighest (hf : s.stk.length < fuel) :
    Option.Rel Refines (Pointers.suspendHighestPriorityActiveTaskFromIsr κ fuel p)
      (some (suspendHighestPriorityActiveTaskFromIsr κ s)) := by
  obtain ⟨T, g, tdb⟩ := p
  obtain rfl : T = s.toTcbs := h.tcbs
  have hbest := highestLoop_eq (p := ⟨s.toTcbs, g, tdb⟩) (l := s.stk)
    (fun t => (κ.tdb t).Regular) none (h.carries.heap.chain .stk)
    (h.carries.tdb .stk (by simp)) (by simp) hf
  unfold Pointers.suspendHighestPriorityActiveTaskFromIsr Pointers.highestStacked
    suspendHighestPriorityActiveTaskFromIsr
  dsimp only [Option.map_none] at hbest ⊢
  rw [hbest]
  change Option.Rel Refines (Option.bind (some ((highestStacked κ s).map Node.sn)) _) _
  rcases hn : highestStacked κ s with _ | n
  · exact Option.Rel.some h
  · obtain ⟨a, b, hstk, -, hrem, -, -⟩ := highestStacked_some hn
    obtain ⟨g', he, hcar, hin⟩ := listRemove_eq (q := .stk) s.toTcbs h.carries hstk hf
    have hnt : tdb n.sn = n.task := h.carries.tdb .stk (by simp) n (by simp [queue, hstk])
    rw [queue_stk] at hcar hin
    have hpush := hcar.push hin .suspended fun _ => hnt
    rw [queue_suspended] at hpush
    dsimp only [Option.map_some, Option.bind_some] at he ⊢
    rw [he, hrem]
    exact Option.Rel.some ⟨rfl, hpush, h.held⟩

omit hs [DecidableEq ν] in
lemma highestSuspended_eq (hf : s.suspended.length < fuel) :
    Pointers.highestSuspended fuel p = some ((highestSuspended s).map Node.sn) := by
  obtain ⟨T, g, tdb⟩ := p
  obtain rfl : T = s.toTcbs := h.tcbs
  have hbest := highestLoop_eq (p := ⟨s.toTcbs, g, tdb⟩) (l := s.suspended)
    (fun _ => True) none (h.carries.heap.chain .suspended)
    (h.carries.tdb .suspended (by simp)) (by simp) hf
  unfold Pointers.highestSuspended highestSuspended
  simpa using hbest

lemma refines_resumeHighest (hc : s.curr ≠ κ.idle) (hf : s.suspended.length < fuel) :
    Option.Rel Refines (Pointers.resumeHighestPriorityTask fuel p)
      (some (resumeHighestPriorityTask s)) := by
  have hbest := highestSuspended_eq h hf
  obtain ⟨T, g, tdb⟩ := p
  obtain rfl : T = s.toTcbs := h.tcbs
  unfold Pointers.resumeHighestPriorityTask resumeHighestPriorityTask
  rw [hbest]
  rcases hn : highestSuspended s with _ | n
  · exact Option.Rel.some h
  · obtain ⟨c, d, hsusp, hrem, -, -⟩ := highestSuspended_some hn
    obtain ⟨top, stk, hstk, -⟩ := hs.cons hc
    obtain ⟨g', he, hcar, hin⟩ := listRemove_eq (q := .suspended) s.toTcbs h.carries hsusp hf
    have hnt : tdb n.sn = n.task :=
      h.carries.tdb .suspended (by simp) n (by simp [queue, hsusp])
    rw [queue_suspended] at hcar hin
    have hhead : g'.head .stk = some top.sn := by
      rw [hcar.head_eq, show queue { s with suspended := c ++ d } .stk = top :: stk from hstk]
      rfl
    have hspl := hcar.splice (q := .stk) (a := []) hin hstk fun _ => hnt
    rw [queue_stk] at hspl
    obtain ⟨k, rfl⟩ : ∃ k, fuel = k + 1 := Nat.exists_eq_succ_of_ne_zero (by omega)
    dsimp only [Option.map_some, Option.bind_some] at he ⊢
    rw [he, hrem, hstk, listInsertAfter_head]
    unfold Pointers.listInsertAfter
    dsimp only [Option.bind_some]
    rw [hhead]
    dsimp only
    rw [Pointers.insertAfterLoop, if_pos rfl]
    exact Option.Rel.some ⟨rfl, hspl, h.held⟩

lemma refines_resumeFromIsr (hc : s.curr ≠ κ.idle) (hf : s.suspended.length < fuel)
    (hf' : s.stk.length < fuel) :
    Option.Rel Refines (Pointers.resumeHighestPriorityTaskFromIsr κ fuel p)
      (some (resumeHighestPriorityTaskFromIsr κ s)) := by
  have hbest := highestSuspended_eq h hf
  have hfirst := firstRegularLoop_eq (κ := κ) (l := s.stk) (p := p)
    (h.carries.heap.chain .stk) (h.carries.tdb .stk (by simp)) hf'
  obtain ⟨T, g, tdb⟩ := p
  obtain rfl : T = s.toTcbs := h.tcbs
  unfold Pointers.resumeHighestPriorityTaskFromIsr resumeHighestPriorityTaskFromIsr
  dsimp only at hfirst ⊢
  rw [hbest, hfirst]
  rcases hn : highestSuspended s with _ | n
  · exact Option.Rel.some h
  · obtain ⟨c, d, hsusp, hrem, -, -⟩ := highestSuspended_some hn
    obtain ⟨top, stk, hstk, -⟩ := hs.cons hc
    have hnt : tdb n.sn = n.task :=
      h.carries.tdb .suspended (by simp) n (by simp [queue, hsusp])
    obtain ⟨g', he, hcar, hin⟩ := listRemove_eq (q := .suspended) { s.toTcbs with
      prio := Function.update s.prio n.task maxTaskPriority } h.carries hsusp hf
    rw [queue_suspended] at hcar hin
    have htask : ∀ m ∈ s.stk, tdb m.sn = m.task := h.carries.tdb .stk (by simp)
    -- nodes of the stack that are the same in memory are the same
    have href : ∀ m ∈ s.stk, ∀ r ∈ firstRegular κ s.stk, m.sn = r.sn → m = r := by
      intro m hm r hr he
      have hr' := htask r (List.mem_of_find?_eq_some hr)
      rw [← he, htask m hm] at hr'
      cases m
      cases r
      simp_all
    obtain ⟨a, x, b, hab, hins, hloop⟩ := insertBeforeLoop_eq (n := n)
      (p := ⟨s.toTcbs, g', tdb⟩) (l := s.stk) (hcar.heap.chain .stk) (by simp [hstk]) href hf'
    have hspl := hcar.splice (q := .stk) hin hab fun _ => hnt
    rw [queue_stk] at hspl
    have hhead : g'.head .stk = some top.sn := by
      rw [hcar.head_eq, show queue { s with suspended := c ++ d } .stk = top :: stk from hstk]
      rfl
    dsimp only [Option.map_some, Option.bind_some] at he hloop ⊢
    rw [hnt, he, hrem]
    unfold Pointers.listInsertBefore
    dsimp only [Option.bind_some]
    rw [hhead]
    dsimp only
    rw [← hhead, hloop, hins]
    exact Option.Rel.some ⟨rfl, hspl, h.held⟩

end Services

/-! ### Runs -/

section Runs

variable {s : Core ν} {p : Ccb ν} {nodes : List ν}

lemma queue_sub (hs : Sound κ (· ∈ nodes) s) {q : Queue} {n : ν}
    (hn : n ∈ (queue s q).map Node.sn) : n ∈ nodes := by
  obtain ⟨place, job, hh, hp⟩ := hs.nodes
  exact mem_of_placed hp (hh.exact.place_eq (nocc_pos hn))

/-- No queue is longer than the number of nodes. -/
lemma queue_length (hs : Sound κ (· ∈ nodes) s) (hc : Carries p.toHeap p.tdb (queue s))
    (q : Queue) : (queue s q).length ≤ nodes.length := by
  have hsub := (hc.heap.once q).subperm fun n hn => queue_sub hs hn
  simpa using hsub.length_le

omit [DecidableEq ν] in
lemma rel_ite {c : Prop} [Decidable c] {x : Option (Ccb ν)} {y : Option (Core ν)}
    (h : c → Option.Rel Refines x y) :
    Option.Rel Refines (if c then x else none) (if c then y else none) := by
  by_cases hc : c
  · rw [if_pos hc, if_pos hc]
    exact h hc
  · rw [if_neg hc, if_neg hc]
    exact Option.Rel.none

/-- **One operation**: it does to the nodes what it does to the queues. -/
lemma refines_perform (h : Refines p s) (hs : Sound κ (· ∈ nodes) s) (hf : nodes.length < fuel)
    (o : Op) : Option.Rel Refines (Pointers.perform κ fuel p o) (perform κ s o) := by
  have hcurr : p.curr = s.curr := congrArg Tcbs.curr h.tcbs
  have hlen : ∀ q, (queue s q).length < fuel := fun q =>
    (queue_length hs h.carries q).trans_lt hf
  unfold Pointers.perform perform
  rw [hcurr]
  cases o with
  | activateTask t => exact rel_ite fun _ => refines_activate h hs (hlen .rq)
  | chainTask t => exact rel_ite fun hr => refines_chain h hs (ne_idle_of_regular hr.1) (hlen .rq)
  | terminate => exact rel_ite fun hc => refines_terminate h hs hc
  | interrupt i => exact rel_ite fun _ => refines_interrupt h hs
  | preemptionPoint => exact Option.Rel.some (refines_preemptionPoint h)
  | waitEvent mask =>
    exact rel_ite fun hc => refines_waitEvent h hs (ne_idle_of_regular (Or.inr hc))
  | setEvent t mask => exact refines_setEvent h hs (hlen .rq)
  | waitSem k =>
    exact rel_ite fun hc => refines_waitSem h hs (ne_idle_of_regular (Or.inr hc)) (hlen (.sem k))
  | postSem k => exact refines_postSem h (hlen .rq)
  | suspendRunningTask => exact refines_suspendRunning h hs
  | suspendHighestPriorityActiveTaskFromIsr =>
    exact rel_ite fun _ => refines_suspendHighest h (hlen .stk)
  | resumeHighestPriorityTaskFromIsr =>
    exact rel_ite fun hi =>
      refines_resumeFromIsr h hs (ne_idle_of_isr2 hi) (hlen .suspended) (hlen .stk)
  | resumeHighestPriorityTask =>
    exact rel_ite fun hr => refines_resumeHighest h hs (ne_idle_of_regular hr) (hlen .suspended)
  | setPrio t x =>
    refine Option.Rel.some ⟨?_, h.carries, h.held⟩
    dsimp only
    rw [h.tcbs]

variable (hx : ∀ t, (κ.tdb t).taskType = .extended → (κ.tdb t).maxNumOfAct = 1)

include hx

/-- **Runs**: the runs on the nodes are the runs on the queues. -/
lemma refines_exec (h : Refines p s) (hs : Sound κ (· ∈ nodes) s) (hf : nodes.length < fuel)
    (ops : List Op) :
    Option.Rel Refines (exec (Pointers.perform κ fuel) p ops) (exec (perform κ) s ops) := by
  induction ops generalizing p s with
  | nil => exact Option.Rel.some h
  | cons o ops ih =>
    exact rel_bind (refines_perform h hs hf o) fun p' s' hk hr =>
      ih hr (sound_perform hx hs hk)

/-! ### Where the nodes are -/

omit hx

/-- Before the first activation all nodes are linked in the free list. -/
structure Boot (κ : Kdb) (nodes : List ν) (p : Ccb ν) : Prop where
  tcbs : p.toTcbs = (init κ ([] : List (Node ν))).toTcbs
  free : Chain p.next (p.head .free) nodes
  empty : ∀ q, q ≠ .free → p.head q = none

omit [DecidableEq ν] in
lemma Boot.refines (hb : Boot κ nodes p) (hn : nodes.Nodup) :
    Refines p (init κ (nodes.map fun n => ⟨n, κ.idle⟩)) := by
  have hmap : (nodes.map fun n => (⟨n, κ.idle⟩ : Node ν)).map Node.sn = nodes := by
    rw [List.map_map]
    exact List.map_id _
  have hempty : ∀ q, q ≠ .free → queue (init κ (nodes.map fun n => (⟨n, κ.idle⟩ : Node ν))) q = [] := by
    intro q hq
    cases q with
    | free => exact absurd rfl hq
    | _ => rfl
  refine ⟨hb.tcbs, ⟨⟨fun q => ?_, fun q => ?_, fun q r m hq hr => ?_⟩, fun q hq m hm => ?_⟩,
    fun t m hw => ?_⟩
  · by_cases hq : q = .free
    · subst hq
      show Chain p.next (p.head .free) ((nodes.map fun n => (⟨n, κ.idle⟩ : Node ν)).map Node.sn)
      rw [hmap]
      exact hb.free
    · rw [hempty q hq]
      exact hb.empty q hq
  · by_cases hq : q = .free
    · subst hq
      show ((nodes.map fun n => (⟨n, κ.idle⟩ : Node ν)).map Node.sn).Nodup
      rw [hmap]
      exact hn
    · rw [hempty q hq]
      exact List.nodup_nil
  · have honly : ∀ q, m ∈ (queue (init κ (nodes.map fun n => (⟨n, κ.idle⟩ : Node ν))) q).map
        Node.sn → q = .free := by
      intro q hm
      by_contra hq
      rw [hempty q hq] at hm
      simp at hm
    rw [honly q hq, honly r hr]
  · rw [hempty q hq] at hm
    simp at hm
  · simp [init] at hw

/-- The head of the queue leads to the node. -/
def OnQueue (p : Ccb ν) (q : Queue) (n : ν) : Prop := ∃ l, Chain p.next (p.head q) l ∧ n ∈ l

/-- The node is in a queue, or a task that waits for an event keeps it. -/
def At (p : Ccb ν) : Place → ν → Prop
  | .free, n => OnQueue p .free n
  | .rq, n => OnQueue p .rq n
  | .stk, n => OnQueue p .stk n
  | .susp, n => OnQueue p .suspended n
  | .sem k, n => OnQueue p (.sem k) n
  | .held t, n => p.inWait t = true ∧ p.ownSn t = some n

omit [DecidableEq ν] in
lemma Refines.onQueue (h : Refines p s) (q : Queue) (n : ν) :
    OnQueue p q n ↔ n ∈ (queue s q).map Node.sn := by
  constructor
  · rintro ⟨l, hl, hn⟩
    rw [hl.unique (h.carries.heap.chain q)] at hn
    exact hn
  · intro hn
    exact ⟨_, h.carries.heap.chain q, hn⟩

lemma Refines.at_iff (h : Refines p s) (P : Place) (n : ν) : At p P n ↔ 0 < nocc s P n := by
  have hq : ∀ q, OnQueue p q n ↔ 0 < nocc s (placeOf q) n := by
    intro q
    rw [h.onQueue, nocc_placeOf, List.count_pos_iff]
  cases P with
  | free => exact hq .free
  | rq => exact hq .rq
  | stk => exact hq .stk
  | susp => exact hq .suspended
  | sem k => exact hq (.sem k)
  | held t =>
    simp only [At, nocc, h.tcbs]
    split_ifs with hc
    · simp [hc]
    · simp [hc]

include hx

/-- What a run on the nodes leaves carries queues that are sound. -/
lemma run_sound {p₀ : Ccb ν} {ops : List Op} (hn : nodes.Nodup) (hb : Boot κ nodes p₀)
    (hf : nodes.length < fuel) (he : exec (Pointers.perform κ fuel) p₀ ops = some p) :
    ∃ s, Refines p s ∧ Sound κ (· ∈ nodes) s := by
  have hmap : (nodes.map fun n => (⟨n, κ.idle⟩ : Node ν)).map Node.sn = nodes := by
    rw [List.map_map]
    exact List.map_id _
  have hs₀ := sound_init κ (nodes.map fun n => (⟨n, κ.idle⟩ : Node ν))
    (by rw [hmap]; exact hn)
  simp only [hmap] at hs₀
  have hrun := refines_exec hx (hb.refines hn) hs₀ hf ops
  rw [he] at hrun
  rcases hk : exec (perform κ) (init κ (nodes.map fun n => ⟨n, κ.idle⟩)) ops with _ | s
  · rw [hk] at hrun
    cases hrun
  · rw [hk] at hrun
    refine ⟨s, ?_, exec_inv (fun s o s' hs hp => sound_perform hx hs hp) hs₀ hk⟩
    cases hrun with
    | some hr => exact hr

/-- **The scheduler nodes are conserved.** Tasks that wait for events have one activation. Then
after every sequence of operations each queue is a chain of nodes that ends in the null pointer
and has no node twice, each node is in exactly one queue or kept by exactly one task that waits
for an event, each operation that is issued in its context and has a free node if it needs one
returns, and an event for a task that DPREM has suspended moves no node. -/
theorem nodes_conserved {p₀ : Ccb ν} {ops : List Op} (hn : nodes.Nodup)
    (hb : Boot κ nodes p₀) (hf : nodes.length < fuel)
    (he : exec (Pointers.perform κ fuel) p₀ ops = some p) :
    (∀ q, ∃ l, Chain p.next (p.head q) l ∧ l.Nodup ∧ ∀ n ∈ l, n ∈ nodes) ∧
    (∀ n ∈ nodes, ∃! P, At p P n) ∧
    (∀ o, Issued κ p.curr o → (Allocates o → p.head .free ≠ none) →
      ∃ p', Pointers.perform κ fuel p o = some p') ∧
    ∀ n mask, At p .susp n →
      ∃ em, Pointers.setEvent κ fuel (p.tdb n) mask p = some { p with eventMask := em } := by
  obtain ⟨s, h, hs⟩ := run_sound hx hn hb hf he
  refine ⟨fun q => ?_, fun n hn => ?_, fun o hi ha => ?_, fun n mask hsusp => ?_⟩
  · exact ⟨_, h.carries.heap.chain q, h.carries.heap.once q, fun n hn => queue_sub hs hn⟩
  · obtain ⟨place, job, hh, hp⟩ := hs.nodes
    rcases hP : place n with _ | P
    · exact absurd hn ((hp n).mp hP)
    · refine ⟨P, (h.at_iff P n).mpr ?_, fun P' hP' => ?_⟩
      · rw [hh.exact.occ_eq_one hP]
        exact Nat.one_pos
      · have := hh.exact.place_eq ((h.at_iff P' n).mp hP')
        rw [hP] at this
        exact (Option.some.inj this).symm
  · have hcurr : p.curr = s.curr := congrArg Tcbs.curr h.tcbs
    rw [hcurr] at hi
    have hfree : Allocates o → s.free ≠ [] := by
      intro hal hnil
      exact ha hal (free_nil h.carries hnil)
    obtain ⟨s', hs'⟩ := perform_isSome hs hi hfree
    have hrel := refines_perform h hs hf o
    rw [hs'] at hrel
    rcases hp : Pointers.perform κ fuel p o with _ | p'
    · rw [hp] at hrel
      cases hrel
    · exact ⟨p', rfl⟩
  · obtain ⟨m, hm, rfl⟩ := List.mem_map.mp ((h.onQueue .suspended n).mp hsusp)
    rw [h.carries.tdb .suspended (by simp) m hm]
    obtain ⟨em, hev⟩ := setEvent_suspended hs hm mask
    refine ⟨em, ?_⟩
    unfold Pointers.setEvent
    rw [h.tcbs, hev]

end Runs

/-- Ten nodes, all free. -/
def tenLinked (κ : Kdb) : Ccb ℕ :=
  ⟨(init κ []).toTcbs, ⟨fun n => if n < 9 then some (n + 1) else none,
    fun q => if q = .free then some 0 else none⟩, fun _ => κ.idle⟩

lemma boot_tenLinked (κ : Kdb) : Boot κ (List.range 10) (tenLinked κ) where
  tcbs := rfl
  free := by
    show Chain (fun n => if n < 9 then some (n + 1) else none) (some 0) (List.range 10)
    decide
  empty := fun q hq => if_neg hq

/-- Task 4 waits for an event and is woken; task 5 is suspended in its loop, gets an event
meanwhile, and is resumed. -/
def conservedRun : List Op :=
  [.activateTask 4, .waitEvent 1, .interrupt 3, .setEvent 4 1, .activateTask 5, .terminate,
    .suspendRunningTask, .setEvent 5 1, .interrupt 1, .resumeHighestPriorityTaskFromIsr,
    .terminate]

lemma smallKdb_extended (acts : ℕ) (t : Tid)
    (h : ((smallKdb acts).tdb t).taskType = .extended) : ((smallKdb acts).tdb t).maxNumOfAct = acts := by
  simp only [smallKdb] at h ⊢
  split_ifs at h ⊢
  rfl

theorem nodes_conserved_conservedRun :
    ∃ p, exec (Pointers.perform (smallKdb 1) 11) (tenLinked (smallKdb 1)) conservedRun = some p ∧
      p.tdb 0 = 4 ∧ p.tdb 2 = 5 ∧ ∃! P, At p P 0 := by
  have hconserved := fun p
      (he : exec (Pointers.perform (smallKdb 1) 11) (tenLinked (smallKdb 1)) conservedRun = some p) =>
    (nodes_conserved (p := p) (smallKdb_extended 1) List.nodup_range (boot_tenLinked (smallKdb 1))
      (show (List.range 10).length < 11 by decide) he).2.1 0 (by decide)
  exact ⟨_, rfl, rfl, rfl, hconserved _ rfl⟩

/-- A task with two activations waits in both. -/
def lostRun : List Op :=
  [.activateTask 4, .waitEvent 1, .interrupt 3, .activateTask 4, .terminate, .waitEvent 1]

lemma not_onQueue {p : Ccb ℕ} {q : Queue} {n : ℕ} (l : List ℕ)
    (hl : Chain p.next (p.head q) l) (hn : n ∉ l) : ¬ OnQueue p q n := by
  rintro ⟨l', hl', hn'⟩
  rw [hl'.unique hl] at hn'
  exact hn hn'

theorem node_lost :
    ∃ p, exec (Pointers.perform (smallKdb 2) 11) (tenLinked (smallKdb 2)) lostRun = some p ∧
      ∀ P, ¬ At p P 0 := by
  refine ⟨_, rfl, fun P hP => ?_⟩
  cases P with
  | free => exact not_onQueue [1, 3, 4, 5, 6, 7, 8, 9] (by decide) (by decide) hP
  | rq => exact not_onQueue [] (by rfl) (by decide) hP
  | stk => exact not_onQueue [] (by rfl) (by decide) hP
  | susp => exact not_onQueue [] (by rfl) (by decide) hP
  | sem k => exact not_onQueue [] (by rfl) (by decide) hP
  | held t =>
    -- the field of task 4 has been overwritten
    have ho : Function.update (Function.update (fun _ => none) 4 (some 0)) 4 (some 2) t =
      some 0 := hP.2
    by_cases ht : t = 4
    · rw [ht, Function.update_self] at ho
      simp at ho
    · rw [Function.update_of_ne ht, Function.update_of_ne ht] at ho
      simp at ho

end FpMemSched.Erika.Refinement
