import FpMemSched.Erika.Bystanders

/-!
Semaphores (`ee_oo_api_extension.c`) of a kernel without memory phases.

A task that blocks leaves its scheduler node in the queue of the semaphore, which is ordered by
the current priorities, and `PostSem` puts the first node of it back into the ready queue. The
books of a semaphore record the posts, the waits that were granted and the nodes that wait, in
the order in which they came.
-/

namespace FpMemSched.Erika.Semaphores

open FpMemSched.Lib.Runs FpMemSched.Lib.Buckets FpMemSched.Erika.Kernel
open FpMemSched.Erika.Dprem hiding step postSem
open FpMemSched.Erika.Started FpMemSched.Erika.Dispatch FpMemSched.Erika.Operations
open FpMemSched.Erika.Multiqueue hiding Call step
open FpMemSched.Erika.ReadyPrio FpMemSched.Erika.Bystanders

variable {ν : Type} (κ : Kdb)

/-! ### The services -/

/-- `CountType` is an `OsEE_reg`. -/
def countRange : ℕ := 2 ^ 64

/-- The counter is increased without a check. -/
def postSem (k : Sem) (s : Core ν) : Core ν :=
  let s' := Dprem.postSem κ k s
  { s' with semCount := Function.update s'.semCount k (s'.semCount k % countRange) }

inductive Call
  | base (c : Multiqueue.Call)
  /-- A tick of a counter: its alarms activate tasks, and the kernel reschedules once. -/
  | alarms (ts : List Tid)
  | waitSem (k : Sem)
  | postSem (k : Sem)
  deriving DecidableEq

/-- `WaitSem` refuses all tasks but extended ones. -/
def step (s : Core ν) : Call → Option (Core ν)
  | .base c => Multiqueue.step κ s c
  | .alarms ts => exec (Multiqueue.step κ) s (ts.map .insertTask ++ [.preemptionPoint])
  | .waitSem k => if (κ.tdb s.curr).taskType = .extended then waitSem κ k s else none
  | .postSem k => some (postSem κ k s)

/-- `InitSem` has been called for all semaphores. -/
def start (free : List (Node ν)) (c : Sem → ℕ) : Core ν := { init κ free with semCount := c }

/-! ### The books of a semaphore -/

structure Books (ν : Type) where
  posts : ℕ
  granted : ℕ
  /-- The nodes in the queue, longest waiting first. -/
  waiting : List (Node ν)

section Note

variable [DecidableEq ν]

/-- What is seen of a call at the semaphore `k`: a wait is granted when `WaitSem` returns at
once, or else when the node leaves the queue. -/
def Books.note (k : Sem) (s s' : Core ν) (c : Call) (b : Books ν) : Books ν where
  posts := b.posts + if c = .postSem k then 1 else 0
  granted := b.granted + (if c = .waitSem k ∧ s'.blocked k = s.blocked k then 1 else 0) +
    ((s.blocked k).filter (· ∉ s'.blocked k)).length
  waiting := b.waiting.filter (· ∈ s'.blocked k) ++ (s'.blocked k).filter (· ∉ s.blocked k)

def track (k : Sem) (p : Core ν × Books ν) (c : Call) : Option (Core ν × Books ν) :=
  (step κ p.1 c).map fun s' => (s', p.2.note k p.1 s' c)

end Note

variable {κ} {s s' : Core ν} {n : Node ν} {stk : List (Node ν)} {t : Tid} {k : Sem}

/-! ### Tasks that wait at a semaphore -/

variable {g : Tid → Option (Sem × ν)}

/-- The node that a waiting task has left in its control block or at a semaphore. -/
def keeps (s : Core ν) (g : Tid → Option (Sem × ν)) (t : Tid) : Option ν :=
  (s.ownSn t).or ((g t).map Prod.snd)

/-- The queues of the semaphores hold the nodes of the tasks that wait there. -/
structure Sits (blocked : Sem → List (Node ν)) (g : Tid → Option (Sem × ν)) : Prop where
  mem : ∀ k n, n ∈ blocked k ↔ g n.task = some (k, n.sn)
  once : ∀ k, (blocked k).Nodup

/-- The invariant of a core with semaphores; `g` tells where a task waits. For the rest of the
kernel it is as if the task waited for an event. -/
structure Waiting (κ : Kdb) (s : Core ν) (g : Tid → Option (Sem × ν)) : Prop where
  calm : Calm κ (setOwn (keeps s g) s)
  sits : Sits s.blocked g
  apart : ∀ t, g t ≠ none → s.ownSn t = none
  acts : ∀ t, (κ.tdb t).taskType = .extended → s.numOfAct t ≤ 1

lemma keeps_own {a : ν} (ho : s.ownSn t = some a) : keeps s g t = some a := by
  rw [keeps, ho]
  rfl

lemma Waiting.keeps_sem (h : Waiting κ s g) {x : Sem × ν} (hg : g t = some x) :
    keeps s g t = some x.2 := by
  rw [keeps, h.apart t (by rw [hg]; simp), hg]
  rfl

/-- A task that waits has an activation. -/
lemma Waiting.active (h : Waiting κ s g) (hk : keeps s g t ≠ none) :
    (κ.tdb t).taskType = .extended ∧ 1 ≤ s.numOfAct t := by
  refine ⟨h.calm.waits t hk, ?_⟩
  have := h.calm.placed.count t
  rw [if_neg hk] at this
  exact this ▸ Nat.le_add_left _ _

lemma Waiting.away (hx : ∀ t, (κ.tdb t).taskType = .extended → (κ.tdb t).maxNumOfAct = 1)
    (h : Waiting κ s g) : Away κ (fun t => g t ≠ none) s := by
  have hk : ∀ t, g t ≠ none → ∃ a, keeps s g t = some a := by
    intro t ht
    obtain ⟨x, hx⟩ := Option.ne_none_iff_exists'.mp ht
    exact ⟨x.2, h.keeps_sem hx⟩
  refine ⟨fun t ht => ?_, fun t ht hm => ?_, h.apart, fun t ht => ?_⟩
  · obtain ⟨a, ha⟩ := hk t ht
    exact (h.calm.ne_of_own ha).symm
  · obtain ⟨a, ha⟩ := hk t ht
    obtain ⟨m, hmem, rfl⟩ := List.mem_map.mp hm
    exact h.calm.notMem_of_own ha m (List.mem_append_right _ hmem) rfl
  · obtain ⟨a, ha⟩ := hk t ht
    obtain ⟨he, hn⟩ := h.active (t := t) (by rw [ha]; simp)
    rw [hx t he]
    exact hn

/-- No task has a second activation while it waits. -/
lemma Waiting.lone (hx : ∀ t, (κ.tdb t).taskType = .extended → (κ.tdb t).maxNumOfAct = 1)
    (h : Waiting κ s g) (c : Multiqueue.Call) : Lone κ (setOwn (keeps s g) s) c := by
  have hfull : ∀ t, keeps s g t = none ∨ (κ.tdb t).maxNumOfAct ≤ s.numOfAct t := by
    intro t
    by_cases hk : keeps s g t = none
    · exact Or.inl hk
    · obtain ⟨he, hn⟩ := h.active hk
      exact Or.inr (by rw [hx t he]; exact hn)
  cases c with
  | activateTask t => exact hfull t
  | insertTask t => exact hfull t
  | chainTask t => exact hfull t
  | waitEvent mask => exact fun he _ => h.acts _ he
  | _ => trivial

/-- What matters besides the nodes that are left. -/
lemma Waiting.frame (h : Waiting κ s g) (hf : Frame (fun t => g t ≠ none) s s')
    (hc : Calm κ (setOwn (keeps s' g) s'))
    (ha : ∀ t, (κ.tdb t).taskType = .extended → s'.numOfAct t ≤ 1) : Waiting κ s' g := by
  refine ⟨hc, ?_, fun t ht => (hf.own t ht).trans (h.apart t ht), ha⟩
  rw [hf.blocked]
  exact h.sits

lemma keeps_update_own (hg : g t = none) (x : Option ν)
    (ho : s'.ownSn = Function.update s.ownSn t x) : keeps s' g = Function.update (keeps s g) t x := by
  funext u
  by_cases hu : u = t
  · subst hu
    rw [keeps, ho, Function.update_self, Function.update_self, hg]
    cases x <;> rfl
  · rw [keeps, ho, Function.update_of_ne hu, Function.update_of_ne hu]
    rfl

/-- **A call without semaphores leaves the waiting tasks where they are.** -/
lemma waiting_call (hx : ∀ t, (κ.tdb t).taskType = .extended → (κ.tdb t).maxNumOfAct = 1)
    {c : Multiqueue.Call}
    (hκ : ∀ r, c = .releaseResource r → ready κ s.curr ≤ (κ.tdb s.curr).dispatchPrio)
    (h : Waiting κ s g) (he : Multiqueue.step κ s c = some s') :
    Waiting κ s' g ∧ Frame (fun t => g t ≠ none) s s' := by
  have hf := frame_call h.calm (h.away hx) he
  refine ⟨h.frame hf ?_ fun t ht => ?_, hf⟩
  · by_cases hb : Blind c
    · have hown := step_ownSn hb he
      have hc := calm_step h.calm hκ (h.lone hx c) (step_setOwn (keeps s g) hb he)
      have hk : keeps s' g = keeps s g := by
        funext t
        rw [keeps, hown]
        rfl
      rw [hk]
      exact hc
    · obtain ⟨ha, hcall⟩ := Option.ite_none_right_eq_some.mp he
      cases c with
      | waitEvent mask =>
        obtain ⟨n, stk, hs, -⟩ := h.calm.cons (ne_idle_of_regular (Or.inr ha))
        have hs : s.stk = n :: stk := hs
        by_cases hm : s.eventMask s.curr &&& mask = 0
        · obtain ⟨hwait, hown⟩ := waitEvent_setOwn (keeps s g) hs hm hcall
          have hg : g s.curr = none := not_not.mp (h.away hx).running
          rw [keeps_update_own hg _ hown]
          exact calm_waitEvent h.calm ha (fun _ => h.acts _ ha) hwait
        · have hcall : waitEvent κ mask s = some s' := hcall
          rw [waitEvent_cons κ hs, if_neg hm] at hcall
          exact Option.some.inj hcall ▸ h.calm
      | setEvent t mask =>
        have hcall : setEvent κ t mask s = s' := Option.some.inj hcall
        rcases setEvent_cases κ t mask s with ⟨em, hset⟩ | ⟨em, sn, -, ho, hset⟩
        · rw [← hcall, hset]
          exact ⟨h.calm.toSteady.frame (T := { (setOwn (keeps s g) s).toTcbs with
            eventMask := em }) rfl rfl rfl rfl rfl rfl, h.calm.top, h.calm.run⟩
        · have hg : g t = none := by
            by_contra hg
            rw [h.apart t hg] at ho
            simp at ho
          have hown : s'.ownSn = Function.update s.ownSn t none := by
            rw [← hcall, hset, release_ownSn]
          rw [keeps_update_own hg _ hown, ← hcall, hset]
          have hrel := calm_release h.calm (keeps_own ho) em
          have hcomm := release_setOwn (κ := κ) (Function.update (keeps s g) t none) ⟨sn, t⟩
            { s with eventMask := em, ownSn := Function.update s.ownSn t none }
          exact hcomm ▸ hrel
      | _ => exact absurd trivial hb
  · have hle := call_numOfAct h.calm he (u := t) (by rw [ht]; simp)
    rw [hx t ht] at hle
    exact hle.trans (max_le (h.acts t ht) le_rfl)

/-! ### Waiting and posting -/

lemma semInsert_perm (prio : Tid → ℕ) (n : Node ν) (q : List (Node ν)) :
    (semInsert prio n q).Perm (n :: q) := List.perm_orderedInsert _ _ _

/-- The node of a task is put into the queue of a semaphore. -/
lemma Sits.block {blocked : Sem → List (Node ν)} {q : List (Node ν)} (h : Sits blocked g)
    (hg : g n.task = none) (hq : q.Perm (n :: blocked k)) :
    Sits (Function.update blocked k q) (Function.update g n.task (some (k, n.sn))) := by
  have hnew : ∀ j, n ∉ blocked j := by
    intro j hm
    rw [h.mem, hg] at hm
    simp at hm
  refine ⟨fun j m => ?_, fun j => ?_⟩
  · have hold : m ∈ Function.update blocked k q j ↔ (j = k ∧ m = n) ∨ m ∈ blocked j := by
      by_cases hj : j = k
      · subst hj
        rw [Function.update_self, hq.mem_iff, List.mem_cons]
        simp
      · rw [Function.update_of_ne hj]
        simp [hj]
    rw [hold, h.mem]
    by_cases hm : m.task = n.task
    · rw [hm, Function.update_self, hg]
      constructor
      · rintro (⟨rfl, rfl⟩ | hno)
        · rfl
        · simp at hno
      · intro he
        obtain ⟨rfl, hsn⟩ := Prod.mk.inj (Option.some.inj he)
        refine Or.inl ⟨rfl, ?_⟩
        cases m
        cases n
        exact congrArg₂ Node.mk hsn.symm hm
    · rw [Function.update_of_ne hm]
      constructor
      · rintro (⟨-, rfl⟩ | hmem)
        · exact absurd rfl hm
        · exact hmem
      · exact Or.inr
  · by_cases hj : j = k
    · subst hj
      rw [Function.update_self, hq.nodup_iff]
      exact List.nodup_cons.mpr ⟨hnew j, h.once j⟩
    · rw [Function.update_of_ne hj]
      exact h.once j

/-- The first node of a queue is taken off. -/
lemma Sits.release {blocked : Sem → List (Node ν)} {q : List (Node ν)} (h : Sits blocked g)
    (hq : blocked k = n :: q) :
    Sits (Function.update blocked k q) (Function.update g n.task none) := by
  have hg : g n.task = some (k, n.sn) := (h.mem k n).mp (by rw [hq]; exact List.mem_cons_self)
  have honce := h.once k
  rw [hq] at honce
  obtain ⟨hn, hnodup⟩ := List.nodup_cons.mp honce
  have hnode : ∀ j m, m ∈ blocked j → m.task = n.task → j = k ∧ m = n := by
    intro j m hm ht
    rw [h.mem, ht, hg] at hm
    obtain ⟨rfl, hsn⟩ := Prod.mk.inj (Option.some.inj hm)
    refine ⟨rfl, ?_⟩
    cases m
    cases n
    exact congrArg₂ Node.mk hsn.symm ht
  refine ⟨fun j m => ?_, fun j => ?_⟩
  · by_cases hm : m.task = n.task
    · rw [hm, Function.update_self]
      refine iff_of_false (fun hmem => ?_) (by simp)
      by_cases hj : j = k
      · subst hj
        rw [Function.update_self] at hmem
        obtain ⟨-, rfl⟩ := hnode j m (by rw [hq]; exact List.mem_cons_of_mem _ hmem) hm
        exact hn hmem
      · rw [Function.update_of_ne hj] at hmem
        exact hj (hnode j m hmem hm).1
    · rw [Function.update_of_ne hm, ← h.mem]
      by_cases hj : j = k
      · subst hj
        rw [Function.update_self, hq, List.mem_cons]
        refine ⟨Or.inr, fun hmem => hmem.resolve_left ?_⟩
        rintro rfl
        exact hm rfl
      · rw [Function.update_of_ne hj]
  · by_cases hj : j = k
    · subst hj
      rw [Function.update_self]
      exact hnodup
    · rw [Function.update_of_ne hj]
      exact h.once j

lemma keeps_update_sem (hown : s'.ownSn = s.ownSn) (hnone : s.ownSn t = none)
    (x : Option (Sem × ν)) :
    keeps s' (Function.update g t x) = Function.update (keeps s g) t (x.map Prod.snd) := by
  funext u
  by_cases hu : u = t
  · subst hu
    rw [keeps, hown, hnone, Function.update_self, Function.update_self]
    rfl
  · rw [keeps, hown, Function.update_of_ne hu, Function.update_of_ne hu]
    rfl

section Blocks

variable (hx : ∀ t, (κ.tdb t).taskType = .extended → (κ.tdb t).maxNumOfAct = 1)

include hx

/-- The running task blocks. -/
lemma waiting_block (h : Waiting κ s g) (hext : (κ.tdb s.curr).taskType = .extended)
    (h0 : s.semCount k = 0) (he : waitSem κ k s = some s') :
    ∃ n, g n.task = none ∧ Waiting κ s' (Function.update g n.task (some (k, n.sn))) ∧
      Highest κ s' ∧ s'.semCount = s.semCount ∧ (∀ t, g t ≠ none → s'.prio t = s.prio t) ∧
      s'.blocked = Function.update s.blocked k (semInsert s'.prio n (s.blocked k)) := by
  obtain ⟨n, stk, hs, hn⟩ := h.calm.cons (ne_idle_of_regular (Or.inr hext))
  have hs : s.stk = n :: stk := hs
  have hn : n.task = s.curr := hn
  have hg : g n.task = none := by
    rw [hn]
    exact not_not.mp (h.away hx).running
  have hnone : s.ownSn n.task = none := by
    have hlone : keeps s g n.task = none := h.calm.placed.lone n (by rw [hs]; simp)
    rw [keeps, hg] at hlone
    exact (Option.or_eq_none_iff.mp hlone).1
  -- what the choice of the next task does, once without and once with the node that is left
  have hset : Frame (fun t => g t ≠ none) { s with stk := stk } (settle κ { s with stk := stk }) :=
    frame_settle (h.away hx).rq
  have hhigh : Highest κ (settle κ { s with stk := stk }) :=
    settle_highest h.calm.sorted h.calm.levels.low
  have hown : (settle κ { s with stk := stk }).ownSn = s.ownSn := settle_ownSn _
  have hact : (settle κ { s with stk := stk }).numOfAct = s.numOfAct := settle_numOfAct _
  have htop := settle_top (κ := κ) { s with stk := stk }
  have hpark := (h.calm.parked hext hs hn (h.acts _ hext) s.waitMask).settled
  have hcomm := settle_setOwn (κ := κ) (Function.update (keeps s g) s.curr (some n.sn))
    { s with stk := stk }
  dsimp only [setOwn] at hpark hcomm
  rw [hcomm, ← hn] at hpark
  rw [waitSem_cons κ hs, if_neg (not_not.mpr h0)] at he
  dsimp only at he
  generalize settle κ { s with stk := stk } = s₁ at *
  have hs' := (Option.some.inj he).symm
  have hkeeps : keeps s' (Function.update g n.task (some (k, n.sn))) =
      Function.update (keeps s g) n.task (some n.sn) :=
    keeps_update_sem (by rw [hs']; exact hown) hnone _
  have hblocked : s'.blocked = Function.update s.blocked k (semInsert s'.prio n (s.blocked k)) := by
    rw [hs']
    show Function.update s₁.blocked k (semInsert s₁.prio n (s₁.blocked k)) =
      Function.update s.blocked k (semInsert s₁.prio n (s.blocked k))
    rw [hset.blocked]
  refine ⟨n, hg, ⟨?_, ?_, fun t ht => ?_, fun t ht => ?_⟩, ?_, ?_, ?_, hblocked⟩
  · rw [hkeeps, hs']
    exact ⟨hpark.frame (T := { Tcbs.switchIn { s₁.toTcbs with
        status := Function.update s₁.status s.curr .waiting } with
      ownSn := Function.update (keeps s g) n.task (some n.sn) }) rfl rfl rfl rfl rfl rfl, htop,
      Function.update_self ..⟩
  · rw [hblocked]
    exact h.sits.block hg (semInsert_perm _ _ _)
  · have hown' : s'.ownSn = s.ownSn := by
      rw [hs']
      exact hown
    rw [hown']
    by_cases htn : t = n.task
    · rw [htn]
      exact hnone
    · rw [Function.update_of_ne htn] at ht
      exact h.apart t ht
  · have hact' : s'.numOfAct = s.numOfAct := by
      rw [hs']
      exact hact
    rw [hact']
    exact h.acts t ht
  · rw [hs']
    exact hhigh
  · rw [hs']
    exact hset.semCount
  · rw [hs']
    exact hset.prio

/-- The first node of the queue is released. -/
lemma waiting_release {q : List (Node ν)} (h : Waiting κ s g) (hh : Highest κ s)
    (hq : s.blocked k = n :: q) :
    let s' := release κ n { s with blocked := Function.update s.blocked k q }
    Waiting κ s' (Function.update g n.task none) ∧ Highest κ s' ∧
      Frame (fun t => Function.update g n.task none t ≠ none)
        { s with blocked := Function.update s.blocked k q } s' := by
  intro s'
  have hg : g n.task = some (k, n.sn) :=
    (h.sits.mem k n).mp (by rw [hq]; exact List.mem_cons_self)
  have hkeep := h.keeps_sem hg
  have hleft : ∀ t, Function.update g n.task none t ≠ none → t ≠ n.task ∧ g t ≠ none := by
    intro t ht
    have hne : t ≠ n.task := by
      rintro rfl
      rw [Function.update_self] at ht
      exact ht rfl
    rw [Function.update_of_ne hne] at ht
    exact ⟨hne, ht⟩
  have haway := h.away hx
  have hframe : Frame (fun t => Function.update g n.task none t ≠ none)
      { s with blocked := Function.update s.blocked k q } s' :=
    frame_release ⟨fun t ht => haway.curr t (hleft t ht).2, fun t ht => haway.rq t (hleft t ht).2,
      fun t ht => haway.own t (hleft t ht).2, fun t ht => haway.full t (hleft t ht).2⟩ h.calm.top
      (fun hW => (hleft _ hW).1 rfl)
  refine ⟨⟨?_, ?_, fun t ht => ?_, fun t ht => ?_⟩, ?_, hframe⟩
  · have hown : s'.ownSn = s.ownSn := release_ownSn _ _
    rw [keeps_update_sem (t := n.task) hown (h.apart _ (by rw [hg]; simp)) none]
    -- for the rest of the kernel an event has come
    have hcalm : Calm κ (setOwn (keeps s g)
        { s with blocked := Function.update s.blocked k q }) :=
      ⟨h.calm.toSteady.frame (T := (setOwn (keeps s g) s).toTcbs) rfl rfl rfl rfl rfl rfl,
        h.calm.top, h.calm.run⟩
    have hrel := calm_release hcalm hkeep s.eventMask
    have hcomm := release_setOwn (κ := κ) (Function.update (keeps s g) n.task none) n
      { s with blocked := Function.update s.blocked k q }
    exact hcomm ▸ hrel
  · rw [hframe.blocked]
    exact h.sits.release hq
  · rw [hframe.own t ht]
    exact h.apart t (hleft t ht).2
  · have hact : s'.numOfAct = s.numOfAct :=
      release_numOfAct (s := { s with blocked := Function.update s.blocked k q }) h.calm.top
    rw [hact]
    exact h.acts t ht
  · exact release_highest (s := { s with blocked := Function.update s.blocked k q }) hh
      h.calm.sorted h.calm.levels.low h.calm.top (h.calm.ne_of_own hkeep)

end Blocks

/-- A released task is ready at its ready priority, or it runs. -/
lemma release_where (ht : s.curr = topTask κ s.stk) :
    (n ∈ (release κ n s).rq ∨ n ∈ (release κ n s).stk) ∧
      (n.task = (release κ n s).curr ∨
        n ∈ (release κ n s).rq ∧ (release κ n s).prio n.task = ready κ n.task) := by
  have hmem : n ∈ (unblocked κ n s).rq := (rqInsert_perm n s.rq).mem_iff.mpr List.mem_cons_self
  have hprio : (unblocked κ n s).prio n.task = ready κ n.task := Function.update_self ..
  rcases release_cases κ n ht with he | he
  · rw [he]
    exact ⟨Or.inl hmem, Or.inr ⟨hmem, hprio⟩⟩
  · rw [he]
    rcases settle_cases κ (unblocked κ n s) with ⟨hset, -⟩ | ⟨q, rq, hrq, -, hset⟩
    · rw [hset]
      exact ⟨Or.inl hmem, Or.inr ⟨hmem, hprio⟩⟩
    · rw [hset]
      rw [hrq] at hmem
      simp only [stkNext]
      by_cases hnq : n.task = q.task
      · refine ⟨?_, Or.inl hnq⟩
        rcases List.mem_cons.mp hmem with rfl | hmem
        · exact Or.inr List.mem_cons_self
        · exact Or.inl hmem
      · have hmem : n ∈ rq := by
          rcases List.mem_cons.mp hmem with rfl | hmem
          · exact absurd rfl hnq
          · exact hmem
        refine ⟨Or.inl hmem, Or.inr ⟨hmem, ?_⟩⟩
        show (Tcbs.dispatch κ q.task _).prio n.task = _
        rw [dispatch_prio, Function.update_of_ne hnq]
        exact hprio

/-- What runs after a release is not below the released task. -/
lemma release_runs (ht : s.curr = topTask κ s.stk) (h : Highest κ (release κ n s)) :
    (release κ n s).prio n.task ≤ (release κ n s).prio (release κ n s).curr := by
  rcases (release_where ht).2 with hc | ⟨hm, hp⟩
  · rw [← hc]
  · rw [hp]
    exact h n hm

/-! ### What a call does to a semaphore -/

/-- The counter does not overflow, and no alarm is left without a rescheduling. -/
def Proper (κ : Kdb) (k : Sem) (s : Core ν) : Call → Prop
  | .base c => Reschedules κ s c
  | .alarms _ | .waitSem _ => True
  | .postSem j => j = k → s.blocked k = [] → s.semCount k + 1 < countRange

instance (s : Core ν) : DecidablePred (Reschedules κ s)
  | .insertTask _ => inferInstanceAs (Decidable False)
  | .releaseResource _ => inferInstanceAs (Decidable (_ ≤ _))
  | .activateTask _ | .chainTask _ | .terminateTask | .taskNotTerminated | .interrupt _
  | .preemptionPoint | .waitEvent _ | .setEvent _ _ | .getResource _ =>
    inferInstanceAs (Decidable True)

instance (s : Core ν) : DecidablePred (Proper κ k s)
  | .base c => inferInstanceAs (Decidable (Reschedules κ s c))
  | .alarms _ | .waitSem _ => inferInstanceAs (Decidable True)
  | .postSem j => inferInstanceAs (Decidable (j = k → s.blocked k = [] → _ < _))

inductive Effect (k : Sem) (s s' : Core ν) : Call → Prop
  | other (c : Call) : c ≠ .waitSem k → c ≠ .postSem k → s'.blocked k = s.blocked k →
    s'.semCount k = s.semCount k → Effect k s s' c
  | taken : s.semCount k ≠ 0 → s'.blocked k = s.blocked k →
    s'.semCount k = s.semCount k - 1 → Effect k s s' (.waitSem k)
  | blocks (n : Node ν) : s.semCount k = 0 → n ∉ s.blocked k →
    s'.blocked k = semInsert s'.prio n (s.blocked k) → s'.semCount k = s.semCount k →
    Effect k s s' (.waitSem k)
  | posted : s.blocked k = [] → s'.blocked k = [] → s'.semCount k = s.semCount k + 1 →
    Effect k s s' (.postSem k)
  | released (n : Node ν) : s.blocked k = n :: s'.blocked k →
    s'.semCount k = s.semCount k → Effect k s s' (.postSem k)

/-- What a call leaves: the invariant, and nodes that stay in the queue of `k` keep their
priority. -/
structure Served (κ : Kdb) (k : Sem) (s s' : Core ν) (c : Call) : Prop where
  inv : (∃ g, Waiting κ s' g) ∧ Highest κ s'
  prio : ∀ m ∈ s'.blocked k, m ∈ s.blocked k → s'.prio m.task = s.prio m.task
  effect : Effect k s s' c

lemma Waiting.prio_mem (h : Waiting κ s g) (hf : ∀ t, g t ≠ none → s'.prio t = s.prio t)
    {m : Node ν} (hm : m ∈ s.blocked k) : s'.prio m.task = s.prio m.task :=
  hf _ (by rw [(h.sits.mem k m).mp hm]; simp)

/-- The counters do not matter to the scheduler. -/
lemma Waiting.setCount (h : Waiting κ s g) (f : Sem → ℕ) :
    Waiting κ { s with semCount := f } g :=
  ⟨⟨h.calm.toSteady.frame (T := { (setOwn (keeps s g) s).toTcbs with semCount := f })
    rfl rfl rfl rfl rfl rfl, h.calm.top, h.calm.run⟩, h.sits, h.apart, h.acts⟩

lemma postSem_nil (hq : s.blocked k = []) : postSem κ k s = { s with
    semCount := Function.update s.semCount k ((s.semCount k + 1) % countRange) } := by
  unfold postSem Dprem.postSem
  simp only [hq, Function.update_self, Function.update_idem]

lemma postSem_cons {q : List (Node ν)} (hq : s.blocked k = n :: q)
    (hc : (release κ n { s with blocked := Function.update s.blocked k q }).semCount =
      s.semCount) :
    postSem κ k s = { release κ n { s with blocked := Function.update s.blocked k q } with
      semCount := Function.update s.semCount k (s.semCount k % countRange) } := by
  unfold postSem Dprem.postSem
  simp only [hq, hc]

section Served

variable (hx : ∀ t, (κ.tdb t).taskType = .extended → (κ.tdb t).maxNumOfAct = 1)

include hx

/-- Calls without semaphores, one after the other. -/
lemma waiting_calls {cs : List Multiqueue.Call}
    (hcs : ∀ c ∈ cs, ∀ r, c ≠ .releaseResource r) (h : Waiting κ s g)
    (he : exec (Multiqueue.step κ) s cs = some s') :
    Waiting κ s' g ∧ Frame (fun t => g t ≠ none) s s' := by
  induction cs generalizing s with
  | nil =>
    obtain rfl : s = s' := by simpa using he
    exact ⟨h, ⟨rfl, rfl, fun _ _ => rfl, fun _ _ => rfl⟩⟩
  | cons c cs ih =>
    obtain ⟨s₁, hs₁, he⟩ := (exec_cons _).mp he
    have hc := hcs c List.mem_cons_self
    obtain ⟨h₁, hf₁⟩ := waiting_call hx (fun r hr => absurd hr (hc r)) h hs₁
    obtain ⟨h', hf'⟩ := ih (fun c hc => hcs c (List.mem_cons_of_mem _ hc)) h₁ he
    exact ⟨h', hf₁.trans hf'⟩

lemma served_base {c : Multiqueue.Call} (h : Waiting κ s g) (hh : Highest κ s)
    (hr : Reschedules κ s c) (he : Multiqueue.step κ s c = some s') :
    Served κ k s s' (.base c) := by
  obtain ⟨h', hf⟩ := waiting_call hx (by rintro r rfl; exact hr) h he
  exact ⟨⟨⟨g, h'⟩, highest_call h.calm hr (fun t a ho => keeps_own ho) hh he⟩,
    fun m _ hm => h.prio_mem hf.prio hm,
    .other _ (by simp) (by simp) (by rw [hf.blocked]) (by rw [hf.semCount])⟩

lemma served_alarms {ts : List Tid} (h : Waiting κ s g)
    (he : step κ s (.alarms ts) = some s') : Served κ k s s' (.alarms ts) := by
  obtain ⟨s₁, hs₁, hpp⟩ := (exec_append _).mp he
  obtain ⟨h₁, hf₁⟩ := waiting_calls hx (by simp) h hs₁
  rw [exec_singleton] at hpp
  obtain ⟨h', hf'⟩ := waiting_call hx (by simp) h₁ hpp
  have hf := hf₁.trans hf'
  refine ⟨⟨⟨g, h'⟩, ?_⟩, fun m _ hm => h.prio_mem hf.prio hm,
    .other _ (by simp) (by simp) (by rw [hf.blocked]) (by rw [hf.semCount])⟩
  have hpp : some (taskPreemptionPoint κ s₁) = some s' := hpp
  exact Option.some.inj hpp ▸ preemptionPoint_highest h₁.calm.sorted h₁.calm.levels.low
    h₁.calm.top

lemma served_waitSem {j : Sem} (h : Waiting κ s g) (hh : Highest κ s)
    (he : step κ s (.waitSem j) = some s') : Served κ k s s' (.waitSem j) := by
  obtain ⟨hext, he⟩ := Option.ite_none_right_eq_some.mp he
  by_cases h0 : s.semCount j = 0
  · obtain ⟨n, hg, h', hh', hcount, hprio, hblocked⟩ := waiting_block hx h hext h0 he
    refine ⟨⟨⟨_, h'⟩, hh'⟩, fun m _ hm => h.prio_mem hprio hm, ?_⟩
    by_cases hj : j = k
    · subst hj
      refine .blocks n h0 (fun hm => ?_) (by rw [hblocked, Function.update_self])
        (by rw [hcount])
      rw [h.sits.mem, hg] at hm
      simp at hm
    · exact .other _ (by simpa using hj) (by simp)
        (by rw [hblocked, Function.update_of_ne (Ne.symm hj)]) (by rw [hcount])
  · unfold waitSem at he
    simp only [ne_eq, h0, not_false_eq_true, if_true, Option.some.injEq] at he
    obtain rfl := he
    refine ⟨⟨⟨g, h.setCount _⟩, hh⟩, fun m _ _ => rfl, ?_⟩
    by_cases hj : j = k
    · subst hj
      exact .taken h0 rfl (Function.update_self ..)
    · exact .other _ (by simpa using hj) (by simp) rfl (Function.update_of_ne (Ne.symm hj) ..)

lemma served_postSem {j : Sem} (h : Waiting κ s g) (hh : Highest κ s)
    (hp : Proper κ k s (.postSem j)) (h0 : s.blocked k ≠ [] → s.semCount k = 0) :
    Served κ k s (postSem κ j s) (.postSem j) := by
  rcases hq : s.blocked j with _ | ⟨n, q⟩
  · rw [postSem_nil hq]
    refine ⟨⟨⟨g, h.setCount _⟩, hh⟩, fun m _ _ => rfl, ?_⟩
    by_cases hj : j = k
    · subst hj
      refine .posted hq hq ?_
      dsimp only
      rw [Function.update_self, Nat.mod_eq_of_lt (hp rfl hq)]
    · exact .other _ (by simp) (by simpa using hj) rfl (Function.update_of_ne (Ne.symm hj) ..)
  · obtain ⟨h', hh', hf⟩ := waiting_release hx h hh hq
    have hs' := postSem_cons hq hf.semCount
    have hblocked : (postSem κ j s).blocked = Function.update s.blocked j q := by
      rw [hs']
      exact hf.blocked
    refine ⟨?_, fun m hm hold => ?_, ?_⟩
    · rw [hs']
      exact ⟨⟨_, h'.setCount _⟩, hh'⟩
    · rw [hs']
      refine hf.prio m.task ?_
      have hmem := hm
      rw [hblocked] at hmem
      have hsits := h.sits.release hq
      rw [(hsits.mem k m).mp hmem]
      simp
    · by_cases hj : j = k
      · subst hj
        refine .released n ?_ ?_
        · rw [hblocked, Function.update_self]
          exact hq
        · rw [hs']
          dsimp only
          rw [Function.update_self, h0 (by rw [hq]; simp)]
          rfl
      · refine .other _ (by simp) (by simpa using hj) ?_ ?_
        · rw [hblocked, Function.update_of_ne (Ne.symm hj)]
        · rw [hs']
          exact Function.update_of_ne (Ne.symm hj) ..

lemma served_step {c : Call} (h : Waiting κ s g) (hh : Highest κ s) (hp : Proper κ k s c)
    (h0 : s.blocked k ≠ [] → s.semCount k = 0) (he : step κ s c = some s') :
    Served κ k s s' c := by
  cases c with
  | base c => exact served_base hx h hh hp he
  | alarms ts => exact served_alarms hx h he
  | waitSem j => exact served_waitSem hx h hh he
  | postSem j => exact Option.some.inj he ▸ served_postSem hx h hh hp h0

end Served

/-! ### The books are kept -/

section Books

variable {c : ℕ} {b : Books ν}

/-- The key of the queue of a semaphore. -/
abbrev current (s : Core ν) (m : Node ν) : ℕ := s.prio m.task

structure Kept (c : ℕ) (k : Sem) (s : Core ν) (b : Books ν) : Prop where
  empty : s.semCount k ≠ 0 → s.blocked k = []
  sum : c + b.posts = s.semCount k + b.granted
  perm : b.waiting.Perm (s.blocked k)
  sorted : Descending (current s) (s.blocked k)
  order : ∀ p, bucket (current s) p b.waiting = bucket (current s) p (s.blocked k)

/-- The order of the queue depends on the priorities of its tasks only. -/
lemma Kept.congr {s' : Core ν} (h : Kept c k s b)
    (hp : ∀ m ∈ s.blocked k, s'.prio m.task = s.prio m.task) :
    Descending (current s') (s.blocked k) ∧
      ∀ p, bucket (current s') p b.waiting = bucket (current s') p (s.blocked k) := by
  refine ⟨h.sorted.congr hp, fun p => ?_⟩
  rw [bucket_congr (fun m hm => hp m (h.perm.mem_iff.mp hm)), bucket_congr hp]
  exact h.order p

variable [DecidableEq ν]

lemma filter_notMem_self (q : List (Node ν)) : q.filter (· ∉ q) = [] := by
  rw [List.filter_eq_nil_iff]
  intro m hm
  simpa using hm

/-- A call that leaves the queue alone. -/
lemma note_same {call : Call} (h : Kept c k s b) (hb : s'.blocked k = s.blocked k) :
    b.note k s s' call = ⟨b.posts + if call = .postSem k then 1 else 0,
      b.granted + if call = .waitSem k then 1 else 0, b.waiting⟩ := by
  have hall : b.waiting.filter (· ∈ s.blocked k) = b.waiting := by
    rw [List.filter_eq_self]
    intro m hm
    simpa using h.perm.mem_iff.mp hm
  unfold Books.note
  rw [hb, filter_notMem_self, hall, List.append_nil]
  simp

lemma kept_blocks {prio : Tid → ℕ} (hprio : s'.prio = prio) (h : Kept c k s b)
    (hp : ∀ m ∈ s.blocked k, s'.prio m.task = s.prio m.task) (h0 : s.semCount k = 0)
    (hn : n ∉ s.blocked k) (hb : s'.blocked k = semInsert prio n (s.blocked k))
    (hc : s'.semCount k = s.semCount k) : Kept c k s' (b.note k s s' (.waitSem k)) := by
  obtain ⟨hsort, hord⟩ := h.congr hp
  have hperm : (s'.blocked k).Perm (n :: s.blocked k) := by
    rw [hb]
    exact semInsert_perm _ _ _
  have hne : s'.blocked k ≠ s.blocked k := by
    intro he
    have := hperm.length_eq
    rw [he, List.length_cons] at this
    omega
  have hleft : (s.blocked k).filter (· ∉ s'.blocked k) = [] := by
    rw [List.filter_eq_nil_iff]
    intro m hm
    simpa using hperm.mem_iff.mpr (List.mem_cons_of_mem _ hm)
  have hcame : (s'.blocked k).filter (· ∉ s.blocked k) = [n] := by
    have := hperm.filter (· ∉ s.blocked k)
    rw [List.filter_cons, if_pos (by simpa using hn), filter_notMem_self] at this
    exact List.perm_singleton.mp this
  have hstay : b.waiting.filter (· ∈ s'.blocked k) = b.waiting := by
    rw [List.filter_eq_self]
    intro m hm
    simpa using hperm.mem_iff.mpr (List.mem_cons_of_mem _ (h.perm.mem_iff.mp hm))
  have hnote : b.note k s s' (.waitSem k) = ⟨b.posts, b.granted, b.waiting ++ [n]⟩ := by
    unfold Books.note
    rw [hleft, hcame, hstay]
    simp [hne]
  rw [hnote]
  subst hprio
  refine ⟨fun hne => absurd (hc.trans h0) hne, ?_, ?_, ?_, fun p => ?_⟩
  · rw [hc]
    exact h.sum
  · exact ((h.perm.append_right [n]).trans List.perm_append_comm).trans hperm.symm
  · rw [hb]
    exact hsort.insert
  · have hins := bucket_insert (current s') (n := n) hsort p
    rw [bucket_append, hord p, hb]
    refine Eq.trans ?_ hins.symm
    by_cases hk : current s' n = p <;> simp [bucket, hk]

lemma kept_released (h : Kept c k s b) (honce : (s.blocked k).Nodup)
    (hp : ∀ m ∈ s'.blocked k, m ∈ s.blocked k → s'.prio m.task = s.prio m.task)
    (hb : s.blocked k = n :: s'.blocked k) (hc : s'.semCount k = s.semCount k) :
    Kept c k s' (b.note k s s' (.postSem k)) := by
  have hcons := honce
  rw [hb] at hcons
  obtain ⟨hn, -⟩ := List.nodup_cons.mp hcons
  have hp' : ∀ m ∈ s'.blocked k, s'.prio m.task = s.prio m.task := fun m hm =>
    hp m hm (by rw [hb]; exact List.mem_cons_of_mem _ hm)
  have hrest : (s.blocked k).filter (· ∈ s'.blocked k) = s'.blocked k := by
    rw [hb, List.filter_cons, if_neg (by simpa using hn), List.filter_eq_self]
    intro m hm
    simpa using hm
  have hleft : (s.blocked k).filter (· ∉ s'.blocked k) = [n] := by
    rw [hb, List.filter_cons, if_pos (by simpa using hn), filter_notMem_self]
  have hcame : (s'.blocked k).filter (· ∉ s.blocked k) = [] := by
    rw [List.filter_eq_nil_iff]
    intro m hm
    rw [hb]
    simp [hm]
  have hnote : b.note k s s' (.postSem k) =
      ⟨b.posts + 1, b.granted + 1, b.waiting.filter (· ∈ s'.blocked k)⟩ := by
    unfold Books.note
    rw [hleft, hcame]
    simp
  have h0 : s.semCount k = 0 := by
    by_contra hne
    rw [h.empty hne] at hb
    simp at hb
  rw [hnote]
  refine ⟨fun hne => absurd (hc.trans h0) hne, ?_, ?_, ?_, fun p => ?_⟩
  · have := h.sum
    dsimp only
    omega
  · have := h.perm.filter (· ∈ s'.blocked k)
    rw [hrest] at this
    exact this
  · have hsort := h.sorted
    rw [hb] at hsort
    exact Descending.congr (List.pairwise_cons.mp hsort).2 hp'
  · have hmem : ∀ m ∈ b.waiting.filter (· ∈ s'.blocked k), current s' m = current s m :=
      fun m hm => hp' m (by simpa using (List.mem_filter.mp hm).2)
    calc bucket (current s') p (b.waiting.filter (· ∈ s'.blocked k))
        = bucket (current s) p (b.waiting.filter (· ∈ s'.blocked k)) := bucket_congr hmem p
      _ = (bucket (current s) p (s.blocked k)).filter (· ∈ s'.blocked k) := by
          rw [bucket_filter, h.order p]
      _ = bucket (current s) p (s'.blocked k) := by rw [← bucket_filter, hrest]
      _ = bucket (current s') p (s'.blocked k) := (bucket_congr hp' p).symm

/-- **A call keeps the books.** -/
lemma kept_step {call : Call} (h : Kept c k s b) (honce : (s.blocked k).Nodup)
    (hs : Served κ k s s' call) : Kept c k s' (b.note k s s' call) := by
  have hsame : s'.blocked k = s.blocked k →
      ∀ m ∈ s.blocked k, s'.prio m.task = s.prio m.task := fun hb m hm =>
    hs.prio m (by rw [hb]; exact hm) hm
  cases hs.effect with
  | other call hw hp hb hc =>
    obtain ⟨hsort, hord⟩ := h.congr (hsame hb)
    rw [note_same h hb, if_neg hw, if_neg hp]
    exact ⟨by rw [hc, hb]; exact h.empty, by rw [hc]; exact h.sum, by rw [hb]; exact h.perm,
      by rw [hb]; exact hsort, by rw [hb]; exact hord⟩
  | taken h0 hb hc =>
    obtain ⟨hsort, hord⟩ := h.congr (hsame hb)
    rw [note_same h hb]
    refine ⟨fun _ => by rw [hb]; exact h.empty h0, ?_, by rw [hb]; exact h.perm,
      by rw [hb]; exact hsort, by rw [hb]; exact hord⟩
    have := h.sum
    simp only [reduceCtorEq, if_false, if_true]
    omega
  | blocks n h0 hn hb hc =>
    refine kept_blocks rfl h (fun m hm => ?_) h0 hn hb hc
    refine hs.prio m ?_ hm
    rw [hb]
    exact (semInsert_perm _ _ _).mem_iff.mpr (List.mem_cons_of_mem _ hm)
  | posted hb hb' hc =>
    obtain ⟨hsort, hord⟩ := h.congr (hsame (hb'.trans hb.symm))
    rw [note_same h (hb'.trans hb.symm)]
    rw [hb] at hsort hord
    refine ⟨fun _ => hb', ?_, by rw [hb', ← hb]; exact h.perm, by rw [hb']; exact hsort,
      by rw [hb']; exact hord⟩
    have := h.sum
    simp only [reduceCtorEq, if_false, if_true]
    omega
  | released n hb hc => exact kept_released h honce hs.prio hb hc

/-- How `PostSem` serves the tasks that wait at `k`: it releases one node, of the highest
current priority and of those the one that has waited longest, and what runs then is not below
the released task. -/
structure Grants (k : Sem) (s s' : Core ν) (b : Books ν) (n : Node ν) : Prop where
  one : s.blocked k = n :: s'.blocked k
  others : ∀ j, j ≠ k → s'.blocked j = s.blocked j
  ready : n ∈ s'.rq ∨ n ∈ s'.stk
  highest : ∀ m ∈ s.blocked k, s.prio m.task ≤ s.prio n.task
  first : (b.waiting.filter fun m => s.prio m.task = s.prio n.task).head? = some n
  runs : s'.prio n.task ≤ s'.prio s'.curr

omit [DecidableEq ν] in
lemma grants_post {g : Tid → Option (Sem × ν)}
    (hx : ∀ t, (κ.tdb t).taskType = .extended → (κ.tdb t).maxNumOfAct = 1)
    (hw : Waiting κ s g) (hh : Highest κ s) (h : Kept c k s b) (hne : s.blocked k ≠ []) :
    ∃ n, Grants k s (postSem κ k s) b n := by
  obtain ⟨n, q, hq⟩ := List.exists_cons_of_ne_nil hne
  obtain ⟨-, hh', hf⟩ := waiting_release hx hw hh hq
  have hs' := postSem_cons hq hf.semCount
  have hblocked : (postSem κ k s).blocked = Function.update s.blocked k q := by
    rw [hs']
    exact hf.blocked
  refine ⟨n, ?_, fun j hj => ?_, ?_, ?_, ?_, ?_⟩
  · rw [hblocked, Function.update_self]
    exact hq
  · rw [hblocked, Function.update_of_ne hj]
  · rw [hs']
    exact (release_where (s := { s with blocked := Function.update s.blocked k q })
      hw.calm.top).1
  · have hsort := h.sorted
    rw [hq] at hsort ⊢
    intro m hm
    rcases List.mem_cons.mp hm with rfl | hm
    · exact le_rfl
    · exact (List.pairwise_cons.mp hsort).1 m hm
  · have hord := h.order (current s n)
    rw [hq, bucket_head] at hord
    exact congrArg List.head? hord
  · rw [hs']
    exact release_runs (s := { s with blocked := Function.update s.blocked k q }) hw.calm.top hh'

omit [DecidableEq ν] in
lemma waiting_start (κ : Kdb) {free : List (Node ν)} (hf : (free.map Node.sn).Nodup)
    (c : Sem → ℕ) : Waiting κ (start κ free c) (fun _ => none) := by
  refine ⟨?_, ⟨fun k n => ?_, fun k => ?_⟩, fun t ht => absurd rfl ht, fun t _ => ?_⟩
  · have h := calm_init κ hf
    exact ⟨h.toSteady.frame (T := { (init κ free).toTcbs with
      semCount := c }) rfl rfl rfl rfl rfl rfl, h.top, h.run⟩
  · simp [start, init]
  · simp [start, init]
  · simp [start, init]

/-- **Semaphore accounts**: where extended tasks have one activation, in every run of a kernel
without memory phases in which no counter overflows, a positive count means that no task is
blocked, posts and initial count are what is left of the count and the granted waits, and
`PostSem` serves the blocked tasks by priority and then by arrival. -/
theorem semaphore_accounts
    (hx : ∀ t, (κ.tdb t).taskType = .extended → (κ.tdb t).maxNumOfAct = 1)
    {free : List (Node ν)} (hf : (free.map Node.sn).Nodup) (c : Sem → ℕ) (k : Sem)
    {cs : List Call}
    (hp : Along (track κ k) (fun p call => Proper κ k p.1 call) (start κ free c, ⟨0, 0, []⟩) cs)
    (he : exec (track κ k) (start κ free c, ⟨0, 0, []⟩) cs = some (s, b)) :
    (0 < s.semCount k → s.blocked k = []) ∧
      c k + b.posts = s.semCount k + b.granted ∧
      b.waiting.Perm (s.blocked k) ∧
      (s.blocked k ≠ [] → ∃ n, Grants k s (postSem κ k s) b n) := by
  have hinv : (∃ g, Waiting κ s g) ∧ Highest κ s ∧ Kept (c k) k s b := by
    refine exec_inv_along (P := fun p : Core ν × Books ν =>
      (∃ g, Waiting κ p.1 g) ∧ Highest κ p.1 ∧ Kept (c k) k p.1 p.2) ?_ ?_ hp he
    · rintro ⟨s, b⟩ call ⟨s', b'⟩ ⟨⟨g, hw⟩, hh, hk⟩ hcall ht
      obtain ⟨s₁, hs₁, heq⟩ := Option.map_eq_some_iff.mp ht
      obtain ⟨rfl, rfl⟩ := Prod.mk.inj heq
      have h0 : s.blocked k ≠ [] → s.semCount k = 0 := fun hne => by
        by_contra hcount
        exact hne (hk.empty hcount)
      have hs := served_step hx hw hh hcall h0 hs₁
      exact ⟨hs.inv.1, hs.inv.2, kept_step hk (hw.sits.once k) hs⟩
    · refine ⟨⟨_, waiting_start κ hf c⟩, fun m hm => ?_, ?_⟩
      · simp [start, init] at hm
      · exact ⟨fun _ => rfl, rfl, List.Perm.refl _, List.Pairwise.nil, fun p => rfl⟩
  obtain ⟨⟨g, hw⟩, hh, hk⟩ := hinv
  exact ⟨fun hpos => hk.empty (by omega), hk.sum, hk.perm, grants_post hx hw hh hk⟩

end Books

/-- A core with the ISR2 `1` and extended tasks: `2` runs at a higher priority than it is ready
at. -/
def semKdb (acts : ℕ) : Kdb where
  tdb t :=
    if t = 0 then ⟨.idle, 0, 0, 1⟩
    else if t = 1 then ⟨.isr2, isr2PrioBit, isr2PrioBit, 1⟩
    else if t = 2 then ⟨.extended, 1, 3, acts⟩
    else ⟨.extended, 2, 2, 1⟩
  idle := 0
  startedIsr := 1
  endedIsr := 1
  resPrio r := r + 1
  idle_iff t := by split_ifs with h <;> simp [h]
  idle_prio := rfl
  regular_prio t ht := by
    unfold Tdb.Regular at ht
    unfold maxTaskPriority isr2PrioBit
    split_ifs at ht ⊢ <;> simp at ht ⊢
  isr2_prio t ht := by
    split_ifs at ht ⊢
    exact le_rfl

lemma semKdb_acts (t : Tid) (h : ((semKdb 1).tdb t).taskType = .extended) :
    ((semKdb 1).tdb t).maxNumOfAct = 1 := by
  simp only [semKdb] at h ⊢
  split_ifs at h ⊢
  · rfl
  · rfl

def sixNodes : List (Node ℕ) := [⟨0, 0⟩, ⟨1, 0⟩, ⟨2, 0⟩, ⟨3, 0⟩, ⟨4, 0⟩, ⟨5, 0⟩]

/-- Three tasks wait at a semaphore that was initialised with `1`. -/
def fourWaits : List Call :=
  [.alarms [2], .waitSem 0, .waitSem 0, .base (.activateTask 3), .waitSem 0,
    .base (.activateTask 4), .waitSem 0]

theorem semaphore_accounts_fourWaits :
    ∃ s b, exec (track (semKdb 1) 0) (start (semKdb 1) sixNodes fun _ => 1, ⟨0, 0, []⟩)
        fourWaits = some (s, b) ∧
      s.blocked 0 = [⟨0, 2⟩, ⟨1, 3⟩, ⟨2, 4⟩] ∧ b.granted = 1 ∧
      ∃ n, Grants 0 s (postSem (semKdb 1) 0 s) b n := by
  obtain ⟨⟨s, b⟩, he⟩ : ∃ p, exec (track (semKdb 1) 0)
      (start (semKdb 1) sixNodes fun _ => 1, ⟨0, 0, []⟩) fourWaits = some p :=
    Option.isSome_iff_exists.mp (by decide +kernel)
  have hview : (exec (track (semKdb 1) 0) (start (semKdb 1) sixNodes fun _ => 1, ⟨0, 0, []⟩)
      fourWaits).map (fun p => (p.1.blocked 0, p.2.granted)) =
      some ([⟨0, 2⟩, ⟨1, 3⟩, ⟨2, 4⟩], 1) := by decide +kernel
  rw [he, Option.map_some, Option.some.injEq, Prod.mk.injEq] at hview
  have h := semaphore_accounts semKdb_acts (by decide) (fun _ => 1) 0 (by decide +kernel) he
  exact ⟨s, b, he, hview.1, hview.2, h.2.2.2 (by rw [hview.1]; simp)⟩

/-- Task `2` waits at its dispatch priority; a second activation of it ends and resets the
priority, so that task `3` behind it is higher. And a counter overflows. -/
theorem semaphore_out_of_order :
    (∃ s b, exec (track (semKdb 2) 0) (start (semKdb 2) sixNodes fun _ => 0, ⟨0, 0, []⟩)
        [.alarms [2], .waitSem 0, .alarms [3], .waitSem 0, .base (.activateTask 2),
          .base .terminateTask] = some (s, b) ∧
      s.blocked 0 = [⟨0, 2⟩, ⟨1, 3⟩] ∧ (postSem (semKdb 2) 0 s).blocked 0 = [⟨1, 3⟩] ∧
      s.prio 2 < s.prio 3) ∧
    ∃ s b, exec (track (semKdb 1) 0)
        (start (semKdb 1) sixNodes fun _ => countRange - 1, ⟨0, 0, []⟩) [.postSem 0] =
          some (s, b) ∧
      countRange - 1 + b.posts ≠ s.semCount 0 + b.granted := by
  refine ⟨⟨_, _, rfl, ?_, ?_, ?_⟩, ⟨_, _, rfl, ?_⟩⟩
  · decide +kernel
  · decide +kernel
  · decide +kernel
  · decide +kernel

end FpMemSched.Erika.Semaphores
