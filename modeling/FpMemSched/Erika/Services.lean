import FpMemSched.Erika.Phases

/-!
The services of the kernel beside memory phases.

What may call a service is not in the loop of `DPREM_begin_memory_phase`, and no service takes
a task off the stack that is in a memory phase. So the services move tasks outside memory
phases only, and leave the token and the suspended tasks as they are. Tasks have one activation
each.
-/

namespace FpMemSched.Erika.Services

open FpMemSched.Lib.Places FpMemSched.Erika.Kernel FpMemSched.Erika.Dprem
open FpMemSched.Erika.Order FpMemSched.Erika.Started FpMemSched.Erika.Nodes
open FpMemSched.Erika.Operations FpMemSched.Erika.Phases
open FpMemSched.GuestProtocol (MemArbitStatus)

variable {ν : Type} {κ : Kdb} {w : Option (Node ν)} {s s' : Core ν} {n : Node ν}
  {stk : List (Node ν)}

structure Quiet (κ : Kdb) (w : Option (Node ν)) (s : Core ν) : Prop where
  calm : Calm κ s.prio s.phase s.numOfAct s.stk s.rq
  parked : Parked κ w s.prio s.phase s.memArbitStatus s.stk s.suspended

lemma Quiet.forget (h : Quiet κ w s) : Quiet κ none s :=
  ⟨h.calm, h.parked.away, h.parked.parked, by simp, h.parked.token⟩

/-- The ready tasks have not started. -/
structure Apart (s : Core ν) : Prop where
  outside : ∀ m ∈ s.rq, s.phase m.task = .outside
  active : ∀ m ∈ s.rq, s.numOfAct m.task ≠ 0
  stk : ∀ m ∈ s.rq, m.task ∉ s.stk.map Node.task
  susp : ∀ m ∈ s.rq, m.task ∉ s.suspended.map Node.task
  once : s.rq.Pairwise fun x y => x.task ≠ y.task

/-! ### One node per task -/

section Alone

variable [DecidableEq ν] {N : ν → Prop}
  (h₁ : ∀ t, (κ.tdb t).Regular → (κ.tdb t).maxNumOfAct = 1)

lemma nodup_of_sound (h : Sound κ N s) :
    ((s.stk ++ (s.suspended ++ s.rq)).map Node.sn).Nodup := by
  obtain ⟨place, job, hh, -⟩ := h.nodes
  rw [List.nodup_iff_count_le_one]
  intro b
  have hstk := hh.exact .stk b
  have hsusp := hh.exact .susp b
  have hrq := hh.exact .rq b
  simp only [nocc] at hstk hsusp hrq
  rw [List.map_append, List.map_append, List.count_append, List.count_append, hstk, hsusp, hrq]
  rcases place b with _ | P
  · simp
  · cases P <;> simp [ind_some]

include h₁

lemma sole_of_sound (h : Sound κ N s) {m : Node ν} (hm : Listed s m)
    (hr : (κ.tdb m.task).Regular) :
    s.numOfAct m.task = 1 ∧ ∀ x, Listed s x → x.task = m.task → x.sn = m.sn := by
  obtain ⟨place, job, hh, -⟩ := h.nodes
  have hj := hh.listed m hm
  obtain ⟨P, hP, hpm⟩ := hh.listed_place hm
  have hs : Single κ (job m.sn) := by
    rw [hj]
    exact ⟨hr, h₁ _ hr⟩
  obtain ⟨hact, hsole⟩ := hh.single m.sn hs (by rw [hpm]; simpa using hP)
  rw [hj] at hact
  refine ⟨hact, fun x hx hxt => ?_⟩
  obtain ⟨Q, hQ, hpx⟩ := hh.listed_place hx
  exact hsole x.sn (by rw [hpx]; simpa using hQ) (by rw [hh.listed x hx, hj, hxt])

lemma once_of_sound (h : Sound κ N s) : (s.stk ++ (s.suspended ++ s.rq)).Pairwise
    fun x y => (κ.tdb x.task).Regular → x.task ≠ y.task := by
  have hlisted : ∀ x ∈ s.stk ++ (s.suspended ++ s.rq), Listed s x := by
    intro x hx
    simp only [List.mem_append] at hx
    unfold Listed
    tauto
  refine (List.pairwise_map.mp (nodup_of_sound h)).imp_of_mem fun {x y} hx hy hxy hr he => ?_
  exact hxy ((sole_of_sound h₁ h (hlisted x hx) hr).2 y (hlisted y hy) he.symm).symm

omit [DecidableEq ν] h₁ in
lemma notMem_of_once {a b : List (Node ν)} (h : (a ++ n :: b).Pairwise
    fun x y => (κ.tdb x.task).Regular → x.task ≠ y.task) (hr : (κ.tdb n.task).Regular) :
    n.task ∉ (a ++ b).map Node.task := by
  intro hm
  obtain ⟨m, hm, he⟩ := List.mem_map.mp hm
  obtain ⟨-, hb, hab⟩ := List.pairwise_append.mp h
  rcases List.mem_append.mp hm with hm | hm
  · exact hab m hm n List.mem_cons_self (he ▸ hr) he
  · exact (List.pairwise_cons.mp hb).1 m hm hr he.symm

/-- A regular task has no second node. -/
lemma alone_of_split (h : Sound κ N s) {a b : List (Node ν)}
    (hab : s.stk ++ (s.suspended ++ s.rq) = a ++ n :: b) (hr : (κ.tdb n.task).Regular) :
    s.numOfAct n.task ≠ 0 ∧ n.task ∉ (a ++ b).map Node.task := by
  have honce := once_of_sound h₁ h
  rw [hab] at honce
  refine ⟨?_, notMem_of_once honce hr⟩
  have hn : n ∈ s.stk ++ (s.suspended ++ s.rq) := by
    rw [hab]
    simp
  have hl : Listed s n := by
    simp only [List.mem_append] at hn
    unfold Listed
    tauto
  have := (sole_of_sound h₁ h hl hr).1
  omega

/-- A regular task that runs has its node on top of the stack, and no other one. -/
lemma alone_of_sound (h : Sound κ N s) (hstk : s.stk = n :: stk)
    (hr : (κ.tdb n.task).Regular) : s.numOfAct n.task ≠ 0 ∧ n.task ∉ stk.map Node.task ∧
      n.task ∉ s.suspended.map Node.task ∧ n.task ∉ s.rq.map Node.task := by
  obtain ⟨hact, hnot⟩ := alone_of_split (a := []) (b := stk ++ (s.suspended ++ s.rq)) h₁ h
    (by rw [hstk]; rfl) hr
  simp only [List.nil_append, List.map_append, List.mem_append, not_or] at hnot
  exact ⟨hact, hnot⟩

lemma apart_of_sound (h : Sound κ N s) (hq : Quiet κ w s) : Apart s := by
  have honce := once_of_sound h₁ h
  rw [← List.append_assoc, List.pairwise_append] at honce
  obtain ⟨-, hrq, hapart⟩ := honce
  have hreg := fun m hm => (hq.calm.ready m hm).1
  -- a started task with the same name would be regular as well
  have hnot : ∀ m ∈ s.rq, m.task ∉ (s.stk ++ s.suspended).map Node.task := by
    intro m hm hmem
    obtain ⟨x, hx, he⟩ := List.mem_map.mp hmem
    exact hapart x hx m hm (he ▸ hreg m hm) he
  refine ⟨fun m hm => hq.parked.outside_of_notMem (hnot m hm), fun m hm => ?_, fun m hm hmem => ?_,
    fun m hm hmem => ?_, hrq.imp_of_mem fun {x y} hx _ hxy => hxy (hreg x hx)⟩
  · have := (sole_of_sound h₁ h (Or.inl hm) (hreg m hm)).1
    omega
  · exact hnot m hm (List.map_subset _ (List.subset_append_left _ _) hmem)
  · exact hnot m hm (List.map_subset _ (List.subset_append_right _ _) hmem)

end Alone

lemma Apart.pop (h : Apart s) (hs : s.stk = n :: stk) : Apart { s with stk := stk } :=
  ⟨h.outside, h.active, fun m hm hmem => h.stk m hm (by rw [hs]; exact List.mem_cons_of_mem _ hmem),
    h.susp, h.once⟩

/-! ### Rescheduling -/

/-- A rescheduling touches no task that is not ready. -/
lemma settle_unready {t : Tid} (ht : t ∉ s.rq.map Node.task) :
    (settle κ s).prio t = s.prio t ∧ ∀ m : Node ν, m.task = t → (m ∈ (settle κ s).stk ↔ m ∈ s.stk) := by
  rcases settle_cases κ s with ⟨he, -⟩ | ⟨q, rq, hr, -, he⟩
  · rw [he]
    exact ⟨rfl, fun _ _ => Iff.rfl⟩
  · rw [he]
    have hne : t ≠ q.task := by
      rintro rfl
      exact ht (by rw [hr]; simp)
    refine ⟨?_, fun m hm => ?_⟩
    · simp only [stkNext, dispatch_prio]
      exact Function.update_of_ne hne ..
    · have hmq : m ≠ q := by
        rintro rfl
        exact hne hm.symm
      simp [stkNext, hmq]

lemma settle_phase (s : Core ν) : (settle κ s).phase = s.phase := by rw [settle_toTcbs]

lemma settle_memArbitStatus (s : Core ν) :
    (settle κ s).memArbitStatus = s.memArbitStatus := by rw [settle_toTcbs]

lemma calm_settle (h : Calm κ s.prio s.phase s.numOfAct s.stk s.rq) (ha : Apart s)
    (hr : Raised s.prio s.phase s.stk) :
    Calm κ (settle κ s).prio s.phase s.numOfAct (settle κ s).stk (settle κ s).rq := by
  rcases settle_cases κ s with ⟨he, -⟩ | ⟨q, rq, hq, hp, he⟩
  · rw [he]
    exact h
  · rw [he]
    have hmem : q ∈ s.rq := by
      rw [hq]
      simp
    obtain ⟨hreg, hlt⟩ := h.ready q hmem
    have hsub : ∀ m ∈ rq, m ∈ s.rq := by
      rw [hq]
      exact fun m => List.mem_cons_of_mem _
    have honce := ha.once
    rw [hq, List.pairwise_cons] at honce
    have hnot : q.task ∉ rq.map Node.task := by
      intro hm
      obtain ⟨m, hm, hmt⟩ := List.mem_map.mp hm
      exact honce.1 m hm hmt.symm
    -- on the stack the task gets its dispatch priority
    have hout : ¬ Hot (s.phase q.task) := by
      rw [ha.outside q hmem]
      exact id
    have hpush := (h.queue fun m hm => h.ready m (hsub m hm)).push hr hreg hlt hp hout
    have hset := hpush.setTop hreg (ha.stk q hmem) hnot (ha.active q hmem)
      (max_le (h.bound _ hreg) (κ.regular_prio _ hreg).2.2) (f := s.phase q.task)
      fun hot => absurd hot hout
    rw [Function.update_eq_self] at hset
    simpa only [stkNext, dispatch_prio] using hset

/-- **A rescheduling keeps the memory phases in order.** -/
lemma quiet_settle (h : Quiet κ w s) (ha : Apart s) (hr : Raised s.prio s.phase s.stk)
    (hs : s.memArbitStatus = .requested → s.suspended ≠ []) : Quiet κ w (settle κ s) := by
  refine ⟨?_, ?_⟩
  · rw [settle_phase, settle_numOfAct]
    exact calm_settle h.calm ha hr
  · rw [settle_phase, settle_memArbitStatus, settle_suspended]
    refine h.parked.frame (fun m hm => (settle_unready fun hmem => hm ?_).2 m rfl) (fun m hm => ?_) hs
    · obtain ⟨x, hx, he⟩ := List.mem_map.mp hmem
      rw [← he]
      exact ha.outside x hx
    · refine (settle_unready fun hmem => ?_).1
      obtain ⟨x, hx, he⟩ := List.mem_map.mp hmem
      exact ha.susp x hx (he ▸ List.mem_map_of_mem hm)

/-! ### Services -/

/-- Whatever may call a service leaves the token where it is. -/
lemma raised_of_userCode (h : Quiet κ w s) (ht : s.curr = topTask κ s.stk) (hu : UserCode κ s) :
    Raised s.prio s.phase s.stk ∧ (s.memArbitStatus = .requested → s.suspended ≠ []) := by
  have hcurr : ∀ m ∈ s.stk.head?, s.phase m.task ≠ .outside →
      s.phase m.task ≠ .loop ∧ s.phase m.task ≠ .returning := by
    intro m hm hne
    have hc : s.curr = m.task := ht.trans (topTask_eq hm)
    have := hu (hc ▸ (h.parked.away _ hne).1)
    rwa [hc] at this
  refine ⟨fun m hm hot => ?_, fun hst => ?_⟩
  · rcases h.calm.hot m hm hot with hp | ⟨hret, hhead⟩
    · exact hp
    · exact absurd hret (hcurr m hhead (by rw [hret]; simp)).2
  · have htoken := h.parked.token
    rw [hst] at htoken
    rcases htoken.2.1 with hne | ⟨m, hm, hloop⟩
    · exact hne
    · exact absurd hloop (hcurr m hm (by rw [hloop]; simp)).1

/-- A task outside memory phases leaves the stack. -/
lemma quiet_pop (h : Quiet κ w s) (hstk : s.stk = n :: stk) (ho : s.phase n.task = .outside) :
    Quiet κ w { s with stk := stk } ∧ Raised s.prio s.phase stk ∧
      (s.memArbitStatus = .requested → s.suspended ≠ []) := by
  have hcalm := h.calm
  rw [hstk] at hcalm
  obtain ⟨hpop, hraised⟩ := hcalm.pop (by rw [ho]; exact id)
  have hreq : s.memArbitStatus = .requested → s.suspended ≠ [] := by
    intro hst
    have htoken := h.parked.token
    rw [hst, hstk] at htoken
    rcases htoken.2.1 with hne | ⟨m, hm, hloop⟩
    · exact hne
    · obtain rfl : n = m := Option.some.inj hm
      rw [ho] at hloop
      simp at hloop
  refine ⟨⟨hpop, h.parked.frame (fun m hm => ?_) (fun _ _ => rfl) hreq⟩, hraised, hreq⟩
  have hne : m ≠ n := by
    rintro rfl
    exact hm ho
  rw [hstk, List.mem_cons]
  simp [hne]

/-- Priorities of tasks outside memory phases do not matter to the suspended ones. -/
lemma parked_setPrio {prio : Tid → ℕ} {phase : Tid → Phase} {st : MemArbitStatus}
    {susp : List (Node ν)} (h : Parked κ w prio phase st stk susp) {t : Tid} {p : ℕ}
    (ht : phase t = .outside) (hr : st = .requested → susp ≠ []) :
    Parked κ w (Function.update prio t p) phase st stk susp := by
  refine h.frame (fun _ _ => Iff.rfl) (fun m hm => Function.update_of_ne ?_ ..) hr
  rintro rfl
  rcases h.parked m hm with hp | hp
  · rw [hp] at ht
    simp at ht
  · rw [hp.1] at ht
    simp at ht

section Services

variable [DecidableEq ν] {N : ν → Prop}
  (h₁ : ∀ t, (κ.tdb t).Regular → (κ.tdb t).maxNumOfAct = 1)
  (hκ : ∀ t, (κ.tdb t).Regular → (κ.tdb t).readyPrio < maxTaskPriority)

include h₁

/-- The running task leaves the stack and another one is chosen. -/
lemma quiet_popped (hs : Sound κ N s) (h : Quiet κ w s) (hstk : s.stk = n :: stk)
    (ho : s.phase n.task = .outside) (M : Tid → ℕ) :
    Quiet κ w (settle κ { s with waitMask := M, stk := stk }) := by
  obtain ⟨⟨hcalm, hparked⟩, hraised, hreq⟩ := quiet_pop h hstk ho
  obtain ⟨h₁, h₂, h₃, h₄, h₅⟩ := (apart_of_sound h₁ hs h).pop hstk
  exact quiet_settle ⟨hcalm, hparked⟩ ⟨h₁, h₂, h₃, h₄, h₅⟩ hraised hreq

include hκ

lemma quiet_terminate (hs : Sound κ N s) (h : Quiet κ w s) (hc : s.curr ≠ κ.idle)
    (ho : s.phase s.curr = .outside) (he : taskTerminated κ s = some s') : Quiet κ w s' := by
  obtain ⟨n, stk, hstk, hn⟩ := hs.cons hc
  rw [taskTerminated_cons κ hs.run hstk] at he
  obtain rfl := Option.some.inj he
  have hreq := (quiet_pop h hstk (hn ▸ ho)).2.2
  have hset : Quiet κ w (settle κ { s with stk := stk }) :=
    quiet_popped h₁ hs h hstk (hn ▸ ho) s.waitMask
  have hnot : (κ.tdb s.curr).Regular →
      s.curr ∉ (settle κ { s with stk := stk }).stk.map Node.task := by
    rw [← hn]
    intro hr
    obtain ⟨-, hstk', -, hrq⟩ := alone_of_sound h₁ hs hstk hr
    exact (settle_nowhere (κ := κ) (s := { s with stk := stk }) hstk' hrq).1
  have hphase : (settle κ { s with stk := stk }).phase s.curr = .outside := by
    rw [settle_phase]
    exact ho
  have hreq' : (settle κ { s with stk := stk }).memArbitStatus = .requested →
      (settle κ { s with stk := stk }).suspended ≠ [] := by
    rw [settle_memArbitStatus, settle_suspended]
    exact hreq
  unfold Tcbs.ended
  split_ifs with hne
  · have hreset := hset.calm.reset hκ hnot
    refine ⟨hreset.acts fun t ht ha => ?_, parked_setPrio hset.parked hphase hreq'⟩
    by_cases hte : t = s.curr
    · subst hte
      rw [Function.update_self]
      exact hκ _ ht
    · exact hreset.idle t ht ((Function.update_of_ne hte ..).symm.trans ha)
  · refine ⟨hset.calm.acts fun t ht ha => hset.calm.idle t ht ?_, hset.parked⟩
    have hte : t ≠ s.curr := by
      rintro rfl
      refine hnot ht (topTask_mem ?_ hc)
      rw [← settle_top]
      exact (not_not.mp hne).symm
    exact (Function.update_of_ne hte ..).symm.trans ha

omit hκ in
/-- A task that may be activated is nowhere. -/
lemma idle_of_sound (hs : Sound κ N s) (h : Quiet κ w s) {t : Tid} (ht : (κ.tdb t).Regular)
    (hact : s.numOfAct t < (κ.tdb t).maxNumOfAct) :
    s.phase t = .outside ∧ s.prio t < maxTaskPriority := by
  have hzero : s.numOfAct t = 0 := by
    rw [h₁ t ht] at hact
    omega
  refine ⟨h.parked.outside_of_notMem fun hmem => ?_, h.calm.idle t ht hzero⟩
  obtain ⟨m, hm, rfl⟩ := List.mem_map.mp hmem
  have hl : Listed s m := by
    unfold Listed
    rcases List.mem_append.mp hm with hm | hm
    · exact Or.inr (Or.inl hm)
    · exact Or.inr (Or.inr (Or.inl hm))
  have := (sole_of_sound h₁ hs hl ht).1
  omega

omit hκ h₁ [DecidableEq ν] in
lemma calm_start (h : Quiet κ w s) (t : Tid) : Calm κ s.prio s.phase
    (Function.update s.numOfAct t (s.numOfAct t + 1)) s.stk s.rq := by
  refine h.calm.acts fun u hu ha => h.calm.idle u hu ?_
  by_cases he : u = t
  · subst he
    simp at ha
  · rwa [Function.update_of_ne he] at ha

omit hκ in
lemma quiet_ready {m : Node ν} {free : List (Node ν)} {t : Tid} (hs : Sound κ N s)
    (h : Quiet κ w s) (ht : (κ.tdb t).Regular) (hact : s.numOfAct t < (κ.tdb t).maxNumOfAct) :
    Quiet κ w ⟨Tcbs.makeReady t { s.toTcbs with
        numOfAct := Function.update s.numOfAct t (s.numOfAct t + 1) },
      free, rqInsert κ ⟨m.sn, t⟩ s.rq, s.stk, s.suspended, s.blocked⟩ := by
  refine ⟨(calm_start h t).queue fun x hx => ?_, h.parked⟩
  rcases (List.mem_orderedInsert _).mp hx with rfl | hx
  · exact ⟨ht, (idle_of_sound h₁ hs h ht hact).2⟩
  · exact h.calm.ready x hx

omit hκ in
lemma quiet_activate {t : Tid} (hs : Sound κ N s) (h : Quiet κ w s) (hu : UserCode κ s)
    (ht : (κ.tdb t).Regular) (he : activateTask κ t s = some s') : Quiet κ w s' := by
  obtain ⟨hact, he⟩ | rfl := activateTask_some he
  · obtain ⟨ho, hlt⟩ := idle_of_sound h₁ hs h ht hact
    obtain ⟨m, free, hf, ⟨hp, rfl⟩ | ⟨-, rfl⟩⟩ := schedulerTaskActivated_cases he
    · obtain ⟨hraised, hreq⟩ := raised_of_userCode h hs.top hu
      refine ⟨(calm_start h t).push (n := ⟨m.sn, t⟩) hraised ht hlt (fun top htop => ?_)
        (by rw [ho]; exact id), h.parked.frame (fun x hx => ?_) (fun _ _ => rfl) hreq⟩
      · rw [← topTask_eq (κ := κ) htop, ← hs.top]
        exact hp
      · have hne : x ≠ ⟨m.sn, t⟩ := by
          rintro rfl
          exact hx ho
        simp [hne]
    · exact quiet_ready h₁ hs h ht hact
  · exact h

omit h₁ hκ in
lemma quiet_interrupt {i : Tid} (hs : Sound κ N s) (h : Quiet κ w s) (hirq : IrqEnabled κ s)
    (hi : (κ.tdb i).taskType = .isr2) (he : activateIsr2 i s = some s') : Quiet κ w s' := by
  obtain ⟨m, free, hf, rfl⟩ := taskSetRunning_some he
  have ho : s.phase i = .outside := h.parked.outside (not_regular_of_isr2 hi)
  have hu : UserCode κ s := fun hr => by
    rcases hirq hr with hp | hp <;> simp [hp]
  obtain ⟨hraised, hreq⟩ := raised_of_userCode h hs.top hu
  refine ⟨(calm_start h i).interrupt (n := ⟨m.sn, i⟩) hraised (fun x hx hex => ?_) hi
    (by rw [ho]; exact id), h.parked.frame (fun x hx => ?_) (fun _ _ => rfl) hreq⟩
  · -- interrupts are off in an execution phase
    have hc : s.curr = x.task := hs.top.trans (topTask_eq (h.calm.execution x hx hex))
    have hr := (h.parked.away x.task (by rw [hex]; simp)).1
    rw [← hc] at hr hex
    rcases hirq hr with hp | hp <;> rw [hp] at hex <;> simp at hex
  · have hne : x ≠ ⟨m.sn, i⟩ := by
      rintro rfl
      exact hx ho
    simp [hne]

lemma quiet_chainSelf (hs : Sound κ N s) (h : Quiet κ w s) (hr : (κ.tdb s.curr).Regular)
    (ho : s.phase s.curr = .outside) (he : chainTask κ s.curr s = some s') : Quiet κ w s' := by
  obtain ⟨n, stk, hstk, hn⟩ := hs.cons (ne_idle_of_regular hr)
  rw [chainSelf_cons κ hstk] at he
  obtain rfl := Option.some.inj he
  obtain ⟨hq, hraised, hreq⟩ := quiet_pop h hstk (hn ▸ ho)
  obtain ⟨hact, hnstk, hnsusp, hnrq⟩ := alone_of_sound h₁ hs hstk (hn ▸ hr)
  have hap := (apart_of_sound h₁ hs h).pop hstk
  rw [hn] at hact hnstk hnsusp hnrq
  have hreset := hq.calm.reset hκ (t := s.curr) fun _ => hnstk
  have hmem : ∀ m ∈ rqInsert κ ⟨n.sn, s.curr⟩ s.rq, m = ⟨n.sn, s.curr⟩ ∨ m ∈ s.rq :=
    fun m => (List.mem_orderedInsert _).mp
  have hset := quiet_settle (κ := κ) (w := w) (s := { s with
    stk := stk
    prio := Function.update s.prio s.curr (κ.tdb s.curr).readyPrio
    status := Function.update s.status s.curr .ready
    eventMask := if s.numOfAct s.curr = 1 then Function.update s.eventMask s.curr 0
      else s.eventMask
    rq := rqInsert κ ⟨n.sn, s.curr⟩ s.rq })
    ⟨hreset.queue fun m hm => ?_, parked_setPrio hq.parked ho hreq⟩
    ⟨fun m hm => ?_, fun m hm => ?_, fun m hm => ?_, fun m hm => ?_, ?_⟩ (fun m hm hot => ?_) hreq
  · exact ⟨hset.calm, hset.parked⟩
  · rcases hmem m hm with rfl | hm
    · dsimp only
      rw [Function.update_self]
      exact ⟨hr, hκ _ hr⟩
    · exact hreset.ready m hm
  · rcases hmem m hm with rfl | hm
    · exact ho
    · exact hap.outside m hm
  · rcases hmem m hm with rfl | hm
    · exact hact
    · exact hap.active m hm
  · rcases hmem m hm with rfl | hm
    · exact hnstk
    · exact hap.stk m hm
  · rcases hmem m hm with rfl | hm
    · exact hnsusp
    · exact hap.susp m hm
  · refine (List.Perm.pairwise_iff (fun {x y} hxy => hxy.symm) (rqInsert_perm _ _)).mpr
      (List.pairwise_cons.mpr ⟨fun m hm hmt => hnrq ?_, hap.once⟩)
    exact List.mem_map.mpr ⟨m, hm, hmt.symm⟩
  · have hne : m.task ≠ s.curr := fun hmt => hnstk (List.mem_map.mpr ⟨m, hm, hmt⟩)
    exact (Function.update_of_ne hne ..).trans (hraised m hm hot)

lemma quiet_chain {t : Tid} (hs : Sound κ N s) (h : Quiet κ w s) (hr : (κ.tdb s.curr).Regular)
    (ho : s.phase s.curr = .outside) (ht : (κ.tdb t).Regular)
    (he : chainTask κ t s = some s') : Quiet κ w s' := by
  by_cases hte : t = s.curr
  · rw [hte] at he
    exact quiet_chainSelf h₁ hκ hs h hr ho he
  · obtain ⟨hact, s₁, hins, he⟩ | rfl := chainTask_some hte he
    · obtain ⟨m, free, hf, rfl⟩ := taskInsertRq_some hins
      exact quiet_terminate h₁ hκ (sound_ready hs hact hf) (quiet_ready h₁ hs h ht hact)
        (ne_idle_of_regular hr) ho he
    · exact h

omit hκ in
lemma quiet_waitEvent {mask : ℕ} (hs : Sound κ N s) (h : Quiet κ w s)
    (hr : (κ.tdb s.curr).Regular) (ho : s.phase s.curr = .outside)
    (he : waitEvent κ mask s = some s') : Quiet κ w s' := by
  obtain ⟨n, stk, hstk, hn⟩ := hs.cons (ne_idle_of_regular hr)
  rw [waitEvent_cons κ hstk] at he
  split_ifs at he with hev
  · obtain rfl := Option.some.inj he
    have hset := quiet_popped h₁ hs h hstk (hn ▸ ho) (Function.update s.waitMask s.curr mask)
    exact ⟨hset.calm, hset.parked⟩
  · exact Option.some.inj he ▸ h

omit hκ in
lemma quiet_waitSem {k : Sem} (hs : Sound κ N s) (h : Quiet κ w s)
    (hr : (κ.tdb s.curr).Regular) (ho : s.phase s.curr = .outside)
    (he : waitSem κ k s = some s') : Quiet κ w s' := by
  obtain ⟨n, stk, hstk, hn⟩ := hs.cons (ne_idle_of_regular hr)
  rw [waitSem_cons κ hstk] at he
  split_ifs at he with hk
  · exact Option.some.inj he ▸ ⟨h.calm, h.parked⟩
  · obtain rfl := Option.some.inj he
    have hset := quiet_popped h₁ hs h hstk (hn ▸ ho) s.waitMask
    exact ⟨hset.calm, hset.parked⟩

/-- A task that has waited is ready again. -/
lemma quiet_release (h : Quiet κ w s) (hun : Sound κ N (unblocked κ n s))
    (hr : (κ.tdb n.task).Regular) (hu : UserCode κ s) : Quiet κ w (release κ n s) := by
  obtain ⟨hraised, hreq⟩ := raised_of_userCode h hun.top hu
  have honce := once_of_sound h₁ hun
  rw [← List.append_assoc, List.pairwise_append] at honce
  have hmem : n ∈ (unblocked κ n s).rq := (rqInsert_perm n s.rq).mem_iff.mpr List.mem_cons_self
  have hnot : n.task ∉ (s.stk ++ s.suspended).map Node.task := by
    intro hm
    obtain ⟨x, hx, he⟩ := List.mem_map.mp hm
    exact honce.2.2 x hx n hmem (he ▸ hr) he
  have hstk : n.task ∉ s.stk.map Node.task := fun hm =>
    hnot (List.map_subset _ (List.subset_append_left _ _) hm)
  have hreset := h.calm.reset hκ (t := n.task) fun _ => hstk
  have hq : Quiet κ w (unblocked κ n s) := by
    refine ⟨hreset.queue fun m hm => ?_,
      parked_setPrio h.parked (h.parked.outside_of_notMem hnot) hreq⟩
    rcases (List.mem_orderedInsert _).mp hm with rfl | hm
    · rw [Function.update_self]
      exact ⟨hr, hκ _ hr⟩
    · exact hreset.ready m hm
  rcases release_cases (s := s) κ n hun.top with he | he
  · rw [he]
    exact hq
  · rw [he]
    have hset := quiet_settle hq (apart_of_sound h₁ hun hq) (fun m hm hot => ?_) hreq
    · exact ⟨hset.calm, hset.parked⟩
    · have hne : m.task ≠ n.task := fun hmt => hstk (List.mem_map.mpr ⟨m, hm, hmt⟩)
      exact (Function.update_of_ne hne ..).trans (hraised m hm hot)

lemma quiet_postSem {k : Sem} (hs : Sound κ N s) (h : Quiet κ w s) (hu : UserCode κ s) :
    Quiet κ w (postSem κ k s) := by
  unfold postSem
  split
  · next n q hk =>
    have hun := sound_post (fun t ht => h₁ t (Or.inr ht)) hs hk
    have hext := hs.sem k n (by rw [hk]; simp)
    exact quiet_release h₁ hκ (s := { s with blocked := Function.update s.blocked k q })
      ⟨h.calm, h.parked⟩ hun (Or.inr hext) hu
  · exact ⟨h.calm, h.parked⟩

lemma quiet_setEvent {t : Tid} {mask : ℕ} (hs : Sound κ N s) (h : Quiet κ w s)
    (hu : UserCode κ s) : Quiet κ w (setEvent κ t mask s) := by
  rcases setEvent_cases κ t mask s with ⟨em, he⟩ | ⟨em, sn, hm, ho, he⟩
  · rw [he]
    exact ⟨h.calm, h.parked⟩
  · rw [he]
    have hext := hs.waits.extended t (hs.waits.mask t hm)
    exact quiet_release h₁ hκ (n := ⟨sn, t⟩)
      (s := { s with eventMask := em, ownSn := Function.update s.ownSn t none })
      ⟨h.calm, h.parked⟩ (sound_wake hs hm ho) (Or.inr hext) hu

end Services

end FpMemSched.Erika.Services
