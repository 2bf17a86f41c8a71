import FpMemSched.Erika.Turns

/-!
Memory phases only with the token, and no task that is suspended for good.

A core whose tasks have one activation each follows the memory phases, with `BEGIN` answered
as the hypervisor likes and the two interrupts at any time they are enabled. A task is inside
its memory phase on the stack only while the core has the token; whoever is suspended is
resumed by the next grant, or by a task that still has to ask for the token; and a grant
resumes the task that the last revocation has suspended.
-/

namespace FpMemSched.Erika.Token

open FpMemSched.Lib.Runs FpMemSched.Erika.Kernel FpMemSched.Erika.Dprem
open FpMemSched.Erika.Order FpMemSched.Erika.Started
open FpMemSched.Erika.Operations FpMemSched.Erika.Phases FpMemSched.Erika.Services
open FpMemSched.Erika.Turns
open FpMemSched.Arbiter (Reply)

variable {ν : Type} {κ : Kdb} {w : Option (Node ν)} {s s' : Core ν} {n : Node ν}

/-! ### Runs -/

/-- Tasks take no resources, and `END` is acknowledged. -/
def Allowed : Action → Prop
  | .getResource _ | .releaseResource _ => False
  | .endMemoryPhase r => r = .ack
  | _ => True

instance : DecidablePred Allowed
  | .endMemoryPhase r => inferInstanceAs (Decidable (r = .ack))
  | .getResource _ | .releaseResource _ => isFalse id
  | .activateTask _ | .terminate | .chainTask _ | .interrupt _ | .startedIsr | .endedIsr
  | .waitEvent _ | .setEvent _ _ | .waitSem _ | .postSem _ | .beginMemoryPhase | .beginTurn _
  | .endExecutionPhase => isTrue trivial

section Steps

variable [DecidableEq ν] {N : ν → Prop} {a : Action}

lemma sound_started (h : Sound κ N s) (hi : (κ.tdb s.curr).taskType = .isr2) :
    Sound κ N (memoryPhaseStartedIsr κ s) := by
  unfold memoryPhaseStartedIsr
  by_cases hst : s.memArbitStatus = .requested
  · have hres := sound_resumeFromIsr (s := { s with memArbitStatus := .acquired })
      (h.frame rfl rfl rfl rfl rfl rfl) (ne_idle_of_isr2 hi)
    simp only [if_pos hst]
    split
    · split_ifs
      · exact hres.frame rfl rfl rfl rfl rfl rfl
      · exact hres
    · exact hres
  · simp only [if_neg hst]
    exact h

lemma sound_ended (h : Sound κ N s) (hi : (κ.tdb s.curr).taskType = .isr2) :
    Sound κ N (memoryPhaseEndedIsr κ s) := by
  unfold memoryPhaseEndedIsr
  by_cases hst : s.memArbitStatus = .acquired
  · have hsus := sound_suspendHighest (s := { s with memArbitStatus := .requested })
      (h.frame rfl rfl rfl rfl rfl rfl) hi
    simp only [if_pos hst]
    split
    · split_ifs
      · exact hsus.frame rfl rfl rfl rfl rfl rfl
      · exact hsus
    · exact hsus
  · simp only [if_neg hst]
    exact h

lemma sound_endExecution (h : Sound κ N s) (hr : (κ.tdb s.curr).Regular) :
    Sound κ N (endExecutionPhase κ s) := by
  have hset : Sound κ N { s with
      prio := Function.update s.prio s.curr (κ.tdb s.curr).dispatchPrio
      phase := Function.update s.phase s.curr .outside } := h.frame rfl rfl rfl rfl rfl rfl
  unfold endExecutionPhase
  dsimp only
  split_ifs
  · exact sound_resumeHighest hset (ne_idle_of_regular hr)
  · exact hset

lemma sound_turn (hx : ∀ t, (κ.tdb t).taskType = .extended → (κ.tdb t).maxNumOfAct = 1)
    {r : Reply} (h : Sound κ N s) (he : beginTurn κ r s = some s') : Sound κ N s' := by
  unfold beginTurn at he
  cases hst : s.memArbitStatus with
  | acquired =>
    rw [hst] at he
    exact Option.some.inj he ▸ h.frame rfl rfl rfl rfl rfl rfl
  | requested =>
    rw [hst] at he
    exact sound_suspendRunning hx h he
  | none =>
    rw [hst] at he
    cases r with
    | ack => exact Option.some.inj he ▸ h.frame rfl rfl rfl rfl rfl rfl
    | nack => exact Option.some.inj he ▸ h.frame rfl rfl rfl rfl rfl rfl
    | invalid => exact Option.some.inj he ▸ h

lemma sound_step (hx : ∀ t, (κ.tdb t).taskType = .extended → (κ.tdb t).maxNumOfAct = 1)
    (h : Sound κ N s) (ha : Allowed a) (he : step κ s a = some s') : Sound κ N s' := by
  cases a with
  | activateTask t => exact sound_activate hx h (Option.ite_none_right_eq_some.mp he).2
  | terminate =>
    obtain ⟨hc, he⟩ := Option.ite_none_right_eq_some.mp he
    refine sound_terminate hx h ?_ he
    rcases hc with hi | hr
    · exact ne_idle_of_isr2 hi
    · exact ne_idle_of_regular hr.1
  | chainTask t =>
    obtain ⟨⟨hr, -⟩, he⟩ := Option.ite_none_right_eq_some.mp he
    exact sound_chain hx h (ne_idle_of_regular hr.1) he
  | interrupt i =>
    obtain ⟨⟨-, hi, -⟩, he⟩ := Option.ite_none_right_eq_some.mp he
    exact sound_interrupt hx h hi he
  | startedIsr =>
    obtain ⟨⟨hi, -⟩, he⟩ := Option.ite_none_right_eq_some.mp he
    exact Option.some.inj he ▸ sound_started h hi
  | endedIsr =>
    obtain ⟨⟨hi, -⟩, he⟩ := Option.ite_none_right_eq_some.mp he
    exact Option.some.inj he ▸ sound_ended h hi
  | waitEvent mask =>
    obtain ⟨⟨-, hc⟩, he⟩ := Option.ite_none_right_eq_some.mp he
    exact sound_waitEvent hx h hc he
  | setEvent t mask =>
    exact Option.some.inj (Option.ite_none_right_eq_some.mp he).2 ▸ sound_setEvent hx h
  | waitSem k =>
    obtain ⟨⟨-, hc⟩, he⟩ := Option.ite_none_right_eq_some.mp he
    exact sound_waitSem hx h hc he
  | postSem k =>
    exact Option.some.inj (Option.ite_none_right_eq_some.mp he).2 ▸ sound_postSem hx h
  | beginMemoryPhase =>
    exact Option.some.inj (Option.ite_none_right_eq_some.mp he).2 ▸
      h.frame rfl rfl rfl rfl rfl rfl
  | beginTurn r => exact sound_turn hx h (Option.ite_none_right_eq_some.mp he).2
  | endMemoryPhase r =>
    obtain ⟨-, he⟩ := Option.ite_none_right_eq_some.mp he
    obtain rfl := Option.some.inj he
    cases r <;> exact h.frame rfl rfl rfl rfl rfl rfl
  | endExecutionPhase =>
    obtain ⟨hr, he⟩ := Option.ite_none_right_eq_some.mp he
    exact Option.some.inj he ▸ sound_endExecution h hr.1
  | _ => exact absurd ha id

lemma quiet_step (h₁ : ∀ t, (κ.tdb t).Regular → (κ.tdb t).maxNumOfAct = 1)
    (hκ : ∀ t, (κ.tdb t).Regular → (κ.tdb t).readyPrio < maxTaskPriority)
    (hs : Sound κ N s) (h : Quiet κ w s) (ha : Allowed a) (hw : a = .startedIsr → w = none)
    (he : step κ s a = some s') : Quiet κ w s' := by
  cases a with
  | activateTask t =>
    obtain ⟨⟨hu, ht⟩, he⟩ := Option.ite_none_right_eq_some.mp he
    exact quiet_activate h₁ hs h hu ht he
  | terminate =>
    obtain ⟨hc, he⟩ := Option.ite_none_right_eq_some.mp he
    rcases hc with hi | hr
    · exact quiet_terminate h₁ hκ hs h (ne_idle_of_isr2 hi)
        (h.parked.outside (not_regular_of_isr2 hi)) he
    · exact quiet_terminate h₁ hκ hs h (ne_idle_of_regular hr.1) hr.2.1 he
  | chainTask t =>
    obtain ⟨⟨hr, ht⟩, he⟩ := Option.ite_none_right_eq_some.mp he
    exact quiet_chain h₁ hκ hs h hr.1 hr.2.1 ht he
  | interrupt i =>
    obtain ⟨⟨hirq, hi, -⟩, he⟩ := Option.ite_none_right_eq_some.mp he
    exact quiet_interrupt hs h hirq hi he
  | startedIsr =>
    obtain ⟨⟨hi, -⟩, he⟩ := Option.ite_none_right_eq_some.mp he
    obtain rfl := hw rfl
    exact Option.some.inj he ▸ quiet_started h₁ hs h hi
  | endedIsr =>
    obtain ⟨⟨hi, -⟩, he⟩ := Option.ite_none_right_eq_some.mp he
    obtain rfl := Option.some.inj he
    by_cases hst : s.memArbitStatus = .acquired
    · -- nobody is owed a token that the core has
      cases w with
      | none =>
        obtain ⟨q, -, hq⟩ := quiet_ended h₁ hs h hi hst
        exact hq.forget
      | some n =>
        have := (h.parked.owed n rfl).1
        rw [hst] at this
        simp at this
    · rcases endedIsr_cases (κ := κ) (s := s) with ⟨-, he⟩ | ⟨ht, -⟩ | ⟨ht, -⟩
      · rw [he]
        exact h
      · exact absurd ht hst
      · exact absurd ht hst
  | waitEvent mask =>
    obtain ⟨⟨hr, -⟩, he⟩ := Option.ite_none_right_eq_some.mp he
    exact quiet_waitEvent h₁ hs h hr.1 hr.2.1 he
  | setEvent t mask =>
    obtain ⟨hu, he⟩ := Option.ite_none_right_eq_some.mp he
    exact Option.some.inj he ▸ quiet_setEvent h₁ hκ hs h hu
  | waitSem k =>
    obtain ⟨⟨hr, -⟩, he⟩ := Option.ite_none_right_eq_some.mp he
    exact quiet_waitSem h₁ hs h hr.1 hr.2.1 he
  | postSem k =>
    obtain ⟨hu, he⟩ := Option.ite_none_right_eq_some.mp he
    exact Option.some.inj he ▸ quiet_postSem h₁ hκ hs h hu
  | beginMemoryPhase =>
    obtain ⟨hr, he⟩ := Option.ite_none_right_eq_some.mp he
    exact Option.some.inj he ▸ quiet_begin h₁ hs h hr.1 hr.2
  | beginTurn r =>
    obtain ⟨hr, he⟩ := Option.ite_none_right_eq_some.mp he
    exact quiet_turn h₁ hκ hs h (hr.elim And.left And.left) (hr.imp And.right And.right) he
  | endMemoryPhase r =>
    obtain ⟨hr, he⟩ := Option.ite_none_right_eq_some.mp he
    obtain rfl : r = .ack := ha
    exact Option.some.inj he ▸ quiet_endMemory h₁ hs h hr.1 hr.2
  | endExecutionPhase =>
    obtain ⟨hr, he⟩ := Option.ite_none_right_eq_some.mp he
    exact Option.some.inj he ▸ quiet_endExecution h₁ hs h hr.1 hr.2
  | _ => exact absurd ha id

/-- The token is owed to the same task as long as it is not granted. -/
lemma quiet_run {as : List Action} (h₁ : ∀ t, (κ.tdb t).Regular → (κ.tdb t).maxNumOfAct = 1)
    (hκ : ∀ t, (κ.tdb t).Regular → (κ.tdb t).readyPrio < maxTaskPriority)
    (hs : Sound κ N s) (h : Quiet κ w s) (ha : ∀ a ∈ as, Allowed a)
    (hw : .startedIsr ∈ as → w = none) (he : exec (step κ) s as = some s') :
    Sound κ N s' ∧ Quiet κ w s' := by
  have hal : Along (step κ) (fun _ a => Allowed a ∧ (a = .startedIsr → w = none)) s as :=
    along_of_mem (fun a hmem _ => ⟨ha a hmem, fun he => hw (he ▸ hmem)⟩) s
  refine exec_inv_along (P := fun s => Sound κ N s ∧ Quiet κ w s) (fun s a t h hc ht => ?_)
    ⟨hs, h⟩ hal he
  exact ⟨sound_step (fun t ht => h₁ t (Or.inr ht)) h.1 hc.1 ht,
    quiet_step h₁ hκ h.1 h.2 hc.1 hc.2 ht⟩

omit [DecidableEq ν] in
lemma quiet_init (free : List (Node ν))
    (hκ : ∀ t, (κ.tdb t).Regular → (κ.tdb t).readyPrio < maxTaskPriority) :
    Quiet κ none (init κ free) where
  calm :=
    { onTop := List.Pairwise.nil
      kind := by simp [init]
      bound := fun t ht => (hκ t ht).le
      isr := fun t ht => κ.isr2_prio t ht
      idle := fun t ht _ => hκ t ht
      ready := by simp [init]
      hot := by simp [init]
      execution := by simp [init] }
  parked := ⟨by simp [init], by simp [init], by simp, by simp [init], by simp [init], by simp [init]⟩

end Steps

/-- Inside its memory phase, or returning from `DPREM_begin_memory_phase`. -/
def Holding (p : Phase) : Prop := p = .memory ∨ p = .returning

instance (p : Phase) : Decidable (Holding p) := inferInstanceAs (Decidable (_ ∨ _))

/-- The tasks of the stack that are inside a memory phase. -/
def holders (s : Core ν) : List (Node ν) := s.stk.filter fun m => Holding (s.phase m.task)

/-- What holds whenever interrupts are enabled. -/
structure TokenKept (s : Core ν) : Prop where
  acquired : s.memArbitStatus = .acquired →
    ∃ n, holders s = [n] ∧ s.prio n.task = maxTaskPriority
  otherwise : s.memArbitStatus ≠ .acquired → holders s = []
  requested : s.memArbitStatus = .requested → s.suspended ≠ []
  waiting : s.suspended ≠ [] → s.memArbitStatus ≠ .none ∨ ∃ m ∈ s.stk, s.phase m.task = .loop

lemma hot_of_holding {p : Phase} (h : Holding p) : Hot p := by
  rcases h with rfl | rfl <;> trivial

lemma holders_nil (h : ∀ m ∈ s.stk, ¬ Holding (s.phase m.task)) : holders s = [] := by
  unfold holders
  rw [List.filter_eq_nil_iff]
  simpa using h

lemma kept_of_quiet (h : Quiet κ w s) (ht : s.curr = topTask κ s.stk) (hi : IrqEnabled κ s) :
    TokenKept s := by
  -- a task in a phase that is on top runs, so it is in its memory phase
  have htop : ∀ m ∈ s.stk.head?, s.phase m.task ≠ .outside → s.phase m.task = .memory := by
    intro m hm hne
    have hc : s.curr = m.task := ht.trans (topTask_eq hm)
    rw [← hc] at hne ⊢
    exact (hi (h.parked.away _ hne).1).resolve_left hne
  have htoken := h.parked.token
  refine ⟨fun hst => ?_, fun hst => ?_, fun hst => ?_, fun hne => ?_⟩
  · rw [hst] at htoken
    obtain ⟨⟨n, hn, hot⟩, -⟩ := htoken
    replace hot : Holding (s.phase n.task) := hot
    have hhot := hot_of_holding hot
    have hover := h.calm.onTop
    obtain ⟨a, b, hab⟩ := List.append_of_mem hn
    rw [hab, List.pairwise_append, List.pairwise_cons] at hover
    obtain ⟨-, ⟨hnb, -⟩, han⟩ := hover
    have hreg : ∀ m : Node ν, Holding (s.phase m.task) → (κ.tdb m.task).Regular := by
      intro m hm
      exact (h.parked.away m.task (by rcases hm with hm | hm <;> simp [hm])).1
    refine ⟨n, ?_, ?_⟩
    · have ha : a.filter (fun m => decide (Holding (s.phase m.task))) = [] := by
        rw [List.filter_eq_nil_iff]
        intro m hm hh
        have hh := of_decide_eq_true hh
        exact (han m hm n List.mem_cons_self (hreg m hh)).2 hhot
      have hb : b.filter (fun m => decide (Holding (s.phase m.task))) = [] := by
        rw [List.filter_eq_nil_iff]
        intro m hm hh
        exact (hnb m hm (hreg n hot)).2 (hot_of_holding (of_decide_eq_true hh))
      unfold holders
      rw [hab, List.filter_append, ha, List.filter_cons_of_pos (by simpa using hot), hb,
        List.nil_append]
    · rcases h.calm.hot n hn hhot with hp | ⟨hret, hhead⟩
      · exact hp
      · have := htop n hhead (by rw [hret]; simp)
        rw [hret] at this
        simp at this
  · cases hs : s.memArbitStatus with
    | acquired => exact absurd hs hst
    | requested =>
      rw [hs] at htoken
      exact holders_nil fun m hm hh => htoken.1 m hm (hot_of_holding hh)
    | none =>
      rw [hs] at htoken
      refine holders_nil fun m hm hh => ?_
      have hx := htoken.1 m hm (hot_of_holding hh)
      rcases hh with hh | hh <;> rw [hh] at hx <;> simp at hx
  · rw [hst] at htoken
    rcases htoken.2.1 with hne | ⟨m, hm, hloop⟩
    · exact hne
    · have := htop m hm (by rw [hloop]; simp)
      rw [hloop] at this
      simp at this
  · by_cases hs : s.memArbitStatus = .none
    · right
      rw [hs] at htoken
      obtain ⟨m, hm, hloop | hx⟩ := htoken.2.2 hne
      · exact ⟨m, hm, hloop⟩
      · have := htop m (h.calm.execution m hm hx) (by rw [hx]; simp)
        rw [hx] at this
        simp at this
    · exact Or.inl hs

/-- The task goes from the stack to the suspended ones, and no other one moves. -/
def Suspends (n : Node ν) (s s' : Core ν) : Prop :=
  s.stk.Perm (n :: s'.stk) ∧ s'.suspended.Perm (n :: s.suspended)

/-- The task goes from the suspended ones to the stack, and no other one moves. -/
def Resumes (n : Node ν) (s s' : Core ν) : Prop :=
  s.suspended.Perm (n :: s'.suspended) ∧ s'.stk.Perm (n :: s.stk)

section Owed

variable [DecidableEq ν] {N : ν → Prop}

lemma ended_suspends (hst : s.memArbitStatus = .acquired) (hn : highestStacked κ s = some n) :
    Suspends n s (memoryPhaseEndedIsr κ s) := by
  rcases endedIsr_cases (κ := κ) (s := s) with ⟨hne, -⟩ | ⟨-, hnone, -⟩ | ⟨-, q, hq, he⟩
  · exact absurd hst hne
  · rw [hn] at hnone
    simp at hnone
  · obtain rfl : n = q := Option.some.inj (hn.symm.trans hq)
    obtain ⟨a, b, hab, -, hrem, -, -⟩ := highestStacked_some hn
    rw [he]
    refine ⟨?_, List.Perm.refl _⟩
    dsimp only
    rw [hrem, hab]
    exact List.perm_middle

/-- The task that is owed the token is the one that a grant resumes. -/
lemma started_resumes (hs : Sound κ N s) (h : Quiet κ (some n) s)
    (hi : (κ.tdb s.curr).taskType = .isr2) : Resumes n s (memoryPhaseStartedIsr κ s) := by
  obtain ⟨hst, hmem, hmax⟩ := h.parked.owed n rfl
  rcases startedIsr_cases (κ := κ) (s := s) with ⟨hne, -⟩ | ⟨-, hnil, -⟩ | ⟨-, q, hq, he⟩
  · exact absurd hst hne
  · rw [hnil] at hmem
    simp at hmem
  · obtain ⟨c, d, hcd, hrem, hc, hd⟩ := highestSuspended_some hq
    have hqs := highestSuspended_mem hq
    have hqb := h.calm.bound q.task
      (h.parked.away q.task (by rcases h.parked.parked q hqs with hp | hp <;> simp [hp])).1
    obtain rfl : n = q := by
      have htoken := h.parked.token
      rw [hst, hcd] at htoken
      have hone := (List.pairwise_append.mp htoken.2.2).2.1
      rw [hcd] at hmem
      simp only [List.mem_append, List.mem_cons] at hmem
      rcases hmem with hmem | rfl | hmem
      · have := hc n hmem
        omega
      · rfl
      · have := hd n hmem
        exact absurd ⟨by omega, hmax⟩ ((List.pairwise_cons.mp hone).1 n hmem)
    obtain ⟨top, stk, hstk, -⟩ := hs.cons (ne_idle_of_isr2 hi)
    obtain ⟨l, hl, hperm⟩ := listInsertBefore_cons (n := n) (firstRegular κ s.stk) top stk
    rw [he]
    refine ⟨?_, ?_⟩
    · dsimp only
      rw [hrem, hcd]
      exact List.perm_middle
    · dsimp only
      rw [hstk] at hl ⊢
      rw [hl]
      exact (hperm.cons top).trans (List.Perm.swap n top stk)

end Owed

/-- **Memory phases only with the token, and no suspended task is forgotten**: in every run of
tasks with one activation each that take no resources, with `END` acknowledged, whenever
interrupts are enabled the core has the token exactly when one task of the stack is inside its
memory phase, at the highest priority; on a request there is a suspended task; and while tasks
are suspended the core has the token or has requested it, or a task in the loop is going to.
Moreover, the first `STARTED` after an `ENDED` that takes the token resumes the task which that
one has suspended. -/
theorem token_kept [DecidableEq ν] {free : List (Node ν)} {as : List Action}
    (h₁ : ∀ t, (κ.tdb t).Regular → (κ.tdb t).maxNumOfAct = 1)
    (hκ : ∀ t, (κ.tdb t).Regular → (κ.tdb t).readyPrio < maxTaskPriority)
    (hf : (free.map Node.sn).Nodup) (ha : ∀ a ∈ as, Allowed a)
    (he : exec (step κ) (init κ free) as = some s) :
    (IrqEnabled κ s → TokenKept s) ∧
    ∀ bs cs s₁ s₂ s', as = bs ++ .endedIsr :: cs → .startedIsr ∉ cs →
      exec (step κ) (init κ free) bs = some s₁ → s₁.memArbitStatus = .acquired →
      step κ s₁ .endedIsr = some s₂ → step κ s .startedIsr = some s' →
      ∃ n, Suspends n s₁ s₂ ∧ Resumes n s s' := by
  have hx := fun t ht => h₁ t (Or.inr ht)
  have hinit := sound_init κ free hf
  obtain ⟨hs, hq⟩ := quiet_run h₁ hκ hinit (quiet_init free hκ) ha (fun _ => rfl) he
  refine ⟨kept_of_quiet hq hs.top, fun bs cs s₁ s₂ s' hsplit hcs hb hst h₂ h' => ?_⟩
  rw [hsplit] at ha he
  obtain ⟨s₃, hb', he⟩ := (exec_append (step κ)).mp he
  obtain rfl : s₁ = s₃ := Option.some.inj (hb.symm.trans hb')
  obtain ⟨s₃, h₃, he⟩ := (exec_cons (step κ)).mp he
  obtain rfl : s₂ = s₃ := Option.some.inj (h₂.symm.trans h₃)
  obtain ⟨hs₁, hq₁⟩ := quiet_run h₁ hκ hinit (quiet_init free hκ)
    (fun a ha' => ha a (List.mem_append_left _ ha')) (fun _ => rfl) hb
  have hs₂ := sound_step hx hs₁ (a := .endedIsr) trivial h₂
  obtain ⟨⟨hi, -⟩, h₂⟩ := Option.ite_none_right_eq_some.mp h₂
  obtain rfl := Option.some.inj h₂
  obtain ⟨n, hn, hq₂⟩ := quiet_ended h₁ hs₁ hq₁ hi hst
  obtain ⟨hs', hq'⟩ := quiet_run h₁ hκ hs₂ hq₂
    (fun a ha' => ha a (List.mem_append_right _ (List.mem_cons_of_mem _ ha')))
    (fun hmem => absurd hmem hcs) he
  obtain ⟨⟨hi', -⟩, h'⟩ := Option.ite_none_right_eq_some.mp h'
  obtain rfl := Option.some.inj h'
  exact ⟨n, ended_suspends hst hn, started_resumes hs' hq' hi'⟩

/-- A small core with priorities below the highest one: the idle task `0`, the ISR2s `1` to `3`,
and the tasks `4`, `5`, …. -/
def lowKdb : Kdb where
  tdb t :=
    if t = 0 then ⟨.idle, 0, 0, 1⟩
    else if t < 4 then ⟨.isr2, isr2PrioBit + 1, isr2PrioBit + 1, 1⟩
    else ⟨.extended, min (t - 3) 9, min (t - 3) 9, 1⟩
  idle := 0
  startedIsr := 1
  endedIsr := 2
  resPrio r := r + 1
  idle_iff t := by split_ifs with h₁ h₂ <;> simp [h₁]
  idle_prio := rfl
  regular_prio t ht := by
    unfold Tdb.Regular at ht
    have hmax : 9 ≤ maxTaskPriority := by decide
    split_ifs at ht ⊢ with h₁ h₂
    · simp at ht
    · simp at ht
    · have h₄ : 3 < t := Nat.not_lt.mp h₂
      exact ⟨lt_min (Nat.sub_pos_of_lt h₄) (by decide), (min_le_right _ _).trans hmax,
        (min_le_right _ _).trans hmax⟩
  isr2_prio t ht := by
    split_ifs at ht ⊢ with h₁ h₂
    · exact Nat.le_succ _

lemma lowKdb_regular (t : Tid) (ht : (lowKdb.tdb t).Regular) :
    (lowKdb.tdb t).maxNumOfAct = 1 ∧ (lowKdb.tdb t).readyPrio < maxTaskPriority := by
  have hmax : 9 < maxTaskPriority := by decide
  simp only [lowKdb, Tdb.Regular] at ht ⊢
  split_ifs at ht ⊢
  · simp at ht
  · simp at ht
  · exact ⟨rfl, (min_le_right _ _).trans_lt hmax⟩

/-- A task waits for the token, gets it, loses it in its memory phase, and gets it back. -/
def revokedRun : List Action :=
  [.activateTask 4, .beginMemoryPhase, .beginTurn .nack, .beginTurn .ack, .interrupt 1,
    .startedIsr, .terminate, .beginTurn .ack, .interrupt 2, .endedIsr, .terminate,
    .activateTask 5, .interrupt 1]

theorem token_kept_revokedRun :
    ∃ s s', exec (step lowKdb) (init lowKdb tenNodes) revokedRun = some s ∧ TokenKept s ∧
      s.memArbitStatus = .requested ∧ s.suspended.map Node.task = [4] ∧
      step lowKdb s .startedIsr = some s' ∧ ∃ n, Resumes n s s' := by
  have hkept := fun (s : Core ℕ)
      (he : exec (step lowKdb) (init lowKdb tenNodes) revokedRun = some s) =>
    token_kept (fun t ht => (lowKdb_regular t ht).1) (fun t ht => (lowKdb_regular t ht).2)
      (show (tenNodes.map Node.sn).Nodup by decide) (by decide) he
  obtain ⟨n, -, hres⟩ := (hkept _ rfl).2 (revokedRun.take 9) (revokedRun.drop 10) _ _ _
    rfl (by decide) rfl rfl rfl rfl
  exact ⟨_, _, rfl, (hkept _ rfl).1 (by decide), rfl, rfl, rfl, n, hres⟩

end FpMemSched.Erika.Token
