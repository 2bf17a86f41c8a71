import FpMemSched.Erika.Services

/-!
The steps of the memory phases: the token is asked for, waited for in the loop, handed over by
the started routine, taken away by the ended routine, and given back.
-/

namespace FpMemSched.Erika.Turns

open FpMemSched.Lib.Places FpMemSched.Erika.Kernel FpMemSched.Erika.Dprem
open FpMemSched.Erika.Order FpMemSched.Erika.Started FpMemSched.Erika.Nodes
open FpMemSched.Erika.Operations FpMemSched.Erika.Phases FpMemSched.Erika.Services
open FpMemSched.Arbiter (Reply)
open FpMemSched.GuestProtocol (MemArbitStatus)

variable {ν : Type} {κ : Kdb} {w : Option (Node ν)} {s s' : Core ν} {n : Node ν}
  {stk : List (Node ν)}

/-- A task on the stack goes on in its phases. -/
lemma parked_turn {prio : Tid → ℕ} {phase : Tid → Phase} {st st' : MemArbitStatus}
    {susp : List (Node ν)} {t : Tid} {p : ℕ} {f : Phase}
    (h : Parked κ w prio phase st stk susp) (hr : (κ.tdb t).Regular)
    (hstk : t ∈ stk.map Node.task) (hsusp : t ∉ susp.map Node.task)
    (hw : st ≠ .requested) (htok : Token (Function.update prio t p)
      (Function.update phase t f) stk susp st') :
    Parked κ w (Function.update prio t p) (Function.update phase t f) st' stk susp := by
  refine ⟨fun u hu => ?_, fun m hm => ?_, fun n hn => absurd (h.owed n hn).1 hw, htok⟩
  · by_cases he : u = t
    · subst he
      exact ⟨hr, List.map_subset _ (List.subset_append_left _ _) hstk⟩
    · rw [Function.update_of_ne he] at hu
      exact h.away u hu
  · have he : m.task ≠ t := fun he => hsusp (he ▸ List.mem_map_of_mem hm)
    rw [Function.update_of_ne he, Function.update_of_ne he]
    exact h.parked m hm

section Turns

variable [DecidableEq ν] {N : ν → Prop}
  (h₁ : ∀ t, (κ.tdb t).Regular → (κ.tdb t).maxNumOfAct = 1)

include h₁

lemma quiet_begin (hs : Sound κ N s) (h : Quiet κ w s) (hr : (κ.tdb s.curr).Regular)
    (ho : s.phase s.curr = .outside) : Quiet κ w (setPhase s.curr .loop s) := by
  obtain ⟨n, stk, hstk, hn⟩ := hs.cons (ne_idle_of_regular hr)
  obtain ⟨hact, hnstk, hnsusp, hnrq⟩ := alone_of_sound h₁ hs hstk (hn ▸ hr)
  have hreq := (quiet_pop h hstk (hn ▸ ho)).2.2
  have hcalm := h.calm
  rw [hstk] at hcalm
  have hset := hcalm.setTop (hn ▸ hr) hnstk hnrq hact (hcalm.bound _ (hn ▸ hr)) (f := .loop)
    fun hot => absurd hot id
  rw [Function.update_eq_self, ← hstk, hn] at hset
  rw [hn] at hnsusp
  -- where something was in a phase before, it still is
  have hkeep : ∀ t, s.phase t ≠ .outside → Function.update s.phase s.curr .loop t = s.phase t := by
    intro t ht
    refine Function.update_of_ne ?_ ..
    rintro rfl
    exact ht ho
  have hhot : ∀ t, Hot (Function.update s.phase s.curr .loop t) → Hot (s.phase t) := by
    intro t hot
    by_cases he : t = s.curr
    · subst he
      rw [Function.update_self] at hot
      exact absurd hot id
    · rwa [Function.update_of_ne he] at hot
  suffices hparked : Parked κ w s.prio (Function.update s.phase s.curr .loop) s.memArbitStatus
      s.stk s.suspended from ⟨hset, hparked⟩
  refine ⟨fun t ht => ?_, fun m hm => ?_, h.parked.owed, ?_⟩
  · by_cases he : t = s.curr
    · subst he
      refine ⟨hr, ?_⟩
      rw [hstk, ← hn]
      simp
    · exact h.parked.away t fun hout => ht ((Function.update_of_ne he ..).trans hout)
  · have hp := h.parked.parked m hm
    have hne : s.phase m.task ≠ .outside := by
      rcases hp with hp | hp
      · rw [hp]; simp
      · rw [hp.1]; simp
    rw [hkeep m.task hne]
    exact hp
  · have htoken := h.parked.token
    cases hst : s.memArbitStatus with
    | acquired =>
      rw [hst] at htoken
      obtain ⟨⟨m, hm, hot⟩, hlow⟩ := htoken
      refine ⟨⟨m, hm, ?_⟩, hlow⟩
      rw [hkeep m.task (by rcases hot with hot | hot <;> rw [hot] <;> simp)]
      exact hot
    | requested =>
      rw [hst] at htoken
      exact ⟨fun m hm hot => htoken.1 m hm (hhot _ hot), Or.inl (hreq hst), htoken.2.2⟩
    | none =>
      rw [hst] at htoken
      obtain ⟨hcool, hlow, hloop⟩ := htoken
      refine ⟨fun m hm hot => ?_, hlow, fun hne => ?_⟩
      · have hex := hcool m hm (hhot _ hot)
        rw [hkeep m.task (by rw [hex]; simp)]
        exact hex
      · obtain ⟨m, hm, hph⟩ := hloop hne
        refine ⟨m, hm, ?_⟩
        rw [hkeep m.task (by rcases hph with hph | hph <;> rw [hph] <;> simp)]
        exact hph

/-- The running task has no token and is suspended in the loop. -/
lemma quiet_suspendRunning (hκ : ∀ t, (κ.tdb t).Regular → (κ.tdb t).readyPrio < maxTaskPriority)
    (hs : Sound κ N s) (h : Quiet κ w s) (hr : (κ.tdb s.curr).Regular)
    (hl : s.phase s.curr = .loop) (hst : s.memArbitStatus = .requested)
    (he : suspendRunningTask κ s = some s') : Quiet κ w s' := by
  obtain ⟨n, stk, hstk, hn⟩ := hs.cons (ne_idle_of_regular hr)
  rw [suspendRunningTask_cons κ hstk (hn ▸ hr)] at he
  obtain rfl := Option.some.inj he
  obtain ⟨-, hnstk, hnsusp, hnrq⟩ := alone_of_sound h₁ hs hstk (hn ▸ hr)
  rw [hn] at hnstk hnsusp hnrq
  have hap := (apart_of_sound h₁ hs h).pop hstk
  have hcalm := h.calm
  rw [hstk] at hcalm
  obtain ⟨hpop, hraised⟩ := hcalm.pop (by rw [hn, hl]; exact id)
  have hset := calm_settle (s := { s with stk := stk }) hpop hap hraised
  have hnot := (settle_nowhere (κ := κ) (s := { s with stk := stk }) hnstk hnrq).1
  -- what is in a phase is not ready, so the rescheduling leaves it alone
  have hleft : ∀ m : Node ν, s.phase m.task ≠ .outside →
      (settle κ { s with stk := stk }).prio m.task = s.prio m.task ∧
        (m ∈ (settle κ { s with stk := stk }).stk ↔ m ∈ stk) := by
    intro m hm
    have := settle_unready (κ := κ) (s := { s with stk := stk }) (t := m.task) fun hmem => by
      obtain ⟨x, hx, hxt⟩ := List.mem_map.mp hmem
      exact hm (hxt ▸ hap.outside x hx)
    exact ⟨this.1, this.2 m rfl⟩
  have hphase : ∀ m ∈ s.suspended, s.phase m.task ≠ .outside := by
    intro m hm
    rcases h.parked.parked m hm with hp | hp
    · rw [hp]; simp
    · rw [hp.1]; simp
  have hprio : ∀ m ∈ s.suspended, Function.update (settle κ { s with stk := stk }).prio s.curr
      (κ.tdb s.curr).readyPrio m.task = s.prio m.task := by
    intro m hm
    have hne : m.task ≠ s.curr := fun he => hnsusp (he ▸ List.mem_map_of_mem hm)
    rw [Function.update_of_ne hne]
    exact (hleft m (hphase m hm)).1
  have htoken := h.parked.token
  rw [hst, hstk] at htoken
  obtain ⟨hcool, -, hone⟩ := htoken
  have hparked : Parked κ w
      (Function.update (settle κ { s with stk := stk }).prio s.curr (κ.tdb s.curr).readyPrio)
      s.phase s.memArbitStatus (settle κ { s with stk := stk }).stk (n :: s.suspended) := by
    refine ⟨fun t ht => ?_, fun m hm => ?_, fun m hm => ?_, ?_⟩
    · obtain ⟨hreg, hmem⟩ := h.parked.away t ht
      obtain ⟨m, hm, rfl⟩ := List.mem_map.mp hmem
      refine ⟨hreg, List.mem_map_of_mem ?_⟩
      rw [hstk] at hm
      rw [List.mem_append, (hleft m ht).2, ← List.mem_append]
      exact mem_moved (a := []) (c := []) |>.mp hm
    · rcases List.mem_cons.mp hm with rfl | hm
      · exact Or.inl (hn ▸ hl)
      · rw [hprio m hm]
        exact h.parked.parked m hm
    · obtain ⟨-, hmem, hmax⟩ := h.parked.owed m hm
      exact ⟨hst, List.mem_cons_of_mem _ hmem, by rw [hprio m hmem, hmax]⟩
    · rw [hst]
      refine ⟨fun m hm hot => ?_, Or.inl (by simp), List.pairwise_cons.mpr ⟨fun y _ hboth => ?_,
        hone.imp_of_mem fun {x y} hx hy hxy => ?_⟩⟩
      · have hne : s.phase m.task ≠ .outside := fun ho => by
          rw [ho] at hot
          exact hot
        exact hcool m (List.mem_cons_of_mem _ ((hleft m hne).2.mp hm)) hot
      · have hlow := hboth.1
        rw [hn, Function.update_self] at hlow
        exact absurd hlow (hκ _ hr).ne
      · rw [hprio x hx, hprio y hy]
        exact hxy
  refine ⟨?_, ?_⟩
  · have hreset := hset.reset hκ (t := s.curr) fun _ => hnot
    show Calm κ _ (settle κ _).phase (settle κ _).numOfAct _ _
    rw [settle_phase, settle_numOfAct]
    exact hreset
  · show Parked κ w _ (settle κ _).phase (settle κ _).memArbitStatus _ (n :: (settle κ _).suspended)
    rw [settle_phase, settle_memArbitStatus, settle_suspended]
    exact hparked

lemma quiet_turn {r : Reply}
    (hκ : ∀ t, (κ.tdb t).Regular → (κ.tdb t).readyPrio < maxTaskPriority)
    (hs : Sound κ N s) (h : Quiet κ w s) (hr : (κ.tdb s.curr).Regular)
    (hl : s.phase s.curr = .loop ∨ s.phase s.curr = .returning)
    (he : beginTurn κ r s = some s') : Quiet κ w s' := by
  obtain ⟨n, stk, hstk, hn⟩ := hs.cons (ne_idle_of_regular hr)
  obtain ⟨hact, hnstk, hnsusp, hnrq⟩ := alone_of_sound h₁ hs hstk (hn ▸ hr)
  have hmem : n ∈ s.stk := by
    rw [hstk]
    simp
  have hstk' : s.curr ∈ s.stk.map Node.task := hn ▸ List.mem_map_of_mem hmem
  have hcalm := h.calm
  rw [hstk] at hcalm
  have htoken := h.parked.token
  rw [hn] at hnsusp hnstk hnrq hact
  have hsusp : ∀ m ∈ s.suspended, m.task ≠ s.curr := fun m hm he =>
    hnsusp (he ▸ List.mem_map_of_mem hm)
  unfold beginTurn at he
  cases hst : s.memArbitStatus with
  | acquired =>
    rw [hst] at he htoken
    obtain rfl := Option.some.inj he
    have hset := hcalm.setTop (hn ▸ hr) (hn ▸ hnstk) (hn ▸ hnrq) (hn ▸ hact) (le_refl _)
      (f := .memory) fun _ => Or.inl rfl
    rw [hn, ← hstk] at hset
    refine ⟨hset, parked_turn h.parked hr hstk' hnsusp (by rw [hst]; simp) ?_⟩
    refine ⟨⟨n, hmem, Or.inl (by rw [hn, Function.update_self])⟩, fun m hm => ?_⟩
    rw [Function.update_of_ne (hsusp m hm)]
    exact htoken.2 m hm
  | none =>
    rw [hst] at he htoken
    obtain ⟨hcool, hlow, -⟩ := htoken
    -- past the loop is only who has given the token back
    have hloop : s.phase s.curr = .loop := by
      refine hl.resolve_right fun hret => ?_
      have := hcool n hmem (by rw [hn, hret]; trivial)
      rw [hn, hret] at this
      simp at this
    cases r with
    | ack =>
      obtain rfl := Option.some.inj he
      have hset := hcalm.setTop (hn ▸ hr) (hn ▸ hnstk) (hn ▸ hnrq) (hn ▸ hact)
        (hcalm.bound _ (hn ▸ hr)) (f := .returning) fun _ => Or.inr rfl
      rw [Function.update_eq_self, hn, ← hstk] at hset
      have htok : Token (Function.update s.prio s.curr (s.prio s.curr))
          (Function.update s.phase s.curr .returning) s.stk s.suspended .acquired := by
        rw [Function.update_eq_self]
        exact ⟨⟨n, hmem, Or.inr (by rw [hn, Function.update_self])⟩, hlow⟩
      have hturn := parked_turn h.parked hr hstk' hnsusp (by rw [hst]; simp) htok
      rw [Function.update_eq_self] at hturn
      exact ⟨hset, hturn⟩
    | nack =>
      obtain rfl := Option.some.inj he
      refine ⟨h.calm, h.parked.away, h.parked.parked,
        fun m hm => absurd (h.parked.owed m hm).1 (by rw [hst]; simp), fun m hm hot => ?_,
        Or.inr ⟨n, by rw [hstk]; rfl, hn ▸ hloop⟩,
        List.pairwise_of_forall_mem_list fun x hx y _ hboth => ?_⟩
      · have hex := hcool m hm hot
        have hc : s.curr = m.task := hs.top.trans (topTask_eq (h.calm.execution m hm hex))
        rw [← hc, hloop] at hex
        simp at hex
      · exact absurd hboth.1 (hlow x hx).ne
    | invalid => exact Option.some.inj he ▸ h
  | requested =>
    rw [hst] at he htoken
    refine quiet_suspendRunning h₁ hκ hs h hr (hl.resolve_right fun hret => ?_) hst he
    exact htoken.1 n hmem (by rw [hn, hret]; trivial)

lemma quiet_endMemory (hs : Sound κ N s) (h : Quiet κ w s) (hr : (κ.tdb s.curr).Regular)
    (hm : s.phase s.curr = .memory) : Quiet κ w (endMemoryPhase .ack s) := by
  obtain ⟨n, stk, hstk, hn⟩ := hs.cons (ne_idle_of_regular hr)
  obtain ⟨hact, hnstk, hnsusp, hnrq⟩ := alone_of_sound h₁ hs hstk (hn ▸ hr)
  have hmem : n ∈ s.stk := by
    rw [hstk]
    simp
  have hhot : Hot (s.phase n.task) := by
    rw [hn, hm]
    trivial
  have hst : s.memArbitStatus = .acquired := by
    have htoken := h.parked.token
    cases hst : s.memArbitStatus with
    | acquired => rfl
    | requested =>
      rw [hst] at htoken
      exact absurd hhot (htoken.1 n hmem)
    | none =>
      rw [hst] at htoken
      have := htoken.1 n hmem hhot
      rw [hn, hm] at this
      simp at this
  have hlow : ∀ m ∈ s.suspended, s.prio m.task < maxTaskPriority := by
    have htoken := h.parked.token
    rw [hst] at htoken
    exact htoken.2
  have hmax : s.prio n.task = maxTaskPriority := by
    rcases h.calm.hot n hmem hhot with hp | ⟨hret, -⟩
    · exact hp
    · rw [hn, hm] at hret
      simp at hret
  have hcalm := h.calm
  rw [hstk] at hcalm
  have hset := hcalm.setTop (hn ▸ hr) hnstk hnrq hact (hcalm.bound _ (hn ▸ hr)) (f := .execution)
    fun _ => Or.inl hmax
  rw [Function.update_eq_self, hn] at hset
  have htop := (List.pairwise_cons.mp hset.onTop).1
  rw [← hstk] at hset
  rw [hn] at hnsusp
  have hexec : Function.update s.phase s.curr .execution n.task = .execution := by
    rw [hn, Function.update_self]
  have htok : Token (Function.update s.prio s.curr (s.prio s.curr))
      (Function.update s.phase s.curr .execution) s.stk s.suspended .none := by
    rw [Function.update_eq_self]
    refine ⟨fun m hm hot => ?_, hlow, fun _ => ⟨n, hmem, Or.inr hexec⟩⟩
    rw [hstk] at hm
    rcases List.mem_cons.mp hm with rfl | hm
    · exact hexec
    · exact absurd hot (htop m hm (hn ▸ hr)).2
  have hturn := parked_turn h.parked hr (hn ▸ List.mem_map_of_mem hmem) hnsusp
    (by rw [hst]; simp) htok
  rw [Function.update_eq_self] at hturn
  exact ⟨hset, hturn⟩

lemma quiet_endExecution (hs : Sound κ N s) (h : Quiet κ w s) (hr : (κ.tdb s.curr).Regular)
    (hx : s.phase s.curr = .execution) : Quiet κ w (endExecutionPhase κ s) := by
  obtain ⟨n, stk, hstk, hn⟩ := hs.cons (ne_idle_of_regular hr)
  obtain ⟨hact, hnstk, hnsusp, hnrq⟩ := alone_of_sound h₁ hs hstk (hn ▸ hr)
  have hmem : n ∈ s.stk := by
    rw [hstk]
    simp
  have hcalm := h.calm
  rw [hstk] at hcalm
  have hbelow := fun m hm => (List.pairwise_cons.mp hcalm.onTop).1 m hm (hn ▸ hr)
  have hhot : Hot (s.phase n.task) := by
    rw [hn, hx]
    trivial
  -- the token has been given back
  have hst : s.memArbitStatus = .none := by
    have htoken := h.parked.token
    cases hst : s.memArbitStatus with
    | none => rfl
    | requested =>
      rw [hst] at htoken
      exact absurd hhot (htoken.1 n hmem)
    | acquired =>
      rw [hst, hstk] at htoken
      obtain ⟨⟨m, hm, hot⟩, -⟩ := htoken
      rcases List.mem_cons.mp hm with rfl | hm
      · rw [hn, hx] at hot
        simp at hot
      · exact absurd (by rcases hot with hot | hot <;> rw [hot] <;> trivial) (hbelow m hm).2
  have htoken := h.parked.token
  rw [hst] at htoken
  obtain ⟨-, hlow, -⟩ := htoken
  have hset := hcalm.setTop (hn ▸ hr) hnstk hnrq hact (κ.regular_prio _ (hn ▸ hr)).2.2
    (f := .outside) fun hot => absurd hot id
  rw [hn] at hset hnsusp hnstk
  have hsusp : ∀ m ∈ s.suspended, m.task ≠ s.curr := fun m hm he =>
    hnsusp (he ▸ List.mem_map_of_mem hm)
  have hcool : ∀ m ∈ n :: stk, ¬ Hot (Function.update s.phase s.curr .outside m.task) := by
    intro m hm hot
    rcases List.mem_cons.mp hm with rfl | hm
    · rw [hn, Function.update_self] at hot
      exact hot
    · have hne : m.task ≠ s.curr := fun he => hnstk (he ▸ List.mem_map_of_mem hm)
      rw [Function.update_of_ne hne] at hot
      exact (hbelow m hm).2 hot
  rcases endExecutionPhase_cases (κ := κ) hstk hsusp with ⟨hnil, he⟩ | ⟨q, hq, he⟩
  · rw [he]
    rw [← hstk] at hset hcool
    refine ⟨hset, parked_turn h.parked hr (hn ▸ List.mem_map_of_mem hmem) hnsusp
      (by rw [hst]; simp) ?_⟩
    rw [hst]
    refine ⟨fun m hm hot => absurd hot (hcool m hm), fun m hm => ?_, fun hne => absurd hnil hne⟩
    rw [hnil] at hm
    simp at hm
  · rw [he]
    obtain ⟨c, d, hcd, hrem, -, -⟩ := highestSuspended_some hq
    have hsub : ∀ m ∈ c ++ d, m ∈ s.suspended := by
      rw [hcd]
      exact fun m hm => mem_middle.mpr (Or.inr hm)
    have hqs : q ∈ s.suspended := by
      rw [hcd]
      simp
    -- nobody who waits for the token back is suspended, so this task is in the loop
    have hql : s.phase q.task = .loop := by
      rcases h.parked.parked q hqs with hp | hp
      · exact hp
      · exact absurd hp.2 (hlow q hqs).ne
    have hqr : (κ.tdb q.task).Regular := (h.parked.away q.task (by rw [hql]; simp)).1
    have hql' : Function.update s.phase s.curr .outside q.task = .loop := by
      rw [Function.update_of_ne (hsusp q hqs)]
      exact hql
    have hcool' : ∀ m ∈ n :: q :: stk,
        ¬ Hot (Function.update s.phase s.curr .outside m.task) := by
      intro m hm
      simp only [List.mem_cons] at hm
      rcases hm with rfl | rfl | hm
      · exact hcool _ List.mem_cons_self
      · rw [hql']
        exact id
      · exact hcool m (List.mem_cons_of_mem _ hm)
    rw [hrem]
    have hcool'' := hset.cool (l := n :: q :: stk)
      (List.pairwise_cons.mpr ⟨fun m hm _ => ?_, List.pairwise_cons.mpr ⟨fun m hm _ => ?_,
        (List.pairwise_cons.mp hcalm.order).2⟩⟩) (fun m hm => ?_) hcool'
    · suffices hparked : Parked κ w
          (Function.update s.prio s.curr (κ.tdb s.curr).dispatchPrio)
          (Function.update s.phase s.curr .outside) s.memArbitStatus (n :: q :: stk) (c ++ d) from
        ⟨hcool'', hparked⟩
      refine ⟨fun t ht => ?_, fun m hm => ?_,
        fun m hm => absurd (h.parked.owed m hm).1 (by rw [hst]; simp), ?_⟩
      · have hne : t ≠ s.curr := by
          rintro rfl
          rw [Function.update_self] at ht
          exact ht rfl
        rw [Function.update_of_ne hne] at ht
        obtain ⟨hreg, hmem'⟩ := h.parked.away t ht
        refine ⟨hreg, ?_⟩
        obtain ⟨m, hm, rfl⟩ := List.mem_map.mp hmem'
        refine List.mem_map_of_mem ?_
        rw [hstk, hcd] at hm
        exact mem_moved (a := [n]) |>.mpr hm
      · rw [Function.update_of_ne (hsusp m (hsub m hm)),
          Function.update_of_ne (hsusp m (hsub m hm))]
        exact h.parked.parked m (hsub m hm)
      · rw [hst]
        refine ⟨fun m hm hot => absurd hot (hcool' m hm), fun m hm => ?_,
          fun _ => ⟨q, by simp, Or.inl hql'⟩⟩
        rw [Function.update_of_ne (hsusp m (hsub m hm))]
        exact hlow m (hsub m hm)
    · rcases List.mem_cons.mp hm with rfl | hm
      · exact hqr
      · exact (hbelow m hm).1
    · exact (hbelow m hm).1
    · simp only [List.mem_cons] at hm
      rcases hm with rfl | rfl | hm
      · exact Or.inr (hn ▸ hr)
      · exact Or.inr hqr
      · exact Or.inr (hbelow m hm).1

omit [DecidableEq ν] h₁ in
/-- An ISR2 runs, so no regular task is on top. -/
lemma head_of_isr (ht : s.curr = topTask κ s.stk) (hi : (κ.tdb s.curr).taskType = .isr2)
    {m : Node ν} (hm : m ∈ s.stk.head?) : ¬ (κ.tdb m.task).Regular := by
  rw [← topTask_eq (κ := κ) hm, ← ht]
  exact not_regular_of_isr2 hi

/-- **The started routine hands the token to the suspended task of highest priority.** -/
lemma quiet_started (hs : Sound κ N s) (h : Quiet κ none s)
    (hi : (κ.tdb s.curr).taskType = .isr2) : Quiet κ none (memoryPhaseStartedIsr κ s) := by
  have htoken := h.parked.token
  rcases startedIsr_cases (κ := κ) (s := s) with ⟨-, he⟩ | ⟨hst, hnil, -⟩ | ⟨hst, q, hq, he⟩
  · rw [he]
    exact h
  · rw [hst] at htoken
    rcases htoken.2.1 with hne | ⟨m, hm, hloop⟩
    · exact absurd hnil hne
    · exact absurd (h.parked.away m.task (by rw [hloop]; simp)).1 (head_of_isr hs.top hi hm)
  · rw [he]
    rw [hst] at htoken
    obtain ⟨hcool, -, hone⟩ := htoken
    obtain ⟨c, d, hcd, hrem, hc, hd⟩ := highestSuspended_some hq
    have hqs : q ∈ s.suspended := by
      rw [hcd]
      simp
    have hsub : ∀ m ∈ c ++ d, m ∈ s.suspended := by
      rw [hcd]
      exact fun m hm => mem_middle.mpr (Or.inr hm)
    have hqp := h.parked.parked q hqs
    have hqr : (κ.tdb q.task).Regular :=
      (h.parked.away q.task (by rcases hqp with hp | hp <;> simp [hp])).1
    obtain ⟨hact, hnot⟩ := alone_of_split (a := s.stk ++ c) (b := d ++ s.rq) h₁ hs
      (by rw [hcd]; simp) hqr
    simp only [List.map_append, List.mem_append, not_or] at hnot
    obtain ⟨⟨hnstk, hnc⟩, hnd, hnrq⟩ := hnot
    have hne : ∀ m ∈ s.stk, m.task ≠ q.task := fun m hm he => hnstk (he ▸ List.mem_map_of_mem hm)
    have hne' : ∀ m ∈ c ++ d, m.task ≠ q.task := by
      intro m hm he
      rcases List.mem_append.mp hm with hm | hm
      · exact hnc (he ▸ List.mem_map_of_mem hm)
      · exact hnd (he ▸ List.mem_map_of_mem hm)
    -- the others are below the highest priority
    have hlow : ∀ m ∈ c ++ d, s.prio m.task < maxTaskPriority := by
      intro m hm
      have hmb := h.calm.bound m.task
        (h.parked.away m.task (by rcases h.parked.parked m (hsub m hm) with hp | hp <;> simp [hp])).1
      have hqb := h.calm.bound q.task hqr
      rw [hcd, List.pairwise_append] at hone
      rcases List.mem_append.mp hm with hm | hm
      · have := hc m hm
        omega
      · have hle := hd m hm
        have := (List.pairwise_cons.mp hone.2.1).1 m hm
        omega
    obtain ⟨f, hf, hphase⟩ : ∃ f, (f = .memory ∨ f = .returning) ∧
        (if s.phase q.task = .loop then Function.update s.phase q.task .returning
          else s.phase) = Function.update s.phase q.task f := by
      rcases hqp with hp | hp
      · exact ⟨.returning, Or.inr rfl, if_pos hp⟩
      · refine ⟨.memory, Or.inl rfl, ?_⟩
        rw [if_neg (by rw [hp.1]; simp), ← hp.1, Function.update_eq_self]
    obtain ⟨a, b, hab, ha, hb⟩ := split_regular h.calm.order h.calm.kind
    have hane : a ≠ [] := by
      rintro rfl
      obtain ⟨m, stk, hm, -⟩ := hs.cons (ne_idle_of_isr2 hi)
      refine head_of_isr hs.top hi (m := m) (by rw [hm]; rfl) (hb m ?_)
      rw [← List.nil_append b, ← hab, hm]
      simp
    have hins : listInsertBefore q (firstRegular κ s.stk) s.stk = a ++ q :: b := by
      rw [hab]
      exact listInsertBefore_split hane (fun m hm => not_regular_of_isr2 (ha m hm)) hb
    have hmem : ∀ m ∈ a ++ q :: b, m = q ∨ m ∈ s.stk := by
      rw [hab]
      exact fun m hm => mem_middle.mp hm
    have hcool' : ∀ m ∈ s.stk, ¬ Hot (Function.update s.phase q.task f m.task) := by
      intro m hm
      rw [Function.update_of_ne (hne m hm)]
      exact hcool m hm
    have hset := h.calm.setPrio (t := q.task) (p := maxTaskPriority)
      (fun hq => absurd hqr (not_regular_of_isr2 hq))
      fun _ => ⟨le_refl _, hnstk, Or.inr ⟨hact, hnrq⟩⟩
    have horder := h.calm.order
    rw [hab, List.pairwise_append] at horder
    have hcalm : Calm κ (Function.update s.prio q.task maxTaskPriority)
        (Function.update s.phase q.task f) s.numOfAct (a ++ q :: b) s.rq := by
      refine ⟨List.pairwise_append.mpr ⟨?_, List.pairwise_cons.mpr ⟨fun m hm _ => ?_, ?_⟩, ?_⟩,
        fun m hm => ?_, hset.bound, hset.isr, hset.idle, hset.ready, fun m hm hot => ?_,
        fun m hm hx => ?_⟩
      · exact List.pairwise_of_forall_mem_list fun x hx y _ hr =>
          absurd hr (not_regular_of_isr2 (ha x hx))
      · exact ⟨hb m hm, hcool' m (by rw [hab]; exact List.mem_append_right _ hm)⟩
      · refine List.pairwise_of_forall_mem_list fun x _ y hy _ => ⟨hb y hy, hcool' y ?_⟩
        rw [hab]
        exact List.mem_append_right _ hy
      · exact fun x hx y _ hr => absurd hr (not_regular_of_isr2 (ha x hx))
      · rcases hmem m hm with rfl | hm
        · exact Or.inr hqr
        · exact h.calm.kind m hm
      · rcases hmem m hm with rfl | hm
        · exact Or.inl (Function.update_self ..)
        · exact absurd hot (hcool' m hm)
      · rcases hmem m hm with rfl | hm
        · rw [Function.update_self] at hx
          rcases hf with rfl | rfl <;> simp at hx
        · exact absurd (by rw [hx]; trivial) (hcool' m hm)
    have hparked : Parked κ none (Function.update s.prio q.task maxTaskPriority)
        (Function.update s.phase q.task f) .acquired (a ++ q :: b) (c ++ d) := by
      refine ⟨fun t ht => ?_, fun m hm => ?_, by simp, ⟨q, by simp, ?_⟩, fun m hm => ?_⟩
      · by_cases het : t = q.task
        · subst het
          exact ⟨hqr, by simp⟩
        · rw [Function.update_of_ne het] at ht
          obtain ⟨hreg, hmem⟩ := h.parked.away t ht
          refine ⟨hreg, ?_⟩
          obtain ⟨m, hm, rfl⟩ := List.mem_map.mp hmem
          refine List.mem_map_of_mem ?_
          rw [hab, hcd] at hm
          exact mem_moved.mpr hm
      · rw [Function.update_of_ne (hne' m hm), Function.update_of_ne (hne' m hm)]
        exact h.parked.parked m (hsub m hm)
      · rw [Function.update_self]
        exact hf
      · rw [Function.update_of_ne (hne' m hm)]
        exact hlow m hm
    rw [hphase, hrem, hins]
    exact ⟨hcalm, hparked⟩

/-- **The ended routine takes the token from the task that has it**, which is owed it from
then on. -/
lemma quiet_ended (hs : Sound κ N s) (h : Quiet κ none s)
    (hi : (κ.tdb s.curr).taskType = .isr2) (hst : s.memArbitStatus = .acquired) :
    ∃ q, highestStacked κ s = some q ∧ Quiet κ (some q) (memoryPhaseEndedIsr κ s) := by
  have htoken := h.parked.token
  rw [hst] at htoken
  obtain ⟨⟨m, hm, hot⟩, hlow⟩ := htoken
  have hmr : (κ.tdb m.task).Regular :=
    (h.parked.away m.task (by rcases hot with hot | hot <;> simp [hot])).1
  have hmhot : Hot (s.phase m.task) := by
    rcases hot with hot | hot <;> rw [hot] <;> trivial
  have hmax : s.prio m.task = maxTaskPriority := by
    rcases h.calm.hot m hm hmhot with hp | ⟨-, hhead⟩
    · exact hp
    · exact absurd hmr (head_of_isr hs.top hi hhead)
  rcases endedIsr_cases (κ := κ) (s := s) with ⟨hne, -⟩ | ⟨-, hnone, -⟩ | ⟨-, q, hq, he⟩
  · exact absurd hst hne
  · exact absurd hmr (highestStacked_none hnone m hm)
  · refine ⟨q, hq, ?_⟩
    rw [he]
    obtain ⟨a, b, hab, hqr, hrem, ha, -⟩ := highestStacked_some hq
    have hover := h.calm.onTop
    rw [hab, List.pairwise_append, List.pairwise_cons] at hover
    obtain ⟨-, ⟨hqb, -⟩, haq⟩ := hover
    -- it is the task past the loop
    obtain rfl : m = q := by
      rw [hab] at hm
      simp only [List.mem_append, List.mem_cons] at hm
      rcases hm with hm | rfl | hm
      · have := ha m hm hmr
        have := h.calm.bound q.task hqr
        omega
      · rfl
      · exact absurd hmhot (hqb m hm hqr).2
    obtain ⟨-, hnot⟩ := alone_of_split (a := a) (b := b ++ (s.suspended ++ s.rq)) h₁ hs
      (by rw [hab]; simp) hqr
    simp only [List.map_append, List.mem_append, not_or] at hnot
    obtain ⟨hna, hnb, hnsusp, -⟩ := hnot
    have hne : ∀ x ∈ a ++ b, x.task ≠ m.task := by
      intro x hx he
      rcases List.mem_append.mp hx with hx | hx
      · exact hna (he ▸ List.mem_map_of_mem hx)
      · exact hnb (he ▸ List.mem_map_of_mem hx)
    have hne' : ∀ x ∈ s.suspended, x.task ≠ m.task := fun x hx he =>
      hnsusp (he ▸ List.mem_map_of_mem hx)
    have hsub : (a ++ b).Sublist s.stk := by
      rw [hab]
      exact (List.sublist_cons_self m b).append_left a
    obtain ⟨f, hf, hphase⟩ : ∃ f, (f = .loop ∨ f = .memory) ∧
        (if s.phase m.task = .returning then Function.update s.phase m.task .loop
          else s.phase) = Function.update s.phase m.task f := by
      rcases hot with hp | hp
      · refine ⟨.memory, Or.inr rfl, ?_⟩
        rw [if_neg (by rw [hp]; simp), ← hp, Function.update_eq_self]
      · exact ⟨.loop, Or.inl rfl, if_pos hp⟩
    have hcool : ∀ x ∈ a ++ b, ¬ Hot (Function.update s.phase m.task f x.task) := by
      intro x hx hxhot
      rw [Function.update_of_ne (hne x hx)] at hxhot
      have hxr := (h.parked.away x.task fun ho => by rw [ho] at hxhot; exact hxhot).1
      rcases List.mem_append.mp hx with hx | hx
      · exact (haq x hx m List.mem_cons_self hxr).2 hmhot
      · exact (hqb x hx hqr).2 hxhot
    have hcalm := h.calm.cool (h.calm.order.sublist hsub)
      (fun x hx => h.calm.kind x (hsub.subset hx)) hcool
    have hparked : Parked κ (some m) s.prio (Function.update s.phase m.task f) .requested
        (a ++ b) (m :: s.suspended) := by
      refine ⟨fun t ht => ?_, fun x hx => ?_, fun x hx => ?_, hcool, Or.inl (by simp),
        List.pairwise_cons.mpr ⟨fun y hy hboth => ?_,
          List.pairwise_of_forall_mem_list fun x hx y _ hboth => ?_⟩⟩
      · by_cases het : t = m.task
        · subst het
          exact ⟨hqr, by simp⟩
        · rw [Function.update_of_ne het] at ht
          obtain ⟨hreg, hmem⟩ := h.parked.away t ht
          refine ⟨hreg, ?_⟩
          obtain ⟨x, hx, rfl⟩ := List.mem_map.mp hmem
          refine List.mem_map_of_mem ?_
          rw [hab] at hx
          exact mem_moved (c := []) |>.mp hx
      · rcases List.mem_cons.mp hx with rfl | hx
        · rw [Function.update_self]
          exact hf.imp id fun hf => ⟨hf, hmax⟩
        · rw [Function.update_of_ne (hne' x hx)]
          exact h.parked.parked x hx
      · obtain rfl : m = x := Option.some.inj hx
        exact ⟨rfl, List.mem_cons_self, hmax⟩
      · exact absurd hboth.2 (hlow y hy).ne
      · exact absurd hboth.1 (hlow x hx).ne
    rw [hphase, hrem]
    exact ⟨hcalm, hparked⟩

end Turns

end FpMemSched.Erika.Turns
