import FpMemSched.Erika.Operations

/-!
Memory phases on the stack.

The token of the core goes with a task that is past the loop of `DPREM_begin_memory_phase`.
Such a task is the topmost regular one of the stack and runs at the highest priority of all,
so the kernel lets no other task run until its phases are over or the token is taken away.
The lemmas here say, for each way the queues change, when this is kept.
-/

namespace FpMemSched.Erika.Phases

open FpMemSched.Erika.Kernel FpMemSched.Erika.Dprem FpMemSched.Erika.Order
open FpMemSched.Erika.Started
open FpMemSched.GuestProtocol (MemArbitStatus)

variable {ν : Type} {κ : Kdb} {prio : Tid → ℕ} {phase : Tid → Phase} {act : Tid → ℕ}
  {stk rq susp : List (Node ν)} {n : Node ν}

/-- The phases from the grant of the token to the end of the execution phase. -/
def Hot : Phase → Prop
  | .returning | .memory | .execution => True
  | .outside | .loop => False

/-- Below a regular task on the stack are regular tasks only, and none of them is hot. -/
def Over (κ : Kdb) (phase : Tid → Phase) (x y : Node ν) : Prop :=
  (κ.tdb x.task).Regular → (κ.tdb y.task).Regular ∧ ¬ Hot (phase y.task)

/-- The stack and the ready queue of a core that keeps to the memory phases. -/
structure Calm (κ : Kdb) (prio : Tid → ℕ) (phase : Tid → Phase) (act : Tid → ℕ)
    (stk rq : List (Node ν)) : Prop where
  onTop : stk.Pairwise (Over κ phase)
  kind : ∀ m ∈ stk, (κ.tdb m.task).taskType = .isr2 ∨ (κ.tdb m.task).Regular
  bound : ∀ t, (κ.tdb t).Regular → prio t ≤ maxTaskPriority
  isr : ∀ t, (κ.tdb t).taskType = .isr2 → isr2PrioBit ≤ prio t
  idle : ∀ t, (κ.tdb t).Regular → act t = 0 → prio t < maxTaskPriority
  ready : ∀ m ∈ rq, (κ.tdb m.task).Regular ∧ prio m.task < maxTaskPriority
  /-- A task that has just been granted the token raises its priority when it goes on. -/
  hot : ∀ m ∈ stk, Hot (phase m.task) →
    prio m.task = maxTaskPriority ∨ phase m.task = .returning ∧ m ∈ stk.head?
  execution : ∀ m ∈ stk, phase m.task = .execution → m ∈ stk.head?

/-- All hot tasks have the highest priority. -/
def Raised (prio : Tid → ℕ) (phase : Tid → Phase) (stk : List (Node ν)) : Prop :=
  ∀ m ∈ stk, Hot (phase m.task) → prio m.task = maxTaskPriority

lemma Calm.pop (h : Calm κ prio phase act (n :: stk) rq) (hn : ¬ Hot (phase n.task)) :
    Calm κ prio phase act stk rq ∧ Raised prio phase stk := by
  -- nothing below the top of the stack is in a state that only the top may be in
  have hne : ∀ m, Hot (phase m.task) → m ∉ (n :: stk).head? := by
    rintro m hm he
    obtain rfl : n = m := Option.some.inj he
    exact hn hm
  have hraised : Raised prio phase stk := by
    intro m hm hot
    rcases h.hot m (List.mem_cons_of_mem _ hm) hot with hp | ⟨-, he⟩
    · exact hp
    · exact absurd he (hne m hot)
  refine ⟨⟨(List.pairwise_cons.mp h.onTop).2, fun m hm => h.kind m (List.mem_cons_of_mem _ hm),
    h.bound, h.isr, h.idle, h.ready, fun m hm hot => Or.inl (hraised m hm hot),
    fun m hm he => ?_⟩, hraised⟩
  exact absurd (h.execution m (List.mem_cons_of_mem _ hm) he) (hne m (by rw [he]; trivial))

/-- A regular task that exceeds the top of the stack finds no hot task there. -/
lemma Calm.exceeds (h : Calm κ prio phase act stk rq) (hr : Raised prio phase stk) {t : Tid}
    (ht : prio t < maxTaskPriority) (hp : ∀ top ∈ stk.head?, prio top.task < prio t) :
    ∀ m ∈ stk, (κ.tdb m.task).Regular ∧ ¬ Hot (phase m.task) := by
  cases stk with
  | nil => simp
  | cons top stk =>
    have htop : prio top.task < prio t := hp top rfl
    have hreg : (κ.tdb top.task).Regular := by
      rcases h.kind top List.mem_cons_self with hi | hreg
      · have := h.isr _ hi
        unfold maxTaskPriority at ht
        omega
      · exact hreg
    intro m hm
    rcases List.mem_cons.mp hm with rfl | hm
    · refine ⟨hreg, fun hot => ?_⟩
      have := hr m List.mem_cons_self hot
      omega
    · exact (List.pairwise_cons.mp h.onTop).1 m hm hreg

/-- Priorities of tasks that are nowhere do not matter. -/
lemma Calm.setPrio (h : Calm κ prio phase act stk rq) {t : Tid} {p : ℕ}
    (hi : (κ.tdb t).taskType = .isr2 → isr2PrioBit ≤ p)
    (hp : (κ.tdb t).Regular → p ≤ maxTaskPriority ∧ t ∉ stk.map Node.task ∧
      (p < maxTaskPriority ∨ act t ≠ 0 ∧ t ∉ rq.map Node.task)) :
    Calm κ (Function.update prio t p) phase act stk rq := by
  refine ⟨h.onTop, h.kind, fun u hu => ?_, fun u hu => ?_, fun u hu ha => ?_, fun m hm => ?_,
    fun m hm hot => ?_, h.execution⟩
  · by_cases he : u = t
    · subst he
      rw [Function.update_self]
      exact (hp hu).1
    · rw [Function.update_of_ne he]
      exact h.bound u hu
  · by_cases he : u = t
    · subst he
      rw [Function.update_self]
      exact hi hu
    · rw [Function.update_of_ne he]
      exact h.isr u hu
  · by_cases he : u = t
    · subst he
      rw [Function.update_self]
      exact (hp hu).2.2.resolve_right fun hr => hr.1 ha
    · rw [Function.update_of_ne he]
      exact h.idle u hu ha
  · obtain ⟨hreg, hlt⟩ := h.ready m hm
    refine ⟨hreg, ?_⟩
    by_cases he : m.task = t
    · subst he
      rw [Function.update_self]
      exact (hp hreg).2.2.resolve_right fun hr => hr.2 (List.mem_map_of_mem hm)
    · rw [Function.update_of_ne he]
      exact hlt
  · by_cases he : m.task = t
    · subst he
      rcases h.kind m hm with hi' | hreg
      · rcases h.hot m hm hot with hmax | hret
        · have := h.isr _ hi'
          unfold maxTaskPriority isr2PrioBit at *
          omega
        · exact Or.inr hret
      · exact absurd (List.mem_map_of_mem hm) (hp hreg).2.1
    · rw [Function.update_of_ne he]
      exact h.hot m hm hot

/-- A task that ends or is made ready gets its ready priority back. -/
lemma Calm.reset (hκ : ∀ t, (κ.tdb t).Regular → (κ.tdb t).readyPrio < maxTaskPriority)
    (h : Calm κ prio phase act stk rq) {t : Tid}
    (ht : (κ.tdb t).Regular → t ∉ stk.map Node.task) :
    Calm κ (Function.update prio t (κ.tdb t).readyPrio) phase act stk rq :=
  h.setPrio (κ.isr2_prio t) fun hr => ⟨(hκ t hr).le, ht hr, Or.inl (hκ t hr)⟩

lemma Calm.acts (h : Calm κ prio phase act stk rq) {act' : Tid → ℕ}
    (ha : ∀ t, (κ.tdb t).Regular → act' t = 0 → prio t < maxTaskPriority) :
    Calm κ prio phase act' stk rq :=
  ⟨h.onTop, h.kind, h.bound, h.isr, ha, h.ready, h.hot, h.execution⟩

lemma Calm.queue (h : Calm κ prio phase act stk rq) {rq' : List (Node ν)}
    (hr : ∀ m ∈ rq', (κ.tdb m.task).Regular ∧ prio m.task < maxTaskPriority) :
    Calm κ prio phase act stk rq' :=
  ⟨h.onTop, h.kind, h.bound, h.isr, h.idle, hr, h.hot, h.execution⟩

/-- A task that exceeds the top of the stack is pushed on it. -/
lemma Calm.push (h : Calm κ prio phase act stk rq) (hr : Raised prio phase stk)
    (hn : (κ.tdb n.task).Regular) (hlt : prio n.task < maxTaskPriority)
    (hp : ∀ top ∈ stk.head?, prio top.task < prio n.task) (ho : ¬ Hot (phase n.task)) :
    Calm κ prio phase act (n :: stk) rq := by
  have hcool := h.exceeds hr hlt hp
  have hnone : ∀ m ∈ n :: stk, ¬ Hot (phase m.task) := by
    intro m hm
    rcases List.mem_cons.mp hm with rfl | hm
    · exact ho
    · exact (hcool m hm).2
  refine ⟨List.pairwise_cons.mpr ⟨fun m hm _ => hcool m hm, h.onTop⟩, fun m hm => ?_, h.bound,
    h.isr, h.idle, h.ready, fun m hm hot => absurd hot (hnone m hm),
    fun m hm he => absurd (by rw [he]; trivial) (hnone m hm)⟩
  rcases List.mem_cons.mp hm with rfl | hm
  · exact Or.inr hn
  · exact h.kind m hm

lemma Calm.interrupt (h : Calm κ prio phase act stk rq) (hr : Raised prio phase stk)
    (he : ∀ m ∈ stk, phase m.task ≠ .execution) (hi : (κ.tdb n.task).taskType = .isr2)
    (ho : ¬ Hot (phase n.task)) : Calm κ prio phase act (n :: stk) rq := by
  refine ⟨List.pairwise_cons.mpr ⟨fun m _ hreg => absurd hreg (not_regular_of_isr2 hi), h.onTop⟩,
    fun m hm => ?_, h.bound, h.isr, h.idle, h.ready, fun m hm hot => ?_, fun m hm hx => ?_⟩
  · rcases List.mem_cons.mp hm with rfl | hm
    · exact Or.inl hi
    · exact h.kind m hm
  · rcases List.mem_cons.mp hm with rfl | hm
    · exact absurd hot ho
    · exact Or.inl (hr m hm hot)
  · rcases List.mem_cons.mp hm with rfl | hm
    · rw [hx] at ho
      exact absurd trivial ho
    · exact absurd hx (he m hm)

/-- The running task takes its next step in the memory phases. -/
lemma Calm.setTop (h : Calm κ prio phase act (n :: stk) rq) (hn : (κ.tdb n.task).Regular)
    (hstk : n.task ∉ stk.map Node.task) (hrq : n.task ∉ rq.map Node.task)
    (ha : act n.task ≠ 0) {p : ℕ} (hp : p ≤ maxTaskPriority) {f : Phase}
    (hf : Hot f → p = maxTaskPriority ∨ f = .returning) :
    Calm κ (Function.update prio n.task p) (Function.update phase n.task f) act (n :: stk) rq := by
  obtain ⟨htop, hrest⟩ := List.pairwise_cons.mp h.onTop
  have hne : ∀ m ∈ stk, m.task ≠ n.task := fun m hm he => hstk (he ▸ List.mem_map_of_mem hm)
  have hover : stk.Pairwise (Over κ (Function.update phase n.task f)) := by
    refine hrest.imp_of_mem fun {x y} _ hy hxy hreg => ?_
    rw [Function.update_of_ne (hne y hy)]
    exact hxy hreg
  have hcool : ∀ m ∈ stk, (κ.tdb m.task).Regular ∧
      ¬ Hot (Function.update phase n.task f m.task) := by
    intro m hm
    rw [Function.update_of_ne (hne m hm)]
    exact htop m hm hn
  refine ⟨List.pairwise_cons.mpr ⟨fun m hm _ => hcool m hm, hover⟩, h.kind, fun u hu => ?_,
    fun u hu => ?_, fun u hu hz => ?_, fun m hm => ?_, fun m hm hot => ?_, fun m hm hx => ?_⟩
  · by_cases he : u = n.task
    · subst he
      rw [Function.update_self]
      exact hp
    · rw [Function.update_of_ne he]
      exact h.bound u hu
  · have he : u ≠ n.task := by
      rintro rfl
      exact not_regular_of_isr2 hu hn
    rw [Function.update_of_ne he]
    exact h.isr u hu
  · have he : u ≠ n.task := by
      rintro rfl
      exact ha hz
    rw [Function.update_of_ne he]
    exact h.idle u hu hz
  · have he : m.task ≠ n.task := fun he => hrq (he ▸ List.mem_map_of_mem hm)
    rw [Function.update_of_ne he]
    exact h.ready m hm
  · rcases List.mem_cons.mp hm with rfl | hm
    · rw [Function.update_self] at hot ⊢
      rw [Function.update_self]
      exact (hf hot).imp id fun hr => ⟨hr, rfl⟩
    · exact absurd hot (hcool m hm).2
  · rcases List.mem_cons.mp hm with rfl | hm
    · rfl
    · exact absurd (by rw [hx]; trivial) (hcool m hm).2

/-- A stack without hot tasks, whatever its order was. -/
lemma Calm.cool (h : Calm κ prio phase act stk rq) {phase' : Tid → Phase}
    {l : List (Node ν)}
    (horder : l.Pairwise fun x y => (κ.tdb x.task).Regular → (κ.tdb y.task).Regular)
    (hkind : ∀ m ∈ l, (κ.tdb m.task).taskType = .isr2 ∨ (κ.tdb m.task).Regular)
    (hcool : ∀ m ∈ l, ¬ Hot (phase' m.task)) : Calm κ prio phase' act l rq := by
  refine ⟨horder.imp_of_mem fun {x y} _ hy hxy hreg => ⟨hxy hreg, hcool y hy⟩, hkind, h.bound,
    h.isr, h.idle, h.ready, fun m hm hot => absurd hot (hcool m hm), fun m hm hx => ?_⟩
  exact absurd (by rw [hx]; trivial) (hcool m hm)

/-- The order alone. -/
lemma Calm.order (h : Calm κ prio phase act stk rq) :
    stk.Pairwise fun x y => (κ.tdb x.task).Regular → (κ.tdb y.task).Regular :=
  h.onTop.imp fun hxy hreg => (hxy hreg).1

/-! ### Suspended tasks -/

/-- What the status of the core promises: with the token a task is past the loop; on a request
nobody is, and there is somebody to resume; without either a task past the loop has given the
token back already, and somebody will ask for it on behalf of the suspended tasks. -/
def Token (prio : Tid → ℕ) (phase : Tid → Phase) (stk susp : List (Node ν)) :
    MemArbitStatus → Prop
  | .acquired => (∃ m ∈ stk, phase m.task = .memory ∨ phase m.task = .returning) ∧
    ∀ m ∈ susp, prio m.task < maxTaskPriority
  | .requested => (∀ m ∈ stk, ¬ Hot (phase m.task)) ∧
    (susp ≠ [] ∨ ∃ m ∈ stk.head?, phase m.task = .loop) ∧
    susp.Pairwise fun x y => ¬ (prio x.task = maxTaskPriority ∧ prio y.task = maxTaskPriority)
  | .none => (∀ m ∈ stk, Hot (phase m.task) → phase m.task = .execution) ∧
    (∀ m ∈ susp, prio m.task < maxTaskPriority) ∧
    (susp ≠ [] → ∃ m ∈ stk, phase m.task = .loop ∨ phase m.task = .execution)

/-- The suspended tasks, and the one that the token is owed to if it has been taken away. -/
structure Parked (κ : Kdb) (w : Option (Node ν)) (prio : Tid → ℕ) (phase : Tid → Phase)
    (st : MemArbitStatus) (stk susp : List (Node ν)) : Prop where
  away : ∀ t, phase t ≠ .outside →
    (κ.tdb t).Regular ∧ t ∈ (stk ++ susp).map Node.task
  parked : ∀ m ∈ susp, phase m.task = .loop ∨
    phase m.task = .memory ∧ prio m.task = maxTaskPriority
  owed : ∀ n ∈ w, st = .requested ∧ n ∈ susp ∧ prio n.task = maxTaskPriority
  token : Token prio phase stk susp st

variable {w : Option (Node ν)} {st : MemArbitStatus}

/-- Tasks outside memory phases come and go. -/
lemma Parked.frame (h : Parked κ w prio phase st stk susp) {stk' : List (Node ν)}
    {prio' : Tid → ℕ} (hstk : ∀ m : Node ν, phase m.task ≠ .outside → (m ∈ stk' ↔ m ∈ stk))
    (hp : ∀ m ∈ susp, prio' m.task = prio m.task) (hr : st = .requested → susp ≠ []) :
    Parked κ w prio' phase st stk' susp := by
  have hhot : ∀ m ∈ stk', Hot (phase m.task) → m ∈ stk := by
    intro m hm hot
    exact (hstk m fun ho => by rw [ho] at hot; exact hot).mp hm
  refine ⟨fun t ht => ?_, fun m hm => ?_, fun n hn => ?_, ?_⟩
  · obtain ⟨hreg, hmem⟩ := h.away t ht
    obtain ⟨m, hm, rfl⟩ := List.mem_map.mp hmem
    refine ⟨hreg, List.mem_map_of_mem (List.mem_append.mpr ?_)⟩
    exact (List.mem_append.mp hm).imp (hstk m ht).mpr id
  · rw [hp m hm]
    exact h.parked m hm
  · obtain ⟨hst, hmem, hmax⟩ := h.owed n hn
    exact ⟨hst, hmem, by rw [hp n hmem, hmax]⟩
  · have htoken := h.token
    cases st with
    | acquired =>
      obtain ⟨⟨m, hm, hot⟩, hlow⟩ := htoken
      refine ⟨⟨m, (hstk m ?_).mpr hm, hot⟩, fun x hx => by rw [hp x hx]; exact hlow x hx⟩
      rcases hot with hot | hot <;> rw [hot] <;> simp
    | requested =>
      obtain ⟨hcool, -, hone⟩ := htoken
      refine ⟨fun m hm hot => hcool m (hhot m hm hot) hot, Or.inl (hr rfl),
        hone.imp_of_mem fun {x y} hx hy hxy => ?_⟩
      rw [hp x hx, hp y hy]
      exact hxy
    | none =>
      obtain ⟨hcool, hlow, hloop⟩ := htoken
      refine ⟨fun m hm hot => hcool m (hhot m hm hot) hot,
        fun x hx => by rw [hp x hx]; exact hlow x hx, fun hne => ?_⟩
      obtain ⟨m, hm, hph⟩ := hloop hne
      refine ⟨m, (hstk m ?_).mpr hm, hph⟩
      rcases hph with hph | hph <;> rw [hph] <;> simp

/-- Only regular tasks are in a memory phase. -/
lemma Parked.outside (h : Parked κ w prio phase st stk susp) {t : Tid}
    (ht : ¬ (κ.tdb t).Regular) : phase t = .outside := by
  by_contra hne
  exact ht (h.away t hne).1

/-- Tasks without a node on the stack or among the suspended ones are outside. -/
lemma Parked.outside_of_notMem (h : Parked κ w prio phase st stk susp) {t : Tid}
    (ht : t ∉ (stk ++ susp).map Node.task) : phase t = .outside := by
  by_contra hne
  exact ht (h.away t hne).2

end FpMemSched.Erika.Phases
