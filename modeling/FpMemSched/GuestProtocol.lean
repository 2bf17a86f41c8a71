import FpMemSched.Arbiter

/-!
The arbiter together with the DPREM guests that use it (`dprem.c`).

A guest is seen through what the protocol depends on: its `mem_arbit_status`, the
notifications raised for it and not yet handled, and where it is with its interrupts off.
The guest of a cell runs on the first CPU of the cell. The invariant: handling what is
pending turns the status of a guest that asked for the token into what the arbiter holds.
-/

namespace FpMemSched.GuestProtocol

open FpMemSched.Lib FpMemSched.Lib.Runs FpMemSched.Arbiter

inductive MemArbitStatus
  | none | requested | acquired
  deriving DecidableEq

/-- What the two interrupt routines do to the status. A notification that does not fit the
status is ignored. -/
def isrStatus (irqId : ℕ) (st : MemArbitStatus) : MemArbitStatus :=
  if irqId = sgiMemoryPhaseStarted then
    if st = .requested then .acquired else st
  else if irqId = sgiMemoryPhaseEnded then
    if st = .acquired then .requested else st
  else st

/-- Interrupts are on in `running` only. -/
inductive Mode
  | running
  /-- In the loop of `DPREM_begin_memory_phase`. -/
  | beginLoop
  /-- In `DPREM_end_memory_phase`, before its hypercall. -/
  | ending
  /-- Between that hypercall and the return of `DPREM_end_execution_phase`. -/
  | execution
  deriving DecidableEq

structure Guest where
  status : MemArbitStatus
  mode : Mode
  /-- Raised and not yet handled, oldest first. -/
  pending : List ℕ

structure Sys where
  arb : Arb
  guest : Cpu → Guest

def init : Sys := ⟨Arbiter.init, fun _ => ⟨.none, .running, []⟩⟩

/-- Queue the raised interrupts at their targets. -/
def post (raised : List Sgi) (g : Cpu → Guest) : Cpu → Guest := fun x =>
  { g x with pending := (g x).pending ++ (raised.filter (·.target = x)).map Sgi.irqId }

inductive Action
  /-- A task calls `DPREM_begin_memory_phase`, or a task that is in its loop is switched to. -/
  | enterBegin (c : Cell)
  /-- One turn of the loop. A suspended task leaves the CPU to a task outside the loop or, with
  `toLoop`, to one that is in it as well. -/
  | loop (c : Cell) (toLoop : Bool)
  | enterEnd (c : Cell)
  | endHvc (c : Cell)
  | endExecutionPhase (c : Cell)
  /-- The oldest notification is handled. The routine returns to what it interrupted; only
  when it suspended or resumed a task it may leave the CPU to a task in the loop. -/
  | deliver (c : Cell) (toLoop : Bool)

/-- The hypercall of the guest on `x` and what the guest makes of the reply. -/
def hvc (cells : List Cell) (c : Cell) (code : ℕ) (upd : Reply → Guest → Guest) (s : Sys) :
    Sys :=
  let x := c.firstCpu
  let o := fixedPriorityHypercall cells x c.id code s.arb
  ⟨o.state, post o.raised (Function.update s.guest x (upd o.reply (s.guest x)))⟩

def onBeginReply (r : Reply) (g : Guest) : Guest :=
  match r with
  | .ack => { g with status := .acquired }
  | .nack => { g with status := .requested }
  | .invalid => g

def onEndReply (r : Reply) (g : Guest) : Guest :=
  match r with
  | .ack => { g with status := .none, mode := .execution }
  | _ => { g with mode := .execution }

def setGuest (s : Sys) (x : Cpu) (g : Guest) : Sys :=
  { s with guest := Function.update s.guest x g }

def step (cs : Cells) (s : Sys) : Action → Option Sys
  | .enterBegin c =>
    let g := s.guest c.firstCpu
    if c ∈ cs.list ∧ g.mode = .running ∧ g.pending = [] then
      some (setGuest s c.firstCpu { g with mode := .beginLoop })
    else none
  | .loop c toLoop =>
    let g := s.guest c.firstCpu
    if c ∈ cs.list ∧ g.mode = .beginLoop then
      match g.status with
      | .acquired => some (setGuest s c.firstCpu { g with mode := .running })
      | .requested =>
        some (setGuest s c.firstCpu { g with mode := if toLoop then .beginLoop else .running })
      | .none => some (hvc cs.list c beginMemPhase onBeginReply s)
    else none
  | .enterEnd c =>
    let g := s.guest c.firstCpu
    if c ∈ cs.list ∧ g.mode = .running ∧ g.pending = [] then
      some (setGuest s c.firstCpu { g with mode := .ending })
    else none
  | .endHvc c =>
    if c ∈ cs.list ∧ (s.guest c.firstCpu).mode = .ending then
      some (hvc cs.list c endMemPhase onEndReply s)
    else none
  | .endExecutionPhase c =>
    let g := s.guest c.firstCpu
    if c ∈ cs.list ∧ g.mode = .execution then
      some (setGuest s c.firstCpu { g with mode := .running })
    else none
  | .deliver c toLoop =>
    let g := s.guest c.firstCpu
    if c ∈ cs.list ∧ g.mode = .running then
      match g.pending with
      | [] => none
      | k :: rest =>
        let st := isrStatus k g.status
        let mode := if toLoop ∧ st ≠ g.status then .beginLoop else .running
        some (setGuest s c.firstCpu ⟨st, mode, rest⟩)
    else none

/-! ### The invariant -/

/-- The status a guest that asked for the token should end up with. -/
def expected (owner : Option Cpu) (x : Cpu) : MemArbitStatus :=
  if owner = some x then .acquired else .requested

/-- How the guest on `x` stands to the arbiter. -/
structure Agree (a : Arb) (x : Cpu) (g : Guest) : Prop where
  idle : g.status = .none → a.memoryRequests x = 0 ∧ a.tokenOwner ≠ some x
  live : g.status ≠ .none →
    g.pending.foldl (fun st k => isrStatus k st) g.status = expected a.tokenOwner x
  loop : g.mode = .beginLoop → g.status = .none → g.pending = []

def Inv (s : Sys) : Prop := ∀ x, Agree s.arb x (s.guest x)

lemma inv_init : Inv init := fun x => ⟨fun _ => ⟨rfl, by simp [init, Arbiter.init]⟩,
  fun h => absurd rfl h, fun _ _ => rfl⟩

/-- A step of the guest on `x` alone. -/
lemma Inv.setGuest {s : Sys} (h : Inv s) {x : Cpu} {g : Guest} (hg : Agree s.arb x g) :
    Inv (setGuest s x g) := by
  intro y
  by_cases hy : y = x
  · subst hy; simpa [GuestProtocol.setGuest] using hg
  · simpa [GuestProtocol.setGuest, Function.update_of_ne hy] using h y

/-! ### Hypercalls -/

lemma post_raised (o : Option Cpu) (k : ℕ) (g : Cpu → Guest) (x : Cpu) :
    post (o.toList.map fun y => (⟨y, k⟩ : Sgi)) g x =
      if o = some x then { g x with pending := (g x).pending ++ [k] } else g x := by
  rcases o with _ | y
  · simp [post]
  · by_cases hy : y = x <;> simp [post, hy]

@[simp] lemma post_nil (g : Cpu → Guest) : post [] g = g := by
  funext x
  simp [post]

lemma isrStatus_ended : isrStatus sgiMemoryPhaseEnded .acquired = .requested := rfl
lemma isrStatus_started : isrStatus sgiMemoryPhaseStarted .requested = .acquired := rfl

lemma isrStatus_eq_none {k : ℕ} {st : MemArbitStatus} : isrStatus k st = .none ↔ st = .none := by
  unfold isrStatus
  split_ifs with h₁ h₂ h₃ h₄ <;> simp_all

/-- A guest that is no party to a call keeps its standing when its request and its share of
the token do. -/
lemma Agree.frame {a b : Arb} {x : Cpu} {g : Guest} (h : Agree a x g)
    (hr : b.memoryRequests x = a.memoryRequests x)
    (ho : b.tokenOwner = some x ↔ a.tokenOwner = some x) : Agree b x g := by
  refine ⟨fun hn => ?_, fun hn => ?_, h.loop⟩
  · rw [hr, Ne, ho]
    exact h.idle hn
  · rw [h.live hn]
    simp only [expected, ho]

/-- The owner is told that it lost the token. -/
lemma Agree.revoke {a b : Arb} {x : Cpu} {g : Guest} (h : Agree a x g)
    (ho : a.tokenOwner = some x) (hb : b.tokenOwner ≠ some x) :
    Agree b x { g with pending := g.pending ++ [sgiMemoryPhaseEnded] } := by
  have hn : g.status ≠ .none := fun hn => (h.idle hn).2 ho
  refine ⟨fun h' => absurd h' hn, fun _ => ?_, fun _ h' => absurd h' hn⟩
  have hl := h.live hn
  simp only [List.foldl_append, hl, List.foldl_cons, List.foldl_nil, expected, ho, hb, if_true,
    if_false, isrStatus_ended]

/-- A waiting guest is told that it got the token. -/
lemma Agree.grant {a b : Arb} {x : Cpu} {g : Guest} (h : Agree a x g)
    (hr : a.memoryRequests x ≠ 0) (ho : a.tokenOwner ≠ some x) (hb : b.tokenOwner = some x) :
    Agree b x { g with pending := g.pending ++ [sgiMemoryPhaseStarted] } := by
  have hn : g.status ≠ .none := fun hn => hr (h.idle hn).1
  refine ⟨fun h' => absurd h' hn, fun _ => ?_, fun _ h' => absurd h' hn⟩
  have hl := h.live hn
  simp only [List.foldl_append, hl, List.foldl_cons, List.foldl_nil, expected, ho, hb, if_true,
    if_false, isrStatus_started]

/-- The reply to BEGIN tells the caller how it stands. -/
lemma Agree.answered (a : Arb) (x : Cpu) (m : Mode) : Agree a x ⟨expected a.tokenOwner x, m, []⟩ := by
  have hn : expected a.tokenOwner x ≠ .none := by
    unfold expected
    split_ifs <;> simp
  exact ⟨fun h => absurd h hn, fun _ => rfl, fun _ _ => rfl⟩

lemma inv_begin {s : Sys} (h : Inv s) (cells : List Cell) (c : Cell)
    (hst : (s.guest c.firstCpu).status = .none) (hm : (s.guest c.firstCpu).mode = .beginLoop) :
    Inv (hvc cells c beginMemPhase onBeginReply s) := by
  have hp : (s.guest c.firstCpu).pending = [] := (h c.firstCpu).loop hm hst
  have ho : s.arb.tokenOwner ≠ some c.firstCpu := ((h c.firstCpu).idle hst).2
  intro y
  rcases requestMemory_cases c.firstCpu c.id s.arb with ⟨-, he⟩ | ⟨-, he⟩
  · -- the caller takes the token; its owner before, if there was one, is told
    simp only [hvc, fixedPriorityHypercall, if_true, he, post_raised, Option.filter_eq_some_iff]
    by_cases hy : y = c.firstCpu
    · subst hy
      simpa [onBeginReply, hm, hp, expected] using Agree.answered
        ⟨Function.update s.arb.memoryRequests c.firstCpu (priorityOf c.id), some c.firstCpu,
          priorityOf c.id⟩ c.firstCpu .beginLoop
    · simp only [Function.update_of_ne hy]
      by_cases hoy : s.arb.tokenOwner = some y
      · rw [if_pos ⟨hoy, by simpa using hy⟩]
        exact (h y).revoke hoy (by simpa using Ne.symm hy)
      · rw [if_neg (by simp [hoy])]
        exact (h y).frame (by simp [Function.update_of_ne hy]) (by simp [hoy, Ne.symm hy])
  · simp only [hvc, fixedPriorityHypercall, if_true, he, post_nil]
    by_cases hy : y = c.firstCpu
    · subst hy
      simpa [onBeginReply, hm, hp, expected, ho] using Agree.answered
        ⟨Function.update s.arb.memoryRequests c.firstCpu (priorityOf c.id), s.arb.tokenOwner,
          s.arb.tokenPriority⟩ c.firstCpu .beginLoop
    · rw [Function.update_of_ne hy]
      exact (h y).frame (by simp [Function.update_of_ne hy]) Iff.rfl

/-- A guest without a request agrees with every arbiter that knows of none. -/
lemma Agree.ended {a : Arb} {x : Cpu} {m : Mode} (hm : m ≠ .beginLoop) (q : List ℕ)
    (hr : a.memoryRequests x = 0) (ho : a.tokenOwner ≠ some x) : Agree a x ⟨.none, m, q⟩ :=
  ⟨fun _ => ⟨hr, ho⟩, fun h => absurd rfl h, fun h => absurd h hm⟩

lemma inv_end {s : Sys} (h : Inv s) (cells : List Cell) (c : Cell) :
    Inv (hvc cells c endMemPhase onEndReply s) := by
  intro y
  rcases disableMemoryRequest_cases cells c.firstCpu s.arb with ⟨ho, he⟩ | ⟨ho, he⟩
  · -- the token is passed on to the cell the scan finds
    have hbest : ∀ z, Option.map Cell.firstCpu (Scan.scan (fun d : Cell =>
        Function.update s.arb.memoryRequests c.firstCpu 0 d.firstCpu) none cells) = some z →
        z ≠ c.firstCpu ∧ s.arb.memoryRequests z ≠ 0 := by
      intro z hz
      obtain ⟨b, hb, rfl⟩ := Option.map_eq_some_iff.mp hz
      obtain ⟨l₁, l₂, -, hpos, -⟩ := Scan.scan_some _ hb
      by_cases hbc : b.firstCpu = c.firstCpu
      · simp [hbc] at hpos
      · rw [Function.update_of_ne hbc] at hpos
        exact ⟨hbc, by omega⟩
    simp only [hvc, fixedPriorityHypercall, if_true, he, post_raised,
      show endMemPhase ≠ beginMemPhase by decide, if_false]
    by_cases hy : y = c.firstCpu
    · subst hy
      rw [if_neg fun hz => (hbest _ hz).1 rfl, Function.update_self]
      exact Agree.ended (by simp) _ (by simp) fun hz => (hbest _ hz).1 rfl
    · rw [Function.update_of_ne hy]
      have hoy : s.arb.tokenOwner ≠ some y := by simpa [ho] using Ne.symm hy
      split_ifs with hz
      · exact (h y).grant (hbest y hz).2 hoy hz
      · exact (h y).frame (by simp [Function.update_of_ne hy]) (by simp only [hoy, hz])
  · simp only [hvc, fixedPriorityHypercall, if_true, he, post_nil,
      show endMemPhase ≠ beginMemPhase by decide, if_false]
    by_cases hy : y = c.firstCpu
    · subst hy
      rw [Function.update_self]
      exact Agree.ended (by simp) _ (by simp) ho
    · rw [Function.update_of_ne hy]
      exact (h y).frame (by simp [Function.update_of_ne hy]) Iff.rfl

/-! ### Steps and runs -/

variable {cs : Cells}

lemma step_inv {s t : Sys} {a : Action} (h : Inv s) (hs : step cs s a = some t) : Inv t := by
  cases a with
  | enterBegin c =>
    simp only [step, Option.ite_none_right_eq_some, Option.some.injEq] at hs
    obtain ⟨⟨-, -, hp⟩, rfl⟩ := hs
    have hc := h c.firstCpu
    exact h.setGuest ⟨hc.idle, hc.live, fun _ _ => hp⟩
  | loop c toLoop =>
    simp only [step, Option.ite_none_right_eq_some] at hs
    obtain ⟨⟨-, hm⟩, hs⟩ := hs
    have hc := h c.firstCpu
    rcases hst : (s.guest c.firstCpu).status with _ | _ | _ <;>
      simp only [hst, Option.some.injEq] at hs <;> subst hs
    · exact inv_begin h cs.list c hst hm
    · exact h.setGuest ⟨by simp, by simpa [hst] using hc.live, by simp⟩
    · exact h.setGuest ⟨by simp, by simpa [hst] using hc.live, by simp⟩
  | enterEnd c =>
    simp only [step, Option.ite_none_right_eq_some, Option.some.injEq] at hs
    obtain ⟨-, rfl⟩ := hs
    have hc := h c.firstCpu
    exact h.setGuest ⟨hc.idle, hc.live, by simp⟩
  | endHvc c =>
    simp only [step, Option.ite_none_right_eq_some, Option.some.injEq] at hs
    obtain ⟨-, rfl⟩ := hs
    exact inv_end h cs.list c
  | endExecutionPhase c =>
    simp only [step, Option.ite_none_right_eq_some, Option.some.injEq] at hs
    obtain ⟨-, rfl⟩ := hs
    have hc := h c.firstCpu
    exact h.setGuest ⟨hc.idle, hc.live, by simp⟩
  | deliver c toLoop =>
    simp only [step, Option.ite_none_right_eq_some] at hs
    obtain ⟨-, hs⟩ := hs
    have hc := h c.firstCpu
    rcases hp : (s.guest c.firstCpu).pending with _ | ⟨k, rest⟩
    · simp [hp] at hs
    · simp only [hp, Option.some.injEq] at hs
      subst hs
      refine h.setGuest ⟨fun hn => hc.idle (isrStatus_eq_none.mp hn), fun hn => ?_, ?_⟩
      · simpa [hp] using hc.live (isrStatus_eq_none.not.mp hn)
      · -- an interrupt routine that lands in the loop changed the status
        intro hm hn
        have hn' : (s.guest c.firstCpu).status = .none := isrStatus_eq_none.mp hn
        rw [isrStatus_eq_none.mpr hn', hn'] at hm
        simp at hm

theorem run_inv {s : Sys} {as : List Action} (h : exec (step cs) init as = some s) : Inv s :=
  exec_inv (fun _ _ _ hs ht => step_inv hs ht) inv_init h

/-! ### Agreement -/

/-- What handling a list of notifications can do to a status in the other direction. -/
lemma ended_mem_of_foldl {q : List ℕ}
    (h : q.foldl (fun st k => isrStatus k st) .acquired = .requested) :
    sgiMemoryPhaseEnded ∈ q := by
  by_contra hne
  have hstay : ∀ r : List ℕ, sgiMemoryPhaseEnded ∉ r →
      r.foldl (fun st k => isrStatus k st) .acquired = .acquired := by
    intro r hr
    induction r with
    | nil => rfl
    | cons k r ih =>
      simp only [List.mem_cons, not_or] at hr
      have hk : isrStatus k .acquired = .acquired := by simp [isrStatus, Ne.symm hr.1]
      rw [List.foldl_cons, hk, ih hr.2]
  rw [hstay q hne] at h
  simp at h

/-- **Guests and arbiter agree in every reachable state**: a guest that believes it has the
token has it or is about to be told otherwise, and an owner that was told everything knows. -/
theorem guests_agree (cs : Cells) (as : List Action) (s : Sys)
    (h : exec (step cs) init as = some s) :
    (∀ c ∈ cs.list, (s.guest c.firstCpu).status = .acquired →
      s.arb.tokenOwner = some c.firstCpu ∨ sgiMemoryPhaseEnded ∈ (s.guest c.firstCpu).pending) ∧
    (∀ c ∈ cs.list, s.arb.tokenOwner = some c.firstCpu → (s.guest c.firstCpu).pending = [] →
      (s.guest c.firstCpu).status = .acquired) ∧
    ((∀ c ∈ cs.list, (s.guest c.firstCpu).pending = []) → ∀ c ∈ cs.list, ∀ d ∈ cs.list,
      (s.guest c.firstCpu).status = .acquired → (s.guest d.firstCpu).status = .acquired →
        c = d) := by
  have hinv := run_inv h
  have ha : ∀ x, (s.guest x).status = .acquired →
      s.arb.tokenOwner = some x ∨ sgiMemoryPhaseEnded ∈ (s.guest x).pending := by
    intro x hx
    have hl := (hinv x).live (by simp [hx])
    rw [hx, expected] at hl
    split_ifs at hl with ho
    · exact Or.inl ho
    · exact Or.inr (ended_mem_of_foldl hl)
  refine ⟨fun c _ => ha _, fun c _ ho hp => ?_, fun hq c hc d hd hca hda => ?_⟩
  · have hn : (s.guest c.firstCpu).status ≠ .none := fun hn => ((hinv _).idle hn).2 ho
    simpa [hp, expected, ho] using (hinv c.firstCpu).live hn
  · have hco := (ha _ hca).resolve_right (by simp [hq c hc])
    have hdo := (ha _ hda).resolve_right (by simp [hq d hd])
    rw [hco] at hdo
    exact cell_eq_of_firstCpu hc hd (Option.some.inj hdo)

/-- Cell B gets the token, loses it to cell A and is granted it again. -/
def twoGuestsRun : List Action :=
  [.enterBegin cellB, .loop cellB false, .loop cellB false, .enterBegin cellA,
    .loop cellA false, .loop cellA false, .deliver cellB false, .enterEnd cellA,
    .endHvc cellA, .endExecutionPhase cellA, .deliver cellB false]

theorem guests_agree_twoCells :
    ∃ s, exec (step twoCells) init twoGuestsRun = some s ∧ s.arb.tokenOwner = some 3 ∧
      (s.guest 3).status = .acquired :=
  ⟨_, rfl, rfl, (guests_agree twoCells twoGuestsRun _ rfl).2.1 cellB (by decide) rfl rfl⟩

end FpMemSched.GuestProtocol
