import FpMemSched.Arbiter

/-!
The invariant of the fixed-priority arbiter: the token is with the unique highest request.

Cells call from the first CPU of their CPU set, in any order and any number of times, and any
CPU may be parked at any time.
-/

namespace FpMemSched.ArbiterSafe

open FpMemSched.Lib FpMemSched.Lib.Runs FpMemSched.Arbiter

inductive Action
  | beginPhase (c : Cell)
  | endPhase (c : Cell)
  | park (x : Cpu)
  deriving DecidableEq

/-- What a step leaves behind: the state, the interrupts raised, the reply of a hypercall. -/
structure Effect where
  state : Arb
  raised : List Sgi
  reply : Option Reply

/-- A hypercall comes from a registered cell with an id in `0..5`. -/
def Caller (cs : Cells) (c : Cell) : Prop := c ∈ cs.list ∧ c.id ≤ 5

instance (cs : Cells) (c : Cell) : Decidable (Caller cs c) := inferInstanceAs (Decidable (_ ∧ _))

def effect (cs : Cells) (s : Arb) : Action → Option Effect
  | .beginPhase c =>
    if Caller cs c then
      let o := fixedPriorityHypercall cs.list c.firstCpu c.id beginMemPhase s
      some ⟨o.state, o.raised, some o.reply⟩
    else none
  | .endPhase c =>
    if Caller cs c then
      let o := fixedPriorityHypercall cs.list c.firstCpu c.id endMemPhase s
      some ⟨o.state, o.raised, some o.reply⟩
    else none
  | .park x => let o := onArchParkCpu cs.list x s; some ⟨o.1, o.2, none⟩

def step (cs : Cells) (s : Arb) (a : Action) : Option Arb := (effect cs s a).map Effect.state

/-- The token is free exactly when nobody asks, and otherwise with the one highest request. -/
structure Arbitrated (s : Arb) : Prop where
  free : s.tokenOwner = none ↔ s.tokenPriority = 0
  idle : s.tokenPriority = 0 ↔ ∀ x, s.memoryRequests x = 0
  held : ∀ x, s.tokenOwner = some x → s.memoryRequests x = s.tokenPriority ∧
    ∀ y, y ≠ x → s.memoryRequests y < s.memoryRequests x

/-- `x` gives the token away itself: it calls END or is parked. -/
def Action.releases (x : Cpu) : Action → Bool
  | .beginPhase _ => false
  | .endPhase c => c.firstCpu = x
  | .park y => y = x

/-- `x` asks for the token itself. -/
def Action.requests (x : Cpu) : Action → Bool
  | .beginPhase c => c.firstCpu = x
  | _ => false

/-- `x` lost the token by this step without giving it away. -/
def Revoked (s : Arb) (a : Action) (t : Arb) (x : Cpu) : Prop :=
  s.tokenOwner = some x ∧ t.tokenOwner ≠ some x ∧ a.releases x = false

/-- `x` got the token by this step without asking in it. -/
def Granted (s : Arb) (a : Action) (t : Arb) (x : Cpu) : Prop :=
  s.tokenOwner ≠ some x ∧ t.tokenOwner = some x ∧ a.requests x = false

instance (s : Arb) (a : Action) (t : Arb) (x : Cpu) : Decidable (Revoked s a t x) :=
  inferInstanceAs (Decidable (_ ∧ _))
instance (s : Arb) (a : Action) (t : Arb) (x : Cpu) : Decidable (Granted s a t x) :=
  inferInstanceAs (Decidable (_ ∧ _))

/-! ### The entries -/

variable {cs : Cells} {m : Cpu → ℕ}

/-- A nonzero entry is the priority of the cell it belongs to. -/
def Entries (cs : Cells) (m : Cpu → ℕ) : Prop :=
  ∀ x, m x ≠ 0 → ∃ c, Caller cs c ∧ c.firstCpu = x ∧ m x = 6 - c.id

/-- Requests of different CPUs differ. -/
lemma Entries.inj (h : Entries cs m) {x y : Cpu} (hx : m x ≠ 0) (he : m x = m y) : x = y := by
  obtain ⟨c, ⟨hc, hci⟩, rfl, hcm⟩ := h x hx
  obtain ⟨d, ⟨hd, hdi⟩, rfl, hdm⟩ := h y (he ▸ hx)
  rw [cell_eq_of_id hc hd (by omega)]

lemma Entries.begin (h : Entries cs m) {c : Cell} (hc : Caller cs c) :
    Entries cs (Function.update m c.firstCpu (6 - c.id)) := by
  intro x hx
  by_cases hxc : x = c.firstCpu
  · subst hxc
    exact ⟨c, hc, rfl, by simp⟩
  · rw [Function.update_of_ne hxc] at hx ⊢
    exact h x hx

lemma Entries.clear (h : Entries cs m) (y : Cpu) : Entries cs (Function.update m y 0) := by
  intro x hx
  by_cases hxy : x = y
  · subst hxy; simp at hx
  · rw [Function.update_of_ne hxy] at hx ⊢
    exact h x hx

/-! ### The invariant -/

structure Inv (cs : Cells) (s : Arb) : Prop where
  entries : Entries cs s.memoryRequests
  free : s.tokenOwner = none → s.tokenPriority = 0 ∧ ∀ x, s.memoryRequests x = 0
  held : ∀ x, s.tokenOwner = some x → 0 < s.tokenPriority ∧
    s.memoryRequests x = s.tokenPriority ∧ ∀ y, y ≠ x → s.memoryRequests y < s.tokenPriority

lemma inv_init : Inv cs init :=
  ⟨fun x hx => absurd rfl hx, fun _ => ⟨rfl, fun _ => rfl⟩, fun x hx => by simp [init] at hx⟩

lemma Inv.arbitrated {s : Arb} (h : Inv cs s) : Arbitrated s := by
  rcases ho : s.tokenOwner with _ | o
  · obtain ⟨hp, hz⟩ := h.free ho
    exact ⟨by simp [ho, hp], by simp [hp, hz], fun x hx => by simp [ho] at hx⟩
  · obtain ⟨hpos, hreq, hlt⟩ := h.held o ho
    refine ⟨by simp [ho]; omega, ⟨by omega, fun hz => ?_⟩, fun x hx => ?_⟩
    · have := hz o; omega
    · obtain rfl : o = x := by simpa [ho] using hx
      exact ⟨hreq, fun y hy => by have := hlt y hy; omega⟩

/-- A request that does not take the token is strictly below its priority, or is the owner's
own request made again. -/
lemma Inv.lower {s : Arb} (h : Inv cs s) {c : Cell} (hc : Caller cs c)
    (hle : 6 - c.id ≤ s.tokenPriority) :
    ∃ o, s.tokenOwner = some o ∧
      (o = c.firstCpu ∧ s.tokenPriority = 6 - c.id ∨
        o ≠ c.firstCpu ∧ 6 - c.id < s.tokenPriority) := by
  have hci := hc.2
  rcases ho : s.tokenOwner with _ | o
  · have := (h.free ho).1
    omega
  · obtain ⟨hpos, hreq, -⟩ := h.held o ho
    obtain ⟨d, hd, hdo, hdm⟩ := h.entries o (by omega)
    refine ⟨o, rfl, ?_⟩
    by_cases hoc : o = c.firstCpu
    · obtain rfl := cell_eq_of_firstCpu hd.1 hc.1 (hdo.trans hoc)
      exact Or.inl ⟨hoc, by omega⟩
    · refine Or.inr ⟨hoc, ?_⟩
      have hne : 6 - c.id ≠ s.tokenPriority := by
        intro he
        have hdi := hd.2
        have hcd := cell_eq_of_id hc.1 hd.1 (by omega)
        exact hoc (by rw [hcd, hdo])
      omega

lemma inv_request {s : Arb} (h : Inv cs s) {c : Cell} (hc : Caller cs c) :
    Inv cs (requestMemory c.firstCpu c.id s).1 := by
  have hp : priorityOf c.id = 6 - c.id := priorityOf_eq hc.2
  have hci := hc.2
  rcases requestMemory_cases c.firstCpu c.id s with ⟨hlt, he⟩ | ⟨hle, he⟩
  · -- the caller takes the token
    rw [he, hp]
    refine ⟨h.entries.begin hc, by simp, fun x hx => ?_⟩
    obtain rfl : c.firstCpu = x := by simpa using hx
    refine ⟨by simp only; omega, by simp, fun y hy => ?_⟩
    rw [hp] at hlt
    simp only [Function.update_of_ne hy]
    rcases ho : s.tokenOwner with _ | o
    · have := (h.free ho).2 y
      omega
    · obtain ⟨-, hreq, hall⟩ := h.held o ho
      by_cases hyo : y = o
      · subst hyo; omega
      · have := hall y hyo; omega
  · -- the token stays where it is
    rw [hp] at hle
    obtain ⟨o, ho, hcase⟩ := h.lower hc hle
    obtain ⟨hpos, hreq, hall⟩ := h.held o ho
    rw [he, hp]
    refine ⟨h.entries.begin hc, by simp [ho], fun x hx => ?_⟩
    obtain rfl : o = x := by simpa [ho] using hx
    rcases hcase with ⟨hoc, hprio⟩ | ⟨hoc, hprio⟩
    · refine ⟨hpos, by simp [hoc, hprio], fun y hy => ?_⟩
      simp only [Function.update_of_ne (hoc ▸ hy)]
      exact hall y hy
    · refine ⟨hpos, by simp [Function.update_of_ne hoc, hreq], fun y hy => ?_⟩
      by_cases hyc : y = c.firstCpu
      · subst hyc; simpa using hprio
      · simp only [Function.update_of_ne hyc]
        exact hall y hy

lemma inv_disable {s : Arb} (h : Inv cs s) (x : Cpu) :
    Inv cs (disableMemoryRequest cs.list x s).1 := by
  have hent := h.entries.clear x
  rcases disableMemoryRequest_cases cs.list x s with ⟨-, he⟩ | ⟨hne, he⟩
  · -- the owner leaves: the scan finds the highest request left
    rw [he]
    rcases hb : Scan.scan (fun c : Cell => Function.update s.memoryRequests x 0 c.firstCpu)
        none cs.list with _ | b
    · refine ⟨hent, fun _ => ⟨rfl, fun y => ?_⟩, by simp⟩
      by_contra hy
      obtain ⟨c, hc, rfl, -⟩ := hent y hy
      exact hy ((Scan.scan_none _).mp hb c hc.1)
    · obtain ⟨l₁, l₂, hl, hpos, -, -⟩ := Scan.scan_some _ hb
      refine ⟨hent, by simp, fun y hy => ?_⟩
      obtain rfl : b.firstCpu = y := by simpa using hy
      refine ⟨hpos, rfl, fun z hz => ?_⟩
      simp only [Scan.keyOf_some]
      by_contra hge
      have hz0 : Function.update s.memoryRequests x 0 z ≠ 0 := by omega
      obtain ⟨c, hc, rfl, -⟩ := hent z hz0
      have hle := Scan.key_le_scan (fun c : Cell =>
        Function.update s.memoryRequests x 0 c.firstCpu) (b := none) hc.1
      rw [hb, Scan.keyOf_some] at hle
      exact hz (hent.inj hz0 (by omega))
  · -- only the caller's entry goes
    rw [he]
    refine ⟨hent, fun ho => ?_, fun o ho => ?_⟩
    · obtain ⟨hp, hz⟩ := h.free ho
      refine ⟨hp, fun y => ?_⟩
      by_cases hyx : y = x
      · subst hyx; simp
      · simp [Function.update_of_ne hyx, hz]
    · obtain ⟨hpos, hreq, hall⟩ := h.held o ho
      have hox : o ≠ x := by rintro rfl; exact hne ho
      refine ⟨hpos, by simp [Function.update_of_ne hox, hreq], fun y hy => ?_⟩
      by_cases hyx : y = x
      · subst hyx; simpa using hpos
      · simp only [Function.update_of_ne hyx]
        exact hall y hy

lemma step_inv {s t : Arb} {a : Action} (h : Inv cs s) (hs : step cs s a = some t) :
    Inv cs t := by
  obtain ⟨o, ho, rfl⟩ := Option.map_eq_some_iff.mp hs
  cases a with
  | beginPhase c =>
    simp only [effect, Option.ite_none_right_eq_some] at ho
    obtain ⟨hc, ho⟩ := ho
    obtain rfl := Option.some.inj ho
    exact inv_request h hc
  | endPhase c =>
    simp only [effect, Option.ite_none_right_eq_some] at ho
    obtain ⟨hc, ho⟩ := ho
    obtain rfl := Option.some.inj ho
    exact inv_disable h c.firstCpu
  | park x =>
    obtain rfl := Option.some.inj ho
    exact inv_disable h x

theorem run_inv {s : Arb} {as : List Action} (h : exec (step cs) init as = some s) : Inv cs s :=
  exec_inv (fun _ _ _ hs ht => step_inv hs ht) inv_init h

/-! ### What a step tells the CPUs -/

/-- A step raises ENDED for exactly the CPU it takes the token from, STARTED for exactly the
CPU it passes the token to, and nothing else. -/
structure Notified (s : Arb) (a : Action) (o : Effect) : Prop where
  ended : ∀ x, o.raised.count ⟨x, sgiMemoryPhaseEnded⟩ = if Revoked s a o.state x then 1 else 0
  started : ∀ x, o.raised.count ⟨x, sgiMemoryPhaseStarted⟩ =
    if Granted s a o.state x then 1 else 0
  other : ∀ g ∈ o.raised, g.irqId = sgiMemoryPhaseEnded ∨ g.irqId = sgiMemoryPhaseStarted

lemma count_raised (o : Option Cpu) (k k' : ℕ) (x : Cpu) :
    (o.toList.map fun y => (⟨y, k⟩ : Sgi)).count ⟨x, k'⟩ =
      if o = some x ∧ k = k' then 1 else 0 := by
  rcases o with _ | y
  · simp
  · by_cases hy : y = x <;> by_cases hk : k = k' <;> simp [hy, hk]

lemma mem_raised {o : Option Cpu} {k : ℕ} {g : Sgi}
    (h : g ∈ o.toList.map fun y => (⟨y, k⟩ : Sgi)) : g.irqId = k := by
  obtain ⟨y, -, rfl⟩ := List.mem_map.mp h
  rfl

lemma notified_request (s : Arb) (c : Cell) (r : Option Reply) :
    let q := requestMemory c.firstCpu c.id s
    (q.2.2 = true ↔ q.1.tokenOwner = some c.firstCpu) ∧
      Notified s (.beginPhase c) ⟨q.1, q.2.1, r⟩ := by
  intro q
  rcases requestMemory_cases c.firstCpu c.id s with ⟨-, he⟩ | ⟨-, he⟩
  · -- the caller has the token now, and its owner before, if another one, is told
    rw [show q = _ from he]
    refine ⟨by simp, fun x => ?_, fun x => ?_, fun g hg => Or.inl (mem_raised hg)⟩
    · rw [count_raised]
      congr 1
      simp only [Option.filter_eq_some_iff, Revoked, Action.releases]
      simp [@eq_comm _ x]
    · rw [count_raised, if_neg (by simp [sgiMemoryPhaseEnded, sgiMemoryPhaseStarted]), if_neg]
      rintro ⟨-, hx, hr⟩
      simp only [Action.requests, decide_eq_false_iff_not] at hr
      exact hr (by simpa using hx)
  · rw [show q = _ from he]
    refine ⟨by simp, fun x => ?_, fun x => ?_, by simp⟩
    · rw [if_neg fun h => h.2.1 h.1]; rfl
    · rw [if_neg fun h => h.1 h.2.1]; rfl

lemma notified_disable (s : Arb) {a : Action} {x : Cpu} (hrel : ∀ y, a.releases y = decide (x = y))
    (hreq : ∀ y, a.requests y = false) (r : Option Reply) :
    let q := disableMemoryRequest cs.list x s
    Notified s a ⟨q.1, q.2, r⟩ := by
  intro q
  rcases disableMemoryRequest_cases cs.list x s with ⟨ho, he⟩ | ⟨ho, he⟩
  · -- the owner leaves, and whoever has the token then is told
    rw [show q = _ from he]
    refine ⟨fun y => ?_, fun y => ?_, fun g hg => Or.inr (mem_raised hg)⟩
    · rw [count_raised, if_neg (by simp [sgiMemoryPhaseEnded, sgiMemoryPhaseStarted]), if_neg]
      rintro ⟨hy, -, hr⟩
      rw [hrel, decide_eq_false_iff_not] at hr
      exact hr (by simpa [ho] using hy)
    · rw [count_raised]
      congr 1
      simp only [Granted, hreq, and_true, ho, eq_iff_iff, iff_and_self]
      intro hy hxy
      obtain rfl : x = y := by simpa using hxy
      obtain ⟨b, hb, hbx⟩ := Option.map_eq_some_iff.mp hy
      obtain ⟨l₁, l₂, -, hpos, -⟩ := Scan.scan_some _ hb
      simp [hbx] at hpos
  · rw [show q = _ from he]
    refine ⟨fun y => ?_, fun y => ?_, by simp⟩
    · rw [if_neg fun h => h.2.1 h.1]; rfl
    · rw [if_neg fun h => h.1 h.2.1]; rfl

lemma effect_notified {s : Arb} {a : Action} {o : Effect} (h : effect cs s a = some o) :
    (∀ c, a = .beginPhase c →
      (o.reply = some .ack ↔ o.state.tokenOwner = some c.firstCpu)) ∧ Notified s a o := by
  cases a with
  | beginPhase c =>
    simp only [effect, Option.ite_none_right_eq_some] at h
    obtain ⟨-, h⟩ := h
    obtain rfl := Option.some.inj h
    obtain ⟨hack, hn⟩ := notified_request s c
      (some (if (requestMemory c.firstCpu c.id s).2.2 then .ack else .nack))
    refine ⟨fun d hd => ?_, hn⟩
    obtain rfl : c = d := by simpa using hd
    rw [show (fixedPriorityHypercall cs.list c.firstCpu c.id beginMemPhase s).state =
      (requestMemory c.firstCpu c.id s).1 from rfl, ← hack]
    simp [fixedPriorityHypercall]
  | endPhase c =>
    simp only [effect, Option.ite_none_right_eq_some] at h
    obtain ⟨-, h⟩ := h
    obtain rfl := Option.some.inj h
    exact ⟨by simp, notified_disable s (fun _ => rfl) (fun _ => rfl) _⟩
  | park x =>
    obtain rfl := Option.some.inj h
    exact ⟨by simp, notified_disable s (fun _ => rfl) (fun _ => rfl) _⟩

/-- **The token is with the unique highest request in every reachable state**, BEGIN is
acknowledged exactly to the owner, and every step notifies exactly the CPUs that lost or got
the token without acting themselves. -/
theorem arbiter_safe (cs : Cells) (as : List Action) (s : Arb)
    (h : exec (step cs) init as = some s) :
    Arbitrated s ∧ ∀ a o, effect cs s a = some o →
      (∀ c, a = .beginPhase c →
        (o.reply = some .ack ↔ o.state.tokenOwner = some c.firstCpu)) ∧ Notified s a o :=
  ⟨(run_inv h).arbitrated, fun _ _ ho => effect_notified ho⟩

def twoCellsRun : List Action :=
  [.beginPhase cellB, .beginPhase cellA, .beginPhase cellB, .endPhase cellA]

theorem arbiter_safe_twoCells :
    ∃ s, exec (step twoCells) init twoCellsRun = some s ∧ s.tokenOwner = some 3 ∧
      Arbitrated s :=
  ⟨_, rfl, by decide, (arbiter_safe twoCells twoCellsRun _ rfl).1⟩

end FpMemSched.ArbiterSafe
