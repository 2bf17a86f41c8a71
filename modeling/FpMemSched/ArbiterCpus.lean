import FpMemSched.Arbiter

/-!
The fixed-priority arbiter with several CPUs in a cell.

Every CPU of a cell may ask for the token, with the priority of the cell, and has an entry of its
own. When the owner gives the token back, only the first CPU of each cell is looked at. So the
token is passed on rightly exactly where no open request is above those of the first CPUs.
-/

namespace FpMemSched.ArbiterCpus

open FpMemSched.Lib FpMemSched.Lib.Runs FpMemSched.Arbiter

/-! ### Runs -/

/-- The cells at a time, and the arbiter. -/
structure Sys where
  cells : Cells
  arb : Arb

inductive Action
  /-- A CPU of a cell makes a hypercall. -/
  | hypercall (c : Cell) (x : Cpu) (actionCode : ℕ)
  | park (x : Cpu)
  /-- Cells are created, destroyed or changed. -/
  | configure (cs : Cells)

/-- What a step leaves behind. -/
structure Effect where
  sys : Sys
  raised : List Sgi

def effect (s : Sys) : Action → Option Effect
  | .hypercall c x actionCode =>
    if c ∈ s.cells.list ∧ x ∈ c.cpuSet then
      let o := fixedPriorityHypercall s.cells.list x c.id actionCode s.arb
      some ⟨{ s with arb := o.state }, o.raised⟩
    else none
  | .park x => let o := onArchParkCpu s.cells.list x s.arb; some ⟨{ s with arb := o.1 }, o.2⟩
  | .configure cs => some ⟨{ s with cells := cs }, []⟩

def step (s : Sys) (a : Action) : Option Sys := (effect s a).map Effect.sys

/-- The calls in which the CPU gives its request back. -/
def Action.disables (x : Cpu) : Action → Prop
  | .hypercall _ y actionCode => y = x ∧ (actionCode = endMemPhase ∨ actionCode = 0xFFFF)
  | .park y => y = x
  | .configure _ => False

/-- The owner of the token gives its request back. -/
def Releases (s : Sys) (a : Action) (x : Cpu) : Prop :=
  s.arb.tokenOwner = some x ∧ a.disables x

instance (x : Cpu) : ∀ a : Action, Decidable (a.disables x)
  | .hypercall _ _ _ => inferInstanceAs (Decidable (_ ∧ (_ ∨ _)))
  | .park _ => inferInstanceAs (Decidable (_ = _))
  | .configure _ => inferInstanceAs (Decidable False)

instance (s : Sys) (a : Action) (x : Cpu) : Decidable (Releases s a x) :=
  inferInstanceAs (Decidable (_ ∧ _))

/-! ### Passing the token on -/

/-- While there are requests the token is with a highest one, which is told; it is free only if
there are none. -/
structure HandedOver (s : Arb) (raised : List Sgi) : Prop where
  top : ∀ y, s.memoryRequests y ≠ 0 → ∃ x, s.tokenOwner = some x ∧
    (∀ z, s.memoryRequests z ≤ s.memoryRequests x) ∧ ⟨x, sgiMemoryPhaseStarted⟩ ∈ raised
  free : s.tokenOwner = none → ∀ y, s.memoryRequests y = 0

/-- No request is above those of the first CPUs of the cells, not counting `x`. -/
def FirstAsks (cs : Cells) (m : Cpu → ℕ) (x : Cpu) : Prop :=
  ∀ y, y ≠ x → m y ≠ 0 → ∃ c ∈ cs.list, c.firstCpu ≠ x ∧ m y ≤ m c.firstCpu

instance (cs : Cells) (m : Cpu → ℕ) (x : Cpu) : Decidable (FirstAsks cs m x) :=
  inferInstanceAs (Decidable (∀ _, _))

lemma handedOver_disable {cs : Cells} {s : Arb} {x : Cpu} (ho : s.tokenOwner = some x) :
    HandedOver (disableMemoryRequest cs.list x s).1 (disableMemoryRequest cs.list x s).2 ↔
      FirstAsks cs s.memoryRequests x := by
  rcases disableMemoryRequest_cases cs.list x s with ⟨-, he⟩ | ⟨hne, -⟩
  case inr => exact absurd ho hne
  rw [he]
  set m := Function.update s.memoryRequests x 0 with hm
  have hx : m x = 0 := Function.update_self ..
  have hm' : ∀ y, y ≠ x → m y = s.memoryRequests y := fun y hy => Function.update_of_ne hy ..
  have hne : ∀ y, m y ≠ 0 → y ≠ x := by
    rintro y hy rfl
    exact hy hx
  constructor
  · intro h y hy hpos
    rw [← hm' y hy] at hpos ⊢
    obtain ⟨z, hz, hmax, -⟩ := h.top y hpos
    obtain ⟨b, hb, rfl⟩ := Option.map_eq_some_iff.mp hz
    obtain ⟨l₁, l₂, hl, hbpos, -, -⟩ := Scan.scan_some _ hb
    have hbx : b.firstCpu ≠ x := hne _ (by omega)
    refine ⟨b, by rw [hl]; simp, hbx, ?_⟩
    rw [← hm' _ hbx]
    exact hmax y
  · intro h
    have hask : ∀ y, m y ≠ 0 → ∃ c ∈ cs.list, m y ≤ m c.firstCpu := by
      intro y hy
      have hyx := hne y hy
      rw [hm' y hyx] at hy ⊢
      obtain ⟨c, hc, hcx, hle⟩ := h y hyx hy
      exact ⟨c, hc, by rwa [hm' _ hcx]⟩
    rcases hb : Scan.scan (fun c : Cell => m c.firstCpu) none cs.list with _ | b
    · -- no first CPU asks, so nobody does
      have hzero : ∀ y, m y = 0 := by
        intro y
        by_contra hy
        obtain ⟨c, hc, hle⟩ := hask y hy
        have := (Scan.scan_none _).mp hb c hc
        omega
      exact ⟨fun y hy => absurd (hzero y) hy, fun _ => hzero⟩
    · refine ⟨fun y _ => ⟨b.firstCpu, rfl, fun z => ?_, by simp⟩, by simp⟩
      change m z ≤ m b.firstCpu
      rcases Nat.eq_zero_or_pos (m z) with hz | hz
      · omega
      · obtain ⟨c, hc, hle⟩ := hask z (by omega)
        have hcb := Scan.key_le_scan (fun c : Cell => m c.firstCpu) (b := none) hc
        rw [hb, Scan.keyOf_some] at hcb
        exact hle.trans hcb

/-- A release leaves what giving the request back does. -/
lemma effect_release {s : Sys} {a : Action} {x : Cpu} {o : Effect} (hr : Releases s a x)
    (h : effect s a = some o) :
    ∃ r : Arb, r.tokenOwner = some x ∧ (∀ y, y ≠ x → r.memoryRequests y = s.arb.memoryRequests y) ∧
      o.sys.cells = s.cells ∧ (o.sys.arb, o.raised) = disableMemoryRequest s.cells.list x r := by
  obtain ⟨ho, hd⟩ := hr
  cases a with
  | hypercall c y code =>
    simp only [effect, Option.ite_none_right_eq_some] at h
    obtain ⟨-, h⟩ := h
    obtain rfl := Option.some.inj h
    obtain ⟨rfl, rfl | rfl⟩ := hd
    · exact ⟨s.arb, ho, fun _ _ => rfl, rfl, rfl⟩
    · -- the measurement asks with priority 0 first
      refine ⟨{ s.arb with memoryRequests := Function.update s.arb.memoryRequests y 0 }, ho,
        fun z hz => Function.update_of_ne hz .., rfl, ?_⟩
      simp [fixedPriorityHypercall, enableMemoryRequestTestArbitrationOverhead, beginMemPhase,
        endMemPhase]
  | park y =>
    obtain rfl := Option.some.inj h
    obtain rfl : y = x := hd
    exact ⟨s.arb, ho, fun _ _ => rfl, rfl, rfl⟩
  | configure cs => exact hd.elim

/-- A release by this step passes the token on rightly. -/
def HandsOver (s : Sys) (a : Action) : Prop :=
  ∀ x o, Releases s a x → effect s a = some o → HandedOver o.sys.arb o.raised

/-- No request is above those of the first CPUs when the owner releases the token. -/
def Meets (s : Sys) (a : Action) : Prop :=
  ∀ x, Releases s a x → FirstAsks s.cells s.arb.memoryRequests x

instance (s : Sys) (a : Action) : Decidable (Meets s a) := inferInstanceAs (Decidable (∀ _, _))

lemma handsOver_iff {s t : Sys} {a : Action} (h : step s a = some t) :
    HandsOver s a ↔ Meets s a := by
  obtain ⟨o, ho, -⟩ := Option.map_eq_some_iff.mp h
  refine forall_congr' fun x => ?_
  have hiff : Releases s a x →
      (HandedOver o.sys.arb o.raised ↔ FirstAsks s.cells s.arb.memoryRequests x) := by
    intro hr
    obtain ⟨r, hown, hm, -, he⟩ := effect_release hr ho
    have hcong : FirstAsks s.cells r.memoryRequests x ↔
        FirstAsks s.cells s.arb.memoryRequests x := by
      refine forall_congr' fun y => forall_congr' fun hy => ?_
      rw [hm y hy]
      refine imp_congr_right fun _ => exists_congr fun c => and_congr_right fun _ => ?_
      exact and_congr_right fun hc => by rw [hm _ hc]
    rw [← hcong, ← handedOver_disable hown, ← he]
  constructor
  · exact fun hh hr => (hiff hr).mp (hh o hr ho)
  · intro hm o' hr ho'
    obtain rfl : o = o' := Option.some.inj (ho.symm.trans ho')
    exact (hiff hr).mpr (hm hr)

/-- **No request is stranded** in a run exactly when, at every release of the token, no open
request is above those of the first CPUs of the cells. -/
theorem handed_over_iff (cs : Cells) (as : List Action) (s : Sys)
    (h : exec step ⟨cs, init⟩ as = some s) :
    Along step HandsOver ⟨cs, init⟩ as ↔ Along step Meets ⟨cs, init⟩ as :=
  along_congr (fun _ _ _ ht => handsOver_iff ht) h

theorem handed_over_twoCells :
    ∃ s, exec step ⟨twoCells, init⟩ [.hypercall cellB 3 beginMemPhase,
        .hypercall cellA 2 beginMemPhase, .hypercall cellA 2 endMemPhase] = some s ∧
      Along step HandsOver ⟨twoCells, init⟩ [.hypercall cellB 3 beginMemPhase,
        .hypercall cellA 2 beginMemPhase, .hypercall cellA 2 endMemPhase] :=
  ⟨_, rfl, (handed_over_iff twoCells _ _ rfl).mpr (by decide +kernel)⟩

/-- The second CPU of a cell asks while the first one has the token, and is forgotten. -/
theorem second_cpu_stranded :
    ∃ (c : Cell) (cs : Cells) (s : Sys),
      exec step ⟨cs, init⟩ [.hypercall c 2 beginMemPhase, .hypercall c 3 beginMemPhase] = some s ∧
      ¬ HandsOver s (.hypercall c 2 endMemPhase) := by
  refine ⟨⟨1, {2, 3}, by decide⟩, ⟨[⟨1, {2, 3}, by decide⟩], by decide, by decide⟩, _, rfl,
    fun h => ?_⟩
  obtain ⟨x, hx, -⟩ := (h 2 _ ⟨rfl, rfl, .inl rfl⟩ rfl).top 3 (by decide +kernel)
  revert x
  decide +kernel

end FpMemSched.ArbiterCpus
