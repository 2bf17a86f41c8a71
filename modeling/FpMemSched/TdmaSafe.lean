import FpMemSched.TdmaExact

/-!
What the slots guarantee under TDMA, and whom they do not keep out.

A CPU whose cell has a slot is in its memory phase only while the slot is on, up to the
handling of the interrupt at its end. A cell whose id has no slot is given a slot byte all
the same, and the timer takes it for a slot.
-/

namespace FpMemSched.TdmaSafe

open FpMemSched.Lib FpMemSched.Lib.Runs FpMemSched.Lib.Slots FpMemSched.Tdma
open FpMemSched.TdmaExact
open FpMemSched.Arbiter hiding init

variable {p t k : ℕ} {c : PerCpu}

/-- **What arming the timer does** for a CPU with a slot: while the slot is on the timer is
set to its end, otherwise to the start of a later one. -/
lemma tdmaTimerStart_cases (hp : 0 < p) (ht : t + p * tdmaNumSlots < 2 ^ 64)
    (hc : u8 c.slotId = k) (hk : k < tdmaNumSlots) :
    (slotAt tdmaNumSlots p t = k ∧ ∃ q, slotStart tdmaNumSlots p q k ≤ t ∧
      tdmaTimerStart p t c = (c.arm (slotStart tdmaNumSlots p q (k + 1)) .stop, true)) ∨
    (slotAt tdmaNumSlots p t ≠ k ∧ ∃ q,
      tdmaTimerStart p t c = (c.arm (slotStart tdmaNumSlots p q k) .start, false)) := by
  rw [tdmaTimerStart_eq]
  rw [Nat.mul_comm] at ht
  rcases timerStart_cases hp (by decide) ht hc hk with ⟨rfl, he⟩ | ⟨hne, he⟩
  · exact Or.inl ⟨rfl, _, (slotAt_spec hp).1, he⟩
  · exact Or.inr ⟨hne, _, he⟩

/-- How state, timer and time of a CPU with slot `k` belong together. -/
structure CpuInv (p t k : ℕ) (c : PerCpu) : Prop where
  slot : u8 c.slotId = k
  unblocked : c.state ≠ .blocked
  computing : c.state = .computing → c.enabled = false
  waiting : c.state = .waiting → c.enabled = true ∧ c.target = .start ∧
    ∃ q, c.cmp = slotStart tdmaNumSlots p q k
  memory : c.state = .memory → c.enabled = true ∧ c.target = .stop ∧
    ∃ q, c.cmp = slotStart tdmaNumSlots p q (k + 1) ∧ slotStart tdmaNumSlots p q k ≤ t

lemma CpuInv.later {t' : ℕ} (h : CpuInv p t k c) (ht : t ≤ t') : CpuInv p t' k c := by
  refine ⟨h.slot, h.unblocked, h.computing, h.waiting, fun hm => ?_⟩
  obtain ⟨he, htg, q, hq, hle⟩ := h.memory hm
  exact ⟨he, htg, q, hq, hle.trans ht⟩

/-- A CPU in its memory phase is in its slot until the interrupt at the end is due. -/
lemma CpuInv.slotAt_eq (h : CpuInv p t k c) (hk : k < tdmaNumSlots) (hm : c.state = .memory)
    (hd : ¬ c.due t) : slotAt tdmaNumSlots p t = k := by
  obtain ⟨he, -, q, hq, hle⟩ := h.memory hm
  have hlt : t < c.cmp := by
    by_contra hge
    exact hd ⟨he, by omega⟩
  rw [hq, slotStart_succ] at hlt
  exact Slots.slotAt_eq hk hle hlt

lemma cpuInv_create {id : ℕ} (h₁ : 1 ≤ id) (h₂ : id ≤ tdmaNumSlots) :
    CpuInv p t (id - 1) (tdmaOnCellCreate id) := by
  have hid : id = 1 ∨ id = 2 ∨ id = 3 := by unfold tdmaNumSlots at h₂; omega
  refine ⟨?_, by simp [tdmaOnCellCreate], fun _ => rfl, by simp [tdmaOnCellCreate],
    by simp [tdmaOnCellCreate]⟩
  rcases hid with rfl | rfl | rfl <;> decide

/-! ### One step -/

section Step

variable (hp : 0 < p) (ht : t + p * tdmaNumSlots < 2 ^ 64) (hk : k < tdmaNumSlots)

include hp ht hk

lemma cpuInv_begin (h : CpuInv p t k c) :
    CpuInv p t k (tdmaHypercall p t beginMemPhase c).1 := by
  unfold tdmaHypercall
  rw [if_pos rfl]
  split_ifs with hs
  · rcases tdmaTimerStart_cases hp ht h.slot hk with ⟨-, q, hle, he⟩ | ⟨-, q, he⟩
    · rw [he]
      exact ⟨h.slot, by simp, by simp, by simp, fun _ => ⟨rfl, rfl, q, rfl, hle⟩⟩
    · rw [he]
      exact ⟨h.slot, by simp, by simp, fun _ => ⟨rfl, rfl, q, rfl⟩, by simp⟩
  · exact h

omit hp ht hk in
lemma cpuInv_end (h : CpuInv p t k c) : CpuInv p t k (tdmaHypercall p t endMemPhase c).1 := by
  unfold tdmaHypercall
  rw [if_neg (by decide), if_pos rfl]
  split_ifs with hs
  · exact h
  · exact ⟨h.slot, by simp, by simp, by simp, by simp⟩

/-- A timer interrupt that is set to a start is handled in the slot, any other one out of it. -/
lemma cpuInv_timer (h : CpuInv p t k c) (hd : c.due t)
    (hin : c.target = .start ↔ slotAt tdmaNumSlots p t = k) :
    CpuInv p t k (tdmaTimerIsr p t c).1 := by
  unfold tdmaTimerIsr
  rcases hst : c.state with _ | _ | _ | _
  · simp [PerCpu.due, h.computing hst] at hd
  · obtain ⟨-, htg, -⟩ := h.memory hst
    rcases tdmaTimerStart_cases hp ht h.slot hk with ⟨he, -⟩ | ⟨-, q', he⟩
    · cases htg.symm.trans (hin.mpr he)
    · simp only [htg, ne_eq, not_true, if_false, he]
      exact ⟨h.slot, by simp, by simp, fun _ => ⟨rfl, rfl, q', rfl⟩, by simp⟩
  · obtain ⟨-, htg, -⟩ := h.waiting hst
    rcases tdmaTimerStart_cases hp ht h.slot hk with ⟨-, q', hle, he⟩ | ⟨hne, -⟩
    · simp only [htg, hst, reduceCtorEq, if_false, if_true, he]
      exact ⟨h.slot, by simp, by simp, by simp, fun _ => ⟨rfl, rfl, q', rfl, hle⟩⟩
    · exact absurd (hin.mp htg) hne
  · exact absurd hst h.unblocked

omit hp ht in
/-- An interrupt that is handled within a slot is. -/
lemma CpuInv.target_iff (h : CpuInv p t k c) (hd : c.due t) (hin : t < c.cmp + p) :
    c.target = .start ↔ slotAt tdmaNumSlots p t = k := by
  rcases hst : c.state with _ | _ | _ | _
  · simp [PerCpu.due, h.computing hst] at hd
  · -- the end of the slot: the next slot is on, which is not the own one
    obtain ⟨-, htg, q, hq, -⟩ := h.memory hst
    have hne : slotAt tdmaNumSlots p t ≠ k := by
      rw [hq] at hin
      have hlo : slotStart tdmaNumSlots p q (k + 1) ≤ t := hq ▸ hd.2
      by_cases hlast : k + 1 = tdmaNumSlots
      · rw [hlast, slotStart_last] at hlo hin
        rw [Slots.slotAt_eq (by decide) hlo hin]
        unfold tdmaNumSlots at hlast
        omega
      · rw [Slots.slotAt_eq (by omega) hlo hin]
        omega
    simp [htg, hne]
  · -- the start of the slot: it is on
    obtain ⟨-, htg, q, hq⟩ := h.waiting hst
    have heq : slotAt tdmaNumSlots p t = k := by
      rw [hq] at hin
      exact Slots.slotAt_eq hk (hq ▸ hd.2) hin
    simp [htg, heq]
  · exact absurd hst h.unblocked

end Step

/-! ### Runs -/

section Run

variable {ι : Type*} [DecidableEq ι] {id : ι → ℕ}

/-- Up to the time where the counter would overflow. -/
def Inv (p : ℕ) (id : ι → ℕ) (s : Sys ι) : Prop :=
  s.time + p * tdmaNumSlots < 2 ^ 64 → ∀ c, CpuInv p s.time (id c - 1) (s.cpu c)

lemma cpus_setCpu {s : Sys ι} {c : ι} {d : PerCpu} {r : List ℕ}
    (h : ∀ c, CpuInv p s.time (id c - 1) (s.cpu c)) (hd : CpuInv p s.time (id c - 1) d) :
    ∀ e, CpuInv p s.time (id e - 1) ((s.setCpu c d r).cpu e) := by
  intro e
  by_cases he : e = c
  · subst he; simpa [Sys.setCpu] using hd
  · simpa [Sys.setCpu, Function.update_of_ne he] using h e

lemma inv_setCpu {s : Sys ι} {c : ι} {d : PerCpu} {r : List ℕ}
    (h : s.time + p * tdmaNumSlots < 2 ^ 64 → ∀ c, CpuInv p s.time (id c - 1) (s.cpu c))
    (hd : s.time + p * tdmaNumSlots < 2 ^ 64 → CpuInv p s.time (id c - 1) d) :
    Inv p id (s.setCpu c d r) :=
  fun ht => cpus_setCpu (h ht) (hd ht)

lemma step_inv (hp : 0 < p) (hid : ∀ c, 1 ≤ id c ∧ id c ≤ tdmaNumSlots) {s s' : Sys ι}
    {a : Action ι} (h : Inv p id s) (ha : Timely p s a) (hs : step p s a = some s') :
    Inv p id s' := by
  have hk : ∀ c, id c - 1 < tdmaNumSlots := fun c => by have := hid c; omega
  cases a with
  | tick t' =>
    simp only [step, Option.ite_none_right_eq_some, Option.some.injEq] at hs
    obtain ⟨hle, rfl⟩ := hs
    intro ht c
    exact (h (by simp only at ht; omega) c).later hle
  | beginPhase c =>
    simp only [step, Option.some.injEq] at hs
    subst hs
    exact inv_setCpu h fun ht => cpuInv_begin hp ht (hk c) (h ht c)
  | endPhase c =>
    simp only [step, Option.some.injEq] at hs
    subst hs
    exact inv_setCpu h fun ht => cpuInv_end (h ht c)
  | timer c =>
    simp only [step, Option.ite_none_right_eq_some, Option.some.injEq] at hs
    obtain ⟨hd, rfl⟩ := hs
    exact inv_setCpu h fun ht =>
      cpuInv_timer hp ht (hk c) (h ht c) hd ((h ht c).target_iff (hk c) hd ha)

/-- **TDMA is exclusive**: a CPU in its memory phase is in its slot unless its slot-end
interrupt is due, so of two such CPUs one has it due; and the timer of a waiting CPU is set
to a start, that of a CPU in its memory phase to an end. -/
theorem tdma_exclusive (p : ℕ) (hp : 0 < p) (id : ι → ℕ) (hinj : Function.Injective id)
    (hid : ∀ c, 1 ≤ id c ∧ id c ≤ tdmaNumSlots) (as : List (Action ι)) (s : Sys ι)
    (h : exec (step p) (init id) as = some s) (htimely : Along (step p) (Timely p) (init id) as)
    (hov : s.time + p * tdmaNumSlots < 2 ^ 64) :
    (∀ c, (s.cpu c).state = .memory → ¬ (s.cpu c).due s.time →
      s.time / p % tdmaNumSlots = id c - 1) ∧
    (∀ c d, c ≠ d → (s.cpu c).state = .memory → (s.cpu d).state = .memory →
      (s.cpu c).due s.time ∨ (s.cpu d).due s.time) ∧
    ∀ c, ((s.cpu c).state = .waiting → (s.cpu c).enabled = true ∧ (s.cpu c).target = .start) ∧
      ((s.cpu c).state = .memory → (s.cpu c).enabled = true ∧ (s.cpu c).target = .stop) := by
  have hinit : Inv p id (init id) := fun _ c => cpuInv_create (hid c).1 (hid c).2
  have hinv : Inv p id s :=
    exec_inv_along (fun _ _ _ hs ha ht => step_inv hp hid hs ha ht) hinit htimely h
  have hin : ∀ c, (s.cpu c).state = .memory → ¬ (s.cpu c).due s.time →
      slotAt tdmaNumSlots p s.time = id c - 1 := fun c hm hd =>
    (hinv hov c).slotAt_eq (by have := hid c; omega) hm hd
  refine ⟨hin, fun c d hne hc hd => ?_, fun c => ⟨fun hw => ?_, fun hm => ?_⟩⟩
  · by_contra hdue
    rw [not_or] at hdue
    have hcd := (hin c hc hdue.1).symm.trans (hin d hd hdue.2)
    have := hid c
    have := hid d
    exact hne (hinj (by omega))
  · exact ⟨((hinv hov c).waiting hw).1, ((hinv hov c).waiting hw).2.1⟩
  · exact ⟨((hinv hov c).memory hm).1, ((hinv hov c).memory hm).2.1⟩

/-- Two cells: the first uses its slot up to the end, the second waits for its own. -/
def twoSlotsRun : List (Action (Fin 2)) :=
  [.beginPhase 0, .beginPhase 1, .tick 12, .timer 0, .timer 1]

theorem tdma_exclusive_twoSlots :
    ∃ s, exec (step 10) (init fun c : Fin 2 => c.val + 1) twoSlotsRun = some s ∧
      (s.cpu 1).state = .memory ∧ s.time / 10 % tdmaNumSlots = 1 :=
  ⟨_, rfl, rfl, (tdma_exclusive 10 (by decide) (fun c : Fin 2 => c.val + 1) (by decide)
    (by decide) twoSlotsRun _ rfl (by decide) (by decide)).1 1 rfl (by decide)⟩

/-! ### Cells without a slot -/

/-- The byte `tdma_timer_start` takes for the slot of the cell. For an id above the number
of slots it is 255, the marker `-1` read back, or what is left of the id in an `s8`. -/
def slotByte (id : ℕ) : ℕ := u8 (tdmaOnCellCreate id).slotId

/-- The cell is kept away from memory: not in its memory phase, and never notified. -/
def KeptOut (c : ι) (s : Sys ι) : Prop :=
  (s.cpu c).state ≠ .memory ∧ ∀ k, (c, k) ∉ s.raised

/-- A BEGIN of `c` in its computing phase is made outside the slot of the byte, and no timer
interrupt is handled while `c` waits. -/
def Spared (p : ℕ) (id : ι → ℕ) (c : ι) (s : Sys ι) : Action ι → Prop
  | .beginPhase d => d = c → (s.cpu c).state = .computing →
      s.time / p % tdmaNumSlots ≠ slotByte (id c)
  | .timer d => d = c → (s.cpu c).state ≠ .waiting
  | _ => True

instance (p : ℕ) (id : ι → ℕ) (c : ι) (s : Sys ι) : ∀ a, Decidable (Spared p id c s a)
  | .beginPhase d => inferInstanceAs (Decidable (d = c → _ → _))
  | .timer d => inferInstanceAs (Decidable (d = c → _))
  | .tick _ | .endPhase _ => isTrue trivial

/-- As long as `c` was not let in: it computes or waits, and a waiting `c` waits for a start. -/
structure OutInv (id : ι → ℕ) (c : ι) (s : Sys ι) : Prop where
  slot : u8 (s.cpu c).slotId = slotByte (id c)
  state : (s.cpu c).state = .computing ∧ (s.cpu c).enabled = false ∨
    (s.cpu c).state = .waiting ∧ (s.cpu c).target = .start
  silent : ∀ k, (c, k) ∉ s.raised

omit [DecidableEq ι] in
lemma outInv_init (id : ι → ℕ) (c : ι) : OutInv id c (init id) :=
  ⟨rfl, Or.inl ⟨rfl, rfl⟩, fun k => by simp [init]⟩

omit [DecidableEq ι] in
lemma OutInv.keptOut {c : ι} {s : Sys ι} (h : OutInv id c s) : KeptOut c s := by
  refine ⟨?_, h.silent⟩
  rcases h.state with ⟨hs, -⟩ | ⟨hs, -⟩ <;> simp [hs]

/-- A step of another CPU, or one after which `c` is still not let in. -/
lemma OutInv.setCpu {c d : ι} {s : Sys ι} {e : PerCpu} {r : List ℕ} (h : OutInv id c s)
    (he : d = c → u8 e.slotId = slotByte (id c) ∧ r = [] ∧
      (e.state = .computing ∧ e.enabled = false ∨ e.state = .waiting ∧ e.target = .start)) :
    OutInv id c (s.setCpu d e r) := by
  by_cases hd : d = c
  · subst hd
    obtain ⟨hslot, rfl, hstate⟩ := he rfl
    exact ⟨by simpa [Sys.setCpu] using hslot, by simpa [Sys.setCpu] using hstate,
      by simpa [Sys.setCpu] using h.silent⟩
  · refine ⟨?_, ?_, fun k => ?_⟩
    · simpa [Sys.setCpu, Function.update_of_ne (Ne.symm hd)] using h.slot
    · simpa [Sys.setCpu, Function.update_of_ne (Ne.symm hd)] using h.state
    · simpa [Sys.setCpu, hd] using h.silent k

/-- Whether the slot byte is the current slot decides what arming the timer tells. -/
lemma tdmaTimerStart_byte (p t : ℕ) (c : PerCpu) :
    (t / p % tdmaNumSlots = u8 c.slotId ∧ ∃ m, tdmaTimerStart p t c = (c.arm m .stop, true)) ∨
    (t / p % tdmaNumSlots ≠ u8 c.slotId ∧
      ∃ m, tdmaTimerStart p t c = (c.arm m .start, false)) := by
  have hcur : t / p % tdmaNumSlots % 256 = t / p % tdmaNumSlots :=
    Nat.mod_eq_of_lt (by have := Nat.mod_lt (t / p) (show 0 < tdmaNumSlots by decide)
                         unfold tdmaNumSlots at *; omega)
  unfold tdmaTimerStart
  simp only [hcur]
  split_ifs with h₁ h₂
  · exact Or.inl ⟨h₁, _, rfl⟩
  · exact Or.inr ⟨h₁, _, rfl⟩
  · exact Or.inr ⟨h₁, _, rfl⟩

/-- A step meets the condition and leaves `c` out, or lets `c` in. -/
lemma step_outInv {c : ι} {s s' : Sys ι} {a : Action ι} (h : OutInv id c s)
    (hs : step p s a = some s') :
    (Spared p id c s a ∧ OutInv id c s') ∨ (¬ Spared p id c s a ∧ ¬ KeptOut c s') := by
  cases a with
  | tick t' =>
    simp only [step, Option.ite_none_right_eq_some, Option.some.injEq] at hs
    obtain ⟨-, rfl⟩ := hs
    exact Or.inl ⟨trivial, h.slot, h.state, h.silent⟩
  | beginPhase d =>
    simp only [step, Option.some.injEq] at hs
    subst hs
    by_cases hd : d = c
    · subst hd
      rcases h.state with ⟨hst, -⟩ | hw
      · simp only [tdmaHypercall, if_true, hst]
        rcases tdmaTimerStart_byte p s.time (s.cpu d) with ⟨heq, m, hm⟩ | ⟨hne, m, hm⟩
        · -- the byte is taken for the current slot
          refine Or.inr ⟨fun hsp => hsp rfl hst (heq.trans h.slot), fun hk => hk.1 ?_⟩
          simp [hm, Sys.setCpu]
        · refine Or.inl ⟨fun _ _ heq => hne (heq.trans h.slot.symm), h.setCpu fun _ => ?_⟩
          rw [hm]
          exact ⟨h.slot, rfl, Or.inr ⟨rfl, rfl⟩⟩
      · refine Or.inl ⟨fun _ hst => by simp [hw.1] at hst, h.setCpu fun _ => ?_⟩
        simpa [tdmaHypercall, hw.1] using ⟨h.slot, hw.2⟩
    · exact Or.inl ⟨fun hdc => absurd hdc hd, h.setCpu fun hdc => absurd hdc hd⟩
  | endPhase d =>
    simp only [step, Option.some.injEq] at hs
    subst hs
    refine Or.inl ⟨trivial, h.setCpu ?_⟩
    rintro rfl
    rcases h.state with ⟨hst, hen⟩ | ⟨hst, -⟩
    · simpa [tdmaHypercall, hst, hen, beginMemPhase, endMemPhase] using h.slot
    · simpa [tdmaHypercall, hst, beginMemPhase, endMemPhase] using h.slot
  | timer d =>
    simp only [step, Option.ite_none_right_eq_some, Option.some.injEq] at hs
    obtain ⟨hdue, rfl⟩ := hs
    by_cases hd : d = c
    · subst hd
      rcases h.state with ⟨-, hen⟩ | ⟨hst, htg⟩
      · simp [PerCpu.due, hen] at hdue
      · -- the start of a slot that the cell does not have
        refine Or.inr ⟨fun hsp => hsp rfl hst, fun hk => hk.1 ?_⟩
        simp [tdmaTimerIsr, htg, hst, Sys.setCpu]
    · exact Or.inl ⟨fun hdc => absurd hdc hd, h.setCpu fun hdc => absurd hdc hd⟩

/-! ### Every cell can get in -/

lemma slotByte_lt (id : ℕ) : slotByte id < 256 := by
  unfold slotByte u8
  omega

lemma tdmaSlotPeriod_eq {freq : ℕ} (h : freq < 2 ^ 32) : tdmaSlotPeriod freq = 2 * freq := by
  unfold tdmaSlotPeriod u64 tdmaSlotPeriodUs
  rw [Nat.mod_eq_of_lt (by omega)]
  omega

/-- BEGIN at time `0`, and the timer interrupt at the start of the slot of the byte. -/
def enterRun (p : ℕ) (id : ι → ℕ) (c : ι) : List (Action ι) :=
  if slotByte (id c) = 0 then [.beginPhase c]
  else [.beginPhase c, .tick (slotByte (id c) * p), .timer c]

lemma enterRun_memory {freq : ℕ} (hf : freq < 2 ^ 32) (id : ι → ℕ) (c : ι) :
    ∃ s, exec (step (tdmaSlotPeriod freq)) (init id)
      (enterRun (tdmaSlotPeriod freq) id c) = some s ∧ (s.cpu c).state = .memory := by
  have hlt : slotByte (id c) * tdmaSlotPeriod freq < 2 ^ 64 := by
    rw [tdmaSlotPeriod_eq hf]
    have := slotByte_lt (id c)
    calc slotByte (id c) * (2 * freq) ≤ 255 * (2 * 2 ^ 32) := by gcongr; omega
      _ < 2 ^ 64 := by decide
  unfold enterRun
  split_ifs with hb
  · refine ⟨_, rfl, ?_⟩
    have hstart : (tdmaTimerStart (tdmaSlotPeriod freq) 0 (tdmaOnCellCreate (id c))).2 = true := by
      simp only [tdmaTimerStart, Nat.zero_div, Nat.zero_mod]
      rw [if_pos (show 0 = u8 (tdmaOnCellCreate (id c)).slotId from hb.symm)]
    simp [Sys.setCpu, tdmaHypercall, init, show (tdmaOnCellCreate (id c)).state = .computing
      from rfl, hstart]
  · -- arming the timer at time `0` sets it to the start of the slot of the byte
    have hstart : tdmaTimerStart (tdmaSlotPeriod freq) 0 (tdmaOnCellCreate (id c)) =
        ((tdmaOnCellCreate (id c)).arm (slotByte (id c) * tdmaSlotPeriod freq) .start, false) := by
      unfold slotByte at hb hlt ⊢
      simp only [tdmaTimerStart, Nat.zero_div, Nat.zero_mod]
      rw [if_neg (by omega), if_pos (by omega), Nat.zero_mul]
      simp only [u64, Nat.zero_mod, Nat.zero_add, Nat.mod_eq_of_lt hlt]
    have hcall : tdmaHypercall (tdmaSlotPeriod freq) 0 beginMemPhase (tdmaOnCellCreate (id c)) =
        ({ (tdmaOnCellCreate (id c)).arm (slotByte (id c) * tdmaSlotPeriod freq) .start with
          state := .waiting }, .nack) := by
      simp [tdmaHypercall, hstart, show (tdmaOnCellCreate (id c)).state = .computing from rfl]
    simp [exec, step, init, hcall, Sys.setCpu, PerCpu.due, PerCpu.arm, tdmaTimerIsr]

/-- **When a cell is kept out**: in every run a cell stays out of its memory phase and is not
notified exactly when none of its BEGINs falls in the slot of its byte and no timer interrupt
is handled while it waits. The byte is no bar: whatever the id, some run lets the cell in. -/
theorem keptOut_iff (freq : ℕ) (hf : freq < 2 ^ 32) (id : ι → ℕ) (c : ι) :
    (∀ as s, exec (step (tdmaSlotPeriod freq)) (init id) as = some s →
      (Always (step (tdmaSlotPeriod freq)) (KeptOut c) (init id) as ↔
        Along (step (tdmaSlotPeriod freq)) (Spared (tdmaSlotPeriod freq) id c) (init id) as)) ∧
    ∃ as s, exec (step (tdmaSlotPeriod freq)) (init id) as = some s ∧ ¬ KeptOut c s := by
  refine ⟨fun as s h => ?_, ?_⟩
  · exact always_iff_along (fun s hs => hs.keptOut) (fun _ _ _ hs ht => step_outInv hs ht)
      (outInv_init id c) h
  · obtain ⟨s, hs, hm⟩ := enterRun_memory hf id c
    exact ⟨_, s, hs, fun hk => hk.1 hm⟩

/-- A cell that gives up before its timer fires is kept out. -/
theorem keptOut_iff_brief :
    Always (step (tdmaSlotPeriod 31250000)) (KeptOut 0) (init fun _ : Fin 1 => 4)
      [.beginPhase 0, .tick 1000, .endPhase 0] :=
  ((keptOut_iff 31250000 (by decide) (fun _ : Fin 1 => 4) 0).1 _ _ rfl).mpr (by decide)

/-- Cell 4 has no slot, waits for the one of byte 255, and is let in. -/
theorem cell_four_let_in :
    tdmaNumSlots < 4 ∧
    ∃ s, exec (step (tdmaSlotPeriod 31250000)) (init fun _ : Fin 1 => 4)
        [.beginPhase 0, .tick (255 * 62500000), .timer 0] = some s ∧
      (s.cpu 0).state = .memory ∧ ¬ KeptOut 0 s :=
  ⟨by decide, _, rfl, rfl, fun h => h.1 rfl⟩

end Run

end FpMemSched.TdmaSafe
