import FpMemSched.ManagementCells

/-!
`hypervisor_disable` beside the management hypercalls.

The CPU that calls it first decides for all of them by the number of cells. From then on this
number does not change: the CPU waits for all others and is taken from any hypercall that would
suspend it.
-/

namespace FpMemSched.Management

open FpMemSched.Lib FpMemSched.Lib.Runs FpMemSched.Lib.Crews

variable {κ : Config} {s t : Hv} {x y c k : ℕ} {p q : Pc}

/-- The CPU has entered the barrier. -/
def Pc.Left : Pc → Prop
  | .barrier | .gone => True
  | _ => False

instance : DecidablePred Pc.Left
  | .barrier | .gone => isTrue trivial
  | .guest | .events | .rechecking | .testing _ _ | .locking _ _ | .awaiting _ _ | .checking _
  | .working _ _ | .taking _ _ _ | .moving _ _ _ | .mapping _ _ | .returning _ _ _ _
  | .handing _ _ _ _ | .releasing _ _ | .completing _ | .resuming _ _ => isFalse id

/-- Once a CPU has entered the barrier, there are no cells left and no hypercall is past the loop
over the root cell. -/
structure Closing (κ : Config) (s : Hv) : Prop where
  cells : s.cells = []
  quiet : ∀ y, ¬ (s.pc y).Past
  started : ∀ c ∈ κ.cpus, s.shutdownState c = .started

structure Disabling (κ : Config) (s : Hv) : Prop where
  waiting : s.waitingCpus = tally κ.cpus Pc.Left s.pc
  member : ∀ x, (s.pc x).Left → x ∈ κ.cpus
  closing : (∃ x, (s.pc x).Left) → Closing κ s
  announced : ∀ c ∈ κ.cpus, s.shutdownState c = .started → ∃ x, (s.pc x).Left
  common : (s.shutdowns = 0 ∧ (∀ x, s.pc x ≠ .gone) ∧
      ((∃ x, (s.pc x).Left) → s.doCommonShutdown = true)) ∨
    (s.shutdowns = 1 ∧ s.doCommonShutdown = false ∧ ∀ x ∈ κ.cpus, (s.pc x).Left)

lemma Pc.Left.not_managing (h : p.Left) : ¬ p.Managing ∧ ¬ p.Engaged := by
  cases p <;> simp_all [Pc.Left, Pc.Managing, Pc.Past, Pc.Gathering, Pc.Engaged]

/-- A step of a CPU that does not concern the barrier. A CPU gets past the loop over the root cell
only if nobody is in the barrier. -/
lemma Disabling.other (h : Disabling κ s) (hp : ¬ (s.pc x).Left) (hq : ¬ q.Left)
    (hpc : t.pc = Function.update s.pc x q) (hw : t.waitingCpus = s.waitingCpus)
    (hst : t.shutdownState = s.shutdownState) (hd : t.doCommonShutdown = s.doCommonShutdown)
    (hs : t.shutdowns = s.shutdowns)
    (hclose : (∃ y, (s.pc y).Left) → t.cells = s.cells ∧ ¬ q.Past) : Disabling κ t := by
  have hleft : ∀ y, (t.pc y).Left ↔ (s.pc y).Left := by
    intro y
    rw [hpc]
    by_cases hyx : y = x
    · subst hyx
      rw [Function.update_self]
      exact iff_of_false hq hp
    · rw [Function.update_of_ne hyx]
  refine ⟨?_, fun y hy => h.member y ((hleft y).mp hy), fun ⟨y, hy⟩ => ?_, fun c hc hcs => ?_, ?_⟩
  · rw [hw, hpc, tally_update_of_iff (iff_of_false hq hp)]
    exact h.waiting
  · have hy' := (hleft y).mp hy
    obtain ⟨hcells, hqp⟩ := hclose ⟨y, hy'⟩
    obtain ⟨hc, hquiet, hstart⟩ := h.closing ⟨y, hy'⟩
    refine ⟨hcells.trans hc, fun z => ?_, fun c hc => by rw [hst]; exact hstart c hc⟩
    rw [hpc]
    by_cases hzx : z = x
    · subst hzx
      rwa [Function.update_self]
    · rw [Function.update_of_ne hzx]
      exact hquiet z
  · rw [hst] at hcs
    obtain ⟨y, hy⟩ := h.announced c hc hcs
    exact ⟨y, (hleft y).mpr hy⟩
  · rw [hs, hd]
    refine h.common.imp ?_ ?_
    · rintro ⟨h0, hg, hdo⟩
      refine ⟨h0, fun y hy => ?_, fun ⟨y, hy⟩ => hdo ⟨y, (hleft y).mp hy⟩⟩
      rw [hpc] at hy
      by_cases hyx : y = x
      · subst hyx
        rw [Function.update_self] at hy
        exact hq (by rw [hy]; trivial)
      · rw [Function.update_of_ne hyx] at hy
        exact hg y hy
    · rintro ⟨h1, hdo, hall⟩
      exact ⟨h1, hdo, fun y hy => (hleft y).mpr (hall y hy)⟩

/-- A CPU in the barrier is in the root cell and not held, so that no hypercall is past the loop
over the root cell. -/
lemma Disabling.not_past (h : Disabling κ s) (hl : ∃ y, (s.pc y).Left) : ¬ (s.pc x).Past :=
  (h.closing hl).quiet x

/-- With no other cells all CPUs are in the root cell. -/
lemma Layout.mem_root (hlay : Layout κ s) (hco : Core κ s) (hquiet : ∀ y, ¬ (s.pc y).Past)
    (hcells : s.cells = []) (hc : c ∈ κ.cpus) : c ∈ s.root := by
  have hset := hlay.settled fun z => by
    by_contra hne
    exact hquiet z (Pc.past_of_changing hne)
  refine (hco.member c hc).mpr ?_
  by_contra hne
  have := (hset c hc _ hne trivial).mp rfl
  simp [Hv.setOf, Hv.find, hcells] at this

/-- The end of the loop over the root cell is not reached with a CPU in the barrier. -/
lemma Core.not_left (hco : Core κ s) (hlay : Layout κ s) (h : Disabling κ s) {l : Loop}
    (hp : s.pc x = .testing l k) (hr : l.Root) (hk : ¬ k < κ.limit) : ¬ ∃ y, (s.pc y).Left := by
  rintro ⟨y, hy⟩
  have hclose := h.closing ⟨y, hy⟩
  obtain ⟨t, rfl⟩ := (Loop.root_iff l).mp hr
  have hmng : (s.pc x).Managing := .inr (by rw [hp]; trivial)
  have hyc := h.member y hy
  have hyr := hlay.mem_root hco hclose.quiet hclose.cells hyc
  have hyx : y ≠ x := by
    rintro rfl
    exact hy.not_managing.1 hmng
  have hheld := (hco.keeps x hmng).root y hyr hyx fun hf => by
    rw [hp] at hf
    have := κ.lt_limit y hyc
    simp only [Pc.Free] at hf
    omega
  exact hy.not_managing.2 hheld.engaged

/-! ### Steps -/

/-- A step of a hypercall that has suspended the root cell. -/
lemma Disabling.past (h : Disabling κ s) (hp : (s.pc x).Past) (hq : ¬ q.Left)
    (hpc : t.pc = Function.update s.pc x q) (hw : t.waitingCpus = s.waitingCpus)
    (hst : t.shutdownState = s.shutdownState) (hd : t.doCommonShutdown = s.doCommonShutdown)
    (hs : t.shutdowns = s.shutdowns) : Disabling κ t :=
  h.other (fun hl => hl.not_managing.1 (.inl hp)) hq hpc hw hst hd hs
    fun hl => absurd hp (h.not_past hl)

lemma disabling_testing {l : Loop} (hco : Core κ s) (hlay : Layout κ s) (h : Disabling κ s)
    (hp : s.pc x = .testing l k) :
    Disabling κ (s.goto x (if k < κ.limit then
      if k ∈ l.members s ∧ k ≠ x then .locking l k else .testing l (k + 1)
    else l.next)) := by
  have hq : ¬ (if k < κ.limit then
      if k ∈ l.members s ∧ k ≠ x then Pc.locking l k else .testing l (k + 1)
    else l.next).Left := by
    split_ifs
    · exact id
    · exact id
    · cases l <;> exact id
  by_cases hr : l.Root
  · refine h.other (by rw [hp]; exact id) hq rfl rfl rfl rfl rfl fun hl => ⟨rfl, ?_⟩
    split_ifs with hk
    · exact not_not.mpr hr
    · exact not_not.mpr hr
    · exact absurd hl (hco.not_left hlay h hp hr hk)
  · exact h.past (by rw [hp]; exact hr) hq rfl rfl rfl rfl rfl

/-- A step within the loops of `cell_suspend`. -/
lemma disabling_loop {l : Loop} {k' : ℕ} (h : Disabling κ s)
    (hp : s.pc x = .locking l k' ∨ s.pc x = .awaiting l k')
    (hq : q = .testing l k ∨ q = .awaiting l k) (hpc : t.pc = Function.update s.pc x q)
    (hw : t.waitingCpus = s.waitingCpus) (hst : t.shutdownState = s.shutdownState)
    (hd : t.doCommonShutdown = s.doCommonShutdown) (hs : t.shutdowns = s.shutdowns)
    (hcells : t.cells = s.cells) : Disabling κ t := by
  have hql : ¬ q.Left := by rcases hq with rfl | rfl <;> exact id
  by_cases hr : l.Root
  · refine h.other (by rcases hp with hp | hp <;> rw [hp] <;> exact id) hql hpc hw hst hd hs
      fun _ => ⟨hcells, ?_⟩
    rcases hq with rfl | rfl <;> exact not_not.mpr hr
  · exact h.past (by rcases hp with hp | hp <;> rw [hp] <;> exact hr) hql hpc hw hst hd hs

/-- A CPU leaves the barrier. The first one calls `shutdown`. -/
lemma disabling_barrier (h : Disabling κ s) (hp : s.pc x = .barrier)
    (hw : ¬ s.waitingCpus < κ.cpus.card) :
    Disabling κ (if s.doCommonShutdown then
      { s.goto x .gone with shutdowns := s.shutdowns + 1, doCommonShutdown := false }
    else s.goto x .gone) := by
  have hx : (s.pc x).Left := by rw [hp]; trivial
  have hall : ∀ c ∈ κ.cpus, (s.pc c).Left := by
    refine tally_eq_card_iff.mp (le_antisymm (tally_le _ _ _) ?_)
    rw [← h.waiting]
    omega
  have hleft : ∀ y, (Function.update s.pc x .gone y).Left ↔ (s.pc y).Left := by
    intro y
    by_cases hyx : y = x
    · subst hyx
      rw [Function.update_self]
      exact iff_of_true trivial hx
    · rw [Function.update_of_ne hyx]
  have hclose := h.closing ⟨x, hx⟩
  have hquiet : ∀ y, ¬ (Function.update s.pc x .gone y).Past := by
    intro y
    by_cases hyx : y = x
    · subst hyx
      rw [Function.update_self]
      exact id
    · rw [Function.update_of_ne hyx]
      exact hclose.quiet y
  have htally : s.waitingCpus = tally κ.cpus Pc.Left (Function.update s.pc x .gone) := by
    rw [tally_update_of_iff (iff_of_true trivial hx)]
    exact h.waiting
  split_ifs with hdo
  · refine ⟨htally, fun y hy => h.member y ((hleft y).mp hy), fun _ => ⟨hclose.1, hquiet, hclose.3⟩,
      fun c _ _ => ⟨x, (hleft x).mpr hx⟩, .inr ⟨?_, rfl, fun c hc => (hleft c).mpr (hall c hc)⟩⟩
    rcases h.common with ⟨h0, -, -⟩ | ⟨-, hf, -⟩
    · simp [h0]
    · simp [hdo] at hf
  · refine ⟨htally, fun y hy => h.member y ((hleft y).mp hy), fun _ => ⟨hclose.1, hquiet, hclose.3⟩,
      fun c _ _ => ⟨x, (hleft x).mpr hx⟩, .inr ?_⟩
    rcases h.common with ⟨-, -, hd⟩ | ⟨h1, hf, -⟩
    · exact absurd (hd ⟨x, hx⟩) hdo
    · exact ⟨h1, hf, fun c hc => (hleft c).mpr (hall c hc)⟩

/-- A CPU enters the barrier, once all CPUs know. -/
lemma Disabling.enter (h : Disabling κ s) (hx : x ∈ κ.cpus) (hp : s.pc x = .guest)
    {st : ℕ → ShutdownState} (hcells : s.cells = []) (hquiet : ∀ y, ¬ (s.pc y).Past)
    (hst : ∀ c ∈ κ.cpus, st c = .started) :
    Disabling κ { s.goto x .barrier with
      shutdownState := st
      doCommonShutdown := true
      waitingCpus := s.waitingCpus + 1 } := by
  have hnl : ¬ (s.pc x).Left := by rw [hp]; exact id
  refine ⟨?_, fun y hy => ?_, fun _ => ⟨hcells, fun y => ?_, hst⟩, fun c _ _ => ⟨x, ?_⟩, ?_⟩
  · show s.waitingCpus + 1 = tally κ.cpus Pc.Left (Function.update s.pc x .barrier)
    rw [tally_update_enter hx hnl (show Pc.barrier.Left from trivial), h.waiting]
  · by_cases hyx : y = x
    · exact hyx ▸ hx
    · refine h.member y ?_
      simpa [Hv.goto, hyx] using hy
  · by_cases hyx : y = x
    · subst hyx
      simp [Hv.goto, Pc.Past]
    · simpa [Hv.goto, hyx] using hquiet y
  · simp [Hv.goto, Pc.Left]
  · rcases h.common with ⟨h0, hg, -⟩ | ⟨-, -, hall⟩
    · refine .inl ⟨h0, fun y => ?_, fun _ => rfl⟩
      by_cases hyx : y = x
      · subst hyx
        simp [Hv.goto]
      · simpa [Hv.goto, hyx] using hg y
    · exact absurd (hall x hx) hnl

/-- A CPU that is not let through has started nothing. -/
lemma started_of_decide (hx : x ∈ s.root) (hst : decideShutdown x s x ≠ .started)
    (hc : decideShutdown x s c = .started) : s.shutdownState c = .started := by
  unfold decideShutdown at hst hc
  by_cases hn : s.shutdownState x = .none
  · simp only [hn, if_true, hx] at hst hc
    by_cases h1 : s.numCells = 1
    · simp [h1] at hst
    · by_cases hcr : c ∈ s.root
      · simp [h1, hcr] at hc
      · simpa [hcr] using hc
  · simpa only [hn, if_false] using hc

lemma disabling_disable (hco : Core κ s) (hlay : Layout κ s) (h : Disabling κ s)
    (hc : ∀ y ∈ κ.cpus, ¬ (s.pc y).Past) (hx : x ∈ κ.cpus) (hp : s.pc x = .guest)
    (hcell : s.cell x = 0) : Disabling κ (hypervisorDisable x s) := by
  have hquiet : ∀ y, ¬ (s.pc y).Past := fun y hy => hc y (hco.manager y (.inl hy)).1 hy
  have hxr : x ∈ s.root := (hco.member x hx).mpr hcell
  unfold hypervisorDisable
  split_ifs with hst
  · by_cases hn : s.shutdownState x = .none
    · simp only [decideShutdown, hn, if_true, hxr] at hst ⊢
      have hnum : s.numCells = 1 := by
        by_contra hne
        simp [hne] at hst
      have hcells : s.cells = [] := by
        have := hlay.count
        exact List.length_eq_zero_iff.mp (by omega)
      refine h.enter hx hp hcells hquiet fun c hcc => ?_
      simp [hlay.mem_root hco hquiet hcells hcc, hnum]
    · simp only [decideShutdown, hn, if_false] at hst ⊢
      have hl := h.announced x hx hst
      have hclose := h.closing hl
      exact h.enter hx hp hclose.cells hquiet hclose.started
  · have hnl : ¬ ∃ y, (s.pc y).Left := by
      intro hl
      have hs := (h.closing hl).started x hx
      exact hst (by simp [decideShutdown, hs])
    refine ⟨h.waiting, h.member, fun hl => absurd hl hnl, fun c hcc hcs => ?_, ?_⟩
    · by_cases hcx : c = x
      · subst hcx
        simp at hcs
      · simp only [ne_eq, hcx, not_false_eq_true, Function.update_of_ne] at hcs
        exact h.announced c hcc (started_of_decide hxr hst hcs)
    · rcases h.common with ⟨h0, hg, -⟩ | ⟨-, -, hall⟩
      · exact .inl ⟨h0, hg, fun hl => absurd hl hnl⟩
      · exact absurd ⟨x, hall x hx⟩ hnl

lemma go_disabling (hco : Core κ s) (hlay : Layout κ s) (h : Disabling κ s)
    (ht : go κ x s = some t) : Disabling κ t := by
  unfold go at ht
  split at ht <;> rename_i hp
  case h_1 | h_2 => cases ht
  case h_3 =>
    split_ifs at ht
    obtain rfl := Option.some.inj ht
    exact h.other (by rw [hp]; exact id) id rfl rfl rfl rfl rfl fun _ => ⟨rfl, id⟩
  case h_4 =>
    obtain rfl := Option.some.inj ht
    split_ifs
    · exact h.other (by rw [hp]; exact id) id rfl rfl rfl rfl rfl fun _ => ⟨rfl, id⟩
    · exact h.other (by rw [hp]; exact id) id rfl rfl rfl rfl rfl fun _ => ⟨rfl, id⟩
  case h_5 l k =>
    obtain rfl := Option.some.inj ht
    exact disabling_testing hco hlay h hp
  case h_6 l k =>
    obtain rfl := Option.some.inj ht
    refine disabling_loop (q := if s.cpuSuspended k then .testing l (k + 1) else .awaiting l k)
      (k := if s.cpuSuspended k then k + 1 else k) h (.inl hp) ?_ rfl rfl rfl rfl rfl rfl
    split_ifs
    · exact .inl rfl
    · exact .inr rfl
  case h_7 l k =>
    split_ifs at ht
    obtain rfl := Option.some.inj ht
    exact disabling_loop h (.inr hp) (.inl rfl) rfl rfl rfl rfl rfl rfl
  case h_8 tk =>
    obtain ⟨q, ha, rfl⟩ := Option.map_eq_some_iff.mp ht
    refine h.past (by rw [hp]; trivial) ?_ rfl rfl rfl rfl rfl
    cases tk with
    | create id set =>
      simp only [accept] at ha
      split_ifs at ha
      obtain rfl := Option.some.inj ha
      exact fun hl => hl
    | start id | setLoadable id | destroy id =>
      obtain ⟨set, -, rfl⟩ := Option.map_eq_some_iff.mp ha
      exact fun hl => hl
  case h_9 tk set =>
    have hpp : (s.pc x).Past := by rw [hp]; trivial
    split at ht
    · cases ht
    all_goals
      obtain rfl := Option.some.inj ht
      refine h.past hpp ?_ rfl rfl rfl rfl rfl
      exact fun hl => hl
  case h_10 | h_13 | h_15 | h_17 =>
    have hpp : (s.pc x).Past := by rw [hp]; trivial
    obtain rfl := Option.some.inj ht
    split_ifs <;>
    · refine h.past hpp ?_ rfl rfl rfl rfl rfl
      exact fun hl => hl
  case h_11 | h_12 | h_14 | h_16 =>
    obtain rfl := Option.some.inj ht
    refine h.past (by rw [hp]; trivial) ?_ rfl rfl rfl rfl rfl
    exact fun hl => hl
  case h_18 =>
    split at ht
    · cases ht
    · obtain rfl := Option.some.inj ht
      exact disabling_barrier h hp ‹_›

lemma step_disabling {a : Act} (hco : Core κ s) (hlay : Layout κ s) (h : Disabling κ s)
    (hc : Serialised κ s a) (ht : step κ s a = some t) : Disabling κ t := by
  cases a with
  | check x =>
    simp only [step] at ht
    split_ifs at ht with hx
    obtain rfl := Option.some.inj ht
    exact h.other (by rw [hx.2]; exact id) id rfl rfl rfl rfl rfl fun _ => ⟨rfl, id⟩
  | manage x tk =>
    simp only [step] at ht
    split_ifs at ht with hx
    obtain rfl := Option.some.inj ht
    exact h.other (by rw [hx.2.1]; exact id) id rfl rfl rfl rfl rfl fun _ =>
      ⟨rfl, not_not.mpr trivial⟩
  | disable x =>
    simp only [step] at ht
    split_ifs at ht with hx
    obtain rfl := Option.some.inj ht
    exact disabling_disable hco hlay h hc hx.1 hx.2.1 hx.2.2
  | go x =>
    simp only [step] at ht
    split_ifs at ht
    exact go_disabling hco hlay h ht
  | refuse x =>
    simp only [step] at ht
    split_ifs at ht
    split at ht
    case h_1 hp | h_2 hp | h_3 hp =>
      obtain rfl := Option.some.inj ht
      refine h.past (by rw [hp]; trivial) ?_ rfl rfl rfl rfl rfl
      exact fun hl => hl
    case h_4 => cases ht
  | timeout x id =>
    simp only [step] at ht
    split_ifs at ht
    split at ht
    case h_1 hp hf | h_2 hp hf | h_3 hp hf =>
      split_ifs at ht
      obtain rfl := Option.some.inj ht
      refine h.past (by rw [hp]; trivial) ?_ rfl rfl rfl rfl rfl
      exact fun hl => hl
    case h_4 hp hf =>
      obtain rfl := Option.some.inj ht
      refine h.past (by rw [hp]; trivial) ?_ rfl rfl rfl rfl rfl
      exact fun hl => hl
    case h_5 => cases ht

lemma init_disabling (κ : Config) : Disabling κ (init κ) := by
  refine ⟨?_, ?_, ?_, ?_, .inl ⟨rfl, ?_, ?_⟩⟩
  · exact (tally_eq_zero_iff.mpr fun _ _ => id).symm
  · exact fun x hx => hx.elim
  · exact fun ⟨x, hx⟩ => hx.elim
  · exact fun c _ hc => by cases hc
  · exact fun x hx => by cases hx
  · exact fun ⟨x, hx⟩ => hx.elim

/-- **The hypervisor is shut down once and as a whole**: `shutdown` is called at most once, after all
CPUs have entered the barrier and before one leaves it. From the first CPU in the barrier on there is
only the root cell, with all CPUs, no hypercall changes that, and every CPU is let into the
barrier. -/
theorem shutdown_once {as : List Act} (hc : Along (step κ) (Serialised κ) (init κ) as)
    (he : exec (step κ) (init κ) as = some s) :
    s.shutdowns ≤ 1 ∧ (s.shutdowns = 1 → ∀ x ∈ κ.cpus, (s.pc x).Left) ∧
    (∀ x, s.pc x = .gone → s.shutdowns = 1) ∧
    ((∃ x, (s.pc x).Left) → s.cells = [] ∧ s.numCells = 1 ∧ s.root = κ.cpus ∧
      (∀ y, ¬ (s.pc y).Past) ∧ ∀ x ∈ κ.cpus, s.shutdownState x = .started) := by
  obtain ⟨⟨hco, hlay⟩, h⟩ : (Core κ s ∧ Layout κ s) ∧ Disabling κ s :=
    exec_inv_along (P := fun s => (Core κ s ∧ Layout κ s) ∧ Disabling κ s)
      (fun _ _ _ h hc ht => ⟨⟨step_core h.1.1 hc ht, step_layout h.1.1 h.1.2 ht⟩,
        step_disabling h.1.1 h.1.2 h.2 hc ht⟩)
      ⟨⟨init_core κ, init_layout κ⟩, init_disabling κ⟩ hc he
  refine ⟨?_, fun h1 => ?_, fun x hx => ?_, fun hl => ?_⟩
  · rcases h.common with ⟨h0, -⟩ | ⟨h1, -⟩ <;> omega
  · rcases h.common with ⟨h0, -⟩ | ⟨-, -, hall⟩
    · omega
    · exact hall
  · rcases h.common with ⟨-, hg, -⟩ | ⟨h1, -⟩
    · exact absurd hx (hg x)
    · exact h1
  · have hclose := h.closing hl
    refine ⟨hclose.cells, by rw [hlay.count, hclose.cells]; rfl, ?_, hclose.quiet, hclose.started⟩
    exact Finset.Subset.antisymm hco.subset fun c hcc => hlay.mem_root hco hclose.quiet hclose.cells hcc

/-- CPU 1 is about to create a cell when the others disable the hypervisor. -/
def disableRun : List Act :=
  [.manage 1 (.create 1 {2}), .go 1, .go 1, .disable 0, .disable 2]

theorem shutdown_once_disable :
    ∃ s, exec (step threeCpus) (init threeCpus) disableRun = some s ∧
      s.pc 1 = .awaiting (.root (.create 1 {2})) 0 ∧ s.numCells = 1 ∧ s.shutdownState 1 = .started := by
  have hrun := fun (s : Hv) (he : exec (step threeCpus) (init threeCpus) disableRun = some s) =>
    shutdown_once (by decide) he
  have hl := fun (s : Hv) he => ((hrun s he).2.2.2 ·)
  refine ⟨_, rfl, rfl, ?_, ?_⟩
  · exact (hl _ rfl ⟨0, trivial⟩).2.1
  · exact (hl _ rfl ⟨0, trivial⟩).2.2.2.2 1 (by decide)

end FpMemSched.Management
