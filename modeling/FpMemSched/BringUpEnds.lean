import FpMemSched.BringUp

/-!
How bringing up ends: all CPUs return the same value, and all of them return, if the driver calls
`entry` on all of them. Otherwise those that are in it spin.
-/

namespace FpMemSched.BringUp

open FpMemSched.Lib FpMemSched.Lib.Runs FpMemSched.Lib.Crews

variable {κ : Config} {s t : Boot} {i j : ℕ} {c : Local}

/-! ### Agreement -/

/-- Every initialisation routine ran once and without an error: `init_early` on one CPU, then
`cpu_init` on all of them, then `init_late` on the first one. -/
def SetUp (κ : Config) (s : Boot) : Prop :=
  ∃ m ∈ κ.cpus, ∃ order : List ℕ, order.Nodup ∧ (∀ i, i ∈ order ↔ i ∈ κ.cpus) ∧
    s.calls = ⟨m, .early, 0⟩ :: order.map (⟨·, .cpu, 0⟩) ++ [⟨m, .late, 0⟩]

/-- The last routine that ran was the only one to fail, with error `e`. -/
def Failed (s : Boot) (e : ℤ) : Prop :=
  e ≠ 0 ∧ ∃ cs c, s.calls = cs ++ [c] ∧ c.result = e ∧ ∀ d ∈ cs, d.result = 0

lemma Inv.setUp (h : Inv κ s) (ha : s.activate = true) : SetUp κ s := by
  obtain ⟨he, hn, m, hm, hmm, h14⟩ := h.activated ha
  have hnoty : ¬ Young κ s := fun hy => by
    have := hy.places m hm
    omega
  obtain ⟨m', order, hm', -, hnd, hmem, hcs⟩ := (h.history he).resolve_left hnoty
  obtain rfl : m = m' := Option.some.inj (((h.master m hm).mp hmm).symm.trans hm')
  rw [if_pos (by omega)] at hcs
  refine ⟨m, hm, order, hnd, fun i => (hmem i).trans ⟨And.left, fun hi => ⟨hi, ?_⟩⟩, hcs⟩
  have hall := h.complete he
  rw [hn] at hall
  exact tally_eq_card_iff.mp hall.symm i hi

lemma Inv.value (h : Inv κ s) (hi : i ∈ κ.cpus) {e : ℤ} (hv : (s.cpu i).pc.value = some e) :
    (s.error ≠ 0 ∧ e = s.error ∧ (s.cpu i).vmm = false) ∨
      (s.activate = true ∧ e = 0 ∧ (s.cpu i).vmm = true) := by
  have hs := h.sane i hi
  unfold Pc.value at hv
  split at hv <;> rename_i hp
  · exact Option.some.inj hv ▸ hs.returned _ hp
  · exact Option.some.inj hv ▸ (hs.reported _ hp).imp (fun h => ⟨h.1, h.2.1, h.2.2.2⟩) id
  · cases hv

/-- What every CPU returned, or will return: 0 only from a hypervisor that is set up. -/
lemma Inv.value_eq_error (h : Inv κ s) (hi : i ∈ κ.cpus) {e : ℤ}
    (hv : (s.cpu i).pc.value = some e) : e = s.error := by
  rcases h.value hi hv with ⟨-, he, -⟩ | ⟨ha, he, -⟩
  · exact he
  · exact he.trans (h.activated ha).1.symm

lemma Inv.not_vmm (h : Inv κ s) (he : s.error ≠ 0) (hi : i ∈ κ.cpus) : (s.cpu i).vmm = false := by
  have hs := h.sane i hi
  by_cases hr : (s.cpu i).pc.rank ≤ 16
  · exact hs.outside hr
  · have hv : ∃ e, (s.cpu i).pc.value = some e := by
      cases hp : (s.cpu i).pc <;> simp [hp, Pc.rank, Pc.value] at hr ⊢
    obtain ⟨e, hv⟩ := hv
    rcases h.value hi hv with ⟨-, -, hf⟩ | ⟨ha, -⟩
    · exact hf
    · exact absurd (h.activated ha).1 he

/-- The driver has seen what the CPUs returned. -/
lemma Inv.value_of_result (h : Inv κ s) {e : ℤ} (hr : s.result = some e) (hi : i ∈ κ.cpus) :
    (s.cpu i).pc.value = some e := by
  obtain ⟨hn, rfl⟩ := h.result e hr
  rw [h.reports] at hn
  have h18 := tally_eq_card_iff.mp hn i hi
  obtain ⟨f, hp⟩ : ∃ f, (s.cpu i).pc = .reported f := by
    cases hp : (s.cpu i).pc <;> simp [hp, Pc.rank] at h18 ⊢
  rw [hp]
  refine congrArg some ?_
  rcases (h.sane i hi).reported f hp with ⟨-, hf, hc, -⟩ | ⟨ha, hf, -⟩
  · exact hf.trans hc.symm
  · exact hf.trans (h.errorCode_of_error (h.activated ha).1).symm

/-- **All CPUs come to the same end**: `entry` returns 0 only where the CPU runs under a
hypervisor that all CPUs have set up, any error it returns is the first one and returned
everywhere, `shutdown` is called once at most, by the master and after an error, and the driver
concludes what the CPUs returned. -/
theorem entry_agrees (hκ : κ.Admitted) {as : List Act} (he : exec (step κ) init as = some s) :
    (∀ i ∈ κ.cpus, ∀ e, (s.cpu i).pc.value = some e →
      (e = 0 ∧ (s.cpu i).vmm = true ∧ SetUp κ s) ∨ ((s.cpu i).vmm = false ∧ Failed s e)) ∧
    (∀ i ∈ κ.cpus, ∀ j ∈ κ.cpus, ∀ e f, (s.cpu i).pc.value = some e →
      (s.cpu j).pc.value = some f → e = f) ∧
    (s.shutdowns = [] ∨ ∃ m ∈ κ.cpus, s.masterCpuId = some m ∧ (s.cpu m).master = true ∧
      s.shutdowns = [m] ∧ (∃ e, Failed s e) ∧ ∀ i ∈ κ.cpus, (s.cpu i).vmm = false) ∧
    ∀ e, s.result = some e → ∀ i ∈ κ.cpus, (s.cpu i).pc.value = some e := by
  have h := exec_inv_init hκ he
  refine ⟨fun i hi e hv => ?_, fun i hi j hj e f hv hw => ?_, ?_, fun e hr i hi =>
    h.value_of_result hr hi⟩
  · rcases h.value hi hv with ⟨hne, rfl, hf⟩ | ⟨ha, hz, ht⟩
    · exact .inr ⟨hf, hne, h.failure hne⟩
    · exact .inl ⟨hz, ht, h.setUp ha⟩
  · rw [h.value_eq_error hi hv, h.value_eq_error hj hw]
  · refine h.shutdown.imp id ?_
    rintro ⟨m, hm, hsd, hne, -⟩
    have hmem := h.member m hm
    exact ⟨m, hmem, hm, (h.master m hmem).mpr hm, hsd, ⟨_, hne, h.failure hne⟩,
      fun i hi => h.not_vmm hne hi⟩

/-- Two CPUs, of which the second one cannot be initialised. -/
def twoCpus : Config := ⟨{0, 1}, 8, 2⟩

lemma twoCpus_admitted : twoCpus.Admitted := (by decide : ∀ i ∈ ({0, 1} : Finset ℕ), i < 8)

def failingRun : List Act :=
  [.go 0, .go 0, .go 0, .go 1, .go 1, .go 1, .go 1, .go 0, .go 1, .go 1, .early 1 [0, 0, 0, 0],
    .cpuInit 1 true 0, .go 1, .go 0, .go 0, .cpuInit 0 true (-12), .go 1, .go 0, .go 1, .go 1, .go 1,
    .go 1, .go 0, .go 0]

theorem entry_agrees_failing :
    ∃ s, exec (step twoCpus) init failingRun = some s ∧ (s.cpu 1).pc = .restoring ∧
      s.shutdowns = [1] ∧ ∀ i ∈ twoCpus.cpus, (s.cpu i).vmm = false := by
  have hrun := fun (s : Boot) (he : exec (step twoCpus) init failingRun = some s) =>
    entry_agrees twoCpus_admitted he
  refine ⟨_, rfl, rfl, rfl, ?_⟩
  rcases (hrun _ rfl).2.2.1 with hs | ⟨m, -, -, -, -, -, hv⟩
  · cases hs
  · exact hv

/-! ### The end -/

/-- How far all CPUs and the driver are. -/
def progress (κ : Config) (s : Boot) : ℕ :=
  ∑ i ∈ κ.cpus, (s.cpu i).pc.rank + if s.result = none then 0 else 1

lemma go_rank (ht : go κ i s = some t) : ∃ c, t.cpu = Function.update s.cpu i c ∧
    (s.cpu i).pc.rank < c.pc.rank ∧ t.result = s.result := by
  unfold go at ht
  split at ht <;> rename_i ho
  all_goals
    try split_ifs at ht
  all_goals first
    | cases ht
      done
    | obtain rfl := Option.some.inj ht
      exact ⟨_, rfl, by simp [ho, Pc.rank], rfl⟩

lemma step_progress {a : Act} (ht : step κ s a = some t) : progress κ s < progress κ t := by
  have hmove : ∀ i c, i ∈ κ.cpus → t.cpu = Function.update s.cpu i c →
      (s.cpu i).pc.rank < c.pc.rank → t.result = s.result → progress κ s < progress κ t := by
    intro i c hi hcpu hr hres
    have := sum_update_lt (r := fun c : Local => c.pc.rank) hi hr
    simp only [progress, hcpu, hres]
    omega
  cases a with
  | go i =>
    simp only [step] at ht
    split_ifs at ht with hi
    obtain ⟨c, hcpu, hr, hres⟩ := go_rank ht
    exact hmove i c hi hcpu hr hres
  | early i rs =>
    simp only [step] at ht
    split_ifs at ht with hc
    obtain rfl := Option.some.inj ht
    exact hmove i _ hc.1 rfl (by simp [hc.2, Pc.rank]) rfl
  | cpuInit i valid r =>
    simp only [step] at ht
    split_ifs at ht with hc
    obtain rfl := Option.some.inj ht
    obtain ⟨err, heq⟩ := cpuInit_eq (s := s) (i := i) valid r
    rw [heq] at hmove ⊢
    exact hmove i _ hc.1 rfl (by simp [hc.2.1, Pc.rank]) rfl
  | late i rs =>
    simp only [step] at ht
    split_ifs at ht with hc
    obtain rfl := Option.some.inj ht
    exact hmove i _ hc.1 rfl (by simp [hc.2, Pc.rank]) rfl
  | conclude =>
    simp only [step] at ht
    split_ifs at ht with hc
    obtain rfl := Option.some.inj ht
    simp [progress, hc.2]

/-- Nothing can be done any more. -/
def Stuck (κ : Config) (s : Boot) : Prop := ∀ a, step κ s a = none

lemma Stuck.go_eq_none (hst : Stuck κ s) (hi : i ∈ κ.cpus) : go κ i s = none := by
  have := hst (.go i)
  rwa [step, if_pos hi] at this

/-- A CPU with the lock can go on. -/
lemma Stuck.initLock (hst : Stuck κ s) (h : Inv κ s) : s.initLock = none := by
  by_contra hne
  obtain ⟨i, hl⟩ := Option.ne_none_iff_exists'.mp hne
  obtain ⟨hi, hl⟩ := h.holder i hl
  have hgo := hst.go_eq_none hi
  have hearly := hst (.early i [])
  have hcpu := hst (.cpuInit i true 0)
  unfold go at hgo
  split at hgo <;> rename_i ho <;> simp only [ho, Pc.Locked] at hl
  · cases hgo
  · cases hgo
  · split_ifs at hgo
  · simp [step, hi, ho] at hearly
  · split_ifs at hgo with he
    simp [step, hi, ho, he] at hcpu
  · cases hgo

/-- Once nothing can be done, all CPUs spin on `activate` or have reported. -/
lemma Stuck.places (hst : Stuck κ s) (hκ : κ.Admitted) (h : Inv κ s) (hi : i ∈ κ.cpus) :
    ((s.cpu i).pc = .holding ∧ s.error = 0 ∧ s.activate = false) ∨
      ∃ e, (s.cpu i).pc = .reported e := by
  have hlock := hst.initLock h
  have hgather : ∀ j ∈ κ.cpus, 3 ≤ (s.cpu j).pc.rank := by
    intro j hj
    have hgo := hst.go_eq_none hj
    unfold go at hgo
    split at hgo <;> rename_i ho <;> simp [ho, Pc.rank, hlock, (hκ j hj).not_ge] at hgo ⊢
  have hentered : s.enteredCpus = κ.onlineCpus := by
    rw [h.entered]
    exact tally_eq_card_iff.mpr fun j hj => by
      have := hgather j hj
      omega
  have hwait : ∀ j ∈ κ.cpus, 8 ≤ (s.cpu j).pc.rank := by
    intro j hj
    have h3 := hgather j hj
    have hgo := hst.go_eq_none hj
    have hearly := hst (.early j [])
    have hcpu := hst (.cpuInit j true 0)
    unfold go at hgo
    split at hgo <;> rename_i ho <;> simp [ho, Pc.rank, hlock, hentered] at h3 hgo ⊢
    · split_ifs at hgo
    · simp [step, hj, ho] at hearly
    · simp [step, hj, ho, hgo] at hcpu
  have hn : s.error = 0 → s.initializedCpus = κ.onlineCpus := by
    intro he
    rw [h.complete he]
    exact tally_eq_card_iff.mpr hwait
  have h8 := hwait i hi
  have hgo := hst.go_eq_none hi
  have hlate := hst (.late i [])
  unfold go at hgo
  split at hgo <;> rename_i ho <;> simp only [ho, Pc.rank] at h8
  all_goals try omega
  · cases hgo
  · split_ifs at hgo with hc
    exact absurd (hn hc.1) hc.2.ne
  · cases hgo
  · simp [step, hi, ho] at hlate
  · cases hgo
  · split_ifs at hgo with hc
    exact .inl ⟨ho, hc⟩
  · cases hgo
  · cases hgo
  · cases hgo
  · cases hgo
  · exact .inr ⟨_, ho⟩

lemma Stuck.reported (hst : Stuck κ s) (hκ : κ.Admitted) (h : Inv κ s) (hi : i ∈ κ.cpus) :
    ∃ e, (s.cpu i).pc = .reported e := by
  rcases hst.places hκ h hi with ⟨ho, he, ha⟩ | hr
  · -- The master does not spin here, nor has it reported without `activate`.
    have hnoty : ¬ Young κ s := fun hy => by simpa [ho, Pc.rank] using hy.places i hi
    obtain ⟨m, hm⟩ := Option.ne_none_iff_exists'.mp fun hn => hnoty (h.young (.inl hn))
    have hmem := h.member m hm
    have hs := h.sane m hmem
    rcases hst.places hκ h hmem with ⟨hp, -, -⟩ | ⟨e, hp⟩
    · exact absurd he (hs.holding hp ((h.master m hmem).mpr hm))
    · rcases hs.reported e hp with ⟨hne, -⟩ | ⟨ht, -⟩
      · exact absurd he hne
      · simp [ha] at ht
  · exact hr

lemma progress_le (κ : Config) (s : Boot) : progress κ s ≤ 18 * κ.onlineCpus + 1 := by
  have hsum : ∑ i ∈ κ.cpus, (s.cpu i).pc.rank ≤ ∑ i ∈ κ.cpus, 18 := by
    refine Finset.sum_le_sum fun i _ => ?_
    cases (s.cpu i).pc <;> simp [Pc.rank]
  rw [Finset.sum_const_nat fun _ _ => rfl] at hsum
  unfold progress Config.onlineCpus
  split_ifs <;> omega

/-- Every CPU has reported one value, and the driver has seen it. -/
lemma Stuck.ended (hst : Stuck κ s) (hκ : κ.Admitted) (h : Inv κ s) :
    ∃ e, s.result = some e ∧ ∀ i ∈ κ.cpus, (s.cpu i).pc = .reported e := by
  have hall : ∀ i ∈ κ.cpus, ∃ e, (s.cpu i).pc = .reported e := fun i hi => hst.reported hκ h hi
  have hn : s.callDone = κ.onlineCpus := by
    rw [h.reports]
    refine tally_eq_card_iff.mpr fun i hi => ?_
    obtain ⟨e, hp⟩ := hall i hi
    simp [hp, Pc.rank]
  have hc := hst .conclude
  simp only [step, hn, true_and] at hc
  split_ifs at hc with hr
  obtain ⟨e, hr⟩ := Option.ne_none_iff_exists'.mp hr
  refine ⟨e, hr, fun i hi => ?_⟩
  obtain ⟨f, hp⟩ := hall i hi
  have hv := h.value_of_result hr hi
  rw [hp] at hv ⊢
  exact congrArg Pc.reported (Option.some.inj hv)

/-! ### CPUs that are kept out -/

/-- A CPU that is counted among those in `entry`. -/
def Pc.Entered (p : Pc) : Prop := p = .counted ∨ p = .gathering

instance : DecidablePred Pc.Entered := fun _ => inferInstanceAs (Decidable (_ ∨ _))

/-- What holds while a CPU is online that `entry` is not called on. -/
structure Barred (κ : Config) (s : Boot) : Prop where
  inside : ∀ i ∈ κ.cpus, i < κ.maxCpus → (s.cpu i).pc.rank ≤ 3
  outside : ∀ i ∈ κ.cpus, κ.maxCpus ≤ i → (s.cpu i).pc = .outside ∨
    (s.cpu i).pc = .returned (-EINVAL) ∨ (s.cpu i).pc = .reported (-EINVAL)
  holder : ∀ i, s.initLock = some i →
    i ∈ κ.cpus ∧ ((s.cpu i).pc = .counting ∨ (s.cpu i).pc = .counted)
  entered : s.enteredCpus = tally κ.cpus (fun c => c.pc.Entered) s.cpu
  reports : s.callDone = tally κ.cpus (fun c => 18 ≤ c.pc.rank) s.cpu
  result : (∃ i ∈ κ.cpus, i < κ.maxCpus) → s.result = none

lemma init_barred (κ : Config) : Barred κ init := by
  refine ⟨?_, ?_, ?_, (tally_eq_zero_iff.mpr ?_).symm, (tally_eq_zero_iff.mpr ?_).symm,
    fun _ => rfl⟩ <;>
    simp [init, Pc.rank, Pc.Entered]

/-- A CPU that is kept out is never counted. -/
lemma Barred.waits (h : Barred κ s) (hκ : ¬ κ.Admitted) : s.enteredCpus < κ.onlineCpus := by
  obtain ⟨i, hi, hmax⟩ : ∃ i ∈ κ.cpus, κ.maxCpus ≤ i := by simpa [Config.Admitted] using hκ
  refine lt_of_le_of_ne (h.entered ▸ tally_le _ _ _) fun heq => ?_
  have hall := tally_eq_card_iff.mp (h.entered.symm.trans heq) i hi
  rcases h.outside i hi hmax with hp | hp | hp <;> simp [hp, Pc.Entered] at hall

/-- CPU `i` goes to `p` on its way. -/
lemma Barred.goto (h : Barred κ s) (hi : i ∈ κ.cpus) {p : Pc}
    (hin : i < κ.maxCpus → p.rank ≤ 3)
    (hout : κ.maxCpus ≤ i → p = .outside ∨ p = .returned (-EINVAL) ∨ p = .reported (-EINVAL))
    (hcpu : t.cpu = (s.goto i p).cpu)
    (hlock : ∀ j, t.initLock = some j →
      j ∈ κ.cpus ∧ ((t.cpu j).pc = .counting ∨ (t.cpu j).pc = .counted))
    (hentered : t.enteredCpus = tally κ.cpus (fun c => c.pc.Entered) t.cpu)
    (hreports : t.callDone = tally κ.cpus (fun c => 18 ≤ c.pc.rank) t.cpu)
    (hresult : t.result = s.result) : Barred κ t := by
  refine ⟨fun j hj hmax => ?_, fun j hj hmax => ?_, hlock, hentered, hreports, fun hex => ?_⟩
  · by_cases hji : j = i
    · subst hji
      simpa [hcpu, Boot.goto] using hin hmax
    · simpa [hcpu, Boot.goto, hji] using h.inside j hj hmax
  · by_cases hji : j = i
    · subst hji
      simpa [hcpu, Boot.goto] using hout hmax
    · simpa [hcpu, Boot.goto, hji] using h.outside j hj hmax
  · rw [hresult]
    exact h.result hex

lemma Barred.lock (h : Barred κ s) {p : Pc}
    (hp : (s.cpu i).pc = .counting ∨ (s.cpu i).pc = .counted → p = .counting ∨ p = .counted) :
    ∀ j, s.initLock = some j →
      j ∈ κ.cpus ∧ (((s.goto i p).cpu j).pc = .counting ∨ ((s.goto i p).cpu j).pc = .counted) := by
  intro j hj
  obtain ⟨hm, hl⟩ := h.holder j hj
  refine ⟨hm, ?_⟩
  by_cases hji : j = i
  · subst hji
    simpa [Boot.goto] using hp hl
  · simpa [Boot.goto, hji] using hl

/-- A CPU inside comes to the loop over `entered_cpus` at most. -/
lemma go_barred_inside (hκ : ¬ κ.Admitted) (h : Barred κ s) (hi : i ∈ κ.cpus)
    (hmax : i < κ.maxCpus) (ht : go κ i s = some t) : Barred κ t := by
  have hr := h.inside i hi hmax
  have hout : ∀ p : Pc, κ.maxCpus ≤ i → p = .outside ∨ p = .returned (-EINVAL) ∨
      p = .reported (-EINVAL) := fun _ hge => absurd hmax hge.not_gt
  have hsame : ∀ p : Pc, p.rank ≤ 3 →
      tally κ.cpus (fun c => 18 ≤ c.pc.rank) (s.goto i p).cpu =
        tally κ.cpus (fun c => 18 ≤ c.pc.rank) s.cpu :=
    fun p hp => tally_update_of_iff (by simp only; omega)
  unfold go at ht
  split at ht <;> rename_i ho <;> simp only [ho, Pc.rank] at hr
  case h_1 =>
    rw [if_neg hmax.not_ge] at ht
    split_ifs at ht with hn
    obtain rfl := Option.some.inj ht
    refine h.goto hi (p := .counting) (fun _ => by decide) (hout _) rfl (fun j hj => ?_) ?_ ?_ rfl
    · obtain rfl := Option.some.inj hj
      exact ⟨hi, .inl (by simp [Boot.goto])⟩
    · exact h.entered.trans (tally_update_of_iff (by simp [ho, Pc.Entered])).symm
    · exact h.reports.trans (hsame .counting (by decide)).symm
  case h_2 =>
    obtain rfl := Option.some.inj ht
    refine h.goto hi (p := .counted) (fun _ => by decide) (hout _) rfl
      (h.lock fun _ => .inr rfl) ?_ ?_ rfl
    · have := tally_update_enter (P := fun c : Local => c.pc.Entered) (f := s.cpu)
        (b := { s.cpu i with pc := .counted }) hi (by simp [ho, Pc.Entered]) (.inl rfl)
      exact (congrArg (· + 1) h.entered).trans this.symm
    · exact h.reports.trans (hsame .counted (by decide)).symm
  case h_3 =>
    obtain rfl := Option.some.inj ht
    refine h.goto hi (p := .gathering) (fun _ => by decide) (hout _) rfl
      (fun j hj => by cases hj) ?_ ?_ rfl
    · exact h.entered.trans (tally_update_of_iff (by simp [ho, Pc.Entered])).symm
    · exact h.reports.trans (hsame .gathering (by decide)).symm
  case h_4 =>
    rw [if_pos (h.waits hκ)] at ht
    cases ht
  all_goals omega

/-- A CPU that is kept out reports to the driver. -/
lemma go_barred_outside (h : Barred κ s) (hi : i ∈ κ.cpus) (hmax : κ.maxCpus ≤ i)
    (ht : go κ i s = some t) : Barred κ t := by
  have hin : ∀ p : Pc, i < κ.maxCpus → p.rank ≤ 3 := fun _ hlt => absurd hlt hmax.not_gt
  rcases h.outside i hi hmax with hp | hp | hp
  · have hgo : go κ i s = some (s.goto i (.returned (-EINVAL))) := by simp [go, hp, hmax]
    obtain rfl := Option.some.inj (hgo.symm.trans ht)
    refine h.goto hi (hin _) (fun _ => .inr (.inl rfl)) rfl (h.lock (by simp [hp])) ?_ ?_ rfl
    · exact h.entered.trans (tally_update_of_iff (by simp [hp, Pc.Entered])).symm
    · exact h.reports.trans (tally_update_of_iff (by simp [hp, Pc.rank])).symm
  · have hgo : go κ i s = some { s.goto i (.reported (-EINVAL)) with
        errorCode := if -EINVAL = 0 then s.errorCode else -EINVAL
        callDone := s.callDone + 1 } := by simp [go, hp]
    obtain rfl := Option.some.inj (hgo.symm.trans ht)
    refine h.goto hi (p := .reported (-EINVAL)) (hin _) (fun _ => .inr (.inr rfl)) rfl
      (h.lock (by simp [hp])) ?_ ?_ rfl
    · exact h.entered.trans (tally_update_of_iff (by simp [hp, Pc.Entered])).symm
    · have := tally_update_enter (P := fun c : Local => 18 ≤ c.pc.rank) (f := s.cpu)
        (b := { s.cpu i with pc := .reported (-EINVAL) }) hi (by simp [hp, Pc.rank]) le_rfl
      exact (congrArg (· + 1) h.reports).trans this.symm
  · simp [go, hp] at ht

lemma step_barred (hκ : ¬ κ.Admitted) {a : Act} (h : Barred κ s) (ht : step κ s a = some t) :
    Barred κ t := by
  -- no CPU comes to an initialisation routine
  have hfar : ∀ i ∈ κ.cpus, (s.cpu i).pc ≠ .early ∧ (s.cpu i).pc ≠ .cpuInit ∧
      (s.cpu i).pc ≠ .late := by
    intro i hi
    rcases lt_or_ge i κ.maxCpus with hmax | hmax
    · have := h.inside i hi hmax
      refine ⟨?_, ?_, ?_⟩ <;> intro hp <;> simp [hp, Pc.rank] at this
    · rcases h.outside i hi hmax with hp | hp | hp <;> simp [hp]
  cases a with
  | go i =>
    simp only [step] at ht
    split_ifs at ht with hi
    rcases lt_or_ge i κ.maxCpus with hmax | hmax
    · exact go_barred_inside hκ h hi hmax ht
    · exact go_barred_outside h hi hmax ht
  | early i rs =>
    simp only [step] at ht
    split_ifs at ht with hc
    exact absurd hc.2 (hfar i hc.1).1
  | cpuInit i valid r =>
    simp only [step] at ht
    split_ifs at ht with hc
    exact absurd hc.2.1 (hfar i hc.1).2.1
  | late i rs =>
    simp only [step] at ht
    split_ifs at ht with hc
    exact absurd hc.2 (hfar i hc.1).2.2
  | conclude =>
    simp only [step] at ht
    split_ifs at ht with hc
    obtain rfl := Option.some.inj ht
    refine ⟨h.inside, h.outside, h.holder, h.entered, h.reports, ?_⟩
    rintro ⟨i, hi, hmax⟩
    have := h.inside i hi hmax
    have := tally_eq_card_iff.mp (h.reports.symm.trans hc.1) i hi
    omega

/-- Once nothing can be done, the CPUs inside spin on `entered_cpus`, and the driver waits. -/
lemma Stuck.spinning (hst : Stuck κ s) (h : Barred κ s) (hi : i ∈ κ.cpus)
    (hmax : i < κ.maxCpus) : (s.cpu i).pc = .gathering ∧ s.result = none := by
  have hlock : s.initLock = none := by
    by_contra hne
    obtain ⟨j, hj⟩ := Option.ne_none_iff_exists'.mp hne
    obtain ⟨hm, hp | hp⟩ := h.holder j hj <;> simpa [go, hp] using hst.go_eq_none hm
  refine ⟨?_, h.result ⟨i, hi, hmax⟩⟩
  have hr := h.inside i hi hmax
  have hgo := hst.go_eq_none hi
  unfold go at hgo
  split at hgo <;> rename_i ho <;> simp [ho, Pc.rank, hlock, hmax.not_ge] at hr hgo ⊢

lemma Stuck.kept_out (hst : Stuck κ s) (h : Barred κ s) (hi : i ∈ κ.cpus)
    (hmax : κ.maxCpus ≤ i) : (s.cpu i).pc = .reported (-EINVAL) := by
  have hgo := hst.go_eq_none hi
  rcases h.outside i hi hmax with hp | hp | hp
  · simp [go, hp, hmax] at hgo
  · simp [go, hp] at hgo
  · exact hp

/-- **Bringing up ends**, whatever the order of the steps: a run has a bounded number of steps, and
where no step is left all CPUs have reported one and the same value, which the driver has seen, if
it has called `entry` on all of them. If there is a CPU that it has not, this one has reported
`-EINVAL`, and those in `entry` spin and keep the driver waiting. -/
theorem entry_ends {as : List Act} (he : exec (step κ) init as = some s) :
    as.length ≤ 18 * κ.onlineCpus + 1 ∧
      (Stuck κ s → κ.Admitted →
        ∃ e, s.result = some e ∧ ∀ i ∈ κ.cpus, (s.cpu i).pc = .reported e) ∧
      (Stuck κ s → ¬ κ.Admitted → ∀ i ∈ κ.cpus,
        if i < κ.maxCpus then (s.cpu i).pc = .gathering ∧ s.result = none
        else (s.cpu i).pc = .reported (-EINVAL)) := by
  refine ⟨?_, fun hst hκ => hst.ended hκ (exec_inv_init hκ he), fun hst hκ i hi => ?_⟩
  · have := exec_length_le (μ := progress κ) (fun _ _ _ => step_progress) he
    have := progress_le κ s
    omega
  · have h : Barred κ s := exec_inv (fun _ _ _ => step_barred hκ) (init_barred κ) he
    split_ifs with hmax
    · exact hst.spinning h hi hmax
    · exact hst.kept_out h hi (Nat.le_of_not_lt hmax)

/-- Both CPUs are initialised, and CPU 1 sets up the system. -/
def wholeRun : List Act :=
  [.go 0, .go 0, .go 0, .go 1, .go 1, .go 1, .go 1, .go 0, .go 1, .go 1, .early 1 [0, 0, 0, 0],
    .cpuInit 1 true 0, .go 1, .go 0, .go 0, .cpuInit 0 true 0, .go 1, .go 0, .go 1, .go 0, .go 0,
    .late 1 [0, 0], .go 1, .go 0, .go 0, .go 1, .go 1, .go 0, .conclude]

theorem entry_ends_whole :
    ∃ s, exec (step twoCpus) init wholeRun = some s ∧ s.result = some 0 ∧
      wholeRun.length ≤ 18 * twoCpus.onlineCpus + 1 := by
  have hrun := fun (s : Boot) (he : exec (step twoCpus) init wholeRun = some s) => entry_ends he
  exact ⟨_, rfl, rfl, (hrun _ rfl).1⟩

end FpMemSched.BringUp
