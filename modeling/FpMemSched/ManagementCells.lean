import FpMemSched.Management

/-!
The cells and their CPU sets under management hypercalls: each CPU is in exactly one cell whenever
no hypercall is moving CPUs.
-/

namespace FpMemSched.Management

open FpMemSched.Lib FpMemSched.Lib.Runs FpMemSched.Lib.Crews

variable {κ : Config} {s t : Hv} {x y c k : ℕ} {p q : Pc} {id : ℕ} {set : Finset ℕ}

/-- The cell that a hypercall at `p` is moving CPUs for, with the CPUs it has now. -/
def Pc.changing : Pc → Option (ℕ × Finset ℕ)
  | .taking id set k | .moving id set k => some (id, set.filter (· < k))
  | .mapping id set => some (id, set)
  | .returning id set _ k | .handing id set _ k => some (id, set.filter (k ≤ ·))
  | _ => none

/-- The CPUs of a cell by the list. -/
def Hv.setOf (s : Hv) (id : ℕ) : Finset ℕ := (s.find id).getD ∅

/-- What a hypercall at `p` knows about the list of cells. -/
def Pc.Knows (s : Hv) : Pc → Prop
  | .testing (.target (.destroy id) set) _ | .locking (.target (.destroy id) set) _
  | .awaiting (.target (.destroy id) set) _ | .testing (.asked (.destroy id) set) _
  | .locking (.asked (.destroy id) set) _ | .awaiting (.asked (.destroy id) set) _
  | .working (.destroy id) set => id ≠ 0 ∧ s.find id = some set
  | .taking id set k | .moving id set k =>
    id ≠ 0 ∧ s.find id = none ∧ ∀ c ∈ set, k ≤ c → s.cell c = 0
  | .mapping id _ => id ≠ 0 ∧ s.find id = none
  | .returning id set listed _ | .handing id set listed _ =>
    id ≠ 0 ∧ s.find id = if listed then some set else none
  | _ => True

/-- The cells that nobody changes have the CPUs that the list says. -/
def Settled (κ : Config) (s : Hv) (P : ℕ → Prop) : Prop :=
  ∀ c ∈ κ.cpus, ∀ i ≠ 0, P i → (s.cell c = i ↔ c ∈ s.setOf i)

structure Layout (κ : Config) (s : Hv) : Prop where
  ids : (s.cells.map Prod.fst).Nodup
  nonzero : ∀ e ∈ s.cells, e.1 ≠ 0
  count : s.numCells = s.cells.length + 1
  settled : (∀ x, (s.pc x).changing = none) → Settled κ s fun _ => True
  moved : ∀ x id set, (s.pc x).changing = some (id, set) →
    (∀ c ∈ κ.cpus, s.cell c = id ↔ c ∈ set) ∧ Settled κ s (· ≠ id)
  knows : ∀ x, (s.pc x).Knows s

lemma Pc.past_of_changing (h : p.changing ≠ none) : p.Past := by
  cases p <;> simp_all [Pc.changing, Pc.Past]

/-- Only one hypercall knows anything or moves CPUs. -/
lemma Pc.knows_of_not_past (h : ¬ p.Past) : p.Knows s := by
  cases p <;> simp_all [Pc.Past, Pc.Knows]
  all_goals
    rename_i l _
    cases l <;> simp_all [Loop.Root]

lemma find_cons (e : ℕ × Finset ℕ) (l : List (ℕ × Finset ℕ)) :
    ((e :: l).find? (·.1 = id)) = if e.1 = id then some e else l.find? (·.1 = id) := by
  rw [List.find?_cons]
  by_cases he : e.1 = id <;> simp [he]

lemma Hv.find_eq_some (hn : (s.cells.map Prod.fst).Nodup) :
    s.find id = some set ↔ (id, set) ∈ s.cells := by
  unfold Hv.find
  generalize s.cells = l at hn
  induction l with
  | nil => simp
  | cons e l ih =>
    rw [List.map_cons, List.nodup_cons] at hn
    rw [find_cons, List.mem_cons]
    split_ifs with he
    · obtain ⟨i, S⟩ := e
      obtain rfl : i = id := he
      have hnot : (i, set) ∉ l := fun hm => hn.1 (List.mem_map.mpr ⟨_, hm, rfl⟩)
      simp [hnot, eq_comm]
    · rw [ih hn.2]
      constructor
      · exact .inr
      · rintro (rfl | hm)
        · exact absurd rfl he
        · exact hm

lemma Hv.find_eq_none : s.find id = none ↔ id ∉ s.cells.map Prod.fst := by
  simp only [Hv.find, Option.map_eq_none_iff, List.find?_eq_none, List.mem_map, decide_eq_true_eq,
    not_exists, not_and]

lemma Hv.find_append (hn : s.find id = none) (ht : t.cells = s.cells ++ [(id, set)]) (i : ℕ) :
    t.find i = if i = id then some set else s.find i := by
  unfold Hv.find at hn ⊢
  rw [ht, List.find?_append]
  split_ifs with hi
  · subst hi
    rw [Option.map_eq_none_iff] at hn
    simp [hn]
  · have hid : ¬ id = i := fun h => hi h.symm
    simp [hid]

lemma Hv.find_filter (ht : t.cells = s.cells.filter (·.1 ≠ id)) (i : ℕ) :
    t.find i = if i = id then none else s.find i := by
  unfold Hv.find
  rw [ht, List.find?_filter]
  split_ifs with hi
  · subst hi
    simp
  · congr 2
    funext e
    by_cases he : e.1 = i
    · simp [he, hi]
    · simp [he]

lemma length_filter_ne {l : List (ℕ × Finset ℕ)} (hn : (l.map Prod.fst).Nodup)
    (hm : (id, set) ∈ l) : (l.filter (·.1 ≠ id)).length + 1 = l.length := by
  induction l with
  | nil => cases hm
  | cons e l ih =>
    rw [List.map_cons, List.nodup_cons] at hn
    by_cases he : e.1 = id
    · have hall : l.filter (·.1 ≠ id) = l := by
        refine List.filter_eq_self.mpr fun d hd => ?_
        have : d.1 ≠ id := fun hdi => hn.1 (List.mem_map.mpr ⟨d, hd, hdi.trans he.symm⟩)
        simpa using this
      rw [List.filter_cons_of_neg (by simpa using he), hall, List.length_cons]
    · have hml := (List.mem_cons.mp hm).resolve_left fun h => he (by rw [← h])
      rw [List.filter_cons_of_pos (by simpa using he), List.length_cons, List.length_cons, ih hn.2 hml]

lemma Hv.find_congr (ht : t.cells = s.cells) (i : ℕ) : t.find i = s.find i := by
  unfold Hv.find
  rw [ht]

lemma Hv.setOf_congr (ht : t.cells = s.cells) (i : ℕ) : t.setOf i = s.setOf i := by
  unfold Hv.setOf
  rw [Hv.find_congr ht]

lemma Pc.Knows.congr (h : p.Knows s) (hcells : t.cells = s.cells) (hcell : t.cell = s.cell) :
    p.Knows t := by
  unfold Pc.Knows at h ⊢
  split <;> simp_all [Hv.find_congr hcells]

/-! ### Steps -/

/-- Only the hypercall that takes the step matters. -/
lemma Core.layout_next (hco : Core κ s) (hp : (s.pc x).Past)
    (hpc : t.pc = Function.update s.pc x q) (ids : (t.cells.map Prod.fst).Nodup)
    (nonzero : ∀ e ∈ t.cells, e.1 ≠ 0) (count : t.numCells = t.cells.length + 1)
    (settled : q.changing = none → Settled κ t fun _ => True)
    (moved : ∀ id set, q.changing = some (id, set) →
      (∀ c ∈ κ.cpus, t.cell c = id ↔ c ∈ set) ∧ Settled κ t (· ≠ id))
    (knows : q.Knows t) : Layout κ t := by
  have hpx : t.pc x = q := by rw [hpc, Function.update_self]
  have hother : ∀ y, y ≠ x → ¬ (t.pc y).Past := by
    intro y hy hyp
    rw [hpc, Function.update_of_ne hy] at hyp
    exact hy (hco.alone x y hp (.inl hyp))
  refine ⟨ids, nonzero, count, fun hn => settled (hpx ▸ hn x), fun y id set hy => ?_, fun y => ?_⟩
  · by_cases hyx : y = x
    · subst hyx
      exact moved id set (hpx ▸ hy)
    · exact absurd (Pc.past_of_changing (by simp [hy])) (hother y hyx)
  · by_cases hyx : y = x
    · subst hyx
      rw [hpx]
      exact knows
    · exact Pc.knows_of_not_past (hother y hyx)

/-- A step of a hypercall that changes no cell. -/
lemma Layout.goto (hco : Core κ s) (hl : Layout κ s) (hp : (s.pc x).Past)
    (hpc : t.pc = Function.update s.pc x q) (hcells : t.cells = s.cells) (hcell : t.cell = s.cell)
    (hnum : t.numCells = s.numCells) (hch : q.changing = (s.pc x).changing) (hk : q.Knows s) :
    Layout κ t := by
  have hset : ∀ P, Settled κ s P → Settled κ t P := by
    intro P h c hc i hi hP
    rw [hcell, Hv.setOf_congr hcells]
    exact h c hc i hi hP
  refine hco.layout_next hp hpc (hcells ▸ hl.ids) (hcells ▸ hl.nonzero) (by rw [hnum, hcells]; exact hl.count)
    (fun hq => hset _ (hl.settled fun y => ?_)) (fun id set hq => ?_) (hk.congr hcells hcell)
  · by_cases hyx : y = x
    · subst hyx
      rw [← hch, hq]
    · by_contra hne
      exact hyx (hco.alone x y hp (.inl (Pc.past_of_changing hne)))
  · obtain ⟨hs, ho⟩ := hl.moved x id set (hch ▸ hq)
    exact ⟨fun c hc => by rw [hcell]; exact hs c hc, hset _ ho⟩

/-- A step of a CPU that is not past the loop over the root cell. -/
lemma Layout.other (hl : Layout κ s) (hp : ¬ (s.pc x).Past)
    (hpc : t.pc = Function.update s.pc x q) (hcells : t.cells = s.cells) (hcell : t.cell = s.cell)
    (hnum : t.numCells = s.numCells) (hq : q.changing = none) (hk : q.Knows s) : Layout κ t := by
  have hset : ∀ P, Settled κ s P → Settled κ t P := by
    intro P h c hc i hi hP
    rw [hcell, Hv.setOf_congr hcells]
    exact h c hc i hi hP
  have hch : ∀ y, (t.pc y).changing = (s.pc y).changing := by
    intro y
    rw [hpc]
    by_cases hyx : y = x
    · subst hyx
      rw [Function.update_self, hq]
      by_contra hne
      exact hp (Pc.past_of_changing (Ne.symm hne))
    · rw [Function.update_of_ne hyx]
  refine ⟨hcells ▸ hl.ids, hcells ▸ hl.nonzero, by rw [hnum, hcells]; exact hl.count,
    fun hn => hset _ (hl.settled fun y => hch y ▸ hn y), fun y id set hy => ?_, fun y => ?_⟩
  · obtain ⟨hs, ho⟩ := hl.moved y id set (hch y ▸ hy)
    exact ⟨fun c hc => by rw [hcell]; exact hs c hc, hset _ ho⟩
  · rw [hpc]
    by_cases hyx : y = x
    · subst hyx
      rw [Function.update_self]
      exact hk.congr hcells hcell
    · rw [Function.update_of_ne hyx]
      exact (hl.knows y).congr hcells hcell

/-- No other hypercall moves CPUs. -/
lemma Layout.settled_of (hco : Core κ s) (hl : Layout κ s) (hp : (s.pc x).Past)
    (hch : (s.pc x).changing = none) : Settled κ s fun _ => True := by
  refine hl.settled fun y => ?_
  by_cases hyx : y = x
  · subst hyx
    exact hch
  · by_contra hne
    exact hyx (hco.alone x y hp (.inl (Pc.past_of_changing hne)))

lemma Pc.Knows.loop {l : Loop} {k' : ℕ} (hp : p = .testing l k' ∨ p = .locking l k' ∨
      p = .awaiting l k') (hq : q = .testing l k ∨ q = .locking l k ∨ q = .awaiting l k)
    (h : p.Knows s) : q.Knows s := by
  cases l with
  | root t | stopped _ _ => rcases hq with rfl | rfl | rfl <;> trivial
  | asked t set | target t set =>
    cases t <;> rcases hp with rfl | rfl | rfl <;> rcases hq with rfl | rfl | rfl <;> trivial

lemma layout_loop {l : Loop} {k' : ℕ} (hco : Core κ s) (hl : Layout κ s)
    (hp : s.pc x = .testing l k' ∨ s.pc x = .locking l k' ∨ s.pc x = .awaiting l k')
    (hq : q = .testing l k ∨ q = .locking l k ∨ q = .awaiting l k)
    (hpc : t.pc = Function.update s.pc x q) (hcells : t.cells = s.cells) (hcell : t.cell = s.cell)
    (hnum : t.numCells = s.numCells) : Layout κ t := by
  have hk := (hl.knows x).loop hp hq
  have hch : q.changing = none := by rcases hq with rfl | rfl | rfl <;> rfl
  have hchp : (s.pc x).changing = none := by rcases hp with h | h | h <;> rw [h] <;> rfl
  by_cases hpp : (s.pc x).Past
  · exact hl.goto hco hpp hpc hcells hcell hnum (hch.trans hchp.symm) hk
  · exact hl.other hpp hpc hcells hcell hnum hch hk

lemma layout_testing {l : Loop} (hco : Core κ s) (hl : Layout κ s) (hp : s.pc x = .testing l k) :
    Layout κ (s.goto x (if k < κ.limit then
      if k ∈ l.members s ∧ k ≠ x then .locking l k else .testing l (k + 1)
    else l.next)) := by
  split_ifs
  · exact layout_loop hco hl (.inl hp) (.inr (.inl rfl)) rfl rfl rfl rfl
  · exact layout_loop hco hl (.inl hp) (.inl rfl) rfl rfl rfl rfl
  · have hk := hl.knows x
    rw [hp] at hk
    have hknows : l.next.Knows s := by
      cases l with
      | root t | stopped _ _ => trivial
      | asked t set | target t set => cases t <;> trivial
    have hch : l.next.changing = none := by cases l <;> rfl
    by_cases hr : l.Root
    · exact hl.other (by rw [hp]; exact not_not.mpr hr) rfl rfl rfl rfl hch hknows
    · exact hl.goto hco (by rw [hp]; exact hr) rfl rfl rfl rfl (by rw [hch, hp]; rfl) hknows

lemma layout_checking {t : Task} (hco : Core κ s) (hl : Layout κ s) (hp : s.pc x = .checking t)
    (ha : accept κ x s t = some q) : Layout κ (s.goto x q) := by
  have hpp : (s.pc x).Past := by rw [hp]; trivial
  have hset := hl.settled_of hco hpp (by rw [hp]; rfl)
  cases t with
  | create id set =>
    simp only [accept] at ha
    split_ifs at ha with hc
    obtain rfl := Option.some.inj ha
    refine hco.layout_next hpp rfl hl.ids hl.nonzero hl.count (by simp [Pc.changing])
      (fun i S hi => ?_) ⟨hc.2.2.2.1, hc.2.2.2.2, fun c hcs _ => ?_⟩
    · simp only [Pc.changing, Option.some.injEq, Prod.mk.injEq] at hi
      obtain ⟨rfl, rfl⟩ := hi
      refine ⟨fun c hcc => ?_, fun c hcc i hi _ => hset c hcc i hi trivial⟩
      have := hset c hcc id hc.2.2.2.1 trivial
      simp only [Hv.setOf, hc.2.2.2.2, Option.getD_none, Finset.notMem_empty, iff_false] at this
      show s.cell c = id ↔ _
      simpa using this
    · exact (hco.member c (hc.2.2.1 hcs)).mp (hc.2.1 hcs)
  | start id | setLoadable id =>
    obtain ⟨set, -, rfl⟩ := Option.map_eq_some_iff.mp ha
    exact hl.goto hco hpp rfl rfl rfl rfl (by rw [hp]; rfl) trivial
  | destroy id =>
    obtain ⟨set, hf, rfl⟩ := Option.map_eq_some_iff.mp ha
    refine hl.goto hco hpp rfl rfl rfl rfl (by rw [hp]; rfl) ⟨?_, hf⟩
    exact hl.nonzero _ ((Hv.find_eq_some hl.ids).mp hf)

lemma filter_lt_succ (hks : k ∈ set) (c : ℕ) :
    c ∈ set.filter (· < k + 1) ↔ c = k ∨ c ∈ set.filter (· < k) := by
  simp only [Finset.mem_filter]
  constructor
  · rintro ⟨hc, hlt⟩
    by_cases hck : c = k
    · exact .inl hck
    · exact .inr ⟨hc, by omega⟩
  · rintro (rfl | ⟨hc, hlt⟩)
    · exact ⟨hks, by omega⟩
    · exact ⟨hc, by omega⟩

/-- A CPU that is not in the set makes no difference. -/
lemma filter_skip (hks : k ∉ set) : set.filter (· < k + 1) = set.filter (· < k) ∧
    set.filter (k + 1 ≤ ·) = set.filter (k ≤ ·) := by
  constructor <;>
  · refine Finset.filter_congr fun c hc => ?_
    have hck : c ≠ k := by
      rintro rfl
      exact hks hc
    omega

/-- The loops end where all CPUs are done. -/
lemma filter_limit (hset : set ⊆ κ.cpus) (hk : ¬ k < κ.limit) :
    set.filter (· < k) = set ∧ set.filter (k ≤ ·) = ∅ := by
  constructor
  · refine Finset.filter_true_of_mem fun c hc => ?_
    have := κ.lt_limit c (hset hc)
    omega
  · refine Finset.filter_false_of_mem fun c hc => ?_
    have := κ.lt_limit c (hset hc)
    omega

lemma layout_moving (hco : Core κ s) (hl : Layout κ s) (hp : s.pc x = .moving id set k) :
    Layout κ { s.goto x (.taking id set (k + 1)) with
      root := s.root.erase k
      cell := Function.update s.cell k id } := by
  have hpp : (s.pc x).Past := by rw [hp]; trivial
  have hk := hl.knows x
  rw [hp] at hk
  have hsound := (hco.keeps x (.inl hpp)).sound
  rw [hp] at hsound
  have hks := hsound.2.2.2
  obtain ⟨hs, ho⟩ := hl.moved x id _ (by rw [hp]; rfl)
  refine hco.layout_next hpp rfl hl.ids hl.nonzero hl.count (by simp [Pc.changing])
    (fun i S hi => ?_) ⟨hk.1, hk.2.1, fun c hc hkc => ?_⟩
  · simp only [Pc.changing, Option.some.injEq, Prod.mk.injEq] at hi
    obtain ⟨rfl, rfl⟩ := hi
    refine ⟨fun c hc => ?_, fun c hc i hi hne => ?_⟩
    · rw [filter_lt_succ hks]
      by_cases hck : c = k
      · subst hck
        simp
      · simpa [hck] using hs c hc
    · have hold := ho c hc i hi hne
      by_cases hck : c = k
      · -- The CPU was in the root cell, so in none of the others.
        subst hck
        rw [hk.2.2 c hks le_rfl] at hold
        simp only [Function.update_self]
        exact iff_of_false (Ne.symm hne) fun hm => hi (hold.mpr hm).symm
      · show Function.update s.cell k id c = i ↔ c ∈ s.setOf i
        rw [Function.update_of_ne hck]
        exact hold
  · have hck : c ≠ k := by omega
    simpa [hck] using hk.2.2 c hc (by omega)

lemma layout_handing {listed : Bool} (hco : Core κ s) (hl : Layout κ s)
    (hp : s.pc x = .handing id set listed k) :
    Layout κ { s.goto x (.returning id set listed (k + 1)) with
      root := insert k s.root
      cell := Function.update s.cell k 0 } := by
  have hpp : (s.pc x).Past := by rw [hp]; trivial
  have hk := hl.knows x
  rw [hp] at hk
  have hsound := (hco.keeps x (.inl hpp)).sound
  rw [hp] at hsound
  obtain ⟨hs, ho⟩ := hl.moved x id _ (by rw [hp]; rfl)
  refine hco.layout_next hpp rfl hl.ids hl.nonzero hl.count (by simp [Pc.changing])
    (fun i S hi => ?_) hk
  simp only [Pc.changing, Option.some.injEq, Prod.mk.injEq] at hi
  obtain ⟨rfl, rfl⟩ := hi
  have hcell : s.cell k = id :=
    (hs k (hsound.1 hsound.2)).mpr (Finset.mem_filter.mpr ⟨hsound.2, le_rfl⟩)
  refine ⟨fun c hc => ?_, fun c hc i hi hne => ?_⟩
  · by_cases hck : c = k
    · subst hck
      simp [Ne.symm hk.1]
    · have hold := hs c hc
      simp only [Finset.mem_filter] at hold ⊢
      simp only [ne_eq, hck, not_false_eq_true, Function.update_of_ne, hold]
      exact and_congr_right fun _ => by omega
  · have hold := ho c hc i hi hne
    by_cases hck : c = k
    · subst hck
      rw [hcell] at hold
      simp only [Function.update_self]
      exact iff_of_false (Ne.symm hi) fun hm => hne (hold.mpr hm).symm
    · show Function.update s.cell k 0 c = i ↔ c ∈ s.setOf i
      rw [Function.update_of_ne hck]
      exact hold

/-- The new cell enters the list. -/
lemma layout_mapping (hco : Core κ s) (hl : Layout κ s) (hp : s.pc x = .mapping id set)
    {back : Finset ℕ} :
    Layout κ { s.goto x (.completing back) with
      cells := s.cells ++ [(id, set)]
      numCells := s.numCells + 1 } := by
  have hpp : (s.pc x).Past := by rw [hp]; trivial
  have hk := hl.knows x
  rw [hp] at hk
  obtain ⟨hs, ho⟩ := hl.moved x id _ (by rw [hp]; rfl)
  have hnew : id ∉ s.cells.map Prod.fst := Hv.find_eq_none.mp hk.2
  refine hco.layout_next hpp rfl ?_ (fun e he => ?_) ?_ (fun _ => fun c hc i hi _ => ?_)
    (by simp [Pc.changing]) trivial
  · simp only [List.map_append, List.map_cons, List.map_nil]
    refine List.nodup_append.mpr ⟨hl.ids, List.nodup_singleton _, fun a ha b hb => ?_⟩
    rw [List.mem_singleton.mp hb]
    rintro rfl
    exact hnew ha
  · rcases List.mem_append.mp he with he | he
    · exact hl.nonzero e he
    · rw [List.mem_singleton.mp he]
      exact hk.1
  · simp [hl.count]
  · rw [Hv.setOf, Hv.find_append hk.2 rfl]
    split_ifs with hid
    · subst hid
      exact hs c hc
    · exact ho c hc i hi hid

/-- A cell without CPUs leaves the list. -/
lemma layout_unlist (hco : Core κ s) (hl : Layout κ s) (hp : s.pc x = .returning id set true k)
    (hlim : ¬ k < κ.limit) {back : Finset ℕ} :
    Layout κ { s.goto x (.completing back) with
      cells := s.cells.filter (·.1 ≠ id)
      numCells := s.numCells - 1 } := by
  have hpp : (s.pc x).Past := by rw [hp]; trivial
  have hk := hl.knows x
  rw [hp] at hk
  have hsound := (hco.keeps x (.inl hpp)).sound
  rw [hp] at hsound
  obtain ⟨hs, ho⟩ := hl.moved x id _ (by rw [hp]; rfl)
  rw [(filter_limit hsound hlim).2] at hs
  have hmem : (id, set) ∈ s.cells := (Hv.find_eq_some hl.ids).mp hk.2
  refine hco.layout_next hpp rfl ?_ (fun e he => hl.nonzero e (List.mem_of_mem_filter he)) ?_
    (fun _ => fun c hc i hi _ => ?_) (by simp [Pc.changing]) trivial
  · exact hl.ids.sublist (List.Sublist.map _ List.filter_sublist)
  · have hlen := length_filter_ne hl.ids hmem
    simp only [hl.count]
    omega
  · rw [Hv.setOf, Hv.find_filter rfl]
    split_ifs with hid
    · subst hid
      exact hs c hc
    · exact ho c hc i hi hid

lemma go_layout (hco : Core κ s) (hl : Layout κ s) (ht : go κ x s = some t) : Layout κ t := by
  have hk := hl.knows x
  unfold go at ht
  split at ht <;> rename_i hp <;> rw [hp] at hk
  case h_1 | h_2 => cases ht
  case h_3 =>
    split_ifs at ht
    obtain rfl := Option.some.inj ht
    exact hl.other (by rw [hp]; exact id) rfl rfl rfl rfl rfl trivial
  case h_4 =>
    obtain rfl := Option.some.inj ht
    split_ifs
    · exact hl.other (by rw [hp]; exact id) rfl rfl rfl rfl rfl trivial
    · exact hl.other (by rw [hp]; exact id) rfl rfl rfl rfl rfl trivial
  case h_5 l k =>
    obtain rfl := Option.some.inj ht
    exact layout_testing hco hl hp
  case h_6 l k =>
    obtain rfl := Option.some.inj ht
    refine layout_loop (q := if s.cpuSuspended k then .testing l (k + 1) else .awaiting l k)
      (k := if s.cpuSuspended k then k + 1 else k) hco hl (.inr (.inl hp)) ?_ rfl rfl rfl rfl
    split_ifs
    · exact .inl rfl
    · exact .inr (.inr rfl)
  case h_7 l k =>
    split_ifs at ht
    obtain rfl := Option.some.inj ht
    exact layout_loop hco hl (.inr (.inr hp)) (.inl rfl) rfl rfl rfl rfl
  case h_8 tk =>
    obtain ⟨q, ha, rfl⟩ := Option.map_eq_some_iff.mp ht
    exact layout_checking hco hl hp ha
  case h_9 tk set =>
    have hpp : (s.pc x).Past := by rw [hp]; trivial
    have hset := hl.settled_of hco hpp (by rw [hp]; rfl)
    split at ht
    · cases ht
    · obtain rfl := Option.some.inj ht
      exact hl.goto hco hpp rfl rfl rfl rfl (by rw [hp]; rfl) trivial
    · obtain rfl := Option.some.inj ht
      exact hl.goto hco hpp rfl rfl rfl rfl (by rw [hp]; rfl) trivial
    · rename_i id
      obtain rfl := Option.some.inj ht
      refine hco.layout_next hpp rfl hl.ids hl.nonzero hl.count (by simp [Pc.changing])
        (fun i S hi => ?_) hk
      simp only [Pc.changing, Option.some.injEq, Prod.mk.injEq] at hi
      obtain ⟨rfl, rfl⟩ := hi
      refine ⟨fun c hc => ?_, fun c hc i hi _ => hset c hc i hi trivial⟩
      have := hset c hc id hk.1 trivial
      simp only [Hv.setOf, hk.2, Option.getD_some] at this
      show s.cell c = id ↔ _
      simpa using this
  case h_10 id set k =>
    obtain rfl := Option.some.inj ht
    have hpp : (s.pc x).Past := by rw [hp]; trivial
    have hsound := (hco.keeps x (.inl hpp)).sound
    rw [hp] at hsound
    split_ifs with hlt hks
    · exact hl.goto hco hpp rfl rfl rfl rfl (by rw [hp]; rfl) hk
    · refine hl.goto hco hpp rfl rfl rfl rfl ?_ ⟨hk.1, hk.2.1, fun c hc hkc => hk.2.2 c hc (by omega)⟩
      rw [hp, Pc.changing, Pc.changing, (filter_skip hks).1]
    · refine hl.goto hco hpp rfl rfl rfl rfl ?_ ⟨hk.1, hk.2.1⟩
      rw [hp, Pc.changing, Pc.changing, (filter_limit hsound.2.2 hlt).1]
  case h_11 id set k =>
    obtain rfl := Option.some.inj ht
    exact layout_moving hco hl hp
  case h_12 id set =>
    obtain rfl := Option.some.inj ht
    exact layout_mapping hco hl hp
  case h_13 id set listed k =>
    obtain rfl := Option.some.inj ht
    have hpp : (s.pc x).Past := by rw [hp]; trivial
    have hsound := (hco.keeps x (.inl hpp)).sound
    rw [hp] at hsound
    split_ifs with hlt hks hlisted
    · exact hl.goto hco hpp rfl rfl rfl rfl (by rw [hp]; rfl) hk
    · refine hl.goto hco hpp rfl rfl rfl rfl ?_ hk
      rw [hp, Pc.changing, Pc.changing, (filter_skip hks).2]
    · subst hlisted
      exact layout_unlist hco hl hp hlt
    · have hnone : s.find id = none := by simpa [hlisted] using hk.2
      obtain ⟨hs, ho⟩ := hl.moved x id _ (by rw [hp]; rfl)
      rw [(filter_limit hsound hlt).2] at hs
      refine hco.layout_next hpp rfl hl.ids hl.nonzero hl.count (fun _ => fun c hc i hi _ => ?_)
        (by simp [Pc.changing]) trivial
      by_cases hid : i = id
      · subst hid
        show s.cell c = i ↔ c ∈ s.setOf i
        rw [Hv.setOf, hnone]
        exact hs c hc
      · exact ho c hc i hi hid
  case h_14 id set listed k =>
    obtain rfl := Option.some.inj ht
    exact layout_handing hco hl hp
  case h_15 set k =>
    obtain rfl := Option.some.inj ht
    have hpp : (s.pc x).Past := by rw [hp]; trivial
    split_ifs <;> exact hl.goto hco hpp rfl rfl rfl rfl (by rw [hp]; rfl) trivial
  case h_16 back =>
    obtain rfl := Option.some.inj ht
    exact hl.goto hco (by rw [hp]; trivial) rfl rfl rfl rfl (by rw [hp]; rfl) trivial
  case h_17 back k =>
    obtain rfl := Option.some.inj ht
    have hpp : (s.pc x).Past := by rw [hp]; trivial
    split_ifs <;> exact hl.goto hco hpp rfl rfl rfl rfl (by rw [hp]; rfl) trivial
  case h_18 =>
    split_ifs at ht <;> obtain rfl := Option.some.inj ht
    · exact hl.other (by rw [hp]; exact id) rfl rfl rfl rfl rfl trivial
    · exact hl.other (by rw [hp]; exact id) rfl rfl rfl rfl rfl trivial

lemma step_layout {a : Act} (hco : Core κ s) (hl : Layout κ s) (ht : step κ s a = some t) :
    Layout κ t := by
  cases a with
  | check x =>
    simp only [step] at ht
    split_ifs at ht with hx
    obtain rfl := Option.some.inj ht
    exact hl.other (by rw [hx.2]; exact id) rfl rfl rfl rfl rfl trivial
  | manage x tk =>
    simp only [step] at ht
    split_ifs at ht with hx
    obtain rfl := Option.some.inj ht
    exact hl.other (by rw [hx.2.1]; exact id) rfl rfl rfl rfl rfl trivial
  | disable x =>
    simp only [step] at ht
    split_ifs at ht with hx
    obtain rfl := Option.some.inj ht
    unfold hypervisorDisable
    split_ifs
    · exact hl.other (by rw [hx.2.1]; exact id) rfl rfl rfl rfl rfl trivial
    · exact ⟨hl.ids, hl.nonzero, hl.count, hl.settled, hl.moved,
        fun y => (hl.knows y).congr rfl rfl⟩
  | go x =>
    simp only [step] at ht
    split_ifs at ht
    exact go_layout hco hl ht
  | refuse x =>
    simp only [step] at ht
    split_ifs at ht
    split at ht
    case h_1 hp | h_2 hp =>
      obtain rfl := Option.some.inj ht
      exact hl.goto hco (by rw [hp]; trivial) rfl rfl rfl rfl (by rw [hp]; rfl) trivial
    case h_3 id set hp =>
      obtain rfl := Option.some.inj ht
      have hk := hl.knows x
      rw [hp] at hk
      refine hl.goto hco (by rw [hp]; trivial) rfl rfl rfl rfl ?_ ⟨hk.1, by simpa using hk.2⟩
      rw [hp, Pc.changing, Pc.changing, Finset.filter_true_of_mem fun c _ => Nat.zero_le c]
    case h_4 => cases ht
  | timeout x id =>
    simp only [step] at ht
    split_ifs at ht
    split at ht
    case h_1 hp hf | h_2 hp hf =>
      split_ifs at ht
      obtain rfl := Option.some.inj ht
      exact hl.goto hco (by rw [hp]; trivial) rfl rfl rfl rfl (by rw [hp]; rfl) trivial
    case h_3 hp hf =>
      split_ifs at ht
      obtain rfl := Option.some.inj ht
      exact hl.goto hco (by rw [hp]; trivial) rfl rfl rfl rfl (by rw [hp]; rfl)
        ⟨hl.nonzero _ ((Hv.find_eq_some hl.ids).mp hf), hf⟩
    case h_4 hp hf =>
      obtain rfl := Option.some.inj ht
      exact hl.goto hco (by rw [hp]; trivial) rfl rfl rfl rfl (by rw [hp]; rfl) trivial
    case h_5 => cases ht

lemma init_layout (κ : Config) : Layout κ (init κ) := by
  refine ⟨List.nodup_nil, by simp [init], rfl, fun _ => ?_, by simp [init, Pc.changing],
    fun _ => trivial⟩
  intro c _ i hi _
  exact iff_of_false (Ne.symm hi) (by simp [Hv.setOf, Hv.find, init])

lemma exec_layout {as : List Act} (hc : Along (step κ) (Serialised κ) (init κ) as)
    (he : exec (step κ) (init κ) as = some s) : Core κ s ∧ Layout κ s :=
  exec_inv_along (P := fun s => Core κ s ∧ Layout κ s)
    (fun _ _ _ h hc ht => ⟨step_core h.1 hc ht, step_layout h.1 h.2 ht⟩)
    ⟨init_core κ, init_layout κ⟩ hc he

/-- **Every CPU is in exactly one cell** whenever no hypercall is moving CPUs: the CPU set of the
root cell and those of the other cells agree with the cell that each CPU is told to be in. -/
theorem cells_partition {as : List Act} (hc : Along (step κ) (Serialised κ) (init κ) as)
    (he : exec (step κ) (init κ) as = some s) (hq : ∀ x ∈ κ.cpus, (s.pc x).changing = none) :
    (∀ c ∈ κ.cpus, c ∈ s.root ↔ s.cell c = 0) ∧
    (∀ e ∈ s.cells, e.1 ≠ 0 ∧ e.2 ⊆ κ.cpus ∧ ∀ c ∈ κ.cpus, c ∈ e.2 ↔ s.cell c = e.1) ∧
    (∀ c ∈ κ.cpus, s.cell c ≠ 0 → ∃ e ∈ s.cells, e.1 = s.cell c) ∧
    (s.cells.map Prod.fst).Nodup ∧ s.numCells = s.cells.length + 1 := by
  obtain ⟨hco, hl⟩ := exec_layout hc he
  have hset := hl.settled fun x => by
    by_contra hne
    exact hne (hq x (hco.manager x (.inl (Pc.past_of_changing hne))).1)
  refine ⟨hco.member, fun e hm => ⟨hl.nonzero e hm, hco.sets e hm, fun c hcc => ?_⟩,
    fun c hcc hne => ?_, hl.ids, hl.count⟩
  · rw [hset c hcc e.1 (hl.nonzero e hm) trivial, Hv.setOf, (Hv.find_eq_some hl.ids).mpr hm,
      Option.getD_some]
  · have hmem := (hset c hcc (s.cell c) hne trivial).mp rfl
    rcases hf : s.find (s.cell c) with _ | set
    · simp [Hv.setOf, hf] at hmem
    · exact ⟨_, (Hv.find_eq_some hl.ids).mp hf, rfl⟩

/-- The memory of the new cell cannot be mapped, and its CPU goes back. -/
def refusedRun : List Act :=
  createRun ++ [.go 0, .go 0, .refuse 0, .go 0, .go 0, .go 0, .go 0, .go 0, .go 0, .go 0, .go 0, .go 0]

theorem cells_partition_refused :
    ∃ s, exec (step threeCpus) (init threeCpus) refusedRun = some s ∧ s.pc 0 = .guest ∧
      2 ∈ s.root := by
  have hrun := fun (s : Hv) (he : exec (step threeCpus) (init threeCpus) refusedRun = some s) =>
    cells_partition (by decide) he
  exact ⟨_, rfl, rfl, ((hrun _ rfl (by decide)).1 2 (by decide)).mpr rfl⟩

end FpMemSched.Management
