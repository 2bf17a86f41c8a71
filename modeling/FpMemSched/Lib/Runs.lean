import Mathlib.Data.List.Basic

/-!
Runs of a machine given by a partial step function, and the rules that carry an invariant
along them.

A step that is not enabled has no successor; a run is a list of labels whose steps are all
enabled. Conditions on a run are read at the state each label is taken in.
-/

namespace FpMemSched.Lib.Runs

variable {σ α : Type*} (step : σ → α → Option σ)

/-- The state after a run, if every label of it is enabled in turn. -/
def exec : σ → List α → Option σ
  | s, [] => some s
  | s, a :: as => (step s a).bind fun t => exec t as

@[simp] lemma exec_nil (s : σ) : exec step s [] = some s := rfl

lemma exec_cons {s u : σ} {a : α} {as : List α} :
    exec step s (a :: as) = some u ↔ ∃ t, step s a = some t ∧ exec step t as = some u := by
  simp [exec, Option.bind_eq_some_iff]

lemma exec_singleton (s : σ) (a : α) : exec step s [a] = step s a := by simp [exec]

lemma exec_append {s u : σ} {as bs : List α} :
    exec step s (as ++ bs) = some u ↔
      ∃ t, exec step s as = some t ∧ exec step t bs = some u := by
  induction as generalizing s with
  | nil => simp
  | cons a as ih =>
    rw [List.cons_append, exec_cons]
    constructor
    · rintro ⟨t, hs, ht⟩
      obtain ⟨v, hv, hu⟩ := ih.mp ht
      exact ⟨v, (exec_cons step).mpr ⟨t, hs, hv⟩, hu⟩
    · rintro ⟨v, hv, hu⟩
      obtain ⟨t, hs, ht⟩ := (exec_cons step).mp hv
      exact ⟨t, hs, ih.mpr ⟨v, ht, hu⟩⟩

/-- `C` holds of every step of the run, in the state the step is taken in. -/
def Along (C : σ → α → Prop) : σ → List α → Prop
  | _, [] => True
  | s, a :: as => C s a ∧ ∀ t, step s a = some t → Along C t as

/-- The states a run passes through satisfy `P`, the first and the last included. -/
def Always (P : σ → Prop) (s : σ) (as : List α) : Prop :=
  ∀ bs cs t, as = bs ++ cs → exec step s bs = some t → P t

/-- What is seen of the states of a run, one after the other. -/
def trace {β : Type*} (view : σ → β) : σ → List α → List β
  | s, [] => [view s]
  | s, a :: as => view s :: (step s a).elim [] fun t => trace view t as

variable {step}

instance Along.decidable (C : σ → α → Prop) [∀ s a, Decidable (C s a)] :
    ∀ s as, Decidable (Along step C s as)
  | _, [] => isTrue trivial
  | s, a :: as =>
    match h : step s a with
    | none => decidable_of_iff (C s a)
        ⟨fun hc => ⟨hc, fun t ht => by simp [h] at ht⟩, And.left⟩
    | some t =>
      have := Along.decidable C t as
      decidable_of_iff (C s a ∧ Along step C t as)
        ⟨fun hc => ⟨hc.1, fun u hu => by rw [h] at hu; exact Option.some.inj hu ▸ hc.2⟩,
          fun hc => ⟨hc.1, hc.2 t h⟩⟩

lemma always_nil {P : σ → Prop} {s : σ} : Always step P s ([] : List α) ↔ P s := by
  constructor
  · intro h
    exact h [] [] s rfl rfl
  · intro hs bs cs t hb ht
    obtain ⟨rfl, -⟩ := List.append_eq_nil_iff.mp hb.symm
    obtain rfl : s = t := by simpa using ht
    exact hs

lemma always_cons {P : σ → Prop} {s t : σ} {a : α} {as : List α} (ha : step s a = some t) :
    Always step P s (a :: as) ↔ P s ∧ Always step P t as := by
  constructor
  · intro h
    refine ⟨h [] _ s rfl rfl, fun bs cs u hb hu => h (a :: bs) cs u (by rw [hb]; rfl) ?_⟩
    exact (exec_cons step).mpr ⟨t, ha, hu⟩
  · rintro ⟨hs, h⟩ bs cs u hb hu
    cases bs with
    | nil =>
      obtain rfl : s = u := by simpa using hu
      exact hs
    | cons b bs =>
      obtain ⟨rfl, hbs⟩ := List.cons_eq_cons.mp hb
      obtain ⟨v, hv, hu⟩ := (exec_cons step).mp hu
      obtain rfl : t = v := by simpa [ha] using hv
      exact h bs cs u hbs hu

/-- Conditions on the labels alone. -/
lemma along_of_mem {C : σ → α → Prop} {as : List α} (h : ∀ a ∈ as, ∀ s, C s a) (s : σ) :
    Along step C s as := by
  induction as generalizing s with
  | nil => trivial
  | cons a as ih =>
    exact ⟨h a List.mem_cons_self s, fun t _ => ih (fun b hb => h b (List.mem_cons_of_mem _ hb)) t⟩

/-- **The exact condition for a safety property**: where each step that `D` allows either meets
`C` and keeps the invariant `I`, or breaks `P` at once, a run of allowed steps is safe exactly
when all its steps meet `C`. -/
theorem always_iff_along_of {I P : σ → Prop} {C D : σ → α → Prop} (hP : ∀ s, I s → P s)
    (h : ∀ s a t, I s → D s a → step s a = some t → (C s a ∧ I t) ∨ (¬ C s a ∧ ¬ P t)) {s u : σ}
    {as : List α} (hs : I s) (hd : Along step D s as) (he : exec step s as = some u) :
    Always step P s as ↔ Along step C s as := by
  induction as generalizing s with
  | nil => exact ⟨fun _ => trivial, fun _ => always_nil.mpr (hP s hs)⟩
  | cons a as ih =>
    obtain ⟨t, ht, he⟩ := (exec_cons step).mp he
    rw [always_cons ht]
    rcases h s a t hs hd.1 ht with ⟨hc, hi⟩ | ⟨hc, hp⟩
    · rw [ih hi (hd.2 t ht) he]
      constructor
      · rintro ⟨-, hal⟩
        exact ⟨hc, fun v hv => by rw [ht] at hv; exact Option.some.inj hv ▸ hal⟩
      · intro hal
        exact ⟨hP s hs, hal.2 t ht⟩
    · constructor
      · rintro ⟨-, hal⟩
        exact absurd (hal [] as t rfl rfl) hp
      · intro hal
        exact absurd hal.1 hc

theorem always_iff_along {I P : σ → Prop} {C : σ → α → Prop} (hP : ∀ s, I s → P s)
    (h : ∀ s a t, I s → step s a = some t → (C s a ∧ I t) ∨ (¬ C s a ∧ ¬ P t)) {s u : σ}
    {as : List α} (hs : I s) (he : exec step s as = some u) :
    Always step P s as ↔ Along step C s as := by
  refine always_iff_along_of (D := fun _ _ => True) hP (fun s a t hi _ => h s a t hi) hs ?_ he
  exact along_of_mem (fun _ _ _ => trivial) s

/-- **The invariant rule**, for runs whose steps all meet a condition. -/
theorem exec_inv_along {C : σ → α → Prop} {P : σ → Prop}
    (h : ∀ s a t, P s → C s a → step s a = some t → P t) {s t : σ} {as : List α} (hs : P s)
    (hc : Along step C s as) (he : exec step s as = some t) : P t := by
  induction as generalizing s with
  | nil =>
    obtain rfl : s = t := by simpa using he
    exact hs
  | cons a as ih =>
    obtain ⟨u, hu, he⟩ := (exec_cons step).mp he
    exact ih (h s a u hs hc.1 hu) (hc.2 u hu) he

/-- **The invariant rule.** -/
theorem exec_inv {P : σ → Prop} (h : ∀ s a t, P s → step s a = some t → P t) {s t : σ}
    {as : List α} (hs : P s) (he : exec step s as = some t) : P t := by
  induction as generalizing s with
  | nil =>
    obtain rfl : s = t := by simpa using he
    exact hs
  | cons a as ih =>
    obtain ⟨u, hu, he⟩ := (exec_cons step).mp he
    exact ih (h s a u hs hu) he

lemma along_take {C : σ → α → Prop} {s : σ} {as bs : List α}
    (h : Along step C s (as ++ bs)) : Along step C s as := by
  induction as generalizing s with
  | nil => trivial
  | cons a as ih => exact ⟨h.1, fun t ht => ih (h.2 t ht)⟩

/-- Where an invariant is kept by the steps that meet `C`, a run that meets `C` meets what the
invariant says of every step. -/
lemma along_of_inv {I : σ → Prop} {C D : σ → α → Prop}
    (hstep : ∀ s a t, I s → C s a → step s a = some t → I t) (hD : ∀ s a, I s → D s a)
    {s : σ} {as : List α} (hs : I s) (hc : Along step C s as) : Along step D s as := by
  induction as generalizing s with
  | nil => trivial
  | cons a as ih =>
    exact ⟨hD s a hs, fun t ht => ih (hstep s a t hs hc.1 ht) (hc.2 t ht)⟩

/-- The same for what the invariant and the condition say of a step that is taken. -/
lemma along_of_step {I : σ → Prop} {C D : σ → α → Prop}
    (h : ∀ s a t, I s → C s a → step s a = some t → D s a ∧ I t) {s u : σ} {as : List α}
    (hs : I s) (hc : Along step C s as) (he : exec step s as = some u) : Along step D s as := by
  induction as generalizing s with
  | nil => trivial
  | cons a as ih =>
    obtain ⟨t, ht, he⟩ := (exec_cons step).mp he
    obtain ⟨hd, hi⟩ := h s a t hs hc.1 ht
    refine ⟨hd, fun v hv => ?_⟩
    obtain rfl : t = v := Option.some.inj (ht.symm.trans hv)
    exact ih hi (hc.2 t ht) he

/-- Two conditions agree on a run of allowed steps, where an invariant makes them agree at each
step and the steps that meet them keep it. -/
lemma along_iff_along {I : σ → Prop} {B C D : σ → α → Prop}
    (h : ∀ s a t, I s → D s a → step s a = some t → (B s a ↔ C s a) ∧ (C s a → I t)) {s u : σ}
    {as : List α} (hs : I s) (hd : Along step D s as) (he : exec step s as = some u) :
    Along step B s as ↔ Along step C s as := by
  induction as generalizing s with
  | nil => exact Iff.rfl
  | cons a as ih =>
    obtain ⟨t, ht, he⟩ := (exec_cons step).mp he
    obtain ⟨hiff, hi⟩ := h s a t hs hd.1 ht
    by_cases hc : C s a
    · have hnext : ∀ v, step s a = some v → (Along step B v as ↔ Along step C v as) := by
        intro v hv
        rw [ht] at hv
        exact Option.some.inj hv ▸ ih (hi hc) (hd.2 t ht) he
      exact and_congr hiff (forall_congr' fun v => forall_congr' fun hv => hnext v hv)
    · exact iff_of_false (fun hb => hc (hiff.mp hb.1)) (fun hc' => hc hc'.1)

lemma along_congr {C D : σ → α → Prop} (h : ∀ s a t, step s a = some t → (C s a ↔ D s a))
    {s u : σ} {as : List α} (he : exec step s as = some u) :
    Along step C s as ↔ Along step D s as :=
  along_iff_along (I := fun _ => True) (D := fun _ _ => True)
    (fun s a t _ _ ht => ⟨h s a t ht, fun _ => trivial⟩) trivial
    (along_of_mem (fun _ _ _ => trivial) s) he

lemma along_append {C : σ → α → Prop} {s t : σ} {as bs : List α}
    (h : Along step C s (as ++ bs)) (he : exec step s as = some t) : Along step C t bs := by
  induction as generalizing s with
  | nil =>
    obtain rfl : s = t := by simpa using he
    exact h
  | cons a as ih =>
    obtain ⟨u, hu, he⟩ := (exec_cons step).mp he
    exact ih (h.2 u hu) he

lemma along_concat {C : σ → α → Prop} {s : σ} {as bs : List α} (h : Along step C s as)
    (hb : ∀ t, exec step s as = some t → Along step C t bs) : Along step C s (as ++ bs) := by
  induction as generalizing s with
  | nil => exact hb s rfl
  | cons a as ih =>
    refine ⟨h.1, fun t ht => ih (h.2 t ht) fun u hu => hb u ?_⟩
    exact (exec_cons step).mpr ⟨t, ht, hu⟩

/-! ### Work that the steps take up -/

/-- Where a step takes up one thing that is to be done, or nothing, each thing is taken up at most
once in a run, and it is either taken up or still to be done. -/
lemma taken_spec {β : Type*} [DecidableEq β] (todo : σ → β → Bool) (takes : α → Option β)
    {s u : σ} {as : List α}
    (h : ∀ a ∈ as, ∀ s t, step s a = some t → match takes a with
      | none => todo t = todo s
      | some b => todo s b = true ∧ todo t = Function.update (todo s) b false)
    (he : exec step s as = some u) :
    (as.filterMap takes).Nodup ∧ (∀ b ∈ as.filterMap takes, todo u b = false) ∧
      ∀ b, todo s b = true ↔ b ∈ as.filterMap takes ∨ todo u b = true := by
  induction as generalizing s with
  | nil =>
    obtain rfl : s = u := by simpa using he
    simp
  | cons a as ih =>
    obtain ⟨t, ht, he⟩ := (exec_cons step).mp he
    obtain ⟨hnd, hout, hall⟩ := ih (fun a' ha' => h a' (List.mem_cons_of_mem a ha')) he
    have hstep := h a List.mem_cons_self s t ht
    rcases hb : takes a with _ | b
    · rw [hb] at hstep
      rw [List.filterMap_cons_none hb, ← hstep]
      exact ⟨hnd, hout, hall⟩
    · rw [hb] at hstep
      obtain ⟨hs, hupd⟩ := hstep
      have hb₁ := hall b
      rw [hupd, Function.update_self] at hb₁
      have hno : ¬ (b ∈ as.filterMap takes ∨ todo u b = true) :=
        fun hor => by simpa using hb₁.mpr hor
      rw [not_or] at hno
      rw [List.filterMap_cons_some hb]
      refine ⟨List.nodup_cons.mpr ⟨hno.1, hnd⟩, fun x hx => ?_, fun x => ?_⟩
      · rcases List.mem_cons.mp hx with rfl | hx
        · simpa using hno.2
        · exact hout x hx
      · rw [List.mem_cons]
        by_cases hx : x = b
        · subst hx
          simp [hs]
        · have hx₁ := hall x
          rw [hupd, Function.update_of_ne hx] at hx₁
          simp [hx, hx₁]

/-! ### Two machines -/

variable {τ : Type*} {step' : τ → α → Option τ}

lemma rel_bind {β γ : Type*} {R : σ → τ → Prop} {S : β → γ → Prop} {a : Option σ} {b : Option τ}
    {f : σ → Option β} {g : τ → Option γ} (h : Option.Rel R a b)
    (hfg : ∀ x y, b = some y → R x y → Option.Rel S (f x) (g y)) :
    Option.Rel S (a.bind f) (b.bind g) := by
  cases h with
  | none => exact Option.Rel.none
  | some h => exact hfg _ _ rfl h

lemma rel_some {R : σ → τ → Prop} {a : Option σ} {y : τ} (h : Option.Rel R a (some y)) :
    ∃ x, a = some x ∧ R x y := by
  cases h with
  | some h => exact ⟨_, rfl, h⟩

lemma rel_and {R : σ → τ → Prop} {P : τ → Prop} {a : Option σ} {b : Option τ}
    (h : Option.Rel R a b) (hP : ∀ y, b = some y → P y) :
    Option.Rel (fun x y => R x y ∧ P y) a b := by
  cases h with
  | none => exact Option.Rel.none
  | some h => exact Option.Rel.some ⟨h, hP _ rfl⟩

/-- **The simulation rule**: machines whose steps keep them related, as long as the steps meet
a condition, end their runs in related states or both not at all. -/
theorem exec_rel {R : σ → τ → Prop} {C : τ → α → Prop}
    (h : ∀ s t a, R s t → C t a → Option.Rel R (step s a) (step' t a)) {s : σ} {t : τ}
    {as : List α} (hs : R s t) (hc : Along step' C t as) :
    Option.Rel R (exec step s as) (exec step' t as) := by
  induction as generalizing s t with
  | nil => exact Option.Rel.some hs
  | cons a as ih =>
    refine rel_bind (h s t a hs hc.1) fun s₁ t₁ ht hs₁ => ?_
    exact ih hs₁ (hc.2 t₁ ht)

/-- Related machines look the same all along. -/
theorem trace_rel {β : Type*} {R : σ → τ → Prop} {C : τ → α → Prop} {view : σ → β}
    {view' : τ → β} (hv : ∀ s t, R s t → view s = view' t)
    (h : ∀ s t a, R s t → C t a → Option.Rel R (step s a) (step' t a)) {s : σ} {t : τ}
    {as : List α} (hs : R s t) (hc : Along step' C t as) :
    trace step view s as = trace step' view' t as := by
  induction as generalizing s t with
  | nil => rw [trace, trace, hv s t hs]
  | cons a as ih =>
    rw [trace, trace, hv s t hs]
    have hrel := h s t a hs hc.1
    rcases ht : step' t a with _ | t₁
    · rw [ht] at hrel
      rcases hst : step s a with _ | s₁
      · rfl
      · rw [hst] at hrel
        cases hrel
    · rw [ht] at hrel
      obtain ⟨s₁, hst, hs₁⟩ := rel_some hrel
      rw [hst]
      exact congrArg (view' t :: ·) (ih hs₁ (hc.2 t₁ ht))

/-! ### Runs that another machine sees -/

section Seen

variable {β : Type*} {next : τ → β → Option τ} (view : σ → α → List β)

variable (step) in
/-- What the steps of a run show. -/
def seen : σ → List α → List β
  | _, [] => []
  | s, a :: as => view s a ++ (step s a).elim [] fun t => seen t as

/-- **The simulation rule with stuttering**: where each step of a run is followed by what it
shows, the run is followed by all that it shows. -/
theorem exec_seen {R : σ → τ → Prop} {C : σ → α → Prop}
    (h : ∀ s a s' t, R s t → C s a → step s a = some s' →
      ∃ t', exec next t (view s a) = some t' ∧ R s' t') {s s' : σ} {t : τ} {as : List α}
    (hs : R s t) (hc : Along step C s as) (he : exec step s as = some s') :
    ∃ t', exec next t (seen step view s as) = some t' ∧ R s' t' := by
  induction as generalizing s t with
  | nil =>
    obtain rfl : s = s' := by simpa using he
    exact ⟨t, rfl, hs⟩
  | cons a as ih =>
    obtain ⟨s₁, hs₁, he⟩ := (exec_cons step).mp he
    obtain ⟨t₁, ht₁, h₁⟩ := h s a s₁ t hs hc.1 hs₁
    obtain ⟨t', ht', h'⟩ := ih h₁ (hc.2 s₁ hs₁) he
    refine ⟨t', ?_, h'⟩
    rw [seen, hs₁, exec_append]
    exact ⟨t₁, ht₁, ht'⟩

end Seen

end FpMemSched.Lib.Runs
