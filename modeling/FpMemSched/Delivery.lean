import FpMemSched.Irqchip

/-!
When the notifications of the arbiter survive their way into the guest.

Two things lose a notification for good: a list register or a ring entry with the other
notification that is still to be handled (the guest may take the two in either order, and an
id that still occupies a list register is not injected again), and a full ring. A run in
which no notification is raised in such a moment ends with the guest knowing the last one.
-/

namespace FpMemSched.Delivery

open FpMemSched.Lib FpMemSched.Lib.Runs FpMemSched.Irqchip
open FpMemSched.Arbiter (sgiMemoryPhaseStarted sgiMemoryPhaseEnded)
open FpMemSched.GuestProtocol (MemArbitStatus isrStatus isrStatus_eq_none)

def Lr.awaits (id : ℕ) : Lr → Bool
  | .pending q => q.id = id
  | _ => false

/-- An interrupt with this id is still to be handled. -/
def Outstanding (t : Target) (id : ℕ) : Prop :=
  (∃ q ∈ t.ring, q.id = id) ∨ ∃ l ∈ t.lrs, Lr.awaits id l = true

instance (t : Target) (id : ℕ) : Decidable (Outstanding t id) :=
  inferInstanceAs (Decidable (_ ∨ _))

def other (id : ℕ) : ℕ :=
  if id = sgiMemoryPhaseStarted then sgiMemoryPhaseEnded else sgiMemoryPhaseStarted

/-- Raised from here the interrupt is kept, or one of its id is outstanding anyway. -/
def Kept (loc : Bool) (q : Irq) (t : Target) : Prop :=
  (loc = true ∧ gicv2InjectIrq q t.lrs ≠ .ebusy) ∨ t.ring.length < maxPendingIrqs - 1 ∨
    Outstanding t q.id

instance (loc : Bool) (q : Irq) (t : Target) : Decidable (Kept loc q t) :=
  inferInstanceAs (Decidable (_ ∨ _))

/-- A notification is raised only when the other one is not outstanding, and is kept. -/
def InOrder (s : Sys) : Action → Prop
  | .raise loc q => IsNote q.id →
      ¬ Outstanding s.target (other q.id) ∧ Kept loc q s.target
  | _ => True

instance (s : Sys) : ∀ a, Decidable (InOrder s a)
  | .raise _ _ => inferInstanceAs (Decidable (_ → _))
  | .inject | .ack _ | .complete _ => isTrue trivial

/-! ### List registers -/

lemma fill_some {q : Irq} {l l' : List Lr} (h : fill q l = some l') :
    ∃ a b, l = a ++ .free :: b ∧ l' = a ++ .pending q :: b := by
  induction l generalizing l' with
  | nil => simp [fill] at h
  | cons r l ih =>
    cases r with
    | free =>
      simp only [fill, Option.some.injEq] at h
      exact ⟨[], l, rfl, h.symm⟩
    | pending p | active p =>
      simp only [fill, Option.map_eq_some_iff] at h
      obtain ⟨m, hm, rfl⟩ := h
      obtain ⟨a, b, rfl, rfl⟩ := ih hm
      exact ⟨_ :: a, b, rfl, rfl⟩

/-- **What an injection does.** -/
lemma gicv2InjectIrq_cases (q : Irq) (lrs : List Lr) :
    (gicv2InjectIrq q lrs = .eexist ∧ ∃ l ∈ lrs, l.holds q.id = true) ∨
    (∃ a b, lrs = a ++ .free :: b ∧ gicv2InjectIrq q lrs = .done (a ++ .pending q :: b)) ∨
    gicv2InjectIrq q lrs = .ebusy := by
  unfold gicv2InjectIrq
  split_ifs with h
  · exact Or.inl ⟨rfl, by simpa using h⟩
  · rcases hf : fill q lrs with _ | lrs'
    · exact Or.inr (Or.inr rfl)
    · obtain ⟨a, b, hl, rfl⟩ := fill_some hf
      exact Or.inr (Or.inl ⟨a, b, hl, rfl⟩)

lemma set_split {l : List Lr} {i : ℕ} {x : Lr} (h : l[i]? = some x) (y : Lr) :
    ∃ a b, l = a ++ x :: b ∧ l.set i y = a ++ y :: b := by
  obtain ⟨hi, rfl⟩ := List.getElem?_eq_some_iff.mp h
  refine ⟨l.take i, l.drop (i + 1), ?_, List.set_eq_take_append_cons_drop.trans (if_pos hi)⟩
  simp

lemma outstanding_iff {t : Target} {id : ℕ} :
    Outstanding t id ↔ (∃ q ∈ t.ring, q.id = id) ∨ ∃ q, Lr.pending q ∈ t.lrs ∧ q.id = id := by
  refine or_congr_right ⟨?_, ?_⟩
  · rintro ⟨l, hl, h⟩
    cases l with
    | free | active q => simp [Lr.awaits] at h
    | pending q => exact ⟨q, hl, by simpa [Lr.awaits] using h⟩
  · rintro ⟨q, hl, h⟩
    exact ⟨_, hl, by simpa [Lr.awaits] using h⟩

/-- An id in a list register is outstanding or active. -/
lemma outstanding_or_active {t : Target} {id : ℕ} {l : Lr} (hl : l ∈ t.lrs)
    (h : l.holds id = true) : Outstanding t id ∨ ∃ q, Lr.active q ∈ t.lrs ∧ q.id = id := by
  cases l with
  | free => simp [Lr.holds] at h
  | pending q => exact Or.inl (outstanding_iff.mpr (Or.inr ⟨q, hl, by simpa [Lr.holds] using h⟩))
  | active q => exact Or.inr ⟨q, hl, by simpa [Lr.holds] using h⟩

/-! ### From the ring to the list registers -/

/-- Nothing outstanding appears, and what disappears is active. -/
structure Moved (t t' : Target) : Prop where
  old : ∀ id, Outstanding t' id → Outstanding t id
  gone : ∀ id, Outstanding t id → Outstanding t' id ∨ ∃ q, Lr.active q ∈ t'.lrs ∧ q.id = id
  active : ∀ q, Lr.active q ∈ t'.lrs ↔ Lr.active q ∈ t.lrs

lemma Moved.trans {t t' t'' : Target} (h : Moved t t') (h' : Moved t' t'') : Moved t t'' := by
  refine ⟨fun id hi => h.old id (h'.old id hi), fun id hi => ?_, fun q =>
    (h'.active q).trans (h.active q)⟩
  rcases h.gone id hi with ho | ⟨q, hq, hid⟩
  · exact h'.gone id ho
  · exact Or.inr ⟨q, (h'.active q).mpr hq, hid⟩

/-- One turn of the loop that takes an entry off the ring. -/
lemma moved_done (q : Irq) (ring : List Irq) (a b : List Lr) (m m' : Bool) :
    Moved ⟨q :: ring, a ++ .free :: b, m⟩ ⟨ring, a ++ .pending q :: b, m'⟩ := by
  refine ⟨fun id h => ?_, fun id h => Or.inl ?_, fun r => by simp⟩
  · rw [outstanding_iff] at h ⊢
    rcases h with ⟨r, hr, hid⟩ | ⟨r, hr, hid⟩
    · exact Or.inl ⟨r, List.mem_cons_of_mem _ hr, hid⟩
    · have hr' : Lr.pending r ∈ a ∨ r = q ∨ Lr.pending r ∈ b := by simpa using hr
      rcases hr' with hr | rfl | hr
      · exact Or.inr ⟨r, by simp [hr], hid⟩
      · exact Or.inl ⟨r, by simp, hid⟩
      · exact Or.inr ⟨r, by simp [hr], hid⟩
  · rw [outstanding_iff] at h ⊢
    rcases h with ⟨r, hr, hid⟩ | ⟨r, hr, hid⟩
    · rcases List.mem_cons.mp hr with rfl | hr
      · exact Or.inr ⟨r, by simp, hid⟩
      · exact Or.inl ⟨r, hr, hid⟩
    · have hr' : Lr.pending r ∈ a ∨ Lr.pending r ∈ b := by simpa using hr
      exact Or.inr ⟨r, by simpa using hr'.imp_right Or.inr, hid⟩

lemma moved_eexist (q : Irq) (ring : List Irq) (lrs : List Lr) (m m' : Bool)
    (h : ∃ l ∈ lrs, l.holds q.id = true) : Moved ⟨q :: ring, lrs, m⟩ ⟨ring, lrs, m'⟩ := by
  refine ⟨fun id h' => ?_, fun id h' => ?_, fun r => Iff.rfl⟩
  · rcases h' with ⟨r, hr, hid⟩ | hl
    · exact Or.inl ⟨r, List.mem_cons_of_mem _ hr, hid⟩
    · exact Or.inr hl
  · rcases h' with ⟨r, hr, rfl⟩ | hl
    · rcases List.mem_cons.mp hr with rfl | hr
      · obtain ⟨l, hl, hq⟩ := h
        exact outstanding_or_active (t := ⟨ring, lrs, m'⟩) hl hq
      · exact Or.inl (Or.inl ⟨r, hr, rfl⟩)
    · exact Or.inl (Or.inr hl)

lemma moved_inject (ring : List Irq) (lrs : List Lr) (m : Bool) :
    Moved ⟨ring, lrs, m⟩ (irqchipInjectPending ring lrs) := by
  induction ring generalizing lrs m with
  | nil => exact ⟨fun _ h => h, fun _ h => Or.inl h, fun _ => Iff.rfl⟩
  | cons q ring ih =>
    rcases gicv2InjectIrq_cases q lrs with ⟨he, hl⟩ | ⟨a, b, rfl, he⟩ | he
    · simp only [irqchipInjectPending, he]
      exact (moved_eexist q ring lrs m m hl).trans (ih lrs m)
    · simp only [irqchipInjectPending, he]
      exact (moved_done q ring a b m m).trans (ih _ m)
    · simp only [irqchipInjectPending, he]
      exact ⟨fun _ h => h, fun _ h => Or.inl h, fun _ => Iff.rfl⟩

/-! ### Raising -/

/-- Only the raised id can become outstanding, and it is outstanding or active when kept. -/
structure Raised (q : Irq) (t t' : Target) : Prop where
  new : ∀ id, Outstanding t' id → Outstanding t id ∨ id = q.id
  old : ∀ id, Outstanding t id → Outstanding t' id
  active : ∀ r, Lr.active r ∈ t'.lrs ↔ Lr.active r ∈ t.lrs

lemma raised_refl (q : Irq) (t : Target) : Raised q t t :=
  ⟨fun _ h => Or.inl h, fun _ h => h, fun _ => Iff.rfl⟩

lemma raised_enqueue (q : Irq) (t : Target) (m : Bool) :
    Raised q t { enqueue q t with maint := m } := by
  unfold enqueue
  split_ifs with h
  · refine ⟨fun id h' => ?_, fun id h' => ?_, fun _ => Iff.rfl⟩
    · rcases h' with ⟨r, hr, hid⟩ | hl
      · rcases List.mem_append.mp hr with hr | hr
        · exact Or.inl (Or.inl ⟨r, hr, hid⟩)
        · obtain rfl := List.mem_singleton.mp hr
          exact Or.inr hid.symm
      · exact Or.inl (Or.inr hl)
    · rcases h' with ⟨r, hr, hid⟩ | hl
      · exact Or.inl ⟨r, List.mem_append_left _ hr, hid⟩
      · exact Or.inr hl
  · exact ⟨fun _ h => Or.inl h, fun _ h => h, fun _ => Iff.rfl⟩

lemma enqueue_kept (q : Irq) (t : Target) (m : Bool) (h : t.ring.length < maxPendingIrqs - 1) :
    Outstanding { enqueue q t with maint := m } q.id := by
  rw [enqueue, if_pos h]
  exact Or.inl ⟨q, by simp, rfl⟩

lemma raised_done (q : Irq) (ring : List Irq) (a b : List Lr) (m : Bool) :
    Raised q ⟨ring, a ++ .free :: b, m⟩ ⟨ring, a ++ .pending q :: b, m⟩ := by
  have h := moved_done q ring a b m m
  refine ⟨fun id hi => ?_, fun id hi => ?_, h.active⟩
  · rcases h.old id hi with ⟨r, hr, hid⟩ | hl
    · rcases List.mem_cons.mp hr with rfl | hr
      · exact Or.inr hid.symm
      · exact Or.inl (Or.inl ⟨r, hr, hid⟩)
    · exact Or.inl (Or.inr hl)
  · rcases outstanding_iff.mp hi with ⟨r, hr, hid⟩ | ⟨r, hl, hid⟩
    · exact Or.inl ⟨r, hr, hid⟩
    · refine outstanding_iff.mpr (Or.inr ⟨r, ?_, hid⟩)
      have hr' : Lr.pending r ∈ a ∨ Lr.pending r ∈ b := by simpa using hl
      simpa using hr'.imp_right Or.inr

lemma raised_setPending (loc : Bool) (q : Irq) (t : Target) :
    Raised q t (irqchipSetPending loc q t) ∧
      (Kept loc q t → Outstanding (irqchipSetPending loc q t) q.id ∨
        ∃ r, Lr.active r ∈ t.lrs ∧ r.id = q.id) := by
  cases loc with
  | false =>
    have hr : Raised q t (enqueue q t) := raised_enqueue q t (enqueue q t).maint
    refine ⟨hr, fun hk => Or.inl ?_⟩
    rcases hk with ⟨h, -⟩ | h | h
    · simp at h
    · exact enqueue_kept q t (enqueue q t).maint h
    · exact hr.old _ h
  | true =>
    obtain ⟨ring, lrs, m⟩ := t
    rcases gicv2InjectIrq_cases q lrs with ⟨he, l, hl, hq⟩ | ⟨a, b, rfl, he⟩ | he
    · -- the id occupies a list register: the interrupt is dropped
      simp only [irqchipSetPending, he, if_true]
      exact ⟨raised_refl q _, fun _ => outstanding_or_active hl hq⟩
    · simp only [irqchipSetPending, he, if_true]
      refine ⟨raised_done q ring a b m, fun _ => Or.inl ?_⟩
      exact outstanding_iff.mpr (Or.inr ⟨q, by simp, rfl⟩)
    · simp only [irqchipSetPending, he, if_true]
      have hr := raised_enqueue q ⟨ring, lrs, m⟩ true
      refine ⟨hr, fun hk => Or.inl ?_⟩
      rcases hk with ⟨-, h⟩ | h | h
      · exact absurd he h
      · exact enqueue_kept q _ true h
      · exact hr.old _ h

/-! ### The invariant -/

structure Inv (s : Sys) : Prop where
  /-- Whatever is outstanding is the last notification raised. -/
  out : ∀ id, IsNote id → Outstanding s.target id → s.lastRaised = some id
  done : (∀ id, IsNote id → ¬ Outstanding s.target id) → s.lastHandled = s.lastRaised
  act : ∀ q, Lr.active q ∈ s.target.lrs → IsNote q.id → s.lastHandled = some q.id

lemma inv_init (n : ℕ) (st : MemArbitStatus) : Inv (init n st) := by
  refine ⟨fun id _ h => ?_, fun _ => rfl, fun q hq => ?_⟩
  · rw [outstanding_iff] at h
    simp [init, List.mem_replicate] at h
  · simp [init, List.mem_replicate] at hq

lemma Inv.moved {s : Sys} {t : Target} (h : Inv s) (hm : Moved s.target t) :
    Inv { s with target := t } := by
  refine ⟨fun id hn ho => h.out id hn (hm.old id ho), fun hnone => ?_, fun q hq => ?_⟩
  · by_cases hex : ∃ id, IsNote id ∧ Outstanding s.target id
    · -- what left the ring without reaching a list register is active
      obtain ⟨id, hn, ho⟩ := hex
      rcases hm.gone id ho with ho' | ⟨q, hq, rfl⟩
      · exact absurd ho' (hnone id hn)
      · exact (h.act q ((hm.active q).mp hq) hn).trans (h.out _ hn ho).symm
    · exact h.done fun id hn ho => hex ⟨id, hn, ho⟩
  · exact h.act q ((hm.active q).mp hq)

lemma eq_other {id k : ℕ} (hid : IsNote id) (hk : IsNote k) (h : id ≠ k) : id = other k := by
  unfold IsNote at hid hk
  unfold other
  rcases hid with rfl | rfl <;> rcases hk with rfl | rfl
  · exact absurd rfl h
  · rfl
  · rfl
  · exact absurd rfl h

lemma Inv.raise {s : Sys} {loc : Bool} {q : Irq} (h : Inv s) (hc : InOrder s (.raise loc q)) :
    Inv { s with target := irqchipSetPending loc q s.target,
                 lastRaised := note q.id s.lastRaised } := by
  obtain ⟨hr, hkept⟩ := raised_setPending loc q s.target
  by_cases hq : IsNote q.id
  · obtain ⟨hno, hk⟩ := hc hq
    have hlast : note q.id s.lastRaised = some q.id := if_pos hq
    refine ⟨fun id hn ho => ?_, fun hnone => ?_, fun r hr' => h.act r ((hr.active r).mp hr')⟩
    · rcases hr.new id ho with ho | rfl
      · by_cases hid : id = q.id
        · rw [hid]; exact hlast
        · rw [eq_other hn hq hid] at ho
          exact absurd ho hno
      · exact hlast
    · rcases hkept hk with ho | ⟨r, hr', hid⟩
      · exact absurd ho (hnone _ hq)
      · have hh := h.act r hr' (hid ▸ hq)
        rw [hid] at hh
        exact hh.trans hlast.symm
  · have hlast : note q.id s.lastRaised = s.lastRaised := if_neg hq
    rw [hlast]
    refine ⟨fun id hn ho => ?_, fun hnone => ?_, fun r hr' => h.act r ((hr.active r).mp hr')⟩
    · rcases hr.new id ho with ho | rfl
      · exact h.out id hn ho
      · exact absurd hn hq
    · exact h.done fun id hn ho => hnone id hn (hr.old id ho)

lemma Inv.ack {s : Sys} {i : ℕ} {q : Irq} (h : Inv s) (hi : s.target.lrs[i]? = some (.pending q))
    (hna : ∀ r, Lr.active r ∉ s.target.lrs) (st : MemArbitStatus) :
    Inv { s with target := { s.target with lrs := s.target.lrs.set i (.active q) },
                 status := st, lastHandled := note q.id s.lastHandled } := by
  obtain ⟨a, b, hl, hset⟩ := set_split hi (.active q)
  have hold : ∀ id, Outstanding { s.target with lrs := a ++ .active q :: b } id →
      Outstanding s.target id := by
    intro id ho
    rw [outstanding_iff] at ho ⊢
    rcases ho with hr | ⟨r, hr, hid⟩
    · exact Or.inl hr
    · refine Or.inr ⟨r, ?_, hid⟩
      rw [hl]
      have hr' : Lr.pending r ∈ a ∨ Lr.pending r ∈ b := by simpa using hr
      simpa using hr'.imp_right Or.inr
  have hgone : ∀ id, Outstanding s.target id → id ≠ q.id →
      Outstanding { s.target with lrs := a ++ .active q :: b } id := by
    intro id ho hne
    rw [outstanding_iff] at ho ⊢
    rcases ho with hr | ⟨r, hr, hid⟩
    · exact Or.inl hr
    · rw [hl] at hr
      have hr' : Lr.pending r ∈ a ∨ r = q ∨ Lr.pending r ∈ b := by simpa using hr
      rcases hr' with hr' | rfl | hr'
      · exact Or.inr ⟨r, by simp [hr'], hid⟩
      · exact absurd hid.symm hne
      · exact Or.inr ⟨r, by simp [hr'], hid⟩
  have hq : Outstanding s.target q.id := outstanding_iff.mpr (Or.inr ⟨q, by simp [hl], rfl⟩)
  rw [hset]
  refine ⟨fun id hn ho => h.out id hn (hold id ho), fun hnone => ?_, fun r hr hn => ?_⟩
  · by_cases hn : IsNote q.id
    · exact (if_pos hn).trans (h.out _ hn hq).symm
    · refine (if_neg hn).trans (h.done fun id hid ho => ?_)
      exact hnone id hid (hgone id ho fun he => hn (he ▸ hid))
  · have hr' : r = q := by
      have hr' : Lr.active r ∈ a ∨ r = q ∨ Lr.active r ∈ b := by simpa using hr
      rcases hr' with hr' | hr' | hr'
      · exact absurd (by simp [hl, hr']) (hna r)
      · exact hr'
      · exact absurd (by simp [hl, hr']) (hna r)
    subst hr'
    exact if_pos hn

lemma Inv.complete {s : Sys} {i : ℕ} {q : Irq} (h : Inv s)
    (hi : s.target.lrs[i]? = some (.active q)) :
    Inv { s with target := { s.target with lrs := s.target.lrs.set i .free } } := by
  obtain ⟨a, b, hl, hset⟩ := set_split hi .free
  have hiff : ∀ id, Outstanding { s.target with lrs := a ++ .free :: b } id ↔
      Outstanding s.target id := by
    intro id
    rw [outstanding_iff, outstanding_iff, hl]
    simp
  rw [hset]
  refine ⟨fun id hn ho => h.out id hn ((hiff id).mp ho), fun hnone => ?_, fun r hr => ?_⟩
  · exact h.done fun id hn ho => hnone id hn ((hiff id).mpr ho)
  · refine h.act r ?_
    rw [hl]
    have hr' : Lr.active r ∈ a ∨ Lr.active r ∈ b := by simpa using hr
    simpa using hr'.imp_right Or.inr

lemma step_inv {s s' : Sys} {a : Action} (h : Inv s) (hc : InOrder s a)
    (hs : step s a = some s') : Inv s' := by
  cases a with
  | raise loc q =>
    obtain rfl := Option.some.inj hs
    exact h.raise hc
  | inject =>
    obtain rfl := Option.some.inj hs
    exact h.moved (moved_inject s.target.ring s.target.lrs s.target.maint)
  | ack i =>
    rcases hi : s.target.lrs[i]? with _ | (_ | q | q) <;> simp only [step, hi, reduceCtorEq] at hs
    by_cases hact : s.target.lrs.any Lr.isActive = true
    · simp [hact] at hs
    · simp only [hact, Bool.false_eq_true, if_false, Option.some.injEq] at hs
      subst hs
      refine h.ack hi (fun r hr => hact ?_) _
      exact List.any_eq_true.mpr ⟨_, hr, rfl⟩
  | complete i =>
    rcases hi : s.target.lrs[i]? with _ | (_ | q | q) <;> simp only [step, hi, reduceCtorEq] at hs
    obtain rfl := Option.some.inj hs
    exact h.complete hi

/-! ### The status of the guest -/

/-- The status a guest that asked for the token has after a notification. -/
def settled (id : ℕ) : MemArbitStatus :=
  if id = sgiMemoryPhaseStarted then .acquired else .requested

/-- The status follows the last notification handled. -/
def Follows (s : Sys) : Prop :=
  s.status ≠ .none ∧ ∀ k, s.lastHandled = some k → s.status = settled k

lemma step_follows {s s' : Sys} {a : Action} (h : Follows s) (hs : step s a = some s') :
    Follows s' := by
  cases a with
  | raise loc q =>
    obtain rfl := Option.some.inj hs
    exact h
  | inject =>
    obtain rfl := Option.some.inj hs
    exact h
  | ack i =>
    rcases hi : s.target.lrs[i]? with _ | (_ | q | q) <;> simp only [step, hi, reduceCtorEq] at hs
    split_ifs at hs with hact
    obtain rfl := Option.some.inj hs
    refine ⟨fun hn => h.1 (isrStatus_eq_none.mp hn), fun k hk => ?_⟩
    simp only [note] at hk
    split_ifs at hk with hn
    · obtain rfl := Option.some.inj hk
      have hst := h.1
      rcases hn with hn | hn <;> rcases hs : s.status with _ | _ | _ <;>
        simp_all [isrStatus, settled, sgiMemoryPhaseStarted, sgiMemoryPhaseEnded]
    · have hid : isrStatus q.id s.status = s.status := by
        unfold IsNote at hn
        rw [not_or] at hn
        simp [isrStatus, hn.1, hn.2]
      rw [show isrStatus q.id s.status = s.status from hid]
      exact h.2 k hk
  | complete i =>
    rcases hi : s.target.lrs[i]? with _ | (_ | q | q) <;> simp only [step, hi, reduceCtorEq] at hs
    obtain rfl := Option.some.inj hs
    exact h

/-- **The last notification raised is the last one handled** once the ring and the list
registers are empty, in every run whose notifications are raised in order; and a guest that
asked for the token has the status it tells. -/
theorem last_raised_handled (numLr : ℕ) (st : MemArbitStatus) (as : List Action) (s : Sys)
    (h : exec step (init numLr st) as = some s) (hc : Along step InOrder (init numLr st) as)
    (hring : s.target.ring = []) (hlrs : ∀ l ∈ s.target.lrs, l = .free) :
    s.lastHandled = s.lastRaised ∧
      (st ≠ .none → ∀ k, s.lastRaised = some k → s.status = settled k) := by
  have hinv : Inv s := exec_inv_along (fun _ _ _ hs hc ht => step_inv hs hc ht)
    (inv_init numLr st) hc h
  have hlast : s.lastHandled = s.lastRaised := by
    refine hinv.done fun id _ ho => ?_
    rcases outstanding_iff.mp ho with ⟨q, hq, -⟩ | ⟨q, hq, -⟩
    · simp [hring] at hq
    · simpa using hlrs _ hq
  refine ⟨hlast, fun hst k hk => ?_⟩
  have hf : Follows s := exec_inv (fun _ _ _ hs ht => step_follows hs ht)
    ⟨hst, fun k hk => by simp [init] at hk⟩ h
  exact hf.2 k (hlast.trans hk)

/-- The token is taken away and given back, and the guest takes the two one after the other. -/
def inOrderRun : List Action :=
  [.raise false ⟨sgiMemoryPhaseEnded, 1⟩, .inject, .ack 0, .complete 0,
    .raise false ⟨sgiMemoryPhaseStarted, 1⟩, .inject, .ack 0, .complete 0]

theorem last_raised_handled_inOrderRun :
    ∃ s, exec step (init 4 .acquired) inOrderRun = some s ∧ s.status = .acquired :=
  ⟨_, rfl, (last_raised_handled 4 .acquired inOrderRun _ rfl (by decide) rfl (by decide)).2
    (by decide) sgiMemoryPhaseStarted rfl⟩

/-- Both are injected before the guest looks, and it takes the later one first. -/
def swappedRun : List Action :=
  [.raise false ⟨sgiMemoryPhaseEnded, 1⟩, .raise false ⟨sgiMemoryPhaseStarted, 1⟩, .inject,
    .ack 1, .complete 1, .ack 0, .complete 0]

/-- A guest that was revoked and granted the token again is left waiting. -/
theorem swapped_notifications :
    ∃ s, exec step (init 4 .acquired) swappedRun = some s ∧ s.target.ring = [] ∧
      (∀ l ∈ s.target.lrs, l = .free) ∧ s.lastRaised = some sgiMemoryPhaseStarted ∧
      s.lastHandled = some sgiMemoryPhaseEnded ∧ s.status = .requested :=
  ⟨_, rfl, rfl, by decide, rfl, rfl, rfl⟩

end FpMemSched.Delivery
