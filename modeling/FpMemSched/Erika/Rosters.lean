import FpMemSched.Erika.OnTime

/-!
The roster of schedule tables that follow one another.

The roster knows for each table that runs when its round began and which of its points is next,
and which table is to follow it. A round ends its duration after its begin; the table that follows
begins at that tick, or the same table begins another round. A table that begins has no table that
follows it until one is named.
-/

namespace FpMemSched.Erika.Rosters

open FpMemSched.Lib.Runs
open FpMemSched.Erika.Alarm hiding Step init step
open FpMemSched.Erika.SchedTable hiding Step step
open FpMemSched.Erika.OnTime hiding Event shows

variable {w : ℕ} {α : Type}

inductive Stage
  | stopped
  | next
  /-- The round began at this tick; without position it waits for its end. -/
  | running (begun : ℕ) (position : Option ℕ)
  deriving DecidableEq

def Stage.isRunning : Stage → Bool
  | .stopped | .next => false
  | .running _ _ => true

/-- When the next point is to be processed, or when the round ends. -/
def due (t : SchedTabDb w) (begun : ℕ) : Option ℕ → ℕ
  | some i => begun + (t.offset i).toNat
  | none => begun + t.duration.toNat

/-- Nothing of the table is due. -/
def Stage.Early (t : SchedTabDb w) (now : ℕ) : Stage → Prop
  | .stopped | .next => True
  | .running begun position => now < due t begun position

instance (t : SchedTabDb w) (now : ℕ) : ∀ x, Decidable (Stage.Early t now x)
  | .stopped | .next => isTrue trivial
  | .running begun position => inferInstanceAs (Decidable (now < due t begun position))

/-- The position after this point. -/
def after (t : SchedTabDb w) (i : ℕ) : Option ℕ :=
  if i + 1 < t.expiryPoints.length then some (i + 1) else none

structure Roster (α : Type) where
  now : ℕ
  stage : α → Stage
  /-- The table that follows this one. -/
  next : α → Option α

def Roster.init : Roster α := ⟨0, fun _ => .stopped, fun _ => none⟩

inductive Event (α : Type)
  | started (a : α) (delay : ℕ)
  | chained (a b : α)
  | stopped (a : α)
  | tick
  | point (a : α) (position : ℕ)
  /-- A table that does not repeat stops after its last point. -/
  | finished (a : α)
  | ended (a : α)
  deriving DecidableEq

variable [DecidableEq α]

/-- The table that was to follow this one is stopped. -/
def Roster.release (T : Roster α) (a : α) : α → Stage :=
  match T.next a with
  | some b => Function.update T.stage b .stopped
  | none => T.stage

def Roster.step [Fintype α] (σ : α → SchedTabDb w) (T : Roster α) : Event α → Option (Roster α)
  | .started a delay =>
    if T.stage a = .stopped then
      some { T with stage := Function.update T.stage a (.running (T.now + delay) (some 0)) }
    else none
  | .chained a b =>
    if (T.stage a).isRunning ∧ T.stage b = .stopped then
      some { T with
        stage := Function.update (T.release a) b .next
        next := Function.update T.next a (some b) }
    else none
  | .stopped a =>
    if (T.stage a).isRunning then
      some { T with
        stage := Function.update (T.release a) a .stopped
        next := Function.update T.next a none }
    else none
  | .tick => if ∀ a, (T.stage a).Early (σ a) T.now then some { T with now := T.now + 1 } else none
  | .point a i =>
    match T.stage a with
    | .running begun (some j) =>
      if j = i ∧ T.now = due (σ a) begun (some i) then
        some { T with stage := Function.update T.stage a (.running begun (after (σ a) i)) }
      else none
    | _ => none
  | .finished a =>
    match T.stage a with
    | .running begun none =>
      if T.next a = none ∧ (σ a).repeated = false ∧
          T.now = due (σ a) begun (some ((σ a).expiryPoints.length - 1)) then
        some { T with stage := Function.update T.stage a .stopped }
      else none
    | _ => none
  | .ended a =>
    match T.stage a with
    | .running begun none =>
      if T.now = due (σ a) begun none then
        match T.next a with
        | some b => some { T with
            stage := Function.update (Function.update T.stage a .stopped) b
              (.running T.now (some 0))
            next := Function.update T.next a none }
        | none =>
          if (σ a).repeated then
            some { T with stage := Function.update T.stage a (.running T.now (some 0)) }
          else none
      else none
    | _ => none

section Sound

/-- Only a table that runs has a table after it, which waits for it alone. -/
structure Roster.Sound (T : Roster α) : Prop where
  off : ∀ a, (T.stage a).isRunning = false → T.next a = none
  linked : ∀ a b, T.next a = some b → T.stage b = .next
  once : ∀ a a' b, T.next a = some b → T.next a' = some b → a = a'

omit [DecidableEq α] in
lemma sound_init : (Roster.init : Roster α).Sound where
  off _ _ := rfl
  linked _ _ h := by cases h
  once _ _ _ h := by cases h

variable {T : Roster α} {a b : α} {x : Stage}

omit [DecidableEq α] in
lemma Roster.Sound.running (hT : T.Sound) (h : T.next a = some b) : (T.stage a).isRunning := by
  by_contra hn
  rw [hT.off a (by simpa using hn)] at h
  cases h

omit [DecidableEq α] in
lemma Roster.Sound.ne (hT : T.Sound) (h : T.next a = some b) : a ≠ b := by
  rintro rfl
  have hrun := hT.running h
  rw [hT.linked a a h] at hrun
  cases hrun

lemma Roster.release_of_ne (h : T.next a ≠ some b) : T.release a b = T.stage b := by
  unfold Roster.release
  cases hn : T.next a with
  | none => rfl
  | some c =>
    refine Function.update_of_ne ?_ ..
    rintro rfl
    exact h hn

lemma Roster.release_next (h : T.next a = some b) : T.release a b = .stopped := by
  unfold Roster.release
  rw [h]
  exact Function.update_self ..

/-- A table that nobody waits for and that waits for nobody changes its stage. -/
lemma sound_update (hT : T.Sound) (ha : T.stage a ≠ .next)
    (hx : x.isRunning = false → T.next a = none) :
    Roster.Sound { T with stage := Function.update T.stage a x } where
  off c hc := by
    by_cases hca : c = a
    · subst hca
      exact hx (by simpa using hc)
    · exact hT.off c (by simpa [Function.update_of_ne hca] using hc)
  linked c d hcd := by
    have hd := hT.linked c d hcd
    have hda : d ≠ a := by
      rintro rfl
      exact ha hd
    simpa [Function.update_of_ne hda] using hd
  once := hT.once

/-- A table has no table after it any more. -/
lemma sound_release (hT : T.Sound) (ha : (T.stage a).isRunning) :
    Roster.Sound { T with
      stage := Function.update (T.release a) a .stopped
      next := Function.update T.next a none } where
  off c hc := by
    dsimp only at hc ⊢
    by_cases hca : c = a
    · rw [hca, Function.update_self]
    · rw [Function.update_of_ne hca] at hc ⊢
      by_cases hnext : T.next a = some c
      · exact hT.off c (by rw [hT.linked a c hnext]; rfl)
      · rw [Roster.release_of_ne hnext] at hc
        exact hT.off c hc
  linked c d hcd := by
    dsimp only at hcd ⊢
    have hca : c ≠ a := by
      rintro rfl
      rw [Function.update_self] at hcd
      cases hcd
    rw [Function.update_of_ne hca] at hcd
    have hd := hT.linked c d hcd
    have hda : d ≠ a := by
      rintro rfl
      rw [hd] at ha
      cases ha
    have hnext : T.next a ≠ some d := fun h => hca (hT.once c a d hcd h)
    rw [Function.update_of_ne hda, Roster.release_of_ne hnext]
    exact hd
  once c c' d hc hc' := by
    dsimp only at hc hc'
    have hca : c ≠ a := by
      rintro rfl
      rw [Function.update_self] at hc
      cases hc
    have hca' : c' ≠ a := by
      rintro rfl
      rw [Function.update_self] at hc'
      cases hc'
    rw [Function.update_of_ne hca] at hc
    rw [Function.update_of_ne hca'] at hc'
    exact hT.once c c' d hc hc'

/-- The table after this one takes over. -/
lemma sound_handOver (hT : T.Sound) (hb : T.next a = some b) (hx : x.isRunning) :
    Roster.Sound { T with
      stage := Function.update (Function.update T.stage a .stopped) b x
      next := Function.update T.next a none } := by
  have hab := hT.ne hb
  have hstage : Function.update (Function.update T.stage a .stopped) b x =
      Function.update (Function.update (T.release a) a .stopped) b x := by
    unfold Roster.release
    rw [hb, Function.update_comm hab.symm, Function.update_idem]
  have hT' := sound_release hT (hT.running hb)
  have hoff : Function.update (T.release a) a .stopped b = .stopped := by
    rw [Function.update_of_ne hab.symm, Roster.release_next hb]
  rw [hstage]
  refine sound_update hT' (by simp [hoff]) fun h => ?_
  rw [hx] at h
  cases h

/-- A table gets another table after it. -/
lemma sound_chain (hT : T.Sound) (ha : (T.stage a).isRunning) (hb : T.stage b = .stopped) :
    Roster.Sound { T with
      stage := Function.update (T.release a) b .next
      next := Function.update T.next a (some b) } where
  off c hc := by
    dsimp only at hc ⊢
    have hab : a ≠ b := by
      rintro rfl
      rw [hb] at ha
      cases ha
    have hca : c ≠ a := by
      rintro rfl
      rw [Function.update_of_ne hab, Roster.release_of_ne fun h => hT.ne h rfl, ha] at hc
      cases hc
    rw [Function.update_of_ne hca]
    by_cases hcb : c = b
    · rw [hcb]
      exact hT.off b (by rw [hb]; rfl)
    · rw [Function.update_of_ne hcb] at hc
      by_cases hnext : T.next a = some c
      · exact hT.off c (by rw [hT.linked a c hnext]; rfl)
      · rw [Roster.release_of_ne hnext] at hc
        exact hT.off c hc
  linked c d hcd := by
    dsimp only at hcd ⊢
    by_cases hca : c = a
    · rw [hca, Function.update_self] at hcd
      rw [← Option.some.inj hcd, Function.update_self]
    · rw [Function.update_of_ne hca] at hcd
      have hd := hT.linked c d hcd
      have hdb : d ≠ b := by
        rintro rfl
        rw [hb] at hd
        cases hd
      have hnext : T.next a ≠ some d := fun h => hca (hT.once c a d hcd h)
      rw [Function.update_of_ne hdb, Roster.release_of_ne hnext]
      exact hd
  once := by
    have hfree : ∀ c, T.next c ≠ some b := by
      intro c hc
      have := hT.linked c b hc
      rw [hb] at this
      cases this
    intro c c' d hc hc'
    dsimp only at hc hc'
    by_cases hca : c = a <;> by_cases hca' : c' = a
    · rw [hca, hca']
    · rw [hca, Function.update_self] at hc
      rw [Function.update_of_ne hca', ← Option.some.inj hc] at hc'
      exact absurd hc' (hfree c')
    · rw [hca', Function.update_self] at hc'
      rw [Function.update_of_ne hca, ← Option.some.inj hc'] at hc
      exact absurd hc (hfree c)
    · rw [Function.update_of_ne hca] at hc
      rw [Function.update_of_ne hca'] at hc'
      exact hT.once c c' d hc hc'

end Sound

variable [Fintype α]

section HandOver

variable {db : CounterDb w} {σ : α → SchedTabDb w} {T T' : Roster α} {a b : α} {begun : ℕ}
variable {x : Event α} {xs : List (Event α)}

lemma step_point {i : ℕ} (hs : T.step σ (.point a i) = some T') :
    ∃ begun, T.stage a = .running begun (some i) ∧ T.now = due (σ a) begun (some i) ∧
      T' = { T with stage := Function.update T.stage a (.running begun (after (σ a) i)) } := by
  dsimp only [Roster.step] at hs
  split at hs
  · rename_i begun j hstage
    split_ifs at hs with h
    obtain ⟨rfl, hdue⟩ := h
    exact ⟨begun, hstage, hdue, (Option.some.inj hs).symm⟩
  · cases hs

lemma step_finished (hs : T.step σ (.finished a) = some T') :
    (∃ begun, T.stage a = .running begun none) ∧ T.next a = none ∧
      T' = { T with stage := Function.update T.stage a .stopped } := by
  dsimp only [Roster.step] at hs
  split at hs
  · rename_i begun hstage
    split_ifs at hs with h
    exact ⟨⟨begun, hstage⟩, h.1, (Option.some.inj hs).symm⟩
  · cases hs

lemma step_ended (hs : T.step σ (.ended a) = some T') :
    ∃ begun, T.stage a = .running begun none ∧ T.now = due (σ a) begun none ∧
      ((∃ b, T.next a = some b ∧ T' = { T with
          stage := Function.update (Function.update T.stage a .stopped) b
            (.running T.now (some 0))
          next := Function.update T.next a none }) ∨
        T.next a = none ∧
          T' = { T with stage := Function.update T.stage a (.running T.now (some 0)) }) := by
  dsimp only [Roster.step] at hs
  split at hs
  · rename_i begun hstage
    by_cases hdue : T.now = due (σ a) begun none
    · rw [if_pos hdue] at hs
      refine ⟨begun, hstage, hdue, ?_⟩
      cases hb : T.next a with
      | some b =>
        rw [hb] at hs
        exact Or.inl ⟨b, rfl, (Option.some.inj hs).symm⟩
      | none =>
        rw [hb] at hs
        dsimp only at hs
        split_ifs at hs
        exact Or.inr ⟨rfl, (Option.some.inj hs).symm⟩
    · rw [if_neg hdue] at hs
      cases hs
  · cases hs

lemma sound_step (hT : T.Sound) (hs : T.step σ x = some T') : T'.Sound := by
  cases x with
  | started a delay =>
    dsimp only [Roster.step] at hs
    split_ifs at hs with ha
    obtain rfl := Option.some.inj hs
    exact sound_update hT (by rw [ha]; simp) fun h => by cases h
  | chained a b =>
    dsimp only [Roster.step] at hs
    split_ifs at hs with hab
    obtain rfl := Option.some.inj hs
    exact sound_chain hT hab.1 hab.2
  | stopped a =>
    dsimp only [Roster.step] at hs
    split_ifs at hs with ha
    obtain rfl := Option.some.inj hs
    exact sound_release hT ha
  | tick =>
    dsimp only [Roster.step] at hs
    split_ifs at hs
    obtain rfl := Option.some.inj hs
    exact ⟨hT.off, hT.linked, hT.once⟩
  | point a i =>
    obtain ⟨begun, hstage, -, rfl⟩ := step_point hs
    exact sound_update hT (by rw [hstage]; simp) fun h => by cases h
  | finished a =>
    obtain ⟨⟨begun, hstage⟩, hnext, rfl⟩ := step_finished hs
    exact sound_update hT (by rw [hstage]; simp) fun _ => hnext
  | ended a =>
    obtain ⟨begun, hstage, -, ⟨b, hb, rfl⟩ | ⟨-, rfl⟩⟩ := step_ended hs
    · exact sound_handOver hT hb rfl
    · exact sound_update hT (by rw [hstage]; simp) fun h => by cases h

/-- The round of the table goes on, and the other table waits for its end. -/
structure Pending (σ : α → SchedTabDb w) (a b : α) (begun : ℕ) (T : Roster α) : Prop where
  sound : T.Sound
  running : ∃ position, T.stage a = .running begun position ∧
    ∀ i ∈ position, i < (σ a).expiryPoints.length
  next : T.next a = some b
  in_time : T.now ≤ due (σ a) begun none

/-- At this step the other table takes over. -/
def TakesOver (σ : α → SchedTabDb w) (a b : α) (begun : ℕ) (T : Roster α) (x : Event α)
    (T' : Roster α) : Prop :=
  x = .ended a ∧ T.now = due (σ a) begun none ∧ T'.stage a = .stopped ∧
    T'.stage b = .running T.now (some 0) ∧ T'.next b = none

omit [DecidableEq α] [Fintype α] in
lemma due_le {t : SchedTabDb w} {position : Option ℕ} (hv : Valid db t)
    (h : ∀ i ∈ position, i < t.expiryPoints.length) :
    due t begun position ≤ due t begun none := by
  cases position with
  | none => rfl
  | some i => exact Nat.add_le_add_left (hv.within i (h i rfl)) begun

/-- **A step of the roster** leaves the hand-over to come, or is the hand-over. -/
lemma pending_step (hv : Valid db (σ a)) (hp : Pending σ a b begun T) (hstop : x ≠ .stopped a)
    (hchain : ∀ c, x ≠ .chained a c) (hs : T.step σ x = some T') :
    Pending σ a b begun T' ∨ TakesOver σ a b begun T x T' := by
  have hsound := sound_step hp.sound hs
  obtain ⟨position, hstage, hin⟩ := hp.running
  have hrun : (T.stage a).isRunning := by
    rw [hstage]
    rfl
  have hfree : ∀ c, T.next c ≠ some a := by
    intro c hc
    have := hp.sound.linked c a hc
    rw [hstage] at this
    cases this
  cases x with
  | started c delay =>
    dsimp only [Roster.step] at hs
    split_ifs at hs with hc
    obtain rfl := Option.some.inj hs
    have hac : a ≠ c := by
      rintro rfl
      rw [hc] at hrun
      cases hrun
    exact Or.inl ⟨hsound, ⟨position, by simpa [Function.update_of_ne hac] using hstage, hin⟩,
      hp.next, hp.in_time⟩
  | chained c d =>
    dsimp only [Roster.step] at hs
    split_ifs at hs with hcd
    obtain rfl := Option.some.inj hs
    have hac : a ≠ c := by
      rintro rfl
      exact hchain d rfl
    have had : a ≠ d := by
      rintro rfl
      rw [hcd.2] at hrun
      cases hrun
    refine Or.inl ⟨hsound, ⟨position, ?_, hin⟩, ?_, hp.in_time⟩
    · dsimp only
      rw [Function.update_of_ne had, Roster.release_of_ne (hfree c)]
      exact hstage
    · exact (Function.update_of_ne hac ..).trans hp.next
  | stopped c =>
    dsimp only [Roster.step] at hs
    split_ifs at hs with hc
    obtain rfl := Option.some.inj hs
    have hac : a ≠ c := by
      rintro rfl
      exact hstop rfl
    refine Or.inl ⟨hsound, ⟨position, ?_, hin⟩, ?_, hp.in_time⟩
    · dsimp only
      rw [Function.update_of_ne hac, Roster.release_of_ne (hfree c)]
      exact hstage
    · exact (Function.update_of_ne hac ..).trans hp.next
  | tick =>
    dsimp only [Roster.step] at hs
    split_ifs at hs with hearly
    obtain rfl := Option.some.inj hs
    have hlt := hearly a
    rw [hstage] at hlt
    exact Or.inl ⟨hsound, ⟨position, hstage, hin⟩, hp.next,
      Nat.succ_le_of_lt (lt_of_lt_of_le hlt (due_le hv hin))⟩
  | point c i =>
    obtain ⟨begun', hc, -, rfl⟩ := step_point hs
    by_cases hac : a = c
    · subst hac
      obtain ⟨rfl, rfl⟩ := Stage.running.inj (hstage.symm.trans hc)
      refine Or.inl ⟨hsound, ⟨_, Function.update_self .., fun k hk => ?_⟩, hp.next, hp.in_time⟩
      unfold after at hk
      split_ifs at hk with hlt
      · obtain rfl := Option.some.inj hk
        exact hlt
      · cases hk
    · exact Or.inl ⟨hsound, ⟨position, by simpa [Function.update_of_ne hac] using hstage, hin⟩,
        hp.next, hp.in_time⟩
  | finished c =>
    obtain ⟨-, hnext, rfl⟩ := step_finished hs
    have hac : a ≠ c := by
      rintro rfl
      cases hp.next.symm.trans hnext
    exact Or.inl ⟨hsound, ⟨position, by simpa [Function.update_of_ne hac] using hstage, hin⟩,
      hp.next, hp.in_time⟩
  | ended c =>
    obtain ⟨begun', hc, hdue, hor⟩ := step_ended hs
    by_cases hac : a = c
    · subst hac
      obtain ⟨rfl, rfl⟩ := Stage.running.inj (hstage.symm.trans hc)
      have hab := hp.sound.ne hp.next
      have hbnext : T.next b = none :=
        hp.sound.off b (by rw [hp.sound.linked a b hp.next]; rfl)
      rcases hor with ⟨b', hb', rfl⟩ | ⟨hnone, -⟩
      · obtain rfl : b = b' := Option.some.inj (hp.next.symm.trans hb')
        refine Or.inr ⟨rfl, hdue, ?_, Function.update_self .., ?_⟩
        · exact (Function.update_of_ne hab ..).trans (Function.update_self ..)
        · exact (Function.update_of_ne hab.symm ..).trans hbnext
      · cases hp.next.symm.trans hnone
    · rcases hor with ⟨d, hd, rfl⟩ | ⟨-, rfl⟩
      · have had : a ≠ d := by
          rintro rfl
          exact hfree c hd
        refine Or.inl ⟨hsound, ⟨position, ?_, hin⟩, ?_, hp.in_time⟩
        · dsimp only
          rw [Function.update_of_ne had, Function.update_of_ne hac]
          exact hstage
        · exact (Function.update_of_ne hac ..).trans hp.next
      · exact Or.inl ⟨hsound, ⟨position, by simpa [Function.update_of_ne hac] using hstage, hin⟩,
          hp.next, hp.in_time⟩

/-- The hand-over is still to come, or it is one of the events. -/
def HandsOver (σ : α → SchedTabDb w) (a b : α) (begun : ℕ) (T : Roster α) (xs : List (Event α))
    (T' : Roster α) : Prop :=
  Pending σ a b begun T' ∨ ∃ xs₁ x xs₂ T₁ T₂, xs = xs₁ ++ x :: xs₂ ∧
    exec (Roster.step σ) T xs₁ = some T₁ ∧ T₁.step σ x = some T₂ ∧
    TakesOver σ a b begun T₁ x T₂ ∧ exec (Roster.step σ) T₂ xs₂ = some T'

/-- **A run of the roster** in which the table is not stopped and gets no other table after it. -/
lemma handsOver_exec (hv : Valid db (σ a)) (hp : Pending σ a b begun T)
    (hxs : ∀ x ∈ xs, x ≠ .stopped a ∧ ∀ c, x ≠ .chained a c)
    (hs : exec (Roster.step σ) T xs = some T') : HandsOver σ a b begun T xs T' := by
  induction xs generalizing T with
  | nil =>
    obtain rfl : T = T' := by simpa using hs
    exact Or.inl hp
  | cons x xs ih =>
    obtain ⟨T₁, hs₁, hs⟩ := (exec_cons _).mp hs
    obtain ⟨hstop, hchain⟩ := hxs x List.mem_cons_self
    rcases pending_step hv hp hstop hchain hs₁ with hp₁ | htakes
    · rcases ih hp₁ (fun y hy => hxs y (List.mem_cons_of_mem _ hy)) hs with hp' | h
      · exact Or.inl hp'
      · obtain ⟨xs₁, y, xs₂, T₂, T₃, rfl, hs₂, hs₃, htakes, hs₄⟩ := h
        exact Or.inr ⟨x :: xs₁, y, xs₂, T₂, T₃, rfl, (exec_cons _).mpr ⟨T₁, hs₁, hs₂⟩, hs₃,
          htakes, hs₄⟩
    · exact Or.inr ⟨[], x, xs, T, T₁, rfl, rfl, hs₁, htakes, hs⟩

end HandOver

end FpMemSched.Erika.Rosters
