import FpMemSched.Erika.Started
import FpMemSched.Lib.Places

/-!
Where the scheduler nodes are.

Each node is in exactly one of the queues of the core, or is kept by a task that waits for an
event. DPREM uses the field that an event wait keeps its node in, `p_own_sn`, for the tasks it
suspends as well; the two do not meet because a task waits for an event only between its call
of `WaitEvent` and its return from it, and is in no memory phase then. Tasks that wait for
events have one activation.
-/

namespace FpMemSched.Erika.Nodes

open FpMemSched.Lib.Runs FpMemSched.Lib.Places FpMemSched.Erika.Kernel FpMemSched.Erika.Dprem
open FpMemSched.Erika.Order FpMemSched.Erika.Started
open FpMemSched.Arbiter (Reply)

variable {ν : Type} [DecidableEq ν] {κ : Kdb} {s s' : Core ν} {n : Node ν} {stk : List (Node ν)}

inductive Place
  | free | rq | stk | susp
  | sem (k : Sem)
  /-- Kept in `p_own_sn` by a task in `WaitEvent`. -/
  | held (t : Tid)
  deriving DecidableEq

/-- How often a node is at a place. -/
def nocc (s : Core ν) : Place → ν → ℕ
  | .free, n => (s.free.map Node.sn).count n
  | .rq, n => (s.rq.map Node.sn).count n
  | .stk, n => (s.stk.map Node.sn).count n
  | .susp, n => (s.suspended.map Node.sn).count n
  | .sem k, n => ((s.blocked k).map Node.sn).count n
  | .held t, n => if s.inWait t = true ∧ s.ownSn t = some n then 1 else 0

def Listed (s : Core ν) (m : Node ν) : Prop :=
  m ∈ s.rq ∨ m ∈ s.stk ∨ m ∈ s.suspended ∨ ∃ k, m ∈ s.blocked k

/-- A task that has one activation at most. -/
def Single (κ : Kdb) (t : Tid) : Prop := (κ.tdb t).Regular ∧ (κ.tdb t).maxNumOfAct = 1

/-- The nodes and the tasks they stand for: a node in use stands for the task its entry names,
and a task with one activation has one node at most. -/
structure Holds (κ : Kdb) (s : Core ν) (place : ν → Option Place) (job : ν → Tid) : Prop where
  exact : Exact (nocc s) place
  listed : ∀ m, Listed s m → job m.sn = m.task
  held : ∀ t n, s.inWait t = true → s.ownSn t = some n → job n = t
  single : ∀ n, Single κ (job n) → place n ≠ some .free → s.numOfAct (job n) = 1 ∧
    ∀ n', place n' ≠ some .free → job n' = job n → n' = n

/-! ### Moves -/

variable {place : ν → Option Place} {job : ν → Tid}

/-- A node in use goes elsewhere. -/
lemma Holds.move (h : Holds κ s place job) (a : ν) (P : Option Place)
    (ha : place a ≠ some .free)
    (hocc : ∀ p b, nocc s' p b + (if b = a then ind (place a) p else 0) =
      nocc s p b + (if b = a then ind P p else 0))
    (hlist : ∀ m, Listed s' m → Listed s m ∨ job m.sn = m.task)
    (hheld : ∀ t n, s'.inWait t = true → s'.ownSn t = some n → job n = t)
    (hact : s'.numOfAct = s.numOfAct) : Holds κ s' (Function.update place a P) job := by
  have hused : ∀ m, Function.update place a P m ≠ some .free → place m ≠ some .free := by
    intro m hm
    by_cases hma : m = a
    · subst hma; exact ha
    · rwa [Function.update_of_ne hma] at hm
  refine ⟨h.exact.move P hocc, fun m hm => (hlist m hm).elim (h.listed m) id, hheld,
    fun m hs hm => ?_⟩
  rw [hact]
  obtain ⟨h₁, h₂⟩ := h.single m hs (hused m hm)
  exact ⟨h₁, fun m' hm' hj => h₂ m' (hused m' hm') hj⟩

lemma Holds.stk_mem (h : Holds κ s place job) (hn : n ∈ s.stk) :
    place n.sn = some .stk ∧ job n.sn = n.task := by
  have hpos : 0 < nocc s .stk n.sn := List.count_pos_iff.mpr (List.mem_map_of_mem hn)
  exact ⟨h.exact.place_eq hpos, h.listed n (Or.inr (Or.inl hn))⟩

lemma Holds.rq_mem (h : Holds κ s place job) (hn : n ∈ s.rq) :
    place n.sn = some .rq ∧ job n.sn = n.task := by
  have hpos : 0 < nocc s .rq n.sn := List.count_pos_iff.mpr (List.mem_map_of_mem hn)
  exact ⟨h.exact.place_eq hpos, h.listed n (Or.inl hn)⟩

lemma Holds.susp_mem (h : Holds κ s place job) (hn : n ∈ s.suspended) :
    place n.sn = some .susp ∧ job n.sn = n.task := by
  have hpos : 0 < nocc s .susp n.sn := List.count_pos_iff.mpr (List.mem_map_of_mem hn)
  exact ⟨h.exact.place_eq hpos, h.listed n (Or.inr (Or.inr (Or.inl hn)))⟩

lemma Holds.held_mem (h : Holds κ s place job) {t : Tid} {m : ν} (hw : s.inWait t = true)
    (ho : s.ownSn t = some m) : place m = some (.held t) ∧ job m = t :=
  ⟨h.exact.place_eq (p := .held t) (by simp [nocc, hw, ho]), h.held t m hw ho⟩

lemma Holds.listed_place (h : Holds κ s place job) (hn : Listed s n) :
    ∃ p, p ≠ Place.free ∧ place n.sn = some p := by
  rcases hn with hn | hn | hn | ⟨k, hn⟩
  · exact ⟨.rq, by simp, (h.rq_mem hn).1⟩
  · exact ⟨.stk, by simp, (h.stk_mem hn).1⟩
  · exact ⟨.susp, by simp, (h.susp_mem hn).1⟩
  · have hpos : 0 < nocc s (.sem k) n.sn := List.count_pos_iff.mpr (List.mem_map_of_mem hn)
    exact ⟨.sem k, by simp, h.exact.place_eq hpos⟩

lemma count_sn_cons (n : Node ν) (l : List (Node ν)) (b : ν) :
    ((n :: l).map Node.sn).count b = (l.map Node.sn).count b + if b = n.sn then 1 else 0 := by
  rw [List.map_cons, List.count_cons]
  by_cases hb : b = n.sn
  · simp [hb]
  · simp [hb, Ne.symm hb]

lemma count_sn_perm {l l' : List (Node ν)} (h : l.Perm l') (b : ν) :
    (l.map Node.sn).count b = (l'.map Node.sn).count b :=
  (h.map Node.sn).count_eq b

/-- A node of the stack is taken in hand. -/
lemma Holds.fromStk (h : Holds κ s place job) (hstk : s.stk.Perm (n :: stk)) :
    Holds κ { s with stk := stk } (Function.update place n.sn none) job := by
  obtain ⟨hp, -⟩ := h.stk_mem (n := n) (by rw [hstk.mem_iff]; simp)
  refine h.move n.sn none (by rw [hp]; simp) (fun p b => ?_) (fun m hm => Or.inl ?_)
    h.held rfl
  · rw [hp]
    cases p with
    | stk =>
      simp only [nocc]
      rw [count_sn_perm hstk, count_sn_cons]
      simp [ind_some]
    | _ => simp [nocc, ind_some]
  · exact hm.imp_right (Or.imp_left fun hm => hstk.mem_iff.mpr (List.mem_cons_of_mem _ hm))

lemma Holds.fromSusp {susp : List (Node ν)} (h : Holds κ s place job)
    (hs : s.suspended.Perm (n :: susp)) :
    Holds κ { s with suspended := susp } (Function.update place n.sn none) job := by
  obtain ⟨hp, -⟩ := h.susp_mem (n := n) (by rw [hs.mem_iff]; simp)
  refine h.move n.sn none (by rw [hp]; simp) (fun p b => ?_) (fun m hm => Or.inl ?_)
    h.held rfl
  · rw [hp]
    cases p with
    | susp =>
      simp only [nocc]
      rw [count_sn_perm hs, count_sn_cons]
      simp [ind_some]
    | _ => simp [nocc, ind_some]
  · exact hm.imp_right (Or.imp_right (Or.imp_left fun hm =>
      hs.mem_iff.mpr (List.mem_cons_of_mem _ hm)))

/-- The first node of a semaphore queue is taken in hand. -/
lemma Holds.fromSem {k : Sem} {q : List (Node ν)} (h : Holds κ s place job)
    (hk : s.blocked k = n :: q) :
    Holds κ { s with blocked := Function.update s.blocked k q }
      (Function.update place n.sn none) job := by
  have hpos : 0 < nocc s (.sem k) n.sn :=
    List.count_pos_iff.mpr (List.mem_map_of_mem (by rw [hk]; simp))
  have hp := h.exact.place_eq hpos
  refine h.move n.sn none (by rw [hp]; simp) (fun p b => ?_) (fun m hm => Or.inl ?_)
    h.held rfl
  · rw [hp]
    cases p with
    | sem j =>
      simp only [nocc, ind_some, Place.sem.injEq, ind_none]
      by_cases hjk : j = k
      · subst hjk
        rw [Function.update_self, hk, count_sn_cons]
        simp
      · rw [Function.update_of_ne hjk]
        simp [Ne.symm hjk]
    | _ => simp [nocc, ind_some]
  · unfold Listed at hm ⊢
    dsimp only at hm
    rcases hm with hm | hm | hm | ⟨j, hm⟩
    · exact Or.inl hm
    · exact Or.inr (Or.inl hm)
    · exact Or.inr (Or.inr (Or.inl hm))
    · refine Or.inr (Or.inr (Or.inr ⟨j, ?_⟩))
      by_cases hjk : j = k
      · subst hjk
        rw [Function.update_self] at hm
        rw [hk]
        exact List.mem_cons_of_mem _ hm
      · rwa [Function.update_of_ne hjk] at hm

/-- The node that a task in `WaitEvent` keeps is taken in hand. -/
lemma Holds.fromHeld {t : Tid} {m : ν} {T : Tcbs ν} (h : Holds κ s place job)
    (hwt : s.inWait t = true) (hot : s.ownSn t = some m) (hw : T.inWait = s.inWait)
    (ho : T.ownSn = Function.update s.ownSn t none) (ha : T.numOfAct = s.numOfAct) :
    Holds κ ⟨T, s.free, s.rq, s.stk, s.suspended, s.blocked⟩
      (Function.update place m none) job := by
  obtain ⟨hp, -⟩ := h.held_mem hwt hot
  refine h.move m none (by rw [hp]; simp) (fun p b => ?_) (fun m hm => Or.inl hm)
    (fun u m' hwu hou => ?_) ha
  · rw [hp]
    cases p with
    | held u =>
      simp only [nocc, hw, ho, ind_some, Place.held.injEq, ind_none]
      by_cases hu : u = t
      · subst hu
        simp only [Function.update_self, hwt, hot]
        by_cases hb : b = m
        · simp [hb]
        · simp [hb, Ne.symm hb]
      · rw [Function.update_of_ne hu]
        simp [Ne.symm hu]
    | _ => simp [nocc, ind_some]
  · simp only [hw, ho] at hwu hou
    by_cases hu : u = t
    · subst hu
      rw [Function.update_self] at hou
      simp at hou
    · rw [Function.update_of_ne hu] at hou
      exact h.held u m' hwu hou

/-- A rescheduling takes at most one node from the ready queue to the stack. -/
lemma Holds.settle (h : Holds κ s place job) :
    ∃ place', Holds κ (settle κ s) place' job ∧
      ∀ m, place' m = none ↔ place m = none := by
  rcases settle_cases κ s with ⟨he, -⟩ | ⟨q, rq, hr, -, he⟩
  · rw [he]
    exact ⟨place, ⟨h.exact, h.listed, h.held, h.single⟩, fun m => Iff.rfl⟩
  · rw [he]
    obtain ⟨hp, -⟩ := h.rq_mem (n := q) (by rw [hr]; simp)
    refine ⟨Function.update place q.sn (some .stk),
      h.move q.sn (some .stk) (by rw [hp]; simp) (fun p b => ?_)
        (fun m hm => Or.inl ?_) h.held rfl, fun m => ?_⟩
    · rw [hp]
      cases p with
      | stk =>
        simp only [nocc, stkNext]
        rw [count_sn_cons]
        simp [ind_some]
      | rq =>
        simp only [nocc, stkNext]
        rw [hr, count_sn_cons]
        simp [ind_some]
      | _ => simp [nocc, ind_some, stkNext, Tcbs.dispatch]
    · unfold Listed at hm ⊢
      dsimp only [stkNext] at hm
      rw [List.mem_cons] at hm
      rw [hr, List.mem_cons]
      tauto
    · by_cases hm : m = q.sn
      · subst hm
        rw [Function.update_self, hp]
        simp
      · rw [Function.update_of_ne hm]

/-- Statuses, priorities and the like do not matter, nor does a field `p_own_sn` that is not in
use. -/
lemma Holds.frame (h : Holds κ s place job) {T : Tcbs ν}
    (hw : ∀ t m, T.inWait t = true ∧ T.ownSn t = some m ↔
      s.inWait t = true ∧ s.ownSn t = some m)
    (ha : T.numOfAct = s.numOfAct) :
    Holds κ ⟨T, s.free, s.rq, s.stk, s.suspended, s.blocked⟩ place job := by
  have hocc : nocc ⟨T, s.free, s.rq, s.stk, s.suspended, s.blocked⟩ = nocc s := by
    funext p b
    cases p with
    | held t => simp only [nocc, hw]
    | _ => rfl
  refine ⟨hocc ▸ h.exact, h.listed, fun t m hwt hot => ?_, ?_⟩
  · obtain ⟨hwt, hot⟩ := (hw t m).mp ⟨hwt, hot⟩
    exact h.held t m hwt hot
  · simp only [ha]
    exact h.single

section Put

variable (h : Holds κ s place job) (hn : place n.sn = none) (hj : job n.sn = n.task)

include h hn hj

lemma Holds.toRq {rq : List (Node ν)} (hp : rq.Perm (n :: s.rq)) :
    Holds κ { s with rq := rq } (Function.update place n.sn (some .rq)) job := by
  refine h.move n.sn (some .rq) (by simp [hn]) (fun p b => ?_) (fun m hm => ?_) h.held rfl
  · rw [hn]
    cases p with
    | rq =>
      simp only [nocc]
      rw [count_sn_perm hp, count_sn_cons]
      simp [ind_some]
    | _ => simp [nocc, ind_some]
  · unfold Listed at hm ⊢
    rw [hp.mem_iff, List.mem_cons] at hm
    rcases hm with (rfl | hm) | hm
    · exact Or.inr hj
    · exact Or.inl (Or.inl hm)
    · exact Or.inl (Or.inr hm)

lemma Holds.toStk {stk : List (Node ν)} (hp : stk.Perm (n :: s.stk)) :
    Holds κ { s with stk := stk } (Function.update place n.sn (some .stk)) job := by
  refine h.move n.sn (some .stk) (by simp [hn]) (fun p b => ?_) (fun m hm => ?_) h.held rfl
  · rw [hn]
    cases p with
    | stk =>
      simp only [nocc]
      rw [count_sn_perm hp, count_sn_cons]
      simp [ind_some]
    | _ => simp [nocc, ind_some]
  · unfold Listed at hm ⊢
    rw [hp.mem_iff, List.mem_cons] at hm
    rcases hm with hm | (rfl | hm) | hm
    · exact Or.inl (Or.inl hm)
    · exact Or.inr hj
    · exact Or.inl (Or.inr (Or.inl hm))
    · exact Or.inl (Or.inr (Or.inr hm))

lemma Holds.toSusp {susp : List (Node ν)} (hp : susp.Perm (n :: s.suspended)) :
    Holds κ { s with suspended := susp } (Function.update place n.sn (some .susp)) job := by
  refine h.move n.sn (some .susp) (by simp [hn]) (fun p b => ?_) (fun m hm => ?_) h.held rfl
  · rw [hn]
    cases p with
    | susp =>
      simp only [nocc]
      rw [count_sn_perm hp, count_sn_cons]
      simp [ind_some]
    | _ => simp [nocc, ind_some]
  · unfold Listed at hm ⊢
    rw [hp.mem_iff, List.mem_cons] at hm
    rcases hm with hm | hm | (rfl | hm) | hm
    · exact Or.inl (Or.inl hm)
    · exact Or.inl (Or.inr (Or.inl hm))
    · exact Or.inr hj
    · exact Or.inl (Or.inr (Or.inr (Or.inl hm)))
    · exact Or.inl (Or.inr (Or.inr (Or.inr hm)))

lemma Holds.toSem {k : Sem} {q : List (Node ν)} (hp : q.Perm (n :: s.blocked k)) :
    Holds κ { s with blocked := Function.update s.blocked k q }
      (Function.update place n.sn (some (.sem k))) job := by
  refine h.move n.sn (some (.sem k)) (by simp [hn]) (fun p b => ?_) (fun m hm => ?_) h.held rfl
  · rw [hn]
    cases p with
    | sem j =>
      simp only [nocc, ind_some, Place.sem.injEq]
      by_cases hjk : j = k
      · subst hjk
        rw [Function.update_self, count_sn_perm hp, count_sn_cons]
        simp
      · rw [Function.update_of_ne hjk]
        simp [Ne.symm hjk]
    | _ => simp [nocc, ind_some]
  · unfold Listed at hm ⊢
    dsimp only at hm
    rcases hm with hm | hm | hm | ⟨j, hm⟩
    · exact Or.inl (Or.inl hm)
    · exact Or.inl (Or.inr (Or.inl hm))
    · exact Or.inl (Or.inr (Or.inr (Or.inl hm)))
    · by_cases hjk : j = k
      · subst hjk
        rw [Function.update_self, hp.mem_iff, List.mem_cons] at hm
        rcases hm with rfl | hm
        · exact Or.inr hj
        · exact Or.inl (Or.inr (Or.inr (Or.inr ⟨j, hm⟩)))
      · rw [Function.update_of_ne hjk] at hm
        exact Or.inl (Or.inr (Or.inr (Or.inr ⟨j, hm⟩)))

/-- The node is kept by its task, which kept none before. -/
lemma Holds.toHeld {T : Tcbs ν} (hno : s.inWait n.task = false)
    (hw : T.inWait = Function.update s.inWait n.task true)
    (ho : T.ownSn = Function.update s.ownSn n.task (some n.sn))
    (ha : T.numOfAct = s.numOfAct) :
    Holds κ ⟨T, s.free, s.rq, s.stk, s.suspended, s.blocked⟩
      (Function.update place n.sn (some (.held n.task))) job := by
  refine h.move n.sn (some (.held n.task)) (by simp [hn]) (fun p b => ?_) (fun m hm => Or.inl hm)
    (fun t m hwt hot => ?_) ha
  · rw [hn]
    cases p with
    | held t =>
      simp only [nocc, hw, ho, ind_some, Place.held.injEq]
      by_cases ht : t = n.task
      · subst ht
        simp only [Function.update_self, hno]
        by_cases hb : b = n.sn
        · simp [hb]
        · simp [hb, Ne.symm hb]
      · rw [Function.update_of_ne ht, Function.update_of_ne ht]
        simp [Ne.symm ht]
    | _ => simp [nocc, ind_some]
  · simp only [hw, ho] at hwt hot
    by_cases ht : t = n.task
    · subst ht
      rw [Function.update_self, Option.some.injEq] at hot
      rw [← hot]
      exact hj
    · rw [Function.update_of_ne ht] at hwt hot
      exact h.held t m hwt hot

/-- The activation the node stands for is over. -/
lemma Holds.toFree {T : Tcbs ν} (hw : T.inWait = s.inWait) (ho : T.ownSn = s.ownSn)
    (ha : T.numOfAct = Function.update s.numOfAct n.task (s.numOfAct n.task - 1)) :
    Holds κ ⟨T, n :: s.free, s.rq, s.stk, s.suspended, s.blocked⟩
      (Function.update place n.sn (some .free)) job := by
  have hused : ∀ m, Function.update place n.sn (some .free) m ≠ some .free →
      m ≠ n.sn ∧ place m ≠ some .free := by
    intro m hm
    have hmn : m ≠ n.sn := by
      rintro rfl
      rw [Function.update_self] at hm
      exact hm rfl
    rw [Function.update_of_ne hmn] at hm
    exact ⟨hmn, hm⟩
  refine ⟨h.exact.move _ fun p b => ?_, h.listed, ?_, fun m hs hm => ?_⟩
  · rw [hn]
    cases p with
    | free =>
      simp only [nocc]
      rw [count_sn_cons]
      simp [ind_some]
    | held t => simp [nocc, hw, ho, ind_some]
    | _ => simp [nocc, ind_some]
  · simp only [hw, ho]
    exact h.held
  · obtain ⟨hmn, hm⟩ := hused m hm
    obtain ⟨h₁, h₂⟩ := h.single m hs hm
    have hjm : job m ≠ n.task := by
      intro he
      exact hmn (h₂ n.sn (by simp [hn]) (hj.trans he.symm)).symm
    simp only [ha, Function.update_of_ne hjm]
    exact ⟨h₁, fun m' hm' hj' => h₂ m' (hused m' hm').2 hj'⟩

end Put

lemma Holds.start_single (h : Holds κ s place job) {m x : ν} {t : Tid} {P : Place}
    (hm : place m = some .free) (ht : Single κ t → s.numOfAct t = 0)
    (hs : Single κ (Function.update job m t x))
    (hx : Function.update place m (some P) x ≠ some .free) :
    Function.update s.numOfAct t (s.numOfAct t + 1) (Function.update job m t x) = 1 ∧
      ∀ y, Function.update place m (some P) y ≠ some .free →
        Function.update job m t y = Function.update job m t x → y = x := by
  -- a task with one activation has no other node in use
  have hnone : ∀ y, y ≠ m → place y ≠ some .free → Single κ (job y) → job y ≠ t := by
    intro y hy hp hs' he
    have h₁ := (h.single y hs' hp).1
    rw [he] at h₁ hs'
    rw [ht hs'] at h₁
    simp at h₁
  by_cases hxm : x = m
  · subst hxm
    rw [Function.update_self] at hs ⊢
    refine ⟨by rw [Function.update_self, ht hs], fun y hy hj => ?_⟩
    by_contra hyx
    rw [Function.update_of_ne hyx] at hy hj
    exact hnone y hyx hy (hj ▸ hs) hj
  · rw [Function.update_of_ne hxm] at hs hx ⊢
    have hxt := hnone x hxm hx hs
    obtain ⟨h₁, h₂⟩ := h.single x hs hx
    rw [Function.update_of_ne hxt]
    refine ⟨h₁, fun y hy hj => ?_⟩
    by_cases hym : y = m
    · subst hym
      rw [Function.update_self] at hj
      exact absurd hj.symm hxt
    · rw [Function.update_of_ne hym] at hy hj
      exact h₂ y hy hj

/-- A free node is used for a new activation, on the stack or in the ready queue. -/
lemma Holds.start {m : Node ν} {free rq stk : List (Node ν)} {t : Tid} {T : Tcbs ν}
    (h : Holds κ s place job) (hf : s.free = m :: free)
    (ht : Single κ t → s.numOfAct t = 0)
    (hlists : rq.Perm (⟨m.sn, t⟩ :: s.rq) ∧ stk = s.stk ∨ rq = s.rq ∧ stk = ⟨m.sn, t⟩ :: s.stk)
    (hw : T.inWait = s.inWait) (ho : T.ownSn = s.ownSn)
    (ha : T.numOfAct = Function.update s.numOfAct t (s.numOfAct t + 1)) :
    ∃ place' job', Holds κ ⟨T, free, rq, stk, s.suspended, s.blocked⟩ place' job' ∧
      ∀ n, place' n = none ↔ place n = none := by
  have hm : place m.sn = some .free := by
    have hpos : 0 < nocc s .free m.sn :=
      List.count_pos_iff.mpr (List.mem_map_of_mem (by rw [hf]; simp))
    exact h.exact.place_eq hpos
  obtain ⟨P, hP, hstk, hrq⟩ : ∃ P, (P = Place.rq ∨ P = Place.stk) ∧
      (∀ b, (stk.map Node.sn).count b = (s.stk.map Node.sn).count b +
        if b = m.sn then ind (some P) .stk else 0) ∧
      ∀ b, (rq.map Node.sn).count b = (s.rq.map Node.sn).count b +
        if b = m.sn then ind (some P) .rq else 0 := by
    rcases hlists with ⟨hp, rfl⟩ | ⟨rfl, rfl⟩
    · refine ⟨.rq, Or.inl rfl, fun b => by simp [ind_some], fun b => ?_⟩
      rw [count_sn_perm hp, count_sn_cons]
      simp [ind_some]
    · refine ⟨.stk, Or.inr rfl, fun b => ?_, fun b => by simp [ind_some]⟩
      rw [count_sn_cons]
      simp [ind_some]
  -- nobody but the new activation has the node
  have hother : ∀ x, Listed s x → x.sn ≠ m.sn := by
    intro x hx he
    obtain ⟨p, hp, hpx⟩ := h.listed_place hx
    rw [he, hm, Option.some.injEq] at hpx
    exact hp hpx.symm
  have hnew : ∀ x, Listed ⟨T, free, rq, stk, s.suspended, s.blocked⟩ x →
      Listed s x ∨ x = ⟨m.sn, t⟩ := by
    intro x hx
    rcases hlists with ⟨hp, rfl⟩ | ⟨rfl, rfl⟩
    · rcases hx with hx | hx
      · rcases List.mem_cons.mp (hp.mem_iff.mp hx) with he | hx
        · exact Or.inr he
        · exact Or.inl (Or.inl hx)
      · exact Or.inl (Or.inr hx)
    · rcases hx with hx | hx | hx
      · exact Or.inl (Or.inl hx)
      · rcases List.mem_cons.mp hx with he | hx
        · exact Or.inr he
        · exact Or.inl (Or.inr (Or.inl hx))
      · exact Or.inl (Or.inr (Or.inr hx))
  have hjob : ∀ x, place x ≠ some .free → Function.update job m.sn t x = job x := by
    intro x hx
    refine Function.update_of_ne (fun he => ?_) _ _
    rw [he] at hx
    exact hx hm
  refine ⟨Function.update place m.sn (some P), Function.update job m.sn t,
    ⟨h.exact.move _ fun p b => ?_, fun x hx => ?_, fun u x hwu hou => ?_, fun x hs hx => ?_⟩,
    fun x => ?_⟩
  · rw [hm]
    cases p with
    | free =>
      simp only [nocc]
      rw [hf, count_sn_cons]
      rcases hP with rfl | rfl <;> simp [ind_some]
    | rq => simp [nocc, hrq, ind_some]
    | stk => simp [nocc, hstk, ind_some]
    | held u => rcases hP with rfl | rfl <;> simp [nocc, hw, ho, ind_some]
    | _ => rcases hP with rfl | rfl <;> simp [nocc, ind_some]
  · rcases hnew x hx with hx | rfl
    · rw [Function.update_of_ne (hother x hx)]
      exact h.listed x hx
    · rw [Function.update_self]
  · simp only [hw, ho] at hwu hou
    obtain ⟨hp, hj⟩ := h.held_mem hwu hou
    rw [hjob x (by rw [hp]; simp)]
    exact hj
  · simp only [ha]
    exact h.start_single hm ht hs hx
  · by_cases hxm : x = m.sn
    · subst hxm
      rw [Function.update_self, hm]
      simp
    · rw [Function.update_of_ne hxm]

end FpMemSched.Erika.Nodes
