import FpMemSched.Erika.Multiqueue
import FpMemSched.Erika.Dispatch
import FpMemSched.Erika.Operations

/-!
Current and ready priorities without memory phases.

A task on the stack has a ready priority above the current priorities of all tasks below it,
and a task that is neither there nor waiting has its ready priority. So it makes no difference
to a rescheduling whether the head of the ready queue is judged by its current or by its ready
priority, as long as no task has two activations of which one waits for an event.
-/

namespace FpMemSched.Erika.ReadyPrio

open FpMemSched.Lib.Runs FpMemSched.Erika.Kernel
open FpMemSched.Erika.Dprem hiding step
open FpMemSched.Erika.Started FpMemSched.Erika.Dispatch FpMemSched.Erika.Operations
open FpMemSched.Erika.Multiqueue

variable {ν : Type} {κ : Kdb}

abbrev ready (κ : Kdb) (t : Tid) : ℕ := (κ.tdb t).readyPrio

/-! ### The levels of the stack -/

section Levels

variable {prio : Tid → ℕ} {stk : List (Node ν)} {n : Node ν} {t : Tid} {p : ℕ}

structure Levels (κ : Kdb) (prio : Tid → ℕ) (stk : List (Node ν)) : Prop where
  low : ∀ t, ready κ t ≤ prio t
  above : stk.Pairwise fun x y => prio y.task < ready κ x.task

lemma Levels.pop (h : Levels κ prio (n :: stk)) : Levels κ prio stk :=
  ⟨h.low, (List.pairwise_cons.mp h.above).2⟩

lemma Levels.below (h : Levels κ prio (n :: stk)) : ∀ y ∈ stk, prio y.task < ready κ n.task :=
  (List.pairwise_cons.mp h.above).1

/-- What exceeds the top of the stack exceeds the whole stack. -/
lemma Levels.exceeds (h : Levels κ prio stk) (hp : ∀ top ∈ stk.head?, prio top.task < p) :
    ∀ y ∈ stk, prio y.task < p := by
  rcases stk with _ | ⟨top, stk⟩
  · simp
  · have htop : prio top.task < p := hp top (by simp)
    intro y hy
    rcases List.mem_cons.mp hy with rfl | hy
    · exact htop
    · have h₁ := h.below y hy
      have h₂ := h.low top.task
      omega

lemma Levels.notMem (h : Levels κ prio stk)
    (hp : ∀ top ∈ stk.head?, prio top.task < ready κ t) : ∀ y ∈ stk, y.task ≠ t := by
  rintro y hy rfl
  have h₁ := h.exceeds hp y hy
  have h₂ := h.low y.task
  omega

/-- **Ready and current priority decide alike** for a task that has its ready priority, or is
on the stack, or exceeds the top of the stack anyway. -/
lemma Levels.decides (h : Levels κ prio stk)
    (ht : prio t = ready κ t ∨ t ∈ stk.map Node.task ∨
      ∀ top ∈ stk.head?, prio top.task < ready κ t) :
    ∀ top ∈ stk.head?, (prio top.task < prio t ↔ prio top.task < ready κ t) := by
  intro top htop
  have hlow := h.low t
  rcases ht with ht | ht | ht
  · rw [ht]
  · obtain ⟨y, hy, rfl⟩ := List.mem_map.mp ht
    -- the task is the top of the stack or below it
    have hle : prio y.task ≤ prio top.task := by
      rcases stk with _ | ⟨x, stk⟩
      · simp at hy
      · obtain rfl : x = top := by simpa using htop
        rcases List.mem_cons.mp hy with rfl | hy
        · exact le_rfl
        · have h₁ := h.below y hy
          have h₂ := h.low x.task
          omega
    constructor <;> intro hlt <;> omega
  · have := ht top htop
    constructor <;> intro _ <;> omega

/-- The priorities of the top of the stack and of tasks outside of it may change. -/
lemma Levels.update (h : Levels κ prio stk) (hp : ready κ t ≤ p)
    (ht : ∀ y ∈ stk.tail, y.task ≠ t) : Levels κ (Function.update prio t p) stk := by
  refine ⟨fun u => ?_, ?_⟩
  · by_cases hu : u = t
    · rw [hu, Function.update_self]
      exact hp
    · rw [Function.update_of_ne hu]
      exact h.low u
  · rcases stk with _ | ⟨x, stk⟩
    · exact List.Pairwise.nil
    · have ha := List.pairwise_cons.mp h.above
      refine List.pairwise_cons.mpr ⟨fun y hy => ?_, ha.2.imp_of_mem fun {x y} _ hy hxy => ?_⟩
      · rw [Function.update_of_ne (ht y hy)]
        exact ha.1 y hy
      · rw [Function.update_of_ne (ht y hy)]
        exact hxy

lemma Levels.push (h : Levels κ prio stk)
    (hp : ∀ top ∈ stk.head?, prio top.task < ready κ n.task) : Levels κ prio (n :: stk) :=
  ⟨h.low, List.pairwise_cons.mpr ⟨h.exceeds hp, h.above⟩⟩

end Levels

/-! ### The places of the nodes -/

section Placed

variable {free busy busy' : List (Node ν)} {own : Tid → Option ν} {act : Tid → ℕ}
  {n m : Node ν} {t : Tid}

/-- The nodes that are free, those of the ready queue and of the stack, and those of waiting
tasks are different nodes. A task that waits has no other node, and its activations are
counted. -/
structure Placed (free busy : List (Node ν)) (own : Tid → Option ν) (act : Tid → ℕ) : Prop where
  once : ((free ++ busy).map Node.sn).Nodup
  kept : ∀ t a, own t = some a → a ∉ (free ++ busy).map Node.sn
  inj : ∀ t u a, own t = some a → own u = some a → t = u
  lone : ∀ n ∈ busy, own n.task = none
  count : ∀ t, act t = (busy.map Node.task).count t + if own t = none then 0 else 1

lemma Placed.perm (h : Placed free busy own act) (hb : busy'.Perm busy) :
    Placed free busy' own act := by
  have hs := (hb.append_left free).map Node.sn
  refine ⟨hs.nodup_iff.mpr h.once, fun t a ht hm => h.kept t a ht (hs.mem_iff.mp hm), h.inj,
    fun n hn => h.lone n (hb.mem_iff.mp hn), fun t => ?_⟩
  rw [(hb.map Node.task).count_eq]
  exact h.count t

lemma count_add (t u : Tid) (l : List Tid) (own : Tid → Option ν) :
    (u :: l).count t + (if own t = none then 0 else 1) =
      Function.update (fun t => l.count t + if own t = none then 0 else 1) u
        (l.count u + (if own u = none then 0 else 1) + 1) t := by
  by_cases h : t = u
  · subst h
    rw [Function.update_self, List.count_cons_self]
    omega
  · rw [Function.update_of_ne h, List.count_cons_of_ne (Ne.symm h)]

/-- A free node stands for a new activation. -/
lemma Placed.start (h : Placed (m :: free) busy own act) (ht : own t = none) :
    Placed free (⟨m.sn, t⟩ :: busy) own (Function.update act t (act t + 1)) := by
  have hs : ((free ++ ⟨m.sn, t⟩ :: busy).map Node.sn).Perm ((m :: free ++ busy).map Node.sn) := by
    rw [List.map_append, List.map_cons, List.cons_append, List.map_cons, List.map_append]
    exact List.perm_middle
  refine ⟨hs.nodup_iff.mpr h.once, fun u a hu hm => h.kept u a hu (hs.mem_iff.mp hm), h.inj,
    fun n hn => ?_, fun u => ?_⟩
  · rcases List.mem_cons.mp hn with rfl | hn
    · exact ht
    · exact h.lone n hn
  · rw [List.map_cons, count_add, ← h.count t]
    exact congrFun (congrArg (Function.update · t _) (funext h.count)) u

/-- An activation ends and its node is free. -/
lemma Placed.finish (h : Placed free (n :: busy) own act) :
    Placed (n :: free) busy own (Function.update act n.task (act n.task - 1)) := by
  have hs : ((n :: free ++ busy).map Node.sn).Perm ((free ++ n :: busy).map Node.sn) :=
    (List.perm_middle.symm).map Node.sn
  refine ⟨hs.nodup_iff.mpr h.once, fun u a hu hm => h.kept u a hu (hs.mem_iff.mp hm), h.inj,
    fun m hm => h.lone m (List.mem_cons_of_mem _ hm), fun u => ?_⟩
  have hu := h.count u
  rw [List.map_cons] at hu
  by_cases he : u = n.task
  · subst he
    rw [List.count_cons_self] at hu
    rw [Function.update_self]
    omega
  · rw [List.count_cons_of_ne (Ne.symm he)] at hu
    rw [Function.update_of_ne he]
    exact hu

/-- A task of one activation waits and keeps its node. -/
lemma Placed.wait (h : Placed free (n :: busy) own act)
    (hact : act n.task ≤ 1) :
    Placed free busy (Function.update own n.task (some n.sn)) act := by
  have hnone := h.lone n List.mem_cons_self
  have hcount := h.count n.task
  rw [List.map_cons, List.count_cons_self] at hcount
  have hother : n.task ∉ busy.map Node.task := by
    rw [← List.count_eq_zero]
    omega
  have hs : (n.sn :: (free ++ busy).map Node.sn).Perm ((free ++ n :: busy).map Node.sn) :=
    (List.perm_middle.symm).map Node.sn
  have hn : n.sn ∉ (free ++ busy).map Node.sn :=
    (List.nodup_cons.mp (hs.nodup_iff.mpr h.once)).1
  have hnew : ∀ t, own t ≠ some n.sn := fun t ht =>
    h.kept t _ ht (hs.mem_iff.mp List.mem_cons_self)
  refine ⟨(List.nodup_cons.mp (hs.nodup_iff.mpr h.once)).2, fun t a ht hm => ?_,
    fun t u a ht hu => ?_, fun m hm => ?_, fun t => ?_⟩
  · by_cases he : t = n.task
    · rw [he, Function.update_self] at ht
      exact hn (Option.some.inj ht ▸ hm)
    · rw [Function.update_of_ne he] at ht
      exact h.kept t a ht (hs.mem_iff.mp (List.mem_cons_of_mem _ hm))
  · by_cases he : t = n.task <;> by_cases hf : u = n.task
    · rw [he, hf]
    · rw [he, Function.update_self] at ht
      rw [Function.update_of_ne hf] at hu
      exact absurd (ht ▸ hu) (hnew u)
    · rw [hf, Function.update_self] at hu
      rw [Function.update_of_ne he] at ht
      exact absurd (hu ▸ ht) (hnew t)
    · rw [Function.update_of_ne he] at ht
      rw [Function.update_of_ne hf] at hu
      exact h.inj t u a ht hu
  · have hne : m.task ≠ n.task := fun he => hother (he ▸ List.mem_map_of_mem hm)
    rw [Function.update_of_ne hne]
    exact h.lone m (List.mem_cons_of_mem _ hm)
  · by_cases he : t = n.task
    · rw [he, Function.update_self, if_neg (by simp), List.count_eq_zero.mpr hother]
      rw [if_pos hnone] at hcount
      omega
    · rw [Function.update_of_ne he, h.count t, List.map_cons, List.count_cons_of_ne (Ne.symm he)]

/-- A waiting task is woken. -/
lemma Placed.wake {a : ν} (h : Placed free busy own act) (ht : own t = some a) :
    Placed free (⟨a, t⟩ :: busy) (Function.update own t none) act := by
  have hs : ((free ++ ⟨a, t⟩ :: busy).map Node.sn).Perm (a :: (free ++ busy).map Node.sn) :=
    List.perm_middle.map Node.sn
  have hleft : ∀ u b, Function.update own t none u = some b → u ≠ t ∧ own u = some b := by
    intro u b hu
    have hne : u ≠ t := by
      rintro rfl
      rw [Function.update_self] at hu
      simp at hu
    rw [Function.update_of_ne hne] at hu
    exact ⟨hne, hu⟩
  refine ⟨hs.nodup_iff.mpr (List.nodup_cons.mpr ⟨h.kept t a ht, h.once⟩), fun u b hu hm => ?_,
    fun u v b hu hv => h.inj u v b (hleft u b hu).2 (hleft v b hv).2, fun m hm => ?_,
    fun u => ?_⟩
  · obtain ⟨hne, hu⟩ := hleft u b hu
    rcases List.mem_cons.mp (hs.mem_iff.mp hm) with rfl | hm
    · exact hne (h.inj u t b hu ht)
    · exact h.kept u b hu hm
  · by_cases he : m.task = t
    · rw [he, Function.update_self]
    · rw [Function.update_of_ne he]
      rcases List.mem_cons.mp hm with rfl | hm
      · exact absurd rfl he
      · exact h.lone m hm
  · have hu := h.count u
    rw [List.map_cons]
    by_cases he : u = t
    · subst he
      rw [ht, if_neg (by simp)] at hu
      rw [Function.update_self, if_pos rfl, List.count_cons_self]
      exact hu
    · rw [Function.update_of_ne he, List.count_cons_of_ne (Ne.symm he)]
      exact hu

end Placed

/-! ### Resources -/

section Held

variable {lastM : Tid → List Res} {owner : Res → Option Tid} {prevPrio : Res → ℕ} {t : Tid}
  {r : Res} {p : ℕ}

/-- A resource is held by its owner, once, and has a priority to go back to. -/
structure Held (κ : Kdb) (lastM : Tid → List Res) (owner : Res → Option Tid)
    (prevPrio : Res → ℕ) : Prop where
  owned : ∀ t, ∀ r ∈ lastM t, owner r = some t
  prev : ∀ t, ∀ r ∈ lastM t, ready κ t ≤ prevPrio r
  once : ∀ t, (lastM t).Nodup

lemma Held.take (h : Held κ lastM owner prevPrio) (hr : owner r = none) (hp : ready κ t ≤ p) :
    Held κ (Function.update lastM t (r :: lastM t)) (Function.update owner r (some t))
      (Function.update prevPrio r p) := by
  have hnew : ∀ u, r ∉ lastM u := by
    intro u hu
    have := h.owned u r hu
    rw [hr] at this
    simp at this
  -- a resource that is held is the new one, or was held before
  have hcases : ∀ u r', r' ∈ Function.update lastM t (r :: lastM t) u →
      (u = t ∧ r' = r) ∨ (r' ≠ r ∧ r' ∈ lastM u) := by
    intro u r' hm
    by_cases hu : u = t
    · subst hu
      rw [Function.update_self] at hm
      rcases List.mem_cons.mp hm with hm | hm
      · exact Or.inl ⟨rfl, hm⟩
      · exact Or.inr ⟨fun he => hnew u (he ▸ hm), hm⟩
    · rw [Function.update_of_ne hu] at hm
      exact Or.inr ⟨fun he => hnew u (he ▸ hm), hm⟩
  refine ⟨fun u r' hm => ?_, fun u r' hm => ?_, fun u => ?_⟩
  · rcases hcases u r' hm with ⟨rfl, rfl⟩ | ⟨hne, hm⟩
    · exact Function.update_self ..
    · rw [Function.update_of_ne hne]
      exact h.owned u r' hm
  · rcases hcases u r' hm with ⟨rfl, rfl⟩ | ⟨hne, hm⟩
    · rw [Function.update_self]
      exact hp
    · rw [Function.update_of_ne hne]
      exact h.prev u r' hm
  · by_cases hu : u = t
    · subst hu
      rw [Function.update_self]
      exact List.nodup_cons.mpr ⟨hnew u, h.once u⟩
    · rw [Function.update_of_ne hu]
      exact h.once u

/-- Some of what a task holds is given back. -/
lemma Held.give {owner' : Res → Option Tid} {rest : List Res} (h : Held κ lastM owner prevPrio)
    (hsub : rest.Sublist (lastM t)) (ho : ∀ r, r ∉ lastM t ∨ r ∈ rest → owner' r = owner r) :
    Held κ (Function.update lastM t rest) owner' prevPrio := by
  have hmem : ∀ u r, r ∈ Function.update lastM t rest u →
      r ∈ lastM u ∧ (r ∉ lastM t ∨ r ∈ rest) := by
    intro u r hm
    by_cases hu : u = t
    · subst hu
      rw [Function.update_self] at hm
      exact ⟨hsub.subset hm, Or.inr hm⟩
    · rw [Function.update_of_ne hu] at hm
      refine ⟨hm, Or.inl fun hmt => hu ?_⟩
      exact Option.some.inj ((h.owned u r hm).symm.trans (h.owned t r hmt))
  refine ⟨fun u r hm => ?_, fun u r hm => h.prev u r (hmem u r hm).1, fun u => ?_⟩
  · obtain ⟨hm, hr⟩ := hmem u r hm
    rw [ho r hr]
    exact h.owned u r hm
  · by_cases hu : u = t
    · subst hu
      rw [Function.update_self]
      exact hsub.nodup (h.once u)
    · rw [Function.update_of_ne hu]
      exact h.once u

end Held

/-! ### The core -/

variable {s s' : Core ν} {n : Node ν} {stk : List (Node ν)}

structure Steady (κ : Kdb) (s : Core ν) : Prop where
  sorted : Sorted κ s.rq
  regular : ∀ n ∈ s.rq, (κ.tdb n.task).Regular
  placed : Placed s.free (s.stk ++ s.rq) s.ownSn s.numOfAct
  levels : Levels κ s.prio s.stk
  fresh : ∀ t, (κ.tdb t).Regular → t ∉ s.stk.map Node.task → s.ownSn t = none →
    s.prio t = ready κ t
  held : Held κ s.lastM s.owner s.prevPrio
  waits : ∀ t, s.ownSn t ≠ none → (κ.tdb t).taskType = .extended

/-- A ready task has its ready priority unless it is on the stack too. -/
lemma Steady.head (h : Steady κ s) {m : Node ν} (hm : m ∈ s.rq) :
    s.prio m.task = ready κ m.task ∨ m.task ∈ s.stk.map Node.task := by
  by_cases hs : m.task ∈ s.stk.map Node.task
  · exact Or.inr hs
  · exact Or.inl (h.fresh _ (h.regular m hm) hs
      (h.placed.lone m (List.mem_append_right _ hm)))

/-- The head of the ready queue is judged the same by either priority. -/
def Judged (κ : Kdb) (s : Core ν) : Prop :=
  ∀ m ∈ s.rq.head?, ∀ top ∈ s.stk.head?,
    (s.prio top.task < s.prio m.task ↔ s.prio top.task < ready κ m.task)

lemma Steady.judged (h : Steady κ s) : Judged κ s := by
  intro m hm
  refine h.levels.decides ?_
  rcases h.head (List.mem_of_mem_head? hm) with hp | hp
  · exact Or.inl hp
  · exact Or.inr (Or.inl hp)

/-- So it is when the running task has just been taken off the stack. -/
lemma Steady.judged_pop (h : Steady κ s) (hs : s.stk = n :: stk) :
    Judged κ { s with stk := stk } := by
  have hl := h.levels
  rw [hs] at hl
  intro m hm
  refine hl.pop.decides ?_
  rcases h.head (List.mem_of_mem_head? hm) with hp | hp
  · exact Or.inl hp
  · rw [hs, List.map_cons] at hp
    rcases List.mem_cons.mp hp with hp | hp
    · refine Or.inr (Or.inr fun top htop => ?_)
      rw [hp]
      exact hl.below top (List.mem_of_mem_head? htop)
    · exact Or.inr (Or.inl hp)

/-- What a rescheduling does to the levels: it changes the priority of the new top at most. -/
lemma settle_levels (h : Levels κ s.prio s.stk) (hj : Judged κ s) :
    Levels κ (settle κ s).prio (settle κ s).stk ∧
      (∀ t, t ∉ (settle κ s).stk.map Node.task →
        t ∉ s.stk.map Node.task ∧ (settle κ s).prio t = s.prio t) ∧
      ∀ y ∈ (settle κ s).stk.tail, y ∈ s.stk := by
  rcases settle_cases κ s with ⟨he, -⟩ | ⟨m, rq, hr, hp, he⟩
  · rw [he]
    exact ⟨h, fun t ht => ⟨ht, rfl⟩, fun y hy => List.mem_of_mem_tail hy⟩
  · rw [he]
    simp only [stkNext, dispatch_prio, List.tail_cons]
    have hm : ∀ top ∈ s.stk.head?, s.prio top.task < ready κ m.task := fun top htop =>
      (hj m (by rw [hr]; rfl) top htop).mp (hp top htop)
    refine ⟨(h.push hm).update ?_ (h.notMem hm), fun u hu => ?_, fun y hy => hy⟩
    · exact (h.low _).trans (le_max_left _ _)
    · rw [List.map_cons, List.mem_cons, not_or] at hu
      rw [Function.update_of_ne hu.1]
      exact ⟨hu.2, rfl⟩

lemma settle_regular (h : ∀ n ∈ s.rq, (κ.tdb n.task).Regular) :
    ∀ n ∈ (settle κ s).rq, (κ.tdb n.task).Regular := by
  rcases settle_cases κ s with ⟨he, -⟩ | ⟨m, rq, hr, -, he⟩
  · rw [he]
    exact h
  · rw [he]
    intro n hn
    exact h n (by rw [hr]; exact List.mem_cons_of_mem _ hn)

lemma settle_free (s : Core ν) : (settle κ s).free = s.free := by
  rcases settle_cases κ s with ⟨he, -⟩ | ⟨m, rq, -, -, he⟩
  · rw [he]
  · rw [he]; rfl

lemma settle_held (s : Core ν) : (settle κ s).lastM = s.lastM ∧ (settle κ s).owner = s.owner ∧
    (settle κ s).prevPrio = s.prevPrio := by
  rw [settle_toTcbs]
  exact ⟨rfl, rfl, rfl⟩

lemma settle_placed (h : Placed s.free (s.stk ++ s.rq) s.ownSn s.numOfAct) :
    Placed (settle κ s).free ((settle κ s).stk ++ (settle κ s).rq) (settle κ s).ownSn
      (settle κ s).numOfAct := by
  rw [settle_free, settle_ownSn, settle_numOfAct]
  exact h.perm (settle_perm s)

/-- A rescheduling keeps the levels. -/
lemma Steady.settled (h : Steady κ s) : Steady κ (settle κ s) := by
  obtain ⟨hlev, hout, -⟩ := settle_levels h.levels h.judged
  refine ⟨settle_sorted h.sorted, settle_regular h.regular, settle_placed h.placed, hlev,
    fun t hr ht ho => ?_, ?_, ?_⟩
  · obtain ⟨hts, htp⟩ := hout t ht
    rw [settle_ownSn] at ho
    exact htp.trans (h.fresh t hr hts ho)
  · obtain ⟨h₁, h₂, h₃⟩ := settle_held (κ := κ) s
    rw [h₁, h₂, h₃]
    exact h.held
  · rw [settle_ownSn]
    exact h.waits

/-- Statuses, events and the like do not matter. -/
lemma Steady.frame (h : Steady κ s) {T : Tcbs ν} (ho : T.ownSn = s.ownSn)
    (ha : T.numOfAct = s.numOfAct) (hp : T.prio = s.prio) (hm : T.lastM = s.lastM)
    (hw : T.owner = s.owner) (hv : T.prevPrio = s.prevPrio) {susp : List (Node ν)}
    {blocked : Sem → List (Node ν)} : Steady κ ⟨T, s.free, s.rq, s.stk, susp, blocked⟩ := by
  refine ⟨h.sorted, h.regular, ?_, ?_, ?_, ?_, ?_⟩
  · show Placed _ _ T.ownSn T.numOfAct
    rw [ho, ha]
    exact h.placed
  · show Levels κ T.prio _
    rw [hp]
    exact h.levels
  · show ∀ t, _ → _ → T.ownSn t = none → T.prio t = _
    rw [ho, hp]
    exact h.fresh
  · show Held κ T.lastM T.owner T.prevPrio
    rw [hm, hw, hv]
    exact h.held
  · show ∀ t, T.ownSn t ≠ none → _
    rw [ho]
    exact h.waits

/-! ### Services -/

/-- The invariant of a core between calls. -/
structure Calm (κ : Kdb) (s : Core ν) : Prop extends Steady κ s where
  top : s.curr = topTask κ s.stk
  run : s.status s.curr = .running

lemma Calm.cons (h : Calm κ s) (hc : s.curr ≠ κ.idle) :
    ∃ n stk, s.stk = n :: stk ∧ n.task = s.curr :=
  cons_of_top κ h.top hc

/-- After a rescheduling the context of the top of the stack goes on. -/
lemma Steady.resume (h : Steady κ s) :
    Calm κ { settle κ s with toTcbs := (settle κ s).toTcbs.switchIn } :=
  ⟨h.settled.frame (T := (settle κ s).toTcbs.switchIn) rfl rfl rfl rfl rfl rfl, settle_top s,
    Function.update_self ..⟩

lemma calm_preemptionPoint (h : Calm κ s) : Calm κ (taskPreemptionPoint κ s) := by
  rcases preemptionPoint_cases κ s h.top with ⟨he, -⟩ | he
  · rw [he]
    exact h
  · rw [he]
    exact h.toSteady.resume

/-- The running task is off the stack, and it is no longer there. -/
lemma Steady.popped (h : Steady κ s) (hs : s.stk = n :: stk) :
    Levels κ s.prio stk ∧ ∀ y ∈ stk, y.task ≠ n.task := by
  have hl := h.levels
  rw [hs] at hl
  exact ⟨hl.pop, hl.pop.notMem fun top htop => hl.below top (List.mem_of_mem_head? htop)⟩

/-- Tasks other than the popped one are where they were. -/
lemma Steady.fresh_pop (h : Steady κ s) (hs : s.stk = n :: stk) {t : Tid} (hne : t ≠ n.task)
    (hr : (κ.tdb t).Regular) (ht : t ∉ stk.map Node.task) (ho : s.ownSn t = none) :
    s.prio t = ready κ t := by
  refine h.fresh t hr ?_ ho
  rw [hs, List.map_cons, List.mem_cons, not_or]
  exact ⟨hne, ht⟩

lemma ended_prio (t : Tid) (s : Tcbs ν) : (s.ended κ t).prio =
    if t = s.curr then s.prio else Function.update s.prio t (ready κ t) := by
  unfold Tcbs.ended
  by_cases h : t = s.curr
  · rw [if_pos h, if_neg (not_not.mpr h)]
  · rw [if_neg h, if_pos h]
    rfl

/-- The running activation ends. -/
lemma calm_ended (h : Steady κ s) (hs : s.stk = n :: stk) (hn : n.task = s.curr) :
    Calm κ { settle κ { s with stk := stk } with
      toTcbs := ((settle κ { s with stk := stk }).toTcbs.ended κ s.curr).switchIn
      free := n :: (settle κ { s with stk := stk }).free } := by
  obtain ⟨hl, hoff⟩ := h.popped hs
  have hp := h.placed
  rw [hs] at hp
  have hj := h.judged_pop hs
  have hperm := settle_perm (κ := κ) { s with stk := stk }
  obtain ⟨hlev, hout, htail⟩ := settle_levels (s := { s with stk := stk }) hl hj
  have hown : (settle κ { s with stk := stk }).ownSn = s.ownSn := settle_ownSn _
  have hact : (settle κ { s with stk := stk }).numOfAct = s.numOfAct := settle_numOfAct _
  have hfree : (settle κ { s with stk := stk }).free = s.free := settle_free _
  have htop := settle_top (κ := κ) { s with stk := stk }
  have hheld := settle_held (κ := κ) { s with stk := stk }
  have hsort := settle_sorted (s := { s with stk := stk }) h.sorted
  have hreg := settle_regular (s := { s with stk := stk }) h.regular
  generalize settle κ { s with stk := stk } = s₁ at *
  refine ⟨⟨hsort, hreg, ?_, ?_, fun t hr ht ho => ?_, ?_, ?_⟩, ?_, Function.update_self ..⟩
  · have hend := (hp.perm (hperm.cons n)).finish
    rw [ended_eq]
    show Placed (n :: s₁.free) _ s₁.ownSn (Function.update s₁.numOfAct s.curr _)
    rw [hown, hact, hfree, ← hn]
    exact hend
  · show Levels κ (s₁.toTcbs.ended κ s.curr).prio s₁.stk
    rw [ended_prio]
    split_ifs
    · exact hlev
    · exact hlev.update le_rfl fun y hy => hn ▸ hoff y (htail y hy)
  · have ho : s.ownSn t = none := by
      rw [ended_eq] at ho
      rw [← hown]
      exact ho
    obtain ⟨hts, htp⟩ := hout t ht
    show (s₁.toTcbs.ended κ s.curr).prio t = _
    rw [ended_prio]
    by_cases htc : t = s.curr
    · -- it would be on the stack if it ran next
      have hne : s.curr ≠ s₁.curr := by
        intro he
        refine ht (topTask_mem ?_ (ne_idle_of_regular hr))
        rw [← htop, htc, he]
      rw [if_neg hne, htc, Function.update_self]
    · have hold := h.fresh_pop hs (hn ▸ htc) hr hts ho
      split_ifs
      · exact htp.trans hold
      · rw [Function.update_of_ne htc]
        exact htp.trans hold
  · rw [ended_eq]
    show Held κ s₁.lastM s₁.owner s₁.prevPrio
    rw [hheld.1, hheld.2.1, hheld.2.2]
    exact h.held
  · rw [ended_eq]
    show ∀ t, s₁.ownSn t ≠ none → _
    rw [hown]
    exact h.waits
  · rw [ended_eq]
    exact htop

lemma calm_terminated (h : Calm κ s) (hc : s.curr ≠ κ.idle)
    (he : taskTerminated κ s = some s') : Calm κ s' := by
  obtain ⟨n, stk, hs, hn⟩ := h.cons hc
  rw [taskTerminated_cons κ h.run hs] at he
  exact Option.some.inj he ▸ calm_ended h.toSteady hs hn

/-- A task is put in the ready queue at its ready priority. -/
lemma Steady.enqueue (h : Steady κ s) {free : List (Node ν)} {own : Tid → Option ν}
    {act : Tid → ℕ} (hr : (κ.tdb n.task).Regular)
    (hp : Placed free (n :: (stk ++ s.rq)) own act) (T : Tcbs ν) (ho : T.ownSn = own)
    (ha : T.numOfAct = act) (hl : Levels κ T.prio stk)
    (hf : ∀ t, (κ.tdb t).Regular → t ∉ stk.map Node.task → own t = none → T.prio t = ready κ t)
    (hh : Held κ T.lastM T.owner T.prevPrio)
    (hw : ∀ t, own t ≠ none → (κ.tdb t).taskType = .extended) {susp : List (Node ν)}
    {blocked : Sem → List (Node ν)} :
    Steady κ ⟨T, free, rqInsert κ n s.rq, stk, susp, blocked⟩ := by
  subst ho ha
  refine ⟨h.sorted.insert, fun m hm => ?_, ?_, hl, hf, hh, hw⟩
  · rcases List.mem_cons.mp ((rqInsert_perm n s.rq).mem_iff.mp hm) with rfl | hm
    · exact hr
    · exact h.regular m hm
  · exact hp.perm (((rqInsert_perm n s.rq).append_left stk).trans List.perm_middle)

/-- The running task is ready again instead. -/
lemma Steady.chained (h : Steady κ s) (hs : s.stk = n :: stk) (hn : n.task = s.curr)
    (hr : (κ.tdb s.curr).Regular) (status : Tid → TaskStatus) (em : Tid → ℕ) :
    Steady κ { s with
      stk := stk
      prio := Function.update s.prio s.curr (κ.tdb s.curr).readyPrio
      status := status
      eventMask := em
      rq := rqInsert κ ⟨n.sn, s.curr⟩ s.rq } := by
  obtain ⟨hl, hoff⟩ := h.popped hs
  have hp := h.placed
  rw [hs] at hp
  refine h.enqueue (n := ⟨n.sn, s.curr⟩) hr ?_ { s.toTcbs with
    prio := Function.update s.prio s.curr (κ.tdb s.curr).readyPrio
    status := status
    eventMask := em } rfl rfl ?_ (fun t htr ht ho => ?_) h.held h.waits
  · rw [← hn]
    exact hp
  · exact hl.update le_rfl fun y hy => hn ▸ hoff y (List.mem_of_mem_tail hy)
  · by_cases htc : t = s.curr
    · rw [htc]
      exact Function.update_self ..
    · exact (Function.update_of_ne htc ..).trans (h.fresh_pop hs (hn ▸ htc) htr ht ho)

lemma calm_chainSelf (h : Calm κ s) (hr : (κ.tdb s.curr).Regular)
    (he : chainTask κ s.curr s = some s') : Calm κ s' := by
  obtain ⟨n, stk, hs, hn⟩ := h.cons (ne_idle_of_regular hr)
  rw [chainSelf_cons κ hs] at he
  exact Option.some.inj he ▸ (h.toSteady.chained hs hn hr _ _).resume

/-- A new activation is ready. -/
lemma calm_insert {m : Node ν} {free : List (Node ν)} {t : Tid} (h : Calm κ s)
    (hr : (κ.tdb t).Regular) (ho : s.ownSn t = none) (hf : s.free = m :: free) :
    Calm κ ⟨Tcbs.makeReady t { s.toTcbs with
        numOfAct := Function.update s.numOfAct t (s.numOfAct t + 1) },
      free, rqInsert κ ⟨m.sn, t⟩ s.rq, s.stk, s.suspended, s.blocked⟩ := by
  have hp := h.placed
  rw [hf] at hp
  exact ⟨h.toSteady.enqueue (n := ⟨m.sn, t⟩) hr (hp.start ho) (Tcbs.makeReady t { s.toTcbs with
      numOfAct := Function.update s.numOfAct t (s.numOfAct t + 1) }) rfl rfl h.levels h.fresh
      h.held h.waits, h.top, makeReady_status h.run (by simp)⟩

/-- A new activation runs at once. -/
lemma calm_start {m : Node ν} {free : List (Node ν)} {t : Tid} (h : Steady κ s)
    (ho : s.ownSn t = none) (hf : s.free = m :: free)
    (hp : ∀ top ∈ s.stk.head?, s.prio top.task < ready κ t) {T : Tcbs ν} (hT : T.ownSn = s.ownSn)
    (ha : T.numOfAct = Function.update s.numOfAct t (s.numOfAct t + 1))
    (hpr : T.prio = s.prio) (hm : T.lastM = s.lastM) (hw : T.owner = s.owner)
    (hv : T.prevPrio = s.prevPrio) (hc : T.curr = t) :
    Calm κ ⟨T.switchIn, free, s.rq, ⟨m.sn, t⟩ :: s.stk, s.suspended, s.blocked⟩ := by
  have hpl := h.placed
  rw [hf] at hpl
  refine ⟨⟨h.sorted, h.regular, ?_, ?_, fun u hr hu hou => ?_, ?_, ?_⟩, hc,
    Function.update_self ..⟩
  · show Placed free _ T.ownSn T.numOfAct
    rw [hT, ha]
    exact hpl.start ho
  · show Levels κ T.prio _
    rw [hpr]
    exact h.levels.push hp
  · rw [List.map_cons, List.mem_cons, not_or] at hu
    show T.prio u = _
    rw [hpr]
    refine h.fresh u hr hu.2 ?_
    rw [← hT]
    exact hou
  · show Held κ T.lastM T.owner T.prevPrio
    rw [hm, hw, hv]
    exact h.held
  · show ∀ t, T.ownSn t ≠ none → _
    rw [hT]
    exact h.waits

/-- What runs is on top of the stack; its priority may be set. -/
lemma Calm.setPrio (h : Calm κ s) {p : ℕ} (hp : ready κ s.curr ≤ p) :
    Levels κ (Function.update s.prio s.curr p) s.stk ∧
      ∀ t, (κ.tdb t).Regular → t ∉ s.stk.map Node.task → s.ownSn t = none →
        Function.update s.prio s.curr p t = ready κ t := by
  refine ⟨h.levels.update hp fun y hy => ?_, fun t hr ht ho => ?_⟩
  · have htop := h.top
    rcases hs : s.stk with _ | ⟨n, stk⟩
    · rw [hs] at hy
      simp at hy
    · rw [hs] at hy htop
      rw [htop]
      exact (h.popped hs).2 y hy
  · have hne : t ≠ s.curr := by
      rintro rfl
      exact ht (topTask_mem h.top.symm (ne_idle_of_regular hr))
    rw [Function.update_of_ne hne]
    exact h.fresh t hr ht ho

section Calls

variable {t : Tid}

lemma calm_activate (h : Calm κ s) (hr : (κ.tdb t).Regular)
    (hl : s.ownSn t = none ∨ (κ.tdb t).maxNumOfAct ≤ s.numOfAct t)
    (he : activateTask κ t s = some s') : Calm κ s' := by
  obtain ⟨hact, he⟩ | rfl := activateTask_some he
  · have ho := hl.resolve_right (by omega)
    obtain ⟨m, free, hf, ⟨hlt, rfl⟩ | ⟨-, rfl⟩⟩ := schedulerTaskActivated_cases he
    · refine calm_start h.toSteady ho hf (fun top htop => ?_) rfl rfl rfl rfl rfl rfl rfl
      -- what runs is the top of the stack
      have hcurr : s.curr = top.task := by
        rw [h.top, topTask, show s.stk.head? = some top from htop]
        rfl
      have hpr : s.prio t = ready κ t ∨ t ∈ s.stk.map Node.task := by
        by_cases hs : t ∈ s.stk.map Node.task
        · exact Or.inr hs
        · exact Or.inl (h.fresh t hr hs ho)
      refine (h.levels.decides (hpr.imp_right Or.inl) top htop).mp ?_
      rw [← hcurr]
      exact hlt
    · exact calm_insert h hr ho hf
  · exact h

lemma calm_insertTask (h : Calm κ s) (hr : (κ.tdb t).Regular)
    (hl : s.ownSn t = none ∨ (κ.tdb t).maxNumOfAct ≤ s.numOfAct t)
    (he : insertTask κ t s = some s') : Calm κ s' := by
  obtain ⟨hact, he⟩ | rfl := insertTask_some he
  · obtain ⟨m, free, hf, rfl⟩ := taskInsertRq_some he
    exact calm_insert h hr (hl.resolve_right (by omega)) hf
  · exact h

lemma calm_chain (h : Calm κ s) (hc : (κ.tdb s.curr).Regular) (hr : (κ.tdb t).Regular)
    (hl : s.ownSn t = none ∨ (κ.tdb t).maxNumOfAct ≤ s.numOfAct t)
    (he : chainTask κ t s = some s') : Calm κ s' := by
  by_cases ht : t = s.curr
  · rw [ht] at he
    exact calm_chainSelf h hc he
  · obtain ⟨hact, s₁, hins, he⟩ | rfl := chainTask_some ht he
    · obtain ⟨m, free, hf, rfl⟩ := taskInsertRq_some hins
      exact calm_terminated (calm_insert h hr (hl.resolve_right (by omega)) hf)
        (ne_idle_of_regular hc) he
    · exact h

lemma calm_interrupt (h : Calm κ s) (hi : (κ.tdb t).taskType = .isr2)
    (hp : s.prio s.curr < ready κ t) (he : activateIsr2 t s = some s') : Calm κ s' := by
  obtain ⟨m, free, hf, rfl⟩ := taskSetRunning_some he
  refine calm_start h.toSteady ?_ hf (fun top htop => ?_) rfl rfl rfl rfl rfl rfl rfl
  · by_contra ho
    have := h.waits t ho
    rw [hi] at this
    simp at this
  · rw [h.top, topTask, show s.stk.head? = some top from htop] at hp
    exact hp

/-- A rescheduling does not look at the nodes of waiting tasks. -/
lemma settle_setOwn (own : Tid → Option ν) (s : Core ν) :
    settle κ { s with ownSn := own } = { settle κ s with ownSn := own } := by
  unfold settle rqPreemptStk
  rcases hr : s.rq with _ | ⟨m, rq⟩
  · rcases hs : s.stk with _ | ⟨top, stk⟩ <;> simp [hr, hs]
  · rcases hs : s.stk with _ | ⟨top, stk⟩
    · simp [stkNext, Tcbs.dispatch]
    · by_cases hp : s.prio top.task < s.prio m.task
      · simp [hp, stkNext, Tcbs.dispatch]
      · simp [hp, hr, hs]

/-- The running task leaves its node and is off the stack, before the next one is chosen. -/
lemma Calm.parked (h : Calm κ s) (hx : (κ.tdb s.curr).taskType = .extended)
    (hs : s.stk = n :: stk) (hn : n.task = s.curr) (hact : s.numOfAct s.curr ≤ 1)
    (wm : Tid → ℕ) : Steady κ { s with
      waitMask := wm
      stk := stk
      ownSn := Function.update s.ownSn s.curr (some n.sn) } := by
  obtain ⟨hlev, hoff⟩ := h.popped hs
  have hp := h.placed
  rw [hs] at hp
  have hwait := hp.wait (hn ▸ hact)
  rw [hn] at hwait
  refine ⟨h.sorted, h.regular, hwait, hlev, fun t hr ht ho => ?_, h.held, fun t ho => ?_⟩
  · dsimp only at ho
    have hne : t ≠ s.curr := by
      rintro rfl
      rw [Function.update_self] at ho
      simp at ho
    rw [Function.update_of_ne hne] at ho
    exact h.fresh_pop hs (hn ▸ hne) hr ht ho
  · by_cases hne : t = s.curr
    · rw [hne]
      exact hx
    · dsimp only at ho
      rw [Function.update_of_ne hne] at ho
      exact h.waits t ho

lemma calm_waitEvent {mask : ℕ} (h : Calm κ s) (hx : (κ.tdb s.curr).taskType = .extended)
    (hl : s.eventMask s.curr &&& mask = 0 → s.numOfAct s.curr ≤ 1)
    (he : waitEvent κ mask s = some s') : Calm κ s' := by
  obtain ⟨n, stk, hs, hn⟩ := h.cons (ne_idle_of_regular (Or.inr hx))
  rw [waitEvent_cons κ hs] at he
  by_cases hm : s.eventMask s.curr &&& mask = 0
  · rw [if_pos hm] at he
    have hset := (h.parked hx hs hn (hl hm) (Function.update s.waitMask s.curr mask)).settled
    rw [settle_setOwn (Function.update s.ownSn s.curr (some n.sn)) { s with
      waitMask := Function.update s.waitMask s.curr mask, stk := stk }] at hset
    have hown := settle_ownSn (κ := κ) { s with
      waitMask := Function.update s.waitMask s.curr mask, stk := stk }
    have htop := settle_top (κ := κ) { s with
      waitMask := Function.update s.waitMask s.curr mask, stk := stk }
    rw [← Option.some.inj he]
    generalize settle κ { s with
      waitMask := Function.update s.waitMask s.curr mask, stk := stk } = s₁ at *
    refine ⟨hset.frame (T := Tcbs.switchIn { s₁.toTcbs with
      ownSn := Function.update s₁.ownSn s.curr (some n.sn)
      status := Function.update s₁.status s.curr .waiting
      inWait := Function.update s₁.inWait s.curr true }) ?_ rfl rfl rfl rfl rfl, htop,
      Function.update_self ..⟩
    exact congrArg (Function.update · s.curr (some n.sn)) hown
  · rw [if_neg hm] at he
    exact Option.some.inj he ▸ h

/-- A waiting task has no other node. -/
lemma Steady.notMem_of_own (h : Steady κ s) {a : ν} (ho : s.ownSn t = some a) :
    ∀ m ∈ s.stk ++ s.rq, m.task ≠ t := by
  rintro m hm rfl
  rw [h.placed.lone m hm] at ho
  simp at ho

/-- A waiting task is ready again. -/
lemma Steady.woken (h : Steady κ s) {a : ν} (ho : s.ownSn t = some a) (em : Tid → ℕ) :
    Steady κ (unblocked κ ⟨a, t⟩ { s with
      eventMask := em, ownSn := Function.update s.ownSn t none }) := by
  have hx := h.waits t (by rw [ho]; simp)
  refine h.enqueue (n := ⟨a, t⟩) (Or.inr hx) (h.placed.wake ho) { s.toTcbs with
    eventMask := em
    ownSn := Function.update s.ownSn t none
    status := Function.update s.status t .readyStacked
    prio := Function.update s.prio t (ready κ t) } rfl rfl ?_ (fun u hr hu hou => ?_) h.held
    (fun u hou => ?_)
  · exact h.levels.update le_rfl fun y hy =>
      h.notMem_of_own ho y (List.mem_append_left _ (List.mem_of_mem_tail hy))
  · by_cases hut : u = t
    · rw [hut]
      exact Function.update_self ..
    · rw [Function.update_of_ne hut] at hou
      exact (Function.update_of_ne hut ..).trans (h.fresh u hr hu hou)
  · by_cases hut : u = t
    · rw [hut]
      exact hx
    · rw [Function.update_of_ne hut] at hou
      exact h.waits u hou

/-- A waiting task is not the one that runs. -/
lemma Calm.ne_of_own (h : Calm κ s) {a : ν} (ho : s.ownSn t = some a) : s.curr ≠ t := by
  intro hc
  have hx := h.waits t (by rw [ho]; simp)
  obtain ⟨n, stk, hs, hn⟩ := h.cons (hc ▸ ne_idle_of_regular (Or.inr hx))
  exact h.notMem_of_own ho n (by rw [hs]; simp) (hn.trans hc)

/-- A waiting task is released. -/
lemma calm_release (h : Calm κ s) {a : ν} (ho : s.ownSn t = some a) (em : Tid → ℕ) :
    Calm κ (release κ ⟨a, t⟩ { s with
      eventMask := em, ownSn := Function.update s.ownSn t none }) := by
  have hwoken := h.toSteady.woken ho em
  rcases release_cases κ ⟨a, t⟩ (s := { s with
    eventMask := em, ownSn := Function.update s.ownSn t none }) h.top with hrel | hrel
  · rw [hrel]
    exact ⟨hwoken, h.top, (Function.update_of_ne (h.ne_of_own ho) ..).trans h.run⟩
  · rw [hrel]
    exact hwoken.resume

lemma calm_setEvent {mask : ℕ} (h : Calm κ s) : Calm κ (setEvent κ t mask s) := by
  rcases setEvent_cases κ t mask s with ⟨em, he⟩ | ⟨em, sn, -, ho, he⟩
  · rw [he]
    exact ⟨h.toSteady.frame (T := { s.toTcbs with eventMask := em }) rfl rfl rfl rfl rfl rfl,
      h.top, h.run⟩
  · rw [he]
    exact calm_release h ho em

lemma calm_getResource {r : Res} (h : Calm κ s) : Calm κ (getResource κ r s) := by
  unfold getResource
  dsimp only
  by_cases hr : s.owner r ≠ none ∨ κ.resPrio r < (κ.tdb s.curr).readyPrio
  · rw [if_pos hr]
    exact h
  · rw [if_neg hr]
    rw [not_or, not_not, not_lt] at hr
    have hheld := h.held.take hr.1 (h.levels.low s.curr)
    by_cases hp : s.prio s.curr < κ.resPrio r
    · simp only [if_pos hp]
      obtain ⟨hl, hf⟩ := h.setPrio hr.2
      exact ⟨⟨h.sorted, h.regular, h.placed, hl, hf, hheld, h.waits⟩, h.top, h.run⟩
    · simp only [if_neg hp]
      exact ⟨⟨h.sorted, h.regular, h.placed, h.levels, h.fresh, hheld, h.waits⟩, h.top, h.run⟩

/-- The resource taken last is given back, before the preemption point. -/
lemma Calm.released {r : Res} (hκ : ready κ s.curr ≤ (κ.tdb s.curr).dispatchPrio)
    (h : Calm κ s) (hr : (s.lastM s.curr).head? = some r) :
    Calm κ { s with
      lastM := Function.update s.lastM s.curr (s.lastM s.curr).tail
      prio := Function.update s.prio s.curr
        (if (s.lastM s.curr).tail ≠ [] then s.prevPrio r else (κ.tdb s.curr).dispatchPrio)
      owner := Function.update s.owner r none } := by
  obtain ⟨rest, hlast⟩ := List.head?_eq_some_iff.mp hr
  have honce := h.held.once s.curr
  rw [hlast] at honce
  have hp : ready κ s.curr ≤
      if (s.lastM s.curr).tail ≠ [] then s.prevPrio r else (κ.tdb s.curr).dispatchPrio := by
    split_ifs
    · exact h.held.prev s.curr r (by rw [hlast]; simp)
    · exact hκ
  obtain ⟨hl, hf⟩ := h.setPrio hp
  refine ⟨⟨h.sorted, h.regular, h.placed, hl, hf, ?_, h.waits⟩, h.top, h.run⟩
  refine h.held.give (List.tail_sublist _) fun r' hr' => ?_
  have hne : r' ≠ r := by
    rintro rfl
    rw [hlast, List.tail_cons] at hr'
    rcases hr' with hr' | hr'
    · exact hr' List.mem_cons_self
    · exact (List.nodup_cons.mp honce).1 hr'
  exact Function.update_of_ne hne ..

lemma calm_releaseResource {r : Res} (hκ : ready κ s.curr ≤ (κ.tdb s.curr).dispatchPrio)
    (h : Calm κ s) : Calm κ (releaseResource κ r s) := by
  unfold releaseResource
  dsimp only
  by_cases hr : s.owner r = none ∨ (s.lastM s.curr).head? ≠ some r
  · rw [if_pos hr]
    exact h
  · rw [if_neg hr]
    rw [not_or, not_not] at hr
    exact calm_preemptionPoint (h.released hκ hr.2)

/-- What the task that runs holds is given back. -/
lemma calm_releaseAllM (h : Calm κ s) : Calm κ { s with toTcbs := releaseAllM s.curr s.toTcbs } := by
  refine ⟨⟨h.sorted, h.regular, h.placed, h.levels, h.fresh, ?_, h.waits⟩, h.top, h.run⟩
  refine h.held.give (List.nil_sublist _) fun r hr => ?_
  exact if_neg (hr.resolve_right List.not_mem_nil)

end Calls

/-! ### Runs -/

/-- The call does not give a task a second activation while it waits for an event: no waiting
task is activated, and no task waits that has a further activation. -/
def Lone (κ : Kdb) (s : Core ν) : Call → Prop
  | .activateTask t | .insertTask t | .chainTask t =>
    s.ownSn t = none ∨ (κ.tdb t).maxNumOfAct ≤ s.numOfAct t
  | .waitEvent mask => (κ.tdb s.curr).taskType = .extended →
    s.eventMask s.curr &&& mask = 0 → s.numOfAct s.curr ≤ 1
  | _ => True

instance [DecidableEq ν] (s : Core ν) : DecidablePred (Lone κ s)
  | .activateTask _ | .insertTask _ | .chainTask _ => inferInstanceAs (Decidable (_ ∨ _))
  | .waitEvent _ => inferInstanceAs (Decidable (_ → _))
  | .terminateTask | .taskNotTerminated | .interrupt _ | .preemptionPoint | .setEvent _ _
  | .getResource _ | .releaseResource _ => inferInstanceAs (Decidable True)

/-- **A call keeps the levels.** -/
theorem calm_step {c : Call} (h : Calm κ s)
    (hκ : ∀ r, c = .releaseResource r → ready κ s.curr ≤ (κ.tdb s.curr).dispatchPrio)
    (hl : Lone κ s c) (he : step κ s c = some s') : Calm κ s' := by
  obtain ⟨hc, he⟩ := Option.ite_none_right_eq_some.mp he
  cases c with
  | activateTask t => exact calm_activate h hc hl he
  | insertTask t => exact calm_insertTask h hc hl he
  | chainTask t => exact calm_chain h hc.1 hc.2 hl he
  | terminateTask => exact calm_terminated h hc he
  | taskNotTerminated => exact calm_terminated (calm_releaseAllM h) hc he
  | interrupt i => exact calm_interrupt h hc.1 hc.2 he
  | preemptionPoint => exact Option.some.inj he ▸ calm_preemptionPoint h
  | waitEvent mask => exact calm_waitEvent h hc (hl hc) he
  | setEvent t mask => exact Option.some.inj he ▸ calm_setEvent h
  | getResource r => exact Option.some.inj he ▸ calm_getResource h
  | releaseResource r => exact Option.some.inj he ▸ calm_releaseResource (hκ r rfl) h

lemma calm_init (κ : Kdb) {free : List (Node ν)} (hf : (free.map Node.sn).Nodup) :
    Calm κ (init κ free) := by
  refine ⟨⟨List.Pairwise.nil, by simp [init], ⟨by simpa [init] using hf, by simp [init],
    by simp [init], by simp [init], by simp [init]⟩, ⟨fun t => le_rfl, List.Pairwise.nil⟩,
    fun t _ _ _ => rfl, ⟨by simp [init], by simp [init], by simp [init]⟩, by simp [init]⟩, rfl,
    if_pos rfl⟩

end FpMemSched.Erika.ReadyPrio
