import FpMemSched.Erika.Carried

/-!
Which task DPREM suspends and which one it resumes.

Each of the three functions runs over one list for the node of highest priority, takes it out
and links it into the other list. What they do is said for any two lists of nodes that the
heads lead along, whatever the nodes stand for and wherever the chosen one is.
-/

namespace FpMemSched.Erika.Selection

open FpMemSched.Lib FpMemSched.Lib.Linked
open FpMemSched.Erika.Kernel (Tid Kdb Tcbs Node maxTaskPriority)
open FpMemSched.Erika.Carried
open FpMemSched.Erika.Dprem (mem_middle)
open FpMemSched.Erika.Pointers hiding suspendHighestPriorityActiveTaskFromIsr
  resumeHighestPriorityTaskFromIsr resumeHighestPriorityTask highestStacked highestSuspended

variable {ν : Type} [DecidableEq ν] (κ : Kdb) (fuel : ℕ)

/-! ### With the results -/

def suspendHighestPriorityActiveTaskFromIsr (p : Ccb ν) : Option (Ccb ν × Bool) :=
  (Pointers.highestStacked κ fuel p).bind fun best =>
    match best with
    | none => some (p, false)
    | some n => (listRemove fuel .stk n p).map fun p' => (listPushToHead .suspended n p', true)

def resumeHighestPriorityTaskFromIsr (p : Ccb ν) : Option (Ccb ν × Bool) :=
  (Pointers.highestSuspended fuel p).bind fun best =>
    (firstRegularLoop κ p fuel (p.head .stk)).bind fun first =>
      match best with
      | none => some (p, false)
      | some n =>
        (listRemove fuel .suspended n
          { p with prio := Function.update p.prio (p.tdb n) maxTaskPriority }).bind fun p' =>
            (listInsertBefore fuel .stk n first p').map (·, true)

def resumeHighestPriorityTask (p : Ccb ν) : Option (Ccb ν × Bool) :=
  (Pointers.highestSuspended fuel p).bind fun best =>
    match best with
    | none => some (p, false)
    | some n =>
      (listRemove fuel .suspended n p).bind fun p' =>
        (listInsertAfter fuel .stk n (p'.head .stk) p').map (·, true)

lemma suspendHighest_fst (p : Ccb ν) :
    (suspendHighestPriorityActiveTaskFromIsr κ fuel p).map Prod.fst =
      Pointers.suspendHighestPriorityActiveTaskFromIsr κ fuel p := by
  unfold suspendHighestPriorityActiveTaskFromIsr Pointers.suspendHighestPriorityActiveTaskFromIsr
  rcases Pointers.highestStacked κ fuel p with _ | _ | n
  · rfl
  · rfl
  · simp [Function.comp_def]

lemma resumeFromIsr_fst (p : Ccb ν) :
    (resumeHighestPriorityTaskFromIsr κ fuel p).map Prod.fst =
      Pointers.resumeHighestPriorityTaskFromIsr κ fuel p := by
  unfold resumeHighestPriorityTaskFromIsr Pointers.resumeHighestPriorityTaskFromIsr
  rcases Pointers.highestSuspended fuel p with _ | best
  · rfl
  · rcases firstRegularLoop κ p fuel (p.head .stk) with _ | first
    · rfl
    · cases best with
      | none => rfl
      | some n => simp [Option.map_bind, Function.comp_def]

lemma resumeHighest_fst (p : Ccb ν) :
    (resumeHighestPriorityTask fuel p).map Prod.fst =
      Pointers.resumeHighestPriorityTask fuel p := by
  unfold resumeHighestPriorityTask Pointers.resumeHighestPriorityTask
  rcases Pointers.highestSuspended fuel p with _ | _ | n
  · rfl
  · rfl
  · simp [Option.map_bind, Function.comp_def]

/-! ### Two lists in memory -/

/-- The stack and the suspended nodes. -/
structure Lists (p : Ccb ν) (stk susp : List ν) : Prop where
  stacked : Chain p.next (p.head .stk) stk
  suspended : Chain p.next (p.head .suspended) susp
  apart : ∀ n ∈ stk, n ∉ susp

/-- Nothing but the nodes of `l` and the two heads has changed. -/
structure Elsewhere (l : List ν) (p p' : Ccb ν) : Prop where
  tdb : p'.tdb = p.tdb
  next : ∀ m, m ∉ l → p'.next m = p.next m
  head : ∀ q, q ≠ .stk → q ≠ .suspended → p'.head q = p.head q

/-- Of the nodes of a kind in `a ++ n :: b`, the node `n` is the first one of highest current
priority. -/
structure FirstHighest (kind : Tid → Prop) (p : Ccb ν) (a : List ν) (n : ν) (b : List ν) :
    Prop where
  chosen : kind (p.tdb n)
  before : ∀ m ∈ a, kind (p.tdb m) → p.prio (p.tdb m) < p.prio (p.tdb n)
  behind : ∀ m ∈ b, kind (p.tdb m) → p.prio (p.tdb m) ≤ p.prio (p.tdb n)

variable {κ fuel} {p : Ccb ν} {stk susp a b : List ν} {n c : ν}

/-- The nodes with the tasks they stand for. -/
def named (p : Ccb ν) (l : List ν) : List (Node ν) := l.map fun m => ⟨m, p.tdb m⟩

omit [DecidableEq ν] in
@[simp] lemma map_named (p : Ccb ν) (l : List ν) : (named p l).map Node.sn = l := by
  simp [named, Function.comp_def]

omit [DecidableEq ν] in
lemma named_tdb (p : Ccb ν) (l : List ν) : Named p (named p l) := by
  intro m hm
  obtain ⟨x, -, rfl⟩ := List.mem_map.mp hm
  rfl

omit [DecidableEq ν] in
/-- **The loops** find the first node of highest priority, if there is one of the kind. -/
lemma highestLoop_cases (kind : Tid → Prop) [DecidablePred kind] {h : Option ν} {l : List ν}
    (hc : Chain p.next h l) (hf : l.length < fuel) :
    (highestLoop kind p fuel none h = some none ∧ ∀ m ∈ l, ¬ kind (p.tdb m)) ∨
    ∃ a n b, l = a ++ n :: b ∧ highestLoop kind p fuel none h = some (some n) ∧
      FirstHighest kind p a n b := by
  have hlen : (named p l).length < fuel := by rwa [named, List.length_map]
  have hloop := highestLoop_eq (p := p) (h := h) (l := named p l) kind none
    (by rw [map_named]; exact hc) (named_tdb p l) (by simp) hlen
  rw [Option.map_none] at hloop
  rw [hloop]
  rcases hs : Scan.scan (fun m => if kind m.task then p.prio m.task + 1 else 0) none (named p l)
    with _ | x
  · refine Or.inl ⟨by rw [hs]; rfl, fun m hm hk => ?_⟩
    have := (Scan.scan_none _).mp hs ⟨m, p.tdb m⟩ (List.mem_map_of_mem hm)
    simp [hk] at this
  · obtain ⟨l₁, l₂, hl, hpos, hbefore, hbehind⟩ := Scan.scan_some _ hs
    obtain ⟨a, l', rfl, rfl, hl'⟩ := List.map_eq_append_iff.mp hl
    obtain ⟨n, b, rfl, rfl, rfl⟩ := List.map_eq_cons_iff.mp hl'
    have hk : kind (p.tdb n) := by
      by_contra hk
      simp [hk] at hpos
    refine Or.inr ⟨a, n, b, rfl, by rw [hs]; rfl, hk, fun m hm hkm => ?_, fun m hm hkm => ?_⟩
    · have := hbefore ⟨m, p.tdb m⟩ (List.mem_map_of_mem hm)
      simp only [hk, hkm, if_true] at this
      omega
    · have := hbehind ⟨m, p.tdb m⟩ (List.mem_map_of_mem hm)
      simp only [hk, hkm, if_true] at this
      omega

/-- The node is unlinked; its own field stays. -/
lemma listRemove_cases {q : Queue} (hc : Chain p.next (p.head q) (a ++ n :: b))
    (hf : (a ++ n :: b).length < fuel) :
    ∃ next head, listRemove fuel q n p = some { p with next := next, head := head } ∧
      Chain next (head q) (a ++ b) ∧ (∀ m, m ∉ a → next m = p.next m) ∧
      ∀ r, r ≠ q → head r = p.head r := by
  rcases Carried.listRemove_split hc hf with ⟨rfl, he⟩ | ⟨a, c, rfl, he⟩
  · refine ⟨_, _, he, ?_, fun _ _ => rfl, fun r hr => Function.update_of_ne hr ..⟩
    rw [Function.update_self]
    exact hc.2
  · rw [List.append_assoc, List.singleton_append] at hc ⊢
    refine ⟨_, _, he, hc.remove, fun m hm => ?_, fun _ _ => rfl⟩
    refine Function.update_of_ne ?_ ..
    rintro rfl
    exact hm (by simp)

omit [DecidableEq ν] in
lemma firstRegularLoop_split {h : Option ν} (hc : Chain p.next h (a ++ b))
    (ha : ∀ m ∈ a, ¬ (κ.tdb (p.tdb m)).Regular) (hb : ∀ m ∈ b.head?, (κ.tdb (p.tdb m)).Regular)
    (hf : a.length < fuel) : firstRegularLoop κ p fuel h = some b.head? := by
  obtain ⟨k, rfl⟩ : ∃ k, fuel = k + 1 := Nat.exists_eq_succ_of_ne_zero (by omega)
  induction a generalizing h k with
  | nil =>
    cases b with
    | nil =>
      rw [show h = none from hc]
      rfl
    | cons x b =>
      rw [hc.1, firstRegularLoop, if_pos (hb x rfl)]
      rfl
  | cons x a ih =>
    rw [List.length_cons] at hf
    obtain ⟨k, rfl⟩ : ∃ j, k = j + 1 := Nat.exists_eq_succ_of_ne_zero (by omega)
    rw [hc.1, firstRegularLoop, if_neg (ha x List.mem_cons_self)]
    exact ih hc.2 (fun m hm => ha m (List.mem_cons_of_mem _ hm)) k (by omega)

/-- The loop of `list_insert_before` stops in front of the rest `b`, at the end if that is
empty. -/
lemma insertBeforeLoop_split {next : ν → Option ν} {h : Option ν}
    (hc : Chain next h (a ++ c :: b)) (hf : a.length < fuel) :
    insertBeforeLoop next n b.head? fuel h =
      some (Function.update (Function.update next n (next c)) c (some n)) := by
  refine insertBeforeLoop_at hc (Or.inl rfl) (fun m hm he => ?_) hf
  -- the nodes gone by are not in the rest
  have hd := hc.nodup
  rw [← List.singleton_append, ← List.append_assoc] at hd
  exact (List.nodup_append.mp hd).2.2 m (List.mem_of_mem_tail hm) m (List.mem_of_mem_head? he) rfl

/-! ### What the functions do -/

section Functions

variable {x : ν} {d : List ν} {e : List ν} {next : ν → Option ν} {head : Queue → Option ν}
  (T : Tcbs ν)

omit [DecidableEq ν] in
/-- The stack while a node is unlinked from the suspended ones. -/
lemma Lists.stacked_removed (h : Lists p stk (e ++ n :: d))
    (hnext : ∀ m, m ∉ e → next m = p.next m) (hhead : ∀ r, r ≠ .suspended → head r = p.head r) :
    Chain next (head .stk) stk := by
  rw [hhead .stk (by simp)]
  refine h.stacked.congr fun m hm => hnext m fun hme => h.apart m hm ?_
  exact List.mem_append_left _ hme

/-- The unlinked node is spliced in after `x`. -/
lemma Lists.splice (h : Lists p (a ++ x :: b) (e ++ n :: d))
    (hs : Chain next (head .suspended) (e ++ d)) (hnext : ∀ m, m ∉ e → next m = p.next m)
    (hhead : ∀ r, r ≠ .suspended → head r = p.head r) :
    Lists ⟨T, ⟨Function.update (Function.update next n (next x)) x (some n), head⟩, p.tdb⟩
        (a ++ x :: n :: b) (e ++ d) ∧
      Elsewhere ((a ++ x :: b) ++ (e ++ n :: d)) p
        ⟨T, ⟨Function.update (Function.update next n (next x)) x (some n), head⟩, p.tdb⟩ := by
  have hn : n ∉ a ++ x :: b := fun hn => h.apart n hn (by simp)
  have hout := h.suspended.notMem
  have hsub : ∀ m ∈ e ++ d, m ∈ e ++ n :: d := fun m hm => mem_middle.mpr (Or.inr hm)
  have hx : x ∉ e ++ d := fun hx => h.apart x (by simp) (hsub x hx)
  refine ⟨⟨(h.stacked_removed hnext hhead).splice hn, (hs.update _ ?_).update _ hx, ?_⟩,
    rfl, fun m hm => ?_, fun q hq hq' => hhead q hq'⟩
  · rw [List.mem_append, not_or]
    exact hout
  · intro m hm hmed
    simp only [List.mem_append, List.mem_cons] at hm
    rcases hm with hm | hm | rfl | hm
    · exact h.apart m (by simp [hm]) (hsub m hmed)
    · exact hx (hm ▸ hmed)
    · rw [List.mem_append] at hmed
      exact hmed.elim hout.1 hout.2
    · exact h.apart m (by simp [hm]) (hsub m hmed)
  · simp only [List.mem_append, List.mem_cons, not_or] at hm
    obtain ⟨⟨-, hmx, -⟩, hme, hmn, -⟩ := hm
    show Function.update (Function.update next n (next x)) x (some n) m = p.next m
    rw [Function.update_of_ne hmx, Function.update_of_ne hmn]
    exact hnext m hme

/-- The stack was empty. -/
lemma Lists.first (h : Lists p [] (e ++ n :: d)) (hs : Chain next (head .suspended) (e ++ d))
    (hnext : ∀ m, m ∉ e → next m = p.next m) (hhead : ∀ r, r ≠ .suspended → head r = p.head r) :
    Lists ⟨T, ⟨Function.update next n none, Function.update head .stk (some n)⟩, p.tdb⟩
        [n] (e ++ d) ∧
      Elsewhere ([] ++ (e ++ n :: d)) p
        ⟨T, ⟨Function.update next n none, Function.update head .stk (some n)⟩, p.tdb⟩ := by
  have hout : n ∉ e ++ d := by
    rw [List.mem_append, not_or]
    exact h.suspended.notMem
  have hstk : Chain (Function.update next n none) (Function.update head .stk (some n) .stk) [n] :=
    ⟨Function.update_self .., Function.update_self ..⟩
  refine ⟨⟨hstk, hs.update _ hout, ?_⟩, rfl, fun m hm => ?_,
    fun q hq hq' => (Function.update_of_ne hq ..).trans (hhead q hq')⟩
  · intro m hm
    rw [List.mem_singleton.mp hm]
    exact hout
  · simp only [List.nil_append, List.mem_append, List.mem_cons, not_or] at hm
    exact (Function.update_of_ne hm.2.1 ..).trans (hnext m hm.1)

end Functions

/-- **Suspending from an ISR2.** -/
lemma suspendHighest_cases (h : Lists p stk susp) (hf : stk.length < fuel) :
    (suspendHighestPriorityActiveTaskFromIsr κ fuel p = some (p, false) ∧
      ∀ m ∈ stk, ¬ (κ.tdb (p.tdb m)).Regular) ∨
    ∃ p' a n b, suspendHighestPriorityActiveTaskFromIsr κ fuel p = some (p', true) ∧
      stk = a ++ n :: b ∧ FirstHighest (fun t => (κ.tdb t).Regular) p a n b ∧
      Lists p' (a ++ b) (n :: susp) ∧ p'.toTcbs = p.toTcbs ∧ Elsewhere (stk ++ susp) p p' := by
  unfold suspendHighestPriorityActiveTaskFromIsr Pointers.highestStacked
  rcases highestLoop_cases (fun t => (κ.tdb t).Regular) h.stacked hf with
    ⟨he, hnone⟩ | ⟨a, n, b, rfl, he, hfirst⟩
  · exact Or.inl ⟨by rw [he]; rfl, hnone⟩
  · obtain ⟨next, head, hrem, hchain, hnext, hhead⟩ := listRemove_cases h.stacked hf
    have hout := h.stacked.notMem
    have hns : n ∉ susp := h.apart n (by simp)
    have hnab : n ∉ a ++ b := by
      rw [List.mem_append, not_or]
      exact hout
    have hsub : ∀ m ∈ a ++ b, m ∈ a ++ n :: b := fun m hm => mem_middle.mpr (Or.inr hm)
    have hsusp : Chain next (head .suspended) susp := by
      rw [hhead .suspended (by simp)]
      exact h.suspended.congr fun m hm => hnext m fun hma =>
        h.apart m (List.mem_append_left _ hma) hm
    have hpush : Chain (Function.update next n (head .suspended))
        (Function.update head .suspended (some n) .suspended) (n :: susp) := by
      refine ⟨Function.update_self .., ?_⟩
      rw [Function.update_self]
      exact hsusp.update _ hns
    have hstk : Chain (Function.update next n (head .suspended))
        (Function.update head .suspended (some n) .stk) (a ++ b) := by
      rw [Function.update_of_ne (by simp)]
      exact hchain.update _ hnab
    rw [he, Option.bind_some]
    dsimp only
    rw [hrem]
    refine Or.inr ⟨_, a, n, b, rfl, rfl, hfirst, ⟨hstk, hpush, ?_⟩, rfl, rfl, fun m hm => ?_,
      fun q hq hq' => ?_⟩
    · intro m hm hmn
      rcases List.mem_cons.mp hmn with rfl | hmn
      · exact hnab hm
      · exact h.apart m (hsub m hm) hmn
    · simp only [List.mem_append, List.mem_cons, not_or] at hm
      exact (Function.update_of_ne hm.1.2.1 ..).trans (hnext m hm.1.1)
    · exact (Function.update_of_ne hq' ..).trans (hhead q hq)

omit [DecidableEq ν] in
/-- The node that a resumption takes. -/
lemma highestSuspended_cases (h : Lists p stk susp) (hf : susp.length < fuel) :
    (Pointers.highestSuspended fuel p = some none ∧ susp = []) ∨
    ∃ a n b, susp = a ++ n :: b ∧ Pointers.highestSuspended fuel p = some (some n) ∧
      FirstHighest (fun _ => True) p a n b := by
  rcases highestLoop_cases (fun _ => True) h.suspended hf with ⟨he, hnone⟩ | hfirst
  · refine Or.inl ⟨he, List.eq_nil_iff_forall_not_mem.mpr fun m hm => hnone m hm trivial⟩
  · exact Or.inr hfirst

omit [DecidableEq ν] in
/-- The first regular node of a stack that has another one on top. -/
lemma split_firstRegular {top : ν} (rest : List ν) (ht : ¬ (κ.tdb (p.tdb top)).Regular) :
    ∃ a x b, top :: rest = a ++ x :: b ∧ (∀ m ∈ a ++ [x], ¬ (κ.tdb (p.tdb m)).Regular) ∧
      ∀ m ∈ b.head?, (κ.tdb (p.tdb m)).Regular := by
  induction rest generalizing top with
  | nil => exact ⟨[], top, [], rfl, by simpa using ht, by simp⟩
  | cons y rest ih =>
    by_cases hy : (κ.tdb (p.tdb y)).Regular
    · exact ⟨[], top, y :: rest, rfl, by simpa using ht, by simpa using hy⟩
    · obtain ⟨a, x, b, hsplit, ha, hb⟩ := ih hy
      refine ⟨top :: a, x, b, by rw [hsplit]; rfl, fun m hm => ?_, hb⟩
      rcases List.mem_cons.mp hm with rfl | hm
      · exact ht
      · exact ha m hm

/-- **Resuming from an ISR2.** -/
lemma resumeFromIsr_cases {top : ν} {rest : List ν} (h : Lists p (top :: rest) susp)
    (ht : (κ.tdb (p.tdb top)).taskType = .isr2) (hf : (top :: rest).length < fuel)
    (hf' : susp.length < fuel) :
    (resumeHighestPriorityTaskFromIsr κ fuel p = some (p, false) ∧ susp = []) ∨
    ∃ p' c n d a b, resumeHighestPriorityTaskFromIsr κ fuel p = some (p', true) ∧
      susp = c ++ n :: d ∧ FirstHighest (fun _ => True) p c n d ∧ top :: rest = a ++ b ∧
      (∀ m ∈ a, ¬ (κ.tdb (p.tdb m)).Regular) ∧ (∀ m ∈ b.head?, (κ.tdb (p.tdb m)).Regular) ∧
      Lists p' (a ++ n :: b) (c ++ d) ∧
      p'.toTcbs = { p.toTcbs with prio := Function.update p.prio (p.tdb n) maxTaskPriority } ∧
      Elsewhere ((top :: rest) ++ susp) p p' := by
  obtain ⟨a, x, b, hsplit, ha, hb⟩ := split_firstRegular (κ := κ) (p := p) rest
    (Order.not_regular_of_isr2 ht)
  rw [hsplit] at h hf ⊢
  have hstk := h.stacked
  have hreg : firstRegularLoop κ p fuel (p.head .stk) = some b.head? := by
    rw [List.length_append, List.length_cons] at hf
    refine firstRegularLoop_split (a := a ++ [x]) ?_ ha hb ?_
    · rw [List.append_assoc, List.singleton_append]
      exact hstk
    · rw [List.length_append, List.length_singleton]
      omega
  unfold resumeHighestPriorityTaskFromIsr
  rw [hreg]
  rcases highestSuspended_cases h hf' with ⟨he, hnil⟩ | ⟨e, n, d, rfl, he, hfirst⟩
  · exact Or.inl ⟨by rw [he]; rfl, hnil⟩
  · obtain ⟨next, head, hrem, hchain, hnext, hhead⟩ := listRemove_cases
      (p := { p with prio := Function.update p.prio (p.tdb n) maxTaskPriority }) h.suspended hf'
    have hlen : a.length < fuel := by
      rw [List.length_append] at hf
      omega
    have hins := insertBeforeLoop_split (n := n) (h.stacked_removed hnext hhead) hlen
    obtain ⟨hlists, helse⟩ := h.splice
      { p.toTcbs with prio := Function.update p.prio (p.tdb n) maxTaskPriority } hchain hnext hhead
    rw [he, Option.bind_some, Option.bind_some]
    dsimp only
    rw [hrem, Option.bind_some]
    refine Or.inr ⟨_, e, n, d, a ++ [x], b, ?_, rfl, hfirst, by simp, ha, hb, ?_, rfl, helse⟩
    · unfold listInsertBefore
      dsimp only
      have hhd : head .stk = some top := by
        rw [hhead .stk (by simp), hstk.head_eq, ← hsplit]
        rfl
      rw [hhd] at hins ⊢
      dsimp only
      rw [hins]
      rfl
    · rw [List.append_assoc, List.singleton_append]
      exact hlists

/-- **Resuming a task from a task.** -/
lemma resumeHighest_cases (h : Lists p stk susp) (hf : stk.length < fuel)
    (hf' : susp.length < fuel) :
    (resumeHighestPriorityTask fuel p = some (p, false) ∧ susp = []) ∨
    ∃ p' c n d, resumeHighestPriorityTask fuel p = some (p', true) ∧
      susp = c ++ n :: d ∧ FirstHighest (fun _ => True) p c n d ∧
      Lists p' (stk.take 1 ++ n :: stk.drop 1) (c ++ d) ∧ p'.toTcbs = p.toTcbs ∧
      Elsewhere (stk ++ susp) p p' := by
  unfold resumeHighestPriorityTask
  rcases highestSuspended_cases h hf' with ⟨he, hnil⟩ | ⟨e, n, d, rfl, he, hfirst⟩
  · exact Or.inl ⟨by rw [he]; rfl, hnil⟩
  · obtain ⟨next, head, hrem, hchain, hnext, hhead⟩ := listRemove_cases h.suspended hf'
    rw [he, Option.bind_some]
    dsimp only
    rw [hrem, Option.bind_some]
    have hstk := h.stacked_removed hnext hhead
    right
    cases stk with
    | nil =>
      obtain ⟨hlists, helse⟩ := h.first p.toTcbs hchain hnext hhead
      refine ⟨_, e, n, d, ?_, rfl, hfirst, hlists, rfl, helse⟩
      unfold listInsertAfter
      dsimp only
      rw [show head .stk = none from hstk]
      rfl
    | cons top rest =>
      obtain ⟨hlists, helse⟩ := h.splice (a := []) p.toTcbs hchain hnext hhead
      refine ⟨_, e, n, d, ?_, rfl, hfirst, hlists, rfl, helse⟩
      obtain ⟨k, rfl⟩ : ∃ k, fuel = k + 1 := Nat.exists_eq_succ_of_ne_zero (by omega)
      unfold listInsertAfter
      dsimp only
      rw [hstk.1, insertAfterLoop, if_pos rfl]
      rfl

/-- **The task to suspend and the task to resume**: for any two lists, an ISR2 suspends the first
stacked regular task of highest priority, if there is one; it resumes the first suspended task of
highest priority, at the highest priority of all, in front of the first regular task of a stack
that has an ISR2 on top; and a task resumes it, at the priority it has, behind the top of the
stack. The other nodes keep their order. -/
theorem selected_moved (κ : Kdb) (fuel : ℕ) (p : Ccb ν) (stk susp : List ν)
    (h : Lists p stk susp) (hf : stk.length < fuel) (hf' : susp.length < fuel) :
    (∃ p' r, suspendHighestPriorityActiveTaskFromIsr κ fuel p = some (p', r) ∧
      Pointers.suspendHighestPriorityActiveTaskFromIsr κ fuel p = some p' ∧
      (r = false ↔ ∀ m ∈ stk, ¬ (κ.tdb (p.tdb m)).Regular) ∧ (r = false → p' = p) ∧
      (r = true → ∃ a n b, stk = a ++ n :: b ∧
        FirstHighest (fun t => (κ.tdb t).Regular) p a n b ∧ Lists p' (a ++ b) (n :: susp) ∧
        p'.toTcbs = p.toTcbs ∧ Elsewhere (stk ++ susp) p p')) ∧
    ((∃ top ∈ stk.head?, (κ.tdb (p.tdb top)).taskType = .isr2) →
      ∃ p' r, resumeHighestPriorityTaskFromIsr κ fuel p = some (p', r) ∧
      Pointers.resumeHighestPriorityTaskFromIsr κ fuel p = some p' ∧
      (r = false ↔ susp = []) ∧ (r = false → p' = p) ∧
      (r = true → ∃ c n d a b, susp = c ++ n :: d ∧ FirstHighest (fun _ => True) p c n d ∧
        stk = a ++ b ∧ (∀ m ∈ a, ¬ (κ.tdb (p.tdb m)).Regular) ∧
        (∀ m ∈ b.head?, (κ.tdb (p.tdb m)).Regular) ∧ Lists p' (a ++ n :: b) (c ++ d) ∧
        p'.toTcbs = { p.toTcbs with prio := Function.update p.prio (p.tdb n) maxTaskPriority } ∧
        Elsewhere (stk ++ susp) p p')) ∧
    ∃ p' r, resumeHighestPriorityTask fuel p = some (p', r) ∧
      Pointers.resumeHighestPriorityTask fuel p = some p' ∧
      (r = false ↔ susp = []) ∧ (r = false → p' = p) ∧
      (r = true → ∃ c n d, susp = c ++ n :: d ∧ FirstHighest (fun _ => True) p c n d ∧
        Lists p' (stk.take 1 ++ n :: stk.drop 1) (c ++ d) ∧ p'.toTcbs = p.toTcbs ∧
        Elsewhere (stk ++ susp) p p') := by
  refine ⟨?_, ?_, ?_⟩
  · rw [← suspendHighest_fst]
    rcases suspendHighest_cases (κ := κ) h hf with
      ⟨he, hnone⟩ | ⟨p', a, n, b, he, hstk, hfirst, hmoved⟩
    · exact ⟨p, false, he, congrArg (Option.map Prod.fst) he, ⟨fun _ => hnone, fun _ => rfl⟩,
        fun _ => rfl, nofun⟩
    · refine ⟨p', true, he, congrArg (Option.map Prod.fst) he, ⟨nofun, fun hnone => ?_⟩, nofun,
        fun _ => ⟨a, n, b, hstk, hfirst, hmoved⟩⟩
      exact absurd hfirst.chosen (hnone n (by rw [hstk]; simp))
  · rintro ⟨top, htop, hi⟩
    obtain ⟨rest, rfl⟩ := List.head?_eq_some_iff.mp htop
    rw [← resumeFromIsr_fst]
    rcases resumeFromIsr_cases h hi hf hf' with ⟨he, hnil⟩ | ⟨p', c, n, d, a, b, he, hs, hmoved⟩
    · exact ⟨p, false, he, congrArg (Option.map Prod.fst) he, ⟨fun _ => hnil, fun _ => rfl⟩,
        fun _ => rfl, nofun⟩
    · refine ⟨p', true, he, congrArg (Option.map Prod.fst) he, ⟨nofun, fun hnil => ?_⟩, nofun,
        fun _ => ⟨c, n, d, a, b, hs, hmoved⟩⟩
      simp [hs] at hnil
  · rw [← resumeHighest_fst]
    rcases resumeHighest_cases h hf hf' with ⟨he, hnil⟩ | ⟨p', c, n, d, he, hs, hmoved⟩
    · exact ⟨p, false, he, congrArg (Option.map Prod.fst) he, ⟨fun _ => hnil, fun _ => rfl⟩,
        fun _ => rfl, nofun⟩
    · refine ⟨p', true, he, congrArg (Option.map Prod.fst) he, ⟨nofun, fun hnil => ?_⟩, nofun,
        fun _ => ⟨c, n, d, hs, hmoved⟩⟩
      simp [hs] at hnil

/-- An ISR2 above the tasks 4 and 5; the tasks 6 and 7 are suspended. -/
def fiveLinked : Ccb ℕ :=
  ⟨(Kernel.init (Kernel.smallKdb 1) []).toTcbs,
    ⟨fun n => if n = 2 ∨ 4 ≤ n then none else some (n + 1),
      fun q => if q = .stk then some 0 else if q = .suspended then some 3 else none⟩,
    fun n => if n = 0 then 1 else n + 3⟩

theorem selected_moved_fiveLinked :
    Lists fiveLinked [0, 1, 2] [3, 4] ∧
      ∃ p' a n b, suspendHighestPriorityActiveTaskFromIsr (Kernel.smallKdb 1) 4 fiveLinked =
        some (p', true) ∧ [0, 1, 2] = a ++ n :: b ∧ Lists p' (a ++ b) [n, 3, 4] := by
  have hlists : Lists fiveLinked [0, 1, 2] [3, 4] := ⟨by decide, by decide, by decide⟩
  obtain ⟨p', r, he, -, hfalse, -, htrue⟩ :=
    (selected_moved (Kernel.smallKdb 1) 4 fiveLinked [0, 1, 2] [3, 4] hlists (by decide)
      (by decide)).1
  cases r with
  | false => exact absurd (hfalse.mp rfl 1 (by simp)) (by decide)
  | true =>
    obtain ⟨a, n, b, hstk, -, hmoved, -⟩ := htrue rfl
    exact ⟨hlists, p', a, n, b, he, hstk, hmoved⟩

end FpMemSched.Erika.Selection
