import FpMemSched.Irqchip
import FpMemSched.Lib.Ring

/-!
The ring of pending interrupts of a CPU (`irqchip.c`), as it stands in memory.

The interrupts and their senders are in two arrays that are indexed modulo the size of the
ring. Over the arrays stands a queue: a list that takes an interrupt at its end while it is not
full, and whose first interrupt is offered to `inject_irq` until that is not busy. The arrays
refine the queue, and what the queue does over a whole run can be read off a log.
-/

namespace FpMemSched.Irqchip.PendingRing

open FpMemSched.Lib

structure PendingIrqs where
  irqs : ℕ → ℕ
  sender : ℕ → ℕ
  head : ℕ
  tail : ℕ

/-- What `inject_irq` returns: 0, `-EEXIST` or `-EBUSY`. -/
inductive Answer
  | ok | eexist | ebusy
  deriving DecidableEq

inductive Event
  | accepted (q : Irq)
  | refused (q : Irq)
  /-- An entry of the ring was given to `inject_irq`. -/
  | offered (q : Irq) (a : Answer)
  deriving DecidableEq

/-- The ring of a CPU, its interrupt hardware, and whether the maintenance interrupt is on. The
log is not in the source. -/
structure Cpu (κ : Type*) where
  pending : PendingIrqs
  lrs : κ
  maint : Bool
  log : List Event

variable {κ : Type*} (injectIrq : Irq → κ → Answer × κ)

/-- The part of `irqchip_set_pending` that holds the lock. -/
def push (q : Irq) (s : Cpu κ) : Cpu κ :=
  let newTail := (s.pending.tail + 1) % maxPendingIrqs
  if newTail ≠ s.pending.head then
    { s with
      pending :=
        { s.pending with
          irqs := Function.update s.pending.irqs s.pending.tail q.id
          sender := Function.update s.pending.sender s.pending.tail q.sender
          tail := newTail }
      log := s.log ++ [.accepted q] }
  else { s with log := s.log ++ [.refused q] }

/-- `irqchip_set_pending` for a target CPU. A CPU that raises an interrupt for itself tries to
inject it first; another one sends `SGI_INJECT` in the end. -/
def irqchipSetPending (localInjection : Bool) (q : Irq) (s : Cpu κ) : Cpu κ :=
  if localInjection then
    let o := injectIrq q s.lrs
    if o.1 ≠ .ebusy then { s with lrs := o.2 }
    else { push q { s with lrs := o.2 } with maint := true }
  else push q s

def PendingIrqs.pop (p : PendingIrqs) : PendingIrqs :=
  { p with head := (p.head + 1) % maxPendingIrqs }

/-- The `while` loop of `irqchip_inject_pending`, and what follows it. -/
def injectLoop : ℕ → Cpu κ → Cpu κ
  | 0, s => s
  | fuel + 1, s =>
    if s.pending.head ≠ s.pending.tail then
      let q : Irq := ⟨s.pending.irqs s.pending.head, s.pending.sender s.pending.head⟩
      let o := injectIrq q s.lrs
      let s : Cpu κ := { s with lrs := o.2, log := s.log ++ [.offered q o.1] }
      if o.1 = .ebusy then { s with maint := true }
      else injectLoop fuel { s with pending := s.pending.pop }
    else { s with maint := false }

def irqchipInjectPending (s : Cpu κ) : Cpu κ := injectLoop injectIrq maxPendingIrqs s

inductive Action (κ : Type*)
  | setPending (localInjection : Bool) (q : Irq)
  | injectPending
  /-- The guest and the hardware change the list registers. -/
  | hardware (lrs : κ)

def step (s : Cpu κ) : Action κ → Cpu κ
  | .setPending loc q => irqchipSetPending injectIrq loc q s
  | .injectPending => irqchipInjectPending injectIrq s
  | .hardware lrs => { s with lrs := lrs }

def run (s : Cpu κ) (as : List (Action κ)) : Cpu κ := as.foldl (step injectIrq) s

/-- A CPU whose ring is empty, with `head` anywhere in it. -/
def start (irqs sender : ℕ → ℕ) (head : Fin maxPendingIrqs) (lrs : κ) (maint : Bool) : Cpu κ :=
  ⟨⟨irqs, sender, head, head⟩, lrs, maint, []⟩

/-! ### The queue -/

/-- The queue that the ring stands for. -/
structure Queue (κ : Type*) where
  irqs : List Irq
  lrs : κ
  maint : Bool
  log : List Event

def Queue.push (q : Irq) (s : Queue κ) : Queue κ :=
  if s.irqs.length < maxPendingIrqs - 1 then
    { s with irqs := s.irqs ++ [q], log := s.log ++ [.accepted q] }
  else { s with log := s.log ++ [.refused q] }

def Queue.setPending (localInjection : Bool) (q : Irq) (s : Queue κ) : Queue κ :=
  if localInjection then
    let o := injectIrq q s.lrs
    if o.1 ≠ .ebusy then { s with lrs := o.2 }
    else { Queue.push q { s with lrs := o.2 } with maint := true }
  else s.push q

/-- Offer the interrupts one after the other until one is answered `EBUSY`. -/
def offerAll : List Irq → κ → List Event → Queue κ
  | [], lrs, log => ⟨[], lrs, false, log⟩
  | q :: irqs, lrs, log =>
    let o := injectIrq q lrs
    if o.1 = .ebusy then ⟨q :: irqs, o.2, true, log ++ [.offered q o.1]⟩
    else offerAll irqs o.2 (log ++ [.offered q o.1])

def Queue.injectPending (s : Queue κ) : Queue κ := offerAll injectIrq s.irqs s.lrs s.log

def Queue.step (s : Queue κ) : Action κ → Queue κ
  | .setPending loc q => s.setPending injectIrq loc q
  | .injectPending => s.injectPending injectIrq
  | .hardware lrs => { s with lrs := lrs }

/-! ### The ring refines the queue -/

/-- The entry in a slot. -/
def PendingIrqs.slot (p : PendingIrqs) (i : ℕ) : Irq := ⟨p.irqs i, p.sender i⟩

/-- The entries from `head` to `tail`. -/
def PendingIrqs.entries (p : PendingIrqs) : List Irq :=
  Ring.entries maxPendingIrqs p.slot p.head p.tail

structure PendingIrqs.InRange (p : PendingIrqs) : Prop where
  head : p.head < maxPendingIrqs
  tail : p.tail < maxPendingIrqs

def Cpu.queue (s : Cpu κ) : Queue κ := ⟨s.pending.entries, s.lrs, s.maint, s.log⟩

lemma slot_update (p : PendingIrqs) (i : ℕ) (q : Irq) :
    (fun j => (⟨Function.update p.irqs i q.id j, Function.update p.sender i q.sender j⟩ : Irq)) =
      Function.update p.slot i q := by
  funext j
  rcases eq_or_ne j i with rfl | hj
  · simp
  · simp [hj, PendingIrqs.slot]

lemma push_inRange {s : Cpu κ} (h : s.pending.InRange) (q : Irq) :
    (push q s).pending.InRange := by
  rw [push]
  split
  · exact ⟨h.head, Ring.next_lt (Nat.succ_pos _) _⟩
  · exact h

/-- A ring without a free slot is a queue that is full. -/
lemma queue_push {s : Cpu κ} (h : s.pending.InRange) (q : Irq) :
    (push q s).queue = s.queue.push q := by
  have hlen : s.pending.entries.length =
      Ring.used maxPendingIrqs s.pending.head s.pending.tail := Ring.length_entries _
  have hlt := Ring.used_lt h.head h.tail
  have hfull := Ring.next_eq_head h.head h.tail
  have hmax : 0 < maxPendingIrqs := Nat.succ_pos _
  rw [push, Queue.push]
  by_cases hfree : (s.pending.tail + 1) % maxPendingIrqs ≠ s.pending.head
  · have hne := mt hfull.mpr hfree
    have hroom : s.queue.irqs.length < maxPendingIrqs - 1 := by
      simp only [Cpu.queue]
      omega
    rw [if_pos hroom]
    simp only [if_pos hfree, Cpu.queue, Queue.mk.injEq, and_self, and_true]
    have := Ring.entries_push s.pending.slot q h.head h.tail hfree
    rw [← slot_update] at this
    exact this
  · have hroom : ¬ s.queue.irqs.length < maxPendingIrqs - 1 := by
      have := hfull.mp (not_not.mp hfree)
      simp only [Cpu.queue]
      omega
    rw [if_neg hroom]
    simp only [if_neg hfree, Cpu.queue]

lemma queue_setPending {s : Cpu κ} (h : s.pending.InRange) (loc : Bool) (q : Irq) :
    (irqchipSetPending injectIrq loc q s).pending.InRange ∧
      (irqchipSetPending injectIrq loc q s).queue = s.queue.setPending injectIrq loc q := by
  cases loc with
  | false => exact ⟨push_inRange h q, queue_push h q⟩
  | true =>
    simp only [irqchipSetPending, Queue.setPending, if_true]
    by_cases hbusy : (injectIrq q s.lrs).1 ≠ .ebusy
    · rw [if_pos hbusy]
      exact ⟨h, (if_pos hbusy).symm⟩
    · have hpush := @queue_push _ { s with lrs := (injectIrq q s.lrs).2 } h q
      rw [if_neg hbusy]
      refine ⟨push_inRange (s := { s with lrs := (injectIrq q s.lrs).2 }) h q, ?_⟩
      refine Eq.trans ?_ (if_neg hbusy).symm
      exact congrArg (fun t : Queue κ => { t with maint := true }) hpush

/-- The loop offers the entries of the ring; it stops within one turn for each slot. -/
lemma queue_injectLoop {fuel : ℕ} {s : Cpu κ} (h : s.pending.InRange)
    (hfuel : s.pending.entries.length < fuel) :
    (injectLoop injectIrq fuel s).pending.InRange ∧
      (injectLoop injectIrq fuel s).queue = s.queue.injectPending injectIrq := by
  induction fuel generalizing s with
  | zero => omega
  | succ fuel ih =>
    rw [injectLoop]
    by_cases hne : s.pending.head ≠ s.pending.tail
    · have hpop : s.pending.entries = s.pending.slot s.pending.head :: s.pending.pop.entries :=
        Ring.entries_pop s.pending.slot h.head h.tail hne
      rw [hpop, List.length_cons] at hfuel
      simp only [if_pos hne]
      by_cases hbusy : (injectIrq (s.pending.slot s.pending.head) s.lrs).1 = .ebusy
      · refine ⟨?_, ?_⟩
        · simp only [PendingIrqs.slot] at hbusy
          simp only [if_pos hbusy]
          exact h
        · simp only [Queue.injectPending, Cpu.queue, hpop, offerAll, if_pos hbusy]
          simp only [PendingIrqs.slot] at hbusy hpop
          simp only [if_pos hbusy, hpop, PendingIrqs.slot]
      · have hstep : s.queue.injectPending injectIrq = Queue.injectPending injectIrq
            ({ s with
              lrs := (injectIrq (s.pending.slot s.pending.head) s.lrs).2
              log := s.log ++ [.offered (s.pending.slot s.pending.head)
                (injectIrq (s.pending.slot s.pending.head) s.lrs).1]
              pending := s.pending.pop } : Cpu κ).queue := by
          simp only [Queue.injectPending, Cpu.queue, hpop, offerAll, if_neg hbusy]
        rw [hstep]
        simp only [PendingIrqs.slot] at hbusy ⊢
        rw [if_neg hbusy]
        exact ih ⟨Ring.next_lt (Nat.succ_pos _) _, h.tail⟩ (Nat.lt_of_succ_lt_succ hfuel)
    · have hnil : s.pending.entries = [] :=
        (Ring.entries_eq_nil s.pending.slot h.head).mpr (not_not.mp hne)
      rw [if_neg hne]
      refine ⟨h, ?_⟩
      simp only [Queue.injectPending, Cpu.queue, hnil, offerAll]

lemma queue_injectPending {s : Cpu κ} (h : s.pending.InRange) :
    (irqchipInjectPending injectIrq s).pending.InRange ∧
      (irqchipInjectPending injectIrq s).queue = s.queue.injectPending injectIrq :=
  queue_injectLoop injectIrq h
    ((Ring.length_entries _).trans_lt (Ring.used_lt h.head h.tail))

/-- **A step of the ring is a step of the queue.** -/
theorem queue_step {s : Cpu κ} (h : s.pending.InRange) (a : Action κ) :
    (step injectIrq s a).pending.InRange ∧
      (step injectIrq s a).queue = s.queue.step injectIrq a := by
  cases a with
  | setPending loc q => exact queue_setPending injectIrq h loc q
  | injectPending => exact queue_injectPending injectIrq h
  | hardware lrs => exact ⟨h, rfl⟩

lemma queue_run {s : Cpu κ} (h : s.pending.InRange) (as : List (Action κ)) :
    (run injectIrq s as).pending.InRange ∧
      (run injectIrq s as).queue = as.foldl (Queue.step injectIrq) s.queue := by
  induction as generalizing s with
  | nil => exact ⟨h, rfl⟩
  | cons a as ih =>
    obtain ⟨ha, hq⟩ := queue_step injectIrq h a
    rw [List.foldl_cons, ← hq]
    exact ih ha

/-! ### The history of a queue -/

def accepted (log : List Event) : List Irq :=
  log.filterMap fun | .accepted q => some q | _ => none

/-- What was given to `inject_irq`, with the answers. -/
def offers (log : List Event) : List (Irq × Answer) :=
  log.filterMap fun | .offered q a => some (q, a) | _ => none

/-- What `inject_irq` has taken or has found to be there already. -/
def consumed (log : List Event) : List Irq :=
  ((offers log).filter (·.2 ≠ .ebusy)).map Prod.fst

/-- `Served l os r`: the interrupts `l` are offered in turn, each one until the answer is not
`EBUSY` and then no more; `r` are left. -/
inductive Served : List Irq → List (Irq × Answer) → List Irq → Prop
  | stop {l : List Irq} : Served l [] l
  | busy {q : Irq} {l r : List Irq} {os : List (Irq × Answer)} :
    Served (q :: l) os r → Served (q :: l) ((q, .ebusy) :: os) r
  | taken {q : Irq} {a : Answer} {l r : List Irq} {os : List (Irq × Answer)} :
    a ≠ .ebusy → Served l os r → Served (q :: l) ((q, a) :: os) r

section Served

variable {l r : List Irq} {os : List (Irq × Answer)} {q : Irq} {a : Answer}

lemma Served.accept (h : Served l os r) (q : Irq) : Served (l ++ [q]) os (r ++ [q]) := by
  induction h with
  | stop => exact .stop
  | busy _ ih => exact .busy ih
  | taken ha _ ih => exact .taken ha ih

lemma Served.offer_busy (h : Served l os (q :: r)) :
    Served l (os ++ [(q, .ebusy)]) (q :: r) := by
  generalize hr : q :: r = rest at h
  induction h with
  | stop =>
    subst hr
    exact .busy .stop
  | busy _ ih => exact .busy (ih hr)
  | taken ha _ ih => exact .taken ha (ih hr)

lemma Served.offer_taken (ha : a ≠ .ebusy) (h : Served l os (q :: r)) :
    Served l (os ++ [(q, a)]) r := by
  generalize hr : q :: r = rest at h
  induction h with
  | stop =>
    subst hr
    exact .taken ha .stop
  | busy _ ih => exact .busy (ih hr)
  | taken hb _ ih => exact .taken hb (ih hr)

/-- What was accepted is what is consumed and what is left, in this order. -/
lemma Served.eq_append (h : Served l os r) :
    l = (os.filter (·.2 ≠ .ebusy)).map Prod.fst ++ r := by
  induction h with
  | stop => rfl
  | busy _ ih => simpa using ih
  | taken ha _ ih => simpa [ha] using ih

end Served

/-- What the log says about the queue. -/
structure Queue.Fits (s : Queue κ) : Prop where
  served : Served (accepted s.log) (offers s.log) s.irqs
  room : s.irqs.length ≤ maxPendingIrqs - 1

lemma fits_push {s : Queue κ} (h : s.Fits) (q : Irq) : (s.push q).Fits := by
  rw [Queue.push]
  split
  · rename_i hroom
    refine ⟨?_, ?_⟩
    · simpa [accepted, offers] using h.served.accept q
    · simp only [List.length_append, List.length_singleton]
      omega
  · exact ⟨by simpa [accepted, offers] using h.served, h.room⟩

lemma fits_offerAll {irqs : List Irq} {lrs : κ} {log : List Event}
    (hserved : Served (accepted log) (offers log) irqs)
    (hroom : irqs.length ≤ maxPendingIrqs - 1) : (offerAll injectIrq irqs lrs log).Fits := by
  induction irqs generalizing lrs log with
  | nil => exact ⟨hserved, hroom⟩
  | cons q irqs ih =>
    rw [offerAll]
    split
    · rename_i hbusy
      refine ⟨?_, hroom⟩
      rw [hbusy]
      simpa [accepted, offers] using hserved.offer_busy
    · rename_i hbusy
      refine ih ?_ (Nat.le_of_succ_le hroom)
      simpa [accepted, offers] using hserved.offer_taken hbusy

lemma fits_step {s : Queue κ} (h : s.Fits) (a : Action κ) : (s.step injectIrq a).Fits := by
  cases a with
  | setPending loc q =>
    cases loc with
    | false => exact fits_push h q
    | true =>
      simp only [Queue.step, Queue.setPending, if_true]
      split
      · exact ⟨h.served, h.room⟩
      · obtain ⟨hserved, hroom⟩ := fits_push (s := { s with lrs := (injectIrq q s.lrs).2 })
          ⟨h.served, h.room⟩ q
        exact ⟨hserved, hroom⟩
  | injectPending => exact fits_offerAll injectIrq h.served h.room
  | hardware lrs => exact ⟨h.served, h.room⟩

lemma fits_run {s : Queue κ} (h : s.Fits) (as : List (Action κ)) :
    (as.foldl (Queue.step injectIrq) s).Fits := by
  induction as generalizing s with
  | nil => exact h
  | cons a as ih => exact ih (fits_step injectIrq h a)

/-- Offering ends with the queue empty and the maintenance interrupt off, or with a busy answer
to the first interrupt that is left and the maintenance interrupt on. -/
lemma offerAll_end (irqs : List Irq) (lrs : κ) (log : List Event) :
    let s := offerAll injectIrq irqs lrs log
    (s.irqs = [] ∧ s.maint = false) ∨
      ∃ q rest before, s.irqs = q :: rest ∧ s.maint = true ∧
        s.log = before ++ [.offered q .ebusy] := by
  induction irqs generalizing lrs log with
  | nil => exact .inl ⟨rfl, rfl⟩
  | cons q irqs ih =>
    rw [offerAll]
    by_cases hbusy : (injectIrq q lrs).1 = .ebusy
    · simp only [if_pos hbusy]
      exact .inr ⟨q, irqs, log, rfl, trivial, by rw [hbusy]⟩
    · simp only [if_neg hbusy]
      exact ih _ _

/-! ### Main results -/

/-- **The ring is a bounded queue with senders.** After every run from an empty ring the
indices are in range; the entries between them are the accepted interrupts that are not yet
consumed, in the order in which they were accepted; they were offered in that order, each until
it was not answered `EBUSY`. From there a remote interrupt is refused only if all slots but one
are in use, and `irqchip_inject_pending` leaves the maintenance interrupt on exactly if entries
remain, the first of which was answered `EBUSY`. -/
theorem ring_bounded_fifo (irqs sender : ℕ → ℕ) (head : Fin maxPendingIrqs) (lrs : κ)
    (maint : Bool) (as : List (Action κ)) :
    let s := run injectIrq (start irqs sender head lrs maint) as
    (s.pending.head < maxPendingIrqs ∧ s.pending.tail < maxPendingIrqs) ∧
    accepted s.log = consumed s.log ++ s.pending.entries ∧
    s.pending.entries.length ≤ maxPendingIrqs - 1 ∧
    Served (accepted s.log) (offers s.log) s.pending.entries ∧
    (∀ q,
      let t := irqchipSetPending injectIrq false q s
      if s.pending.entries.length < maxPendingIrqs - 1 then
        t.pending.entries = s.pending.entries ++ [q] ∧ t.log = s.log ++ [.accepted q]
      else t.pending.entries = s.pending.entries ∧ t.log = s.log ++ [.refused q]) ∧
    (let t := irqchipInjectPending injectIrq s
     (t.pending.entries = [] ∧ t.maint = false) ∨
      ∃ q rest before, t.pending.entries = q :: rest ∧ t.maint = true ∧
        t.log = before ++ [.offered q .ebusy]) := by
  intro s
  have hstart : (start irqs sender head lrs maint).pending.InRange := ⟨head.isLt, head.isLt⟩
  have hempty : (start irqs sender head lrs maint).pending.entries = [] :=
    (Ring.entries_eq_nil _ head.isLt).mpr rfl
  obtain ⟨hrange, hqueue⟩ := queue_run injectIrq hstart as
  have hfits : s.queue.Fits := by
    have h₀ : (start irqs sender head lrs maint).queue.Fits := by
      simp only [Cpu.queue, hempty]
      exact ⟨.stop, Nat.zero_le _⟩
    rw [show s.queue = _ from hqueue]
    exact fits_run injectIrq h₀ as
  refine ⟨⟨hrange.head, hrange.tail⟩, hfits.served.eq_append, hfits.room, hfits.served, ?_, ?_⟩
  · intro q t
    have hpush := queue_push hrange q
    have hentries : t.pending.entries = (s.queue.push q).irqs := congrArg Queue.irqs hpush
    have hlog : t.log = (s.queue.push q).log := congrArg Queue.log hpush
    rw [hentries, hlog, Queue.push]
    by_cases hroom : s.pending.entries.length < maxPendingIrqs - 1
    · simp only [Cpu.queue, hroom, if_true, and_self]
    · simp only [Cpu.queue, hroom, if_false, and_self]
  · have hinject := (queue_injectPending injectIrq hrange).2
    have hend := offerAll_end injectIrq s.queue.irqs s.queue.lrs s.queue.log
    rw [← Queue.injectPending, ← hinject] at hend
    exact hend

/-! ### The list registers of a GICv2 -/

/-- `gicv2_inject_irq` as the function of the interrupt chip. -/
def gicv2Answer (q : Irq) (lrs : List Lr) : Answer × List Lr :=
  match gicv2InjectIrq q lrs with
  | .done lrs' => (.ok, lrs')
  | .eexist => (.eexist, lrs)
  | .ebusy => (.ebusy, lrs)

def Queue.target (s : Queue (List Lr)) : Target := ⟨s.irqs, s.lrs, s.maint⟩

/-- With the list registers of a GICv2, the queue is the ring of a target CPU. -/
theorem target_setPending (loc : Bool) (q : Irq) (s : Queue (List Lr)) :
    (s.setPending gicv2Answer loc q).target = Irqchip.irqchipSetPending loc q s.target := by
  have hpush (s : Queue (List Lr)) : (s.push q).target = enqueue q s.target := by
    by_cases hroom : s.irqs.length < maxPendingIrqs - 1
    · simp only [Queue.push, enqueue, Queue.target, hroom, if_true]
    · simp only [Queue.push, enqueue, Queue.target, hroom, if_false]
  cases loc with
  | false => exact hpush s
  | true =>
    have hlrs : s.target.lrs = s.lrs := rfl
    rcases hg : gicv2InjectIrq q s.lrs with lrs' | _ | _
    · simp [Queue.setPending, Irqchip.irqchipSetPending, gicv2Answer, Queue.target, hg]
    · simp [Queue.setPending, Irqchip.irqchipSetPending, gicv2Answer, Queue.target, hg]
    · simp only [Queue.setPending, Irqchip.irqchipSetPending, gicv2Answer, hlrs, hg, if_true,
        ne_eq, not_true_eq_false, if_false, ← hpush]
      rfl

theorem target_injectPending (s : Queue (List Lr)) :
    (s.injectPending gicv2Answer).target =
      Irqchip.irqchipInjectPending s.target.ring s.target.lrs := by
  obtain ⟨irqs, lrs, maint, log⟩ := s
  simp only [Queue.injectPending, Queue.target]
  induction irqs generalizing lrs log with
  | nil => rfl
  | cons q irqs ih =>
    rw [offerAll, Irqchip.irqchipInjectPending, gicv2Answer]
    cases gicv2InjectIrq q lrs with
    | done lrs' => exact ih _ _
    | eexist => exact ih _ _
    | ebusy => rfl

end FpMemSched.Irqchip.PendingRing
