import FpMemSched.Delivery

/-!
Interrupts between the CPUs of a cell (`gic_handle_sgir_write`, `irqchip_set_pending`,
`irqchip_inject_pending`).

A CPU that sends an SGI for its guest queues it at each target and then wakes the target by an SGI
of the hypervisor. The target empties its ring into its list registers; when these are full it
turns on the maintenance interrupt, which comes once at most one of them is in use. Rings take
entries while they are emptied. Which CPU has which cell is fixed. Left out are the interrupts that
the hypervisor itself sends to other cells: those of TDMA, and the STARTED and ENDED interrupts that
the hypercalls of the fixed-priority arbiter raise.
-/

namespace FpMemSched.VirtualIrqs

open FpMemSched.Lib FpMemSched.Lib.Runs FpMemSched.Irqchip
open FpMemSched.Delivery

/-! ### The model -/

/-- The cells of the CPUs, the CPUs of the cells, and `gicv2_target_cpu_map`. -/
structure Machine where
  cell : ℕ → ℕ
  cpuSet : ℕ → List ℕ
  cpuTarget : ℕ → BitVec 8
  numLr : ℕ

structure Sgi where
  targets : BitVec 8
  routingMode : ℕ
  id : ℕ
  deriving DecidableEq

/-- What a CPU is doing: its guest runs, it goes through the targets of an SGI, it is about to wake
a target, it is in the loop of `irqchip_inject_pending`, or behind it. -/
inductive Pc
  | guest
  | sending (id : ℕ) (todo : List ℕ)
  | waking (cpu : ℕ) (id : ℕ) (todo : List ℕ)
  | injecting
  | closing
  deriving DecidableEq

/-- A CPU. The SGIs that wake it are pending at its physical interface, at most one of each sender;
an interrupt is `owed` from the time it is raised until the guest takes it, and `lost` when it was
dropped in between. -/
structure Cpu where
  target : Target
  sgiInject : List ℕ
  pc : Pc
  owed : ℕ → Bool
  lost : ℕ → Bool

abbrev Sys := ℕ → Cpu

def init (M : Machine) : Sys := fun _ =>
  ⟨⟨[], List.replicate M.numLr .free, false⟩, [], .guest, fun _ => false, fun _ => false⟩

/-- The guest is handling the interrupt. -/
def serving (id : ℕ) (lrs : List Lr) : Bool := lrs.any fun l => l.isActive && l.holds id

def ringFull (t : Target) : Bool := decide (maxPendingIrqs - 1 ≤ t.ring.length)

/-- `irqchip_set_pending` drops the interrupt: the ring is full, or the interrupt is just being
handled and cannot become pending in the list registers. -/
def drops (localInjection : Bool) (q : Irq) (t : Target) : Bool :=
  if localInjection then
    match gicv2InjectIrq q t.lrs with
    | .done _ => false
    | .eexist => serving q.id t.lrs
    | .ebusy => ringFull t
  else ringFull t

def mark (f : ℕ → Bool) (id : ℕ) (b : Bool) : ℕ → Bool := Function.update f id b

/-- `irqchip_set_pending` for a CPU. -/
def Cpu.raise (c : Cpu) (localInjection : Bool) (q : Irq) : Cpu :=
  { c with
    target := irqchipSetPending localInjection q c.target
    owed := mark c.owed q.id true
    lost := mark c.lost q.id (c.lost q.id || drops localInjection q c.target) }

/-- The value that is written to `GICD_SGIR`. -/
def sgirWrite (val : BitVec 32) : Sgi :=
  ⟨(val >>> 16).setWidth 8, ((val >>> 24) &&& 3#32).toNat, (val &&& 0xf#32).toNat⟩

/-- The CPUs that `gic_handle_sgir_write` goes through. -/
def sgiCpus (M : Machine) (cpu : ℕ) (sgi : Sgi) : List ℕ :=
  -- route to the caller itself
  if sgi.routingMode = 2 then [cpu]
  else (M.cpuSet (M.cell cpu)).filter fun c =>
    -- route to all (cell) CPUs but the caller
    if sgi.routingMode = 1 then decide (c ≠ cpu)
    else decide (sgi.targets &&& M.cpuTarget c ≠ 0)

/-- An underflow: none or only one of the list registers is in use. -/
def maintFires (t : Target) : Bool :=
  t.maint && decide ((t.lrs.filter fun l => decide (l ≠ .free)).length ≤ 1)

/-- One turn of the loop of `irqchip_inject_pending`. -/
def Cpu.injectTurn (c : Cpu) : Cpu :=
  match c.target.ring with
  | [] => { c with pc := .closing }
  | q :: ring =>
    match gicv2InjectIrq q c.target.lrs with
    | .done lrs => { c with target := { c.target with ring := ring, lrs := lrs } }
    | .eexist => { c with
        target := { c.target with ring := ring }
        lost := mark c.lost q.id (c.lost q.id || serving q.id c.target.lrs) }
    | .ebusy => { c with target := { c.target with maint := true }, pc := .guest }

/-- The next step of the hypervisor on a CPU. -/
def advance (s : Sys) (cpu : ℕ) : Option Sys :=
  match (s cpu).pc with
  | .guest => none
  | .sending _ [] => some (Function.update s cpu { s cpu with pc := .guest })
  | .sending id (d :: todo) =>
    if d = cpu then
      some (Function.update s cpu { (s cpu).raise true ⟨id, cpu⟩ with pc := .sending id todo })
    else some (Function.update (Function.update s d ((s d).raise false ⟨id, cpu⟩)) cpu
      { s cpu with pc := .waking d id todo })
  | .waking d id todo =>
    let s := Function.update s cpu { s cpu with pc := .sending id todo }
    some (Function.update s d { s d with sgiInject := (s d).sgiInject.insert cpu })
  | .injecting => some (Function.update s cpu (s cpu).injectTurn)
  | .closing => some (Function.update s cpu { s cpu with
      target := { (s cpu).target with maint := false }, pc := .guest })

inductive Act
  /-- The guest writes to `GICD_SGIR`. -/
  | sgir (val : BitVec 32)
  /-- An interrupt of a device arrives. -/
  | phys (irq : ℕ)
  | ack (i : ℕ)
  | complete (i : ℕ)
  /-- The SGI of a sender arrives. -/
  | sgiInject (sender : ℕ)
  | maint
  | advance

/-- What happens while the guest of a CPU runs. -/
def Cpu.guestStep (M : Machine) (cpu : ℕ) (c : Cpu) : Act → Option Cpu
  | .sgir val => some { c with
      pc := .sending (sgirWrite val).id (sgiCpus M cpu (sgirWrite val)) }
  | .phys irq => if irq < 16 then none else some (c.raise true ⟨irq, cpu⟩)
  | .ack i =>
    match c.target.lrs[i]? with
    | some (.pending q) => some { c with
        target := { c.target with lrs := c.target.lrs.set i (.active q) }
        owed := mark c.owed q.id false
        lost := mark c.lost q.id false }
    | _ => none
  | .complete i =>
    match c.target.lrs[i]? with
    | some (.active _) => some { c with
        target := { c.target with lrs := c.target.lrs.set i .free } }
    | _ => none
  | .sgiInject d =>
    if d ∈ c.sgiInject then
      some { c with sgiInject := c.sgiInject.erase d, pc := .injecting }
    else none
  | .maint => if maintFires c.target then some { c with pc := .injecting } else none
  | .advance => none

/-- A step of one of the CPUs. -/
def step (M : Machine) (s : Sys) (a : ℕ × Act) : Option Sys :=
  match a.2, (s a.1).pc with
  | .advance, _ => advance s a.1
  | b, .guest => ((s a.1).guestStep M a.1 b).map (Function.update s a.1)
  | _, _ => none

/-! ### What a CPU keeps -/

/-- The interrupt is in the ring or in a list register. -/
def Holds (t : Target) (q : Irq) : Prop := q ∈ t.ring ∨ Lr.pending q ∈ t.lrs ∨ Lr.active q ∈ t.lrs

/-- What another CPU may raise is an SGI of a guest of the same cell. -/
def Allowed (M : Machine) (cpu : ℕ) (q : Irq) : Prop :=
  M.cell q.sender = M.cell cpu ∧ (q.sender ≠ cpu → q.id < 16)

/-- The SGI that is being sent stays in the cell. -/
def Pc.Stays (M : Machine) (cpu : ℕ) : Pc → Prop
  | .sending id todo => id < 16 ∧ ∀ d ∈ todo, M.cell d = M.cell cpu
  | .waking d id todo => id < 16 ∧ M.cell d = M.cell cpu ∧ ∀ d ∈ todo, M.cell d = M.cell cpu
  | _ => True

structure Cpu.Good (M : Machine) (cpu : ℕ) (c : Cpu) : Prop where
  kept : ∀ id, c.owed id = true → c.lost id = true ∨ Outstanding c.target id
  own : ∀ q, Holds c.target q → Allowed M cpu q
  pc : c.pc.Stays M cpu

lemma Cpu.Good.goto {M : Machine} {cpu : ℕ} {c : Cpu} (h : c.Good M cpu) {pc : Pc}
    (hpc : pc.Stays M cpu) : Cpu.Good M cpu { c with pc := pc } := ⟨h.kept, h.own, hpc⟩

lemma mark_self (f : ℕ → Bool) (id : ℕ) (b : Bool) : mark f id b id = b := Function.update_self ..

lemma mark_of_ne {f : ℕ → Bool} {id k : ℕ} (h : k ≠ id) (b : Bool) : mark f id b k = f k :=
  Function.update_of_ne h ..

/-- An id in a list register that the guest is not handling is outstanding. -/
lemma outstanding_of_holds {t : Target} {id : ℕ} (h : ∃ l ∈ t.lrs, l.holds id = true)
    (hs : serving id t.lrs = false) : Outstanding t id := by
  obtain ⟨l, hl, hid⟩ := h
  rcases outstanding_or_active hl hid with ho | ⟨q, hq, hqid⟩
  · exact ho
  · have : serving id t.lrs = true :=
      List.any_eq_true.mpr ⟨_, hq, by simp [Lr.isActive, Lr.holds, hqid]⟩
    rw [this] at hs
    exact Bool.noConfusion hs

/-- An interrupt that is not dropped is outstanding. -/
lemma outstanding_of_kept {loc : Bool} {q : Irq} {t : Target} (h : drops loc q t = false) :
    Outstanding (irqchipSetPending loc q t) q.id := by
  have hroom : ringFull t = false → t.ring.length < maxPendingIrqs - 1 := by
    intro hf
    exact Nat.lt_of_not_le (of_decide_eq_false hf)
  cases loc with
  | false => exact enqueue_kept q t (enqueue q t).maint (hroom h)
  | true =>
    simp only [drops, if_true] at h
    rcases gicv2InjectIrq_cases q t.lrs with ⟨he, hl⟩ | ⟨a, b, hl, he⟩ | he
    · simp only [irqchipSetPending, he, if_true] at h ⊢
      exact outstanding_of_holds hl h
    · simp only [irqchipSetPending, he, if_true]
      exact outstanding_iff.mpr (Or.inr ⟨q, by simp, rfl⟩)
    · simp only [irqchipSetPending, he, if_true] at h ⊢
      exact enqueue_kept q t true (hroom h)

lemma holds_enqueue {q r : Irq} {t : Target} (h : Holds (enqueue q t) r) : Holds t r ∨ r = q := by
  unfold enqueue at h
  split_ifs at h with hroom
  · rcases h with hr | hl
    · rcases List.mem_append.mp hr with hr | hr
      · exact Or.inl (Or.inl hr)
      · exact Or.inr (List.mem_singleton.mp hr)
    · exact Or.inl (Or.inr hl)
  · exact Or.inl h

/-- An injection writes one list register. -/
lemma holds_fill {q r : Irq} {t : Target} {a b : List Lr} (hl : t.lrs = a ++ .free :: b)
    (h : Holds { t with lrs := a ++ .pending q :: b } r) : Holds t r ∨ r = q := by
  unfold Holds at h ⊢
  rw [hl]
  simp only [List.mem_append, List.mem_cons, reduceCtorEq, false_or, Lr.pending.injEq] at h ⊢
  rcases h with h | (h | h | h) | h
  · exact Or.inl (Or.inl h)
  · exact Or.inl (Or.inr (Or.inl (Or.inl h)))
  · exact Or.inr h
  · exact Or.inl (Or.inr (Or.inl (Or.inr h)))
  · exact Or.inl (Or.inr (Or.inr h))

lemma holds_setPending {loc : Bool} {q r : Irq} {t : Target}
    (h : Holds (irqchipSetPending loc q t) r) : Holds t r ∨ r = q := by
  cases loc with
  | false => exact holds_enqueue h
  | true =>
    rcases gicv2InjectIrq_cases q t.lrs with ⟨he, -⟩ | ⟨a, b, hl, he⟩ | he
    · simp only [irqchipSetPending, he, if_true] at h
      exact Or.inl h
    · simp only [irqchipSetPending, he, if_true] at h
      exact holds_fill hl h
    · simp only [irqchipSetPending, he, if_true] at h
      exact holds_enqueue h

lemma Cpu.Good.raise {M : Machine} {cpu : ℕ} {c : Cpu} {loc : Bool} {q : Irq} (h : c.Good M cpu)
    (hq : Allowed M cpu q) : (c.raise loc q).Good M cpu := by
  refine ⟨fun id ho => ?_, fun r hr => ?_, h.pc⟩
  · have hr := (raised_setPending loc q c.target).1
    by_cases hid : id = q.id
    · subst hid
      rcases hd : drops loc q c.target with _ | _
      · exact Or.inr (outstanding_of_kept hd)
      · exact Or.inl (by simp [Cpu.raise, mark_self, hd])
    · simp only [Cpu.raise, mark_of_ne hid] at ho ⊢
      exact (h.kept id ho).imp_right (hr.old id)
  · rcases holds_setPending hr with hr | rfl
    · exact h.own r hr
    · exact hq

/-- What goes from the ring to a list register stays outstanding. -/
lemma outstanding_fill {q : Irq} {ring : List Irq} {a b : List Lr} {m m' : Bool} {id : ℕ}
    (h : Outstanding ⟨q :: ring, a ++ .free :: b, m⟩ id) :
    Outstanding ⟨ring, a ++ .pending q :: b, m'⟩ id := by
  rw [outstanding_iff] at h ⊢
  rcases h with ⟨r, hr, hid⟩ | ⟨r, hl, hid⟩
  · rcases List.mem_cons.mp hr with rfl | hr
    · exact Or.inr ⟨r, by simp, hid⟩
    · exact Or.inl ⟨r, hr, hid⟩
  · have hl' : Lr.pending r ∈ a ∨ Lr.pending r ∈ b := by simpa using hl
    exact Or.inr ⟨r, by simpa using hl'.imp_right Or.inr, hid⟩

lemma Cpu.Good.injectTurn {M : Machine} {cpu : ℕ} {c : Cpu} (h : c.Good M cpu) :
    (c.injectTurn).Good M cpu := by
  obtain ⟨⟨ring, lrs, maint⟩, inj, pc, owed, lost⟩ := c
  obtain ⟨hk, ho, hp⟩ := h
  cases ring with
  | nil => exact ⟨hk, ho, trivial⟩
  | cons q ring =>
    rcases gicv2InjectIrq_cases q lrs with ⟨he, hl⟩ | ⟨a, b, rfl, he⟩ | he
    · -- the entry goes; what it stood for is in a list register
      simp only [Cpu.injectTurn, he]
      refine ⟨fun id hid => ?_, fun r hr => ho r (hr.imp_left (List.mem_cons_of_mem q)), hp⟩
      by_cases hq : id = q.id
      · subst hq
        rcases hs : serving q.id lrs with _ | _
        · exact Or.inr (outstanding_of_holds hl hs)
        · exact Or.inl (by simp [mark_self])
      · simp only [mark_of_ne hq]
        refine (hk id hid).imp_right fun hout => hout.imp_left ?_
        rintro ⟨r, hr, rfl⟩
        rcases List.mem_cons.mp hr with rfl | hr
        · exact absurd rfl hq
        · exact ⟨r, hr, rfl⟩
    · simp only [Cpu.injectTurn, he]
      refine ⟨fun id hid => (hk id hid).imp_right outstanding_fill, fun r hr => ?_, hp⟩
      rcases holds_fill (t := ⟨ring, a ++ .free :: b, maint⟩) rfl hr with hr | rfl
      · exact ho r (hr.imp_left (List.mem_cons_of_mem q))
      · exact ho r (Or.inl List.mem_cons_self)
    · simp only [Cpu.injectTurn, he]
      exact ⟨hk, ho, trivial⟩

/-! ### What the guest does -/

lemma sgirWrite_id (val : BitVec 32) : (sgirWrite val).id < 16 := by
  have h : (val &&& 0xf#32).toNat ≤ 15 := by
    rw [BitVec.toNat_and]
    exact Nat.and_le_right
  exact Nat.lt_succ_of_le h

/-- The SGIs of a guest go to the CPUs of its cell. -/
lemma sgiCpus_cell {M : Machine} (hM : ∀ k, ∀ c ∈ M.cpuSet k, M.cell c = k) {cpu d : ℕ} {sgi : Sgi}
    (h : d ∈ sgiCpus M cpu sgi) : M.cell d = M.cell cpu := by
  unfold sgiCpus at h
  split at h
  · rw [List.mem_singleton.mp h]
  · exact hM _ d (List.mem_filter.mp h).1

/-- An interrupt the guest takes is no longer outstanding; the others still are. -/
lemma outstanding_ack {t : Target} {i id : ℕ} {q : Irq} (hi : t.lrs[i]? = some (.pending q))
    (hid : id ≠ q.id) (h : Outstanding t id) :
    Outstanding { t with lrs := t.lrs.set i (.active q) } id := by
  obtain ⟨a, b, hl, hset⟩ := set_split hi (.active q)
  rw [outstanding_iff] at h ⊢
  rw [hset]
  rw [hl] at h
  rcases h with hr | ⟨r, hr, rfl⟩
  · exact Or.inl hr
  · have hr' : Lr.pending r ∈ a ∨ r = q ∨ Lr.pending r ∈ b := by simpa using hr
    refine Or.inr ⟨r, ?_, rfl⟩
    rcases hr' with hr' | rfl | hr'
    · exact List.mem_append_left _ hr'
    · exact absurd rfl hid
    · exact List.mem_append_right _ (List.mem_cons_of_mem _ hr')

lemma holds_ack {t : Target} {i : ℕ} {q r : Irq} (hi : t.lrs[i]? = some (.pending q))
    (h : Holds { t with lrs := t.lrs.set i (.active q) } r) : Holds t r := by
  obtain ⟨a, b, hl, hset⟩ := set_split hi (.active q)
  unfold Holds at h ⊢
  rw [hset] at h
  rw [hl]
  simp only [List.mem_append, List.mem_cons, reduceCtorEq, false_or, Lr.pending.injEq,
    Lr.active.injEq] at h ⊢
  rcases h with h | (h | h) | h | h | h
  · exact Or.inl h
  · exact Or.inr (Or.inl (Or.inl h))
  · exact Or.inr (Or.inl (Or.inr (Or.inr h)))
  · exact Or.inr (Or.inr (Or.inl h))
  · exact Or.inr (Or.inl (Or.inr (Or.inl h)))
  · exact Or.inr (Or.inr (Or.inr h))

lemma outstanding_complete {t : Target} {i id : ℕ} {q : Irq} (hi : t.lrs[i]? = some (.active q))
    (h : Outstanding t id) : Outstanding { t with lrs := t.lrs.set i .free } id := by
  obtain ⟨a, b, hl, hset⟩ := set_split hi .free
  rw [outstanding_iff] at h ⊢
  rw [hset]
  rw [hl] at h
  simpa using h

lemma holds_complete {t : Target} {i : ℕ} {q r : Irq} (hi : t.lrs[i]? = some (.active q))
    (h : Holds { t with lrs := t.lrs.set i .free } r) : Holds t r := by
  obtain ⟨a, b, hl, hset⟩ := set_split hi .free
  unfold Holds at h ⊢
  rw [hset] at h
  rw [hl]
  simp only [List.mem_append, List.mem_cons, reduceCtorEq, false_or] at h ⊢
  exact h.imp_right (Or.imp_right (Or.imp_right Or.inr))

lemma Cpu.Good.guestStep {M : Machine} (hM : ∀ k, ∀ c ∈ M.cpuSet k, M.cell c = k) {cpu : ℕ}
    {c c' : Cpu} {a : Act} (h : c.Good M cpu) (hs : c.guestStep M cpu a = some c') :
    c'.Good M cpu := by
  cases a with
  | sgir val =>
    obtain rfl := Option.some.inj hs
    exact ⟨h.kept, h.own, sgirWrite_id val, fun d hd => sgiCpus_cell hM hd⟩
  | phys irq =>
    simp only [Cpu.guestStep, Option.ite_none_left_eq_some, Option.some.injEq] at hs
    obtain ⟨-, rfl⟩ := hs
    exact h.raise ⟨rfl, fun hne => absurd rfl hne⟩
  | ack i =>
    rcases hi : c.target.lrs[i]? with _ | (_ | q | q) <;>
      simp only [Cpu.guestStep, hi, reduceCtorEq] at hs
    obtain rfl := Option.some.inj hs
    refine ⟨fun id ho => ?_, fun r hr => h.own r (holds_ack hi hr), h.pc⟩
    by_cases hid : id = q.id
    · simp [hid, mark_self] at ho
    · simp only [mark_of_ne hid] at ho ⊢
      exact (h.kept id ho).imp_right (outstanding_ack hi hid)
  | complete i =>
    rcases hi : c.target.lrs[i]? with _ | (_ | q | q) <;>
      simp only [Cpu.guestStep, hi, reduceCtorEq] at hs
    obtain rfl := Option.some.inj hs
    exact ⟨fun id ho => (h.kept id ho).imp_right (outstanding_complete hi),
      fun r hr => h.own r (holds_complete hi hr), h.pc⟩
  | sgiInject d =>
    simp only [Cpu.guestStep, Option.ite_none_right_eq_some, Option.some.injEq] at hs
    obtain ⟨-, rfl⟩ := hs
    exact ⟨h.kept, h.own, trivial⟩
  | maint =>
    simp only [Cpu.guestStep, Option.ite_none_right_eq_some, Option.some.injEq] at hs
    obtain ⟨-, rfl⟩ := hs
    exact ⟨h.kept, h.own, trivial⟩
  | advance => simp [Cpu.guestStep] at hs

lemma good_update {M : Machine} {s : Sys} (h : ∀ c, (s c).Good M c) {cpu : ℕ} {x : Cpu}
    (hx : x.Good M cpu) (c : ℕ) : (Function.update s cpu x c).Good M c := by
  by_cases hc : c = cpu
  · subst hc
    rw [Function.update_self]
    exact hx
  · rw [Function.update_of_ne hc]
    exact h c

lemma good_advance {M : Machine} {s s' : Sys} {cpu : ℕ} (h : ∀ c, (s c).Good M c)
    (hs : advance s cpu = some s') (c : ℕ) : (s' c).Good M c := by
  have hcpu := h cpu
  rcases hpc : (s cpu).pc with _ | ⟨id, _ | ⟨d, todo⟩⟩ | ⟨d, id, todo⟩ | _ | _ <;>
    simp only [advance, hpc, reduceCtorEq, Option.some.injEq] at hs
  · subst hs
    refine good_update h ?_ c
    exact hcpu.goto trivial
  · have hst := hcpu.pc
    rw [hpc] at hst
    obtain ⟨hid, htodo⟩ := hst
    have hrest : ∀ e ∈ todo, M.cell e = M.cell cpu := fun e he =>
      htodo e (List.mem_cons_of_mem d he)
    split_ifs at hs with hd <;> obtain rfl := Option.some.inj hs
    · refine good_update h ?_ c
      have hr : Cpu.Good M cpu ((s cpu).raise true ⟨id, cpu⟩) := hcpu.raise ⟨rfl, fun _ => hid⟩
      exact hr.goto ⟨hid, hrest⟩
    · have hcell := htodo d List.mem_cons_self
      have hr : Cpu.Good M d ((s d).raise false ⟨id, cpu⟩) := (h d).raise ⟨hcell.symm, fun _ => hid⟩
      refine good_update (good_update h hr) ?_ c
      exact hcpu.goto ⟨hid, hcell, hrest⟩
  · have hst := hcpu.pc
    rw [hpc] at hst
    have hsend : Pc.Stays M cpu (.sending id todo) := ⟨hst.1, hst.2.2⟩
    have h' := good_update h (hcpu.goto hsend)
    subst hs
    refine good_update h' ?_ c
    exact ⟨(h' d).kept, (h' d).own, (h' d).pc⟩
  · subst hs
    exact good_update h hcpu.injectTurn c
  · subst hs
    refine good_update h ?_ c
    exact ⟨hcpu.kept, hcpu.own, trivial⟩

lemma step_cases {M : Machine} {s s' : Sys} {cpu : ℕ} {a : Act} (h : step M s (cpu, a) = some s') :
    advance s cpu = some s' ∨ ∃ c, (s cpu).pc = .guest ∧ (s cpu).guestStep M cpu a = some c ∧
      s' = Function.update s cpu c := by
  unfold step at h
  split at h
  · exact Or.inl h
  · rename_i hpc _
    obtain ⟨c, hc, rfl⟩ := Option.map_eq_some_iff.mp h
    exact Or.inr ⟨c, hpc, hc, rfl⟩
  · exact absurd h (by simp)

lemma good_step {M : Machine} (hM : ∀ k, ∀ c ∈ M.cpuSet k, M.cell c = k) {s s' : Sys} {a : ℕ × Act}
    (h : ∀ c, (s c).Good M c) (hs : step M s a = some s') (c : ℕ) : (s' c).Good M c := by
  rcases step_cases hs with hs | ⟨x, -, hx, rfl⟩
  · exact good_advance h hs c
  · exact good_update h ((h a.1).guestStep hM hx) c

/-! ### Who wakes a CPU -/

/-- The CPU will go through its ring, or is on its way. -/
def Cpu.Wakes (c : Cpu) : Prop :=
  c.sgiInject ≠ [] ∨ c.pc = .injecting ∨ (c.target.maint = true ∧ c.pc ≠ .closing)

/-- The CPU wakes, or a CPU that filled its ring is about to wake it. -/
def Woken (s : Sys) (cpu : ℕ) : Prop :=
  (s cpu).Wakes ∨ ∃ d id todo, (s d).pc = .waking cpu id todo

lemma Woken.update {s : Sys} {c cpu : ℕ} {x : Cpu} (h : Woken s c)
    (hx : c = cpu → (s cpu).Wakes → x.Wakes)
    (hpc : ∀ id todo, (s cpu).pc = .waking c id todo → x.pc = .waking c id todo) :
    Woken (Function.update s cpu x) c := by
  rcases h with h | ⟨d, id, todo, h⟩
  · left
    by_cases hc : c = cpu
    · subst hc
      rw [Function.update_self]
      exact hx rfl h
    · rw [Function.update_of_ne hc]
      exact h
  · refine Or.inr ⟨d, id, todo, ?_⟩
    by_cases hd : d = cpu
    · subst hd
      rw [Function.update_self]
      exact hpc id todo h
    · rw [Function.update_of_ne hd]
      exact h

/-- Where a CPU with entries is woken. -/
def Roused (s : Sys) : Prop := ∀ c, (s c).target.ring ≠ [] → Woken s c

/-- A step of a CPU in its own state. -/
lemma Roused.update {s : Sys} {cpu : ℕ} {x : Cpu} (h : Roused s)
    (hx : x.target.ring ≠ [] → x.Wakes ∨ ((s cpu).target.ring ≠ [] ∧ ((s cpu).Wakes → x.Wakes)))
    (hpc : ∀ c id todo, (s cpu).pc ≠ .waking c id todo) : Roused (Function.update s cpu x) := by
  intro c hc
  by_cases hcpu : c = cpu
  · subst hcpu
    rw [Function.update_self] at hc
    rcases hx hc with hw | ⟨hr, hw⟩
    · left
      rw [Function.update_self]
      exact hw
    · exact (h c hr).update (fun _ => hw) fun id todo he => absurd he (hpc c id todo)
  · rw [Function.update_of_ne hcpu] at hc
    exact (h c hc).update (fun he => absurd he hcpu) fun id todo he => absurd he (hpc c id todo)

/-- A CPU whose ring gets an entry of its own turns on the maintenance interrupt. -/
lemma raise_wakes {c : Cpu} {q : Irq} {pc : Pc} (hpc : pc ≠ .closing) (hc : c.pc ≠ .injecting)
    (h : (c.raise true q).target.ring ≠ []) :
    Cpu.Wakes { c.raise true q with pc := pc } ∨
      (c.target.ring ≠ [] ∧ (c.Wakes → Cpu.Wakes { c.raise true q with pc := pc })) := by
  simp only [Cpu.raise, irqchipSetPending, if_true] at h ⊢
  rcases he : gicv2InjectIrq q c.target.lrs with lrs | _ | _ <;> simp only [he] at h ⊢
  · refine Or.inr ⟨h, ?_⟩
    rintro (hw | hw | hw)
    · exact Or.inl hw
    · exact absurd hw hc
    · exact Or.inr (Or.inr ⟨hw.1, hpc⟩)
  · refine Or.inr ⟨h, ?_⟩
    rintro (hw | hw | hw)
    · exact Or.inl hw
    · exact absurd hw hc
    · exact Or.inr (Or.inr ⟨hw.1, hpc⟩)
  · exact Or.inl (Or.inr (Or.inr ⟨rfl, hpc⟩))

lemma injectTurn_wakes {c : Cpu} (hpc : c.pc = .injecting) (h : c.injectTurn.target.ring ≠ []) :
    c.injectTurn.Wakes := by
  obtain ⟨⟨ring, lrs, maint⟩, inj, pc, owed, lost⟩ := c
  obtain rfl : pc = .injecting := hpc
  cases ring with
  | nil => exact absurd rfl h
  | cons q ring =>
    rcases he : gicv2InjectIrq q lrs with lrs' | _ | _ <;> simp only [Cpu.injectTurn, he]
    · exact Or.inr (Or.inl rfl)
    · exact Or.inr (Or.inl rfl)
    · exact Or.inr (Or.inr ⟨rfl, Pc.noConfusion⟩)

lemma roused_advance {s s' : Sys} {cpu : ℕ} (h : Roused s) (hs : advance s cpu = some s') :
    Roused s' := by
  rcases hpc : (s cpu).pc with _ | ⟨id, _ | ⟨d, todo⟩⟩ | ⟨d, id, todo⟩ | _ | _ <;>
    simp only [advance, hpc, reduceCtorEq, Option.some.injEq] at hs
  · subst hs
    refine h.update (fun hr => Or.inr ⟨hr, fun hw => ?_⟩) (by simp [hpc])
    simpa [Cpu.Wakes, hpc] using hw
  · split_ifs at hs with hd <;> obtain rfl := Option.some.inj hs
    · exact h.update (raise_wakes Pc.noConfusion (by simp [hpc])) (by simp [hpc])
    · -- the target is about to be woken
      intro c hc
      by_cases hcd : c = d
      · exact Or.inr ⟨cpu, id, todo, by rw [Function.update_self, hcd]⟩
      · have hne : cpu ≠ d := fun he => hd he.symm
        have hc' : (s c).target.ring ≠ [] := by
          by_cases hcc : c = cpu
          · subst hcc
            rwa [Function.update_self] at hc
          · rwa [Function.update_of_ne hcc, Function.update_of_ne hcd] at hc
        have hw : Woken (Function.update s d ((s d).raise false ⟨id, cpu⟩)) c :=
          (h c hc').update (fun he => absurd he hcd) fun _ _ he => he
        refine hw.update (fun _ hw => ?_) ?_
        · rw [Function.update_of_ne hne] at hw
          simpa [Cpu.Wakes, hpc] using hw
        · rw [Function.update_of_ne hne]
          simp [hpc]
  · subst hs
    intro c hc
    by_cases hcd : c = d
    · refine Or.inl (Or.inl ?_)
      rw [hcd, Function.update_self]
      exact List.ne_nil_of_mem (List.mem_insert_self ..)
    · have hc' : (s c).target.ring ≠ [] := by
        rw [Function.update_of_ne hcd] at hc
        by_cases hcc : c = cpu
        · subst hcc
          rwa [Function.update_self] at hc
        · rwa [Function.update_of_ne hcc] at hc
      have hw : Woken (Function.update s cpu { s cpu with pc := .sending id todo }) c := by
        refine (h c hc').update (fun _ hw => ?_) fun _ _ he => ?_
        · simpa [Cpu.Wakes, hpc] using hw
        · rw [hpc] at he
          exact absurd (Pc.waking.inj he).1.symm hcd
      exact hw.update (fun he => absurd he hcd) fun _ _ he => he
  · subst hs
    exact h.update (fun hr => Or.inl (injectTurn_wakes hpc hr)) (by simp [hpc])
  · -- whoever filled the ring since it was seen empty has yet to wake the CPU, or did
    subst hs
    refine h.update (fun hr => Or.inr ⟨hr, ?_⟩) (by simp [hpc])
    rintro (hw | hw | hw)
    · exact Or.inl hw
    · exact absurd (hpc.symm.trans hw) Pc.noConfusion
    · exact absurd hpc hw.2

lemma roused_step {M : Machine} {s s' : Sys} {a : ℕ × Act} (h : Roused s)
    (hs : step M s a = some s') : Roused s' := by
  obtain ⟨cpu, a⟩ := a
  rcases step_cases hs with hs | ⟨x, hpc, hx, rfl⟩
  · exact roused_advance h hs
  · refine h.update ?_ (by simp [hpc])
    cases a with
    | sgir val =>
      obtain rfl := Option.some.inj hx
      refine fun hr => Or.inr ⟨hr, fun hw => ?_⟩
      simpa [Cpu.Wakes, hpc] using hw
    | phys irq =>
      simp only [Cpu.guestStep, Option.ite_none_left_eq_some, Option.some.injEq] at hx
      obtain ⟨-, rfl⟩ := hx
      exact raise_wakes (by simp [hpc]) (by simp [hpc])
    | ack i =>
      rcases hi : (s cpu).target.lrs[i]? with _ | (_ | q | q) <;>
        simp only [Cpu.guestStep, hi, reduceCtorEq] at hx
      obtain rfl := Option.some.inj hx
      exact fun hr => Or.inr ⟨hr, id⟩
    | complete i =>
      rcases hi : (s cpu).target.lrs[i]? with _ | (_ | q | q) <;>
        simp only [Cpu.guestStep, hi, reduceCtorEq] at hx
      obtain rfl := Option.some.inj hx
      exact fun hr => Or.inr ⟨hr, id⟩
    | sgiInject d =>
      simp only [Cpu.guestStep, Option.ite_none_right_eq_some, Option.some.injEq] at hx
      obtain ⟨-, rfl⟩ := hx
      exact fun _ => Or.inl (Or.inr (Or.inl rfl))
    | maint =>
      simp only [Cpu.guestStep, Option.ite_none_right_eq_some, Option.some.injEq] at hx
      obtain ⟨-, rfl⟩ := hx
      exact fun _ => Or.inl (Or.inr (Or.inl rfl))
    | advance => simp [Cpu.guestStep] at hx

/-! ### Runs -/

lemma step_injecting {M : Machine} {s : Sys} {cpu : ℕ} (h : (s cpu).pc = .injecting) :
    step M s (cpu, .advance) = some (Function.update s cpu (s cpu).injectTurn) := by
  simp [step, advance, h]

lemma step_closing {M : Machine} {s : Sys} {cpu : ℕ} (h : (s cpu).pc = .closing) :
    step M s (cpu, .advance) = some (Function.update s cpu { s cpu with
      target := { (s cpu).target with maint := false }, pc := .guest }) := by
  simp [step, advance, h]

/-- The loop of `irqchip_inject_pending` while no other CPU comes in between. -/
theorem injecting_alone {M : Machine} {s : Sys} {cpu : ℕ} {ring : List Irq} {lrs : List Lr}
    (h : (s cpu).pc = .injecting) (hr : (s cpu).target.ring = ring)
    (hl : (s cpu).target.lrs = lrs) :
    ∃ n s', exec (step M) s (List.replicate n (cpu, .advance)) = some s' ∧
      (s' cpu).target = irqchipInjectPending ring lrs ∧
      (s' cpu).pc = .guest ∧ ∀ d, d ≠ cpu → s' d = s d := by
  induction ring generalizing s lrs with
  | nil =>
    -- the ring is seen empty, then the maintenance interrupt is turned off
    have hturn : (s cpu).injectTurn = { s cpu with pc := .closing } := by
      simp [Cpu.injectTurn, hr]
    have hcl : (Function.update s cpu (s cpu).injectTurn cpu).pc = .closing := by
      rw [Function.update_self, hturn]
    have he := (exec_cons (step M)).mpr
      ⟨_, step_injecting h, (exec_singleton _ _ _).trans (step_closing hcl)⟩
    refine ⟨2, _, he, ?_, ?_, fun d hd => ?_⟩
    · simp [hturn, irqchipInjectPending, hr, hl]
    · simp
    · simp [Function.update_of_ne hd]
  | cons q ring ih =>
    have hgo : (s cpu).injectTurn.pc = .injecting → (s cpu).injectTurn.target.ring = ring →
        irqchipInjectPending (q :: ring) lrs =
          irqchipInjectPending ring (s cpu).injectTurn.target.lrs →
        ∃ n s', exec (step M) s (List.replicate n (cpu, .advance)) = some s' ∧
          (s' cpu).target = irqchipInjectPending (q :: ring) lrs ∧
          (s' cpu).pc = .guest ∧ ∀ d, d ≠ cpu → s' d = s d := by
      intro hp hr' heq
      obtain ⟨n, s', he, ht, hg, hd⟩ := ih (s := Function.update s cpu (s cpu).injectTurn)
        (by rwa [Function.update_self]) (by rwa [Function.update_self])
        (by rw [Function.update_self])
      exact ⟨n + 1, s', (exec_cons _).mpr ⟨_, step_injecting h, he⟩, ht.trans heq.symm, hg,
        fun d hne => (hd d hne).trans (Function.update_of_ne hne ..)⟩
    rcases he : gicv2InjectIrq q lrs with lrs' | _ | _
    · refine hgo ?_ ?_ ?_ <;> simp [Cpu.injectTurn, irqchipInjectPending, hr, hl, he, h]
    · refine hgo ?_ ?_ ?_ <;> simp [Cpu.injectTurn, irqchipInjectPending, hr, hl, he, h]
    · refine ⟨1, _, (exec_singleton _ _ _).trans (step_injecting h), ?_, ?_, fun d hd => ?_⟩
      · simp [Cpu.injectTurn, irqchipInjectPending, hr, hl, he]
      · simp [Cpu.injectTurn, hr, hl, he]
      · exact Function.update_of_ne hd ..

/-- The guest runs, nothing waits to wake the CPU, and the guest has taken what it was given. -/
def Cpu.Idle (c : Cpu) : Prop :=
  c.pc = .guest ∧ c.sgiInject = [] ∧ maintFires c.target = false ∧ ∀ l ∈ c.target.lrs, l = Lr.free

lemma Cpu.Idle.maint {c : Cpu} (h : c.Idle) : c.target.maint = false := by
  obtain ⟨-, -, hm, hf⟩ := h
  have hlen : c.target.lrs.filter (fun l => decide (l ≠ Lr.free)) = [] := by
    rw [List.filter_eq_nil_iff]
    intro l hl
    simp [hf l hl]
  rw [maintFires, hlen] at hm
  exact (Bool.and_eq_false_iff.mp hm).resolve_right (by decide)

lemma Cpu.Idle.not_outstanding {c : Cpu} (h : c.Idle) (hr : c.target.ring = []) (id : ℕ) :
    ¬ Outstanding c.target id := by
  rw [outstanding_iff, hr]
  rintro (⟨q, hq, -⟩ | ⟨q, hq, -⟩)
  · exact absurd hq List.not_mem_nil
  · exact Lr.noConfusion (h.2.2.2 _ hq)

/-- **No wake-up is lost.** However the CPUs interleave, a CPU with interrupts in its ring goes
through it, or is on its way, or is about to be woken. So when it is idle and nobody is about to
wake it, its ring is empty and an interrupt that was raised since the guest last took it was
dropped. Other CPUs raise only SGIs, and only from the same cell. -/
theorem sgis_arrive (M : Machine) (hM : ∀ k, ∀ c ∈ M.cpuSet k, M.cell c = k)
    {as : List (ℕ × Act)} {s : Sys} (he : exec (step M) (init M) as = some s) (c : ℕ) :
    ((s c).target.ring ≠ [] → Woken s c) ∧
    (∀ id, (s c).owed id = true → (s c).lost id = true ∨ Outstanding (s c).target id) ∧
    ((s c).Idle → (∀ d id todo, (s d).pc ≠ .waking c id todo) →
      (s c).target.ring = [] ∧ ∀ id, (s c).owed id = true → (s c).lost id = true) ∧
    ∀ q, Holds (s c).target q → Allowed M c q := by
  have hinit : Roused (init M) ∧ ∀ c, (init M c).Good M c := by
    refine ⟨fun c hc => absurd rfl hc, fun c => ⟨fun id ho => ?_, fun q hq => ?_, trivial⟩⟩
    · exact Bool.noConfusion ho
    · simp [init, Holds, List.mem_replicate] at hq
  obtain ⟨hr, hg⟩ := exec_inv (P := fun s => Roused s ∧ ∀ c, (s c).Good M c)
    (fun s a t h hs => ⟨roused_step h.1 hs, good_step hM h.2 hs⟩) hinit he
  refine ⟨hr c, (hg c).kept, fun hi hw => ?_, (hg c).own⟩
  have hempty : (s c).target.ring = [] := by
    by_contra hne
    rcases hr c hne with (h | h | h) | ⟨d, id, todo, h⟩
    · exact h hi.2.1
    · exact absurd (hi.1.symm.trans h) Pc.noConfusion
    · exact Bool.noConfusion (hi.maint.symm.trans h.1)
    · exact hw d id todo h
  refine ⟨hempty, fun id ho => ?_⟩
  rcases (hg c).kept id ho with h | h
  · exact h
  · exact absurd h (hi.not_outstanding hempty id)

/-- Two CPUs of one cell. -/
def pair : Machine :=
  ⟨fun c => if c < 2 then 0 else c, fun k => if k = 0 then [0, 1] else [], fun c => 1#8 <<< c, 4⟩

def pairRun : List (ℕ × Act) :=
  [(0, .sgir 0x20003#32), (0, .advance), (0, .advance), (0, .advance), (1, .sgiInject 0),
    (1, .advance), (1, .advance), (0, .sgir 0x20004#32), (0, .advance)]

/-- A CPU has seen its ring empty when the other one puts an interrupt there. -/
theorem sgis_arrive_closing : ∃ s, exec (step pair) (init pair) pairRun = some s ∧
    (s 1).pc = .closing ∧ (s 1).target.ring = [⟨4, 0⟩] ∧ Woken s 1 := by
  have hpair : ∀ k, ∀ c ∈ pair.cpuSet k, pair.cell c = k := by
    intro k c hc
    by_cases hk : k = 0
    · subst hk
      have hc' : c = 0 ∨ c = 1 := by simpa [pair] using hc
      rcases hc' with rfl | rfl <;> rfl
    · simp [pair, hk] at hc
  have hrun : (exec (step pair) (init pair) pairRun).any (fun s =>
      decide ((s 1).pc = .closing) && decide ((s 1).target.ring = [⟨4, 0⟩])) = true := by
    decide +kernel
  obtain ⟨s, hs, h⟩ := (Option.any_eq_true _ _).mp hrun
  obtain ⟨hpc, hring⟩ := (Bool.and_eq_true _ _).mp h
  have hring := of_decide_eq_true hring
  exact ⟨s, hs, of_decide_eq_true hpc, hring,
    (sgis_arrive pair hpair hs 1).1 (by rw [hring]; exact List.cons_ne_nil _ _)⟩

end FpMemSched.VirtualIrqs
