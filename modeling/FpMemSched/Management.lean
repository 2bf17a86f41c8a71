import FpMemSched.Lib.Crews

/-!
How the hypervisor keeps CPUs still while it changes cells (`hypervisor/control.c`,
`arch/arm-common/control.c`).

A management hypercall suspends the other CPUs of the root cell one after the other and waits
for each of them to stop in `check_events`. Then it checks the request, suspends the CPUs of the
cell it is about, changes the cells and lets the CPUs go. `hypervisor_disable` suspends no CPU and
relies on the number of cells instead.

A step ends at each access to data that CPUs share. What a part under a `control_lock` or the
`shutdown_lock` does is one step. A CPU that spins has no step until it leaves the loop.
-/

namespace FpMemSched.Management

open FpMemSched.Lib FpMemSched.Lib.Runs FpMemSched.Lib.Crews

/-- The management hypercalls. A new cell comes with its CPUs. -/
inductive Task
  | create (id : ℕ) (set : Finset ℕ)
  | start (id : ℕ)
  | setLoadable (id : ℕ)
  | destroy (id : ℕ)
  deriving DecidableEq

/-- The calls of `cell_suspend`: over the root cell, over a cell that did not answer a shutdown
request in time, over the cell to be managed, and over a cell that did not answer at the end. -/
inductive Loop
  | root (t : Task)
  | asked (t : Task) (set : Finset ℕ)
  | target (t : Task) (set : Finset ℕ)
  | stopped (back : Finset ℕ) (set : Finset ℕ)
  deriving DecidableEq

/-- Where a CPU is. Loops over a CPU set are at CPU `k`. -/
inductive Pc
  | guest
  /-- In `check_events`: spinning on `suspend_cpu`, and out of that loop. -/
  | events | rechecking
  /-- In `cell_suspend`: before the bit of CPU `k`, before its lock, and waiting for it. -/
  | testing (l : Loop) (k : ℕ)
  | locking (l : Loop) (k : ℕ)
  | awaiting (l : Loop) (k : ℕ)
  /-- The root cell is suspended. -/
  | checking (t : Task)
  /-- The cell to be managed is suspended, too. -/
  | working (t : Task) (set : Finset ℕ)
  /-- In `cell_create`: before `arch_park_cpu`, after it, and with all CPUs taken. -/
  | taking (id : ℕ) (set : Finset ℕ) (k : ℕ)
  | moving (id : ℕ) (set : Finset ℕ) (k : ℕ)
  | mapping (id : ℕ) (set : Finset ℕ)
  /-- In `cell_destroy_internal`, of a cell that is in the list or not. -/
  | returning (id : ℕ) (set : Finset ℕ) (listed : Bool) (k : ℕ)
  | handing (id : ℕ) (set : Finset ℕ) (listed : Bool) (k : ℕ)
  /-- Resetting or parking the CPUs of a cell. -/
  | releasing (set : Finset ℕ) (k : ℕ)
  /-- In `cell_reconfig_completed`, having let the CPUs of `back` go. -/
  | completing (back : Finset ℕ)
  /-- In `cell_resume`. -/
  | resuming (back : Finset ℕ) (k : ℕ)
  /-- In `hypervisor_disable`: spinning on `waiting_cpus`, and back in the root cell without a
  hypervisor. -/
  | barrier | gone
  deriving DecidableEq

inductive ShutdownState
  | none | started | busy
  deriving DecidableEq

structure Hv where
  pc : ℕ → Pc
  suspendCpu : ℕ → Bool
  cpuSuspended : ℕ → Bool
  /-- The CPU set of the root cell. -/
  root : Finset ℕ
  /-- The other cells with their ids and CPU sets. -/
  cells : List (ℕ × Finset ℕ)
  numCells : ℕ
  /-- The id of the cell that a CPU belongs to. 0 is the root cell. -/
  cell : ℕ → ℕ
  shutdownState : ℕ → ShutdownState
  waitingCpus : ℕ
  doCommonShutdown : Bool
  /-- How often `shutdown` was called. -/
  shutdowns : ℕ

/-- All CPUs of the system are online. -/
structure Config where
  cpus : Finset ℕ
  /-- `max_cpu_id + 1`. -/
  limit : ℕ
  lt_limit : ∀ x ∈ cpus, x < limit

def init (κ : Config) : Hv :=
  ⟨fun _ => .guest, fun _ => false, fun _ => false, κ.cpus, [], 1, fun _ => 0, fun _ => .none, 0,
    false, 0⟩

def Hv.goto (s : Hv) (x : ℕ) (pc : Pc) : Hv := { s with pc := Function.update s.pc x pc }

/-- `arch_resume_cpu`, which also ends `arch_park_cpu` and `arch_reset_cpu`. -/
def Hv.resume (s : Hv) (k : ℕ) : Hv := { s with suspendCpu := Function.update s.suspendCpu k false }

/-- The CPUs that a loop is about. The set of the root cell is read as it is. -/
def Loop.members (s : Hv) : Loop → Finset ℕ
  | .root _ => s.root
  | .asked _ set | .target _ set | .stopped _ set => set

def Loop.next : Loop → Pc
  | .root t => .checking t
  | .asked t set => .testing (.target t set) 0
  | .target t set => .working t set
  | .stopped back _ => .completing back

/-- The CPU set of a cell that is in the list. -/
def Hv.find (s : Hv) (id : ℕ) : Option (Finset ℕ) := (s.cells.find? (·.1 = id)).map Prod.snd

inductive Act
  /-- A CPU takes `SGI_EVENT`. -/
  | check (x : ℕ)
  | manage (x : ℕ) (t : Task)
  | disable (x : ℕ)
  /-- A CPU goes on in the hypervisor. -/
  | go (x : ℕ)
  /-- A check fails, or a change of memory. -/
  | refuse (x : ℕ)
  /-- A message to a cell is not answered in time. -/
  | timeout (x : ℕ) (id : ℕ)
  deriving DecidableEq

/-- `arch_suspend_cpu` up to its loop. -/
def suspend (x : ℕ) (l : Loop) (k : ℕ) (s : Hv) : Hv :=
  let s := { s with suspendCpu := Function.update s.suspendCpu k true }
  s.goto x (if s.cpuSuspended k then .testing l (k + 1) else .awaiting l k)

/-- The tests of `cell_create` on the new CPU set and of the others on the id. -/
def accept (κ : Config) (x : ℕ) (s : Hv) : Task → Option Pc
  | .create id set =>
    if x ∉ set ∧ set ⊆ s.root ∧ set ⊆ κ.cpus ∧ id ≠ 0 ∧ s.find id = none then
      some (.taking id set 0)
    else none
  | .start id => (s.find id).map fun set => .testing (.target (.start id) set) 0
  | .setLoadable id => (s.find id).map fun set => .testing (.target (.setLoadable id) set) 0
  | .destroy id => (s.find id).map fun set => .testing (.target (.destroy id) set) 0

/-- The steps of a CPU in the hypervisor. -/
def go (κ : Config) (x : ℕ) (s : Hv) : Option Hv :=
  match s.pc x with
  | .guest | .gone => none
  | .events => if s.suspendCpu x then none else some (s.goto x .rechecking)
  | .rechecking =>
    some (if s.suspendCpu x then
      { s.goto x .events with cpuSuspended := Function.update s.cpuSuspended x true }
    else { s.goto x .guest with cpuSuspended := Function.update s.cpuSuspended x false })
  | .testing l k =>
    some (s.goto x (if k < κ.limit then
      if k ∈ l.members s ∧ k ≠ x then .locking l k else .testing l (k + 1)
    else l.next))
  | .locking l k => some (suspend x l k s)
  | .awaiting l k => if s.cpuSuspended k then some (s.goto x (.testing l (k + 1))) else none
  | .checking t => (accept κ x s t).map (s.goto x)
  | .working t set =>
    match t with
    | .create _ _ => none
    | .start _ | .setLoadable _ => some (s.goto x (.releasing set 0))
    | .destroy id => some (s.goto x (.returning id set true 0))
  | .taking id set k =>
    some (if k < κ.limit then
      if k ∈ set then (s.resume k).goto x (.moving id set k) else s.goto x (.taking id set (k + 1))
    else s.goto x (.mapping id set))
  | .moving id set k =>
    some { s.goto x (.taking id set (k + 1)) with
      root := s.root.erase k
      cell := Function.update s.cell k id }
  | .mapping id set =>
    some { s.goto x (.completing ∅) with
      cells := s.cells ++ [(id, set)]
      numCells := s.numCells + 1 }
  | .returning id set listed k =>
    some (if k < κ.limit then
      if k ∈ set then (s.resume k).goto x (.handing id set listed k)
      else s.goto x (.returning id set listed (k + 1))
    else if listed then
      { s.goto x (.completing set) with
        cells := s.cells.filter (·.1 ≠ id)
        numCells := s.numCells - 1 }
    else s.goto x (.resuming set 0))
  | .handing id set listed k =>
    some { s.goto x (.returning id set listed (k + 1)) with
      root := insert k s.root
      cell := Function.update s.cell k 0 }
  | .releasing set k =>
    some (if k < κ.limit then
      if k ∈ set then (s.resume k).goto x (.releasing set (k + 1))
      else s.goto x (.releasing set (k + 1))
    else s.goto x (.resuming set 0))
  | .completing back => some (s.goto x (.resuming back 0))
  | .resuming back k =>
    some (if k < κ.limit then
      if k ∈ s.root ∧ k ≠ x then (s.resume k).goto x (.resuming back (k + 1))
      else s.goto x (.resuming back (k + 1))
    else s.goto x .guest)
  | .barrier =>
    if s.waitingCpus < κ.cpus.card then none
    else some (if s.doCommonShutdown then
      { s.goto x .gone with shutdowns := s.shutdowns + 1, doCommonShutdown := false }
    else s.goto x .gone)

/-- The first part of `hypervisor_disable` under the lock: the first CPU decides for all CPUs of
the root cell. -/
def decideShutdown (x : ℕ) (s : Hv) : ℕ → ShutdownState :=
  if s.shutdownState x = .none then
    let state := if s.numCells = 1 then ShutdownState.started else .busy
    fun c => if c ∈ s.root then state else s.shutdownState c
  else s.shutdownState

/-- `hypervisor_disable` up to its barrier. -/
def hypervisorDisable (x : ℕ) (s : Hv) : Hv :=
  if decideShutdown x s x = .started then
    { s.goto x .barrier with
      shutdownState := decideShutdown x s
      doCommonShutdown := true
      waitingCpus := s.waitingCpus + 1 }
  else { s with shutdownState := Function.update (decideShutdown x s) x .none }

/-- Only CPUs of the root cell manage cells and disable the hypervisor. -/
def step (κ : Config) (s : Hv) : Act → Option Hv
  | .check x =>
    if x ∈ κ.cpus ∧ s.pc x = .guest then
      some { s.goto x .events with
        cpuSuspended := Function.update s.cpuSuspended x (s.suspendCpu x || s.cpuSuspended x) }
    else none
  | .manage x t =>
    if x ∈ κ.cpus ∧ s.pc x = .guest ∧ s.cell x = 0 then some (s.goto x (.testing (.root t) 0))
    else none
  | .disable x =>
    if x ∈ κ.cpus ∧ s.pc x = .guest ∧ s.cell x = 0 then some (hypervisorDisable x s) else none
  | .go x => if x ∈ κ.cpus then go κ x s else none
  | .refuse x =>
    if x ∈ κ.cpus then
      match s.pc x with
      | .checking _ | .working (.start _) _ => some (s.goto x (.resuming ∅ 0))
      | .mapping id set => some (s.goto x (.returning id set false 0))
      | _ => none
    else none
  | .timeout x id =>
    if x ∈ κ.cpus then
      match s.pc x, s.find id with
      | .checking (.start id'), some set =>
        if id = id' then some (s.goto x (.testing (.asked (.start id) set) 0)) else none
      | .checking (.setLoadable id'), some set =>
        if id = id' then some (s.goto x (.testing (.asked (.setLoadable id) set) 0)) else none
      | .checking (.destroy id'), some set =>
        if id = id' then some (s.goto x (.testing (.asked (.destroy id) set) 0)) else none
      | .completing back, some set => some (s.goto x (.testing (.stopped back set) 0))
      | _, _ => none
    else none

/-! ### What a hypercall relies on -/

/-- The CPU is in `check_events`. -/
def Pc.Engaged : Pc → Prop
  | .events | .rechecking => True
  | _ => False

/-- The loop over the root cell. -/
def Loop.Root : Loop → Prop
  | .root _ => True
  | _ => False

/-- In a management hypercall, with the root cell suspended. -/
def Pc.Past : Pc → Prop
  | .guest | .events | .rechecking | .barrier | .gone => False
  | .testing l _ | .locking l _ | .awaiting l _ => ¬ l.Root
  | _ => True

/-- In a management hypercall, still suspending the root cell. -/
def Pc.Gathering : Pc → Prop
  | .testing l _ | .locking l _ | .awaiting l _ => l.Root
  | _ => False

def Pc.Managing (p : Pc) : Prop := p.Past ∨ p.Gathering

instance : ∀ l : Loop, Decidable l.Root
  | .root _ => isTrue trivial
  | .asked _ _ | .target _ _ | .stopped _ _ => isFalse id

instance : ∀ p : Pc, Decidable p.Past
  | .guest | .events | .rechecking | .barrier | .gone => isFalse id
  | .testing l _ | .locking l _ | .awaiting l _ => inferInstanceAs (Decidable (¬ l.Root))
  | .checking _ | .working _ _ | .taking _ _ _ | .moving _ _ _ | .mapping _ _
  | .returning _ _ _ _ | .handing _ _ _ _ | .releasing _ _ | .completing _
  | .resuming _ _ => isTrue trivial

/-- The CPU does not leave `check_events`. -/
structure Held (s : Hv) (c : ℕ) : Prop where
  suspendCpu : s.suspendCpu c = true
  cpuSuspended : s.cpuSuspended c = true
  engaged : (s.pc c).Engaged

/-- The CPUs of the root cell that a hypercall at `p` has not suspended yet or has let go. -/
def Pc.Free : Pc → ℕ → Prop
  | .testing (.root _) k, c | .locking (.root _) k, c | .awaiting (.root _) k, c => k ≤ c
  | .testing (.stopped back _) _, c | .locking (.stopped back _) _, c
  | .awaiting (.stopped back _) _, c => c ∈ back
  | .moving _ _ k, c => c = k
  | .returning _ set _ k, c | .releasing set k, c => c ∈ set ∧ c < k
  | .handing _ set _ k, c => c ∈ set ∧ c ≤ k
  | .completing back, c => c ∈ back
  | .resuming back k, c => c ∈ back ∨ c < k
  | _, _ => False

/-- The CPUs of the cell to be managed that a hypercall at `p` has suspended. -/
def Pc.Bound : Pc → ℕ → Prop
  | .testing (.target _ set) k, c | .locking (.target _ set) k, c
  | .awaiting (.target _ set) k, c => c ∈ set ∧ c < k
  | .working _ set, c => c ∈ set
  | .returning _ set true k, c | .releasing set k, c => c ∈ set ∧ k ≤ c
  | .handing _ set true k, c => c ∈ set ∧ k < c
  | _, _ => False

/-- What CPU `x` has checked of the set it works on. It does not give itself to a new cell. -/
def Pc.Sound (κ : Config) (x : ℕ) : Pc → Prop
  | .testing (.asked _ set) _ | .locking (.asked _ set) _ | .awaiting (.asked _ set) _
  | .testing (.target _ set) _ | .locking (.target _ set) _ | .awaiting (.target _ set) _
  | .working _ set | .returning _ set _ _ => set ⊆ κ.cpus
  | .taking id set _ | .mapping id set => x ∉ set ∧ id ≠ 0 ∧ set ⊆ κ.cpus
  | .moving id set k => x ∉ set ∧ id ≠ 0 ∧ set ⊆ κ.cpus ∧ k ∈ set
  | .handing _ set _ k => set ⊆ κ.cpus ∧ k ∈ set
  | _ => True

/-- What a CPU at `p` relies on. -/
structure Keeps (κ : Config) (s : Hv) (x : ℕ) (p : Pc) : Prop where
  root : ∀ c ∈ s.root, c ≠ x → ¬ p.Free c → Held s c
  bound : ∀ c, c ≠ x → p.Bound c → Held s c
  awaits : ∀ l k, p = .awaiting l k → s.suspendCpu k = true
  sound : p.Sound κ x

structure Core (κ : Config) (s : Hv) : Prop where
  engaged : ∀ c, s.cpuSuspended c = true → (s.pc c).Engaged
  manager : ∀ x, (s.pc x).Managing → x ∈ κ.cpus ∧ s.cell x = 0
  member : ∀ c ∈ κ.cpus, c ∈ s.root ↔ s.cell c = 0
  subset : s.root ⊆ κ.cpus
  alone : ∀ x y, (s.pc x).Past → (s.pc y).Managing → y = x
  keeps : ∀ x, (s.pc x).Managing → Keeps κ s x (s.pc x)
  sets : ∀ e ∈ s.cells, e.2 ⊆ κ.cpus

/-- Hypercalls are made one after the other, as the driver does with `jailhouse_lock`: none begins
once another one has suspended the root cell and before it returns. -/
def Serialised (κ : Config) (s : Hv) : Act → Prop
  | .manage _ _ | .disable _ => ∀ y ∈ κ.cpus, ¬ (s.pc y).Past
  | _ => True

instance (κ : Config) (s : Hv) : ∀ a, Decidable (Serialised κ s a)
  | .manage _ _ | .disable _ => inferInstanceAs (Decidable (∀ y ∈ κ.cpus, ¬ (s.pc y).Past))
  | .check _ | .go _ | .refuse _ | .timeout _ _ => isTrue trivial

variable {κ : Config} {s t : Hv} {x y c k : ℕ} {p q : Pc}

lemma Pc.Engaged.not_managing (h : p.Engaged) : ¬ p.Managing := by
  cases p <;> simp_all [Pc.Engaged, Pc.Managing, Pc.Past, Pc.Gathering]

lemma Pc.Gathering.not_past (h : p.Gathering) : ¬ p.Past := by
  cases p <;> simp_all [Pc.Past, Pc.Gathering]

lemma Core.mem_root (h : Core κ s) (hx : (s.pc x).Managing) : x ∈ s.root := by
  obtain ⟨hm, hc⟩ := h.manager x hx
  exact (h.member x hm).mpr hc

/-- Other CPUs see a step of `x` only if `x` stays where it is held. -/
lemma Held.mono (hc : Held s c) (hsus : s.suspendCpu c = true → t.suspendCpu c = true)
    (hsd : t.cpuSuspended c = s.cpuSuspended c) (hpc : t.pc c = s.pc c) : Held t c :=
  ⟨hsus hc.suspendCpu, hsd.trans hc.cpuSuspended, by rw [hpc]; exact hc.engaged⟩

lemma Held.ne_of_managing (hc : Held s c) (hx : (s.pc x).Managing) : c ≠ x := by
  rintro rfl
  exact hc.engaged.not_managing hx

lemma Keeps.mono (hk : Keeps κ s y p) (hroot : t.root = s.root) (hheld : ∀ c, Held s c → Held t c)
    (hsus : ∀ c, s.suspendCpu c = true → t.suspendCpu c = true) : Keeps κ t y p where
  root c hc hcy hf := hheld c (hk.root c (hroot ▸ hc) hcy hf)
  bound c hcy hb := hheld c (hk.bound c hcy hb)
  awaits l k hp := hsus k (hk.awaits l k hp)
  sound := hk.sound

/-! ### Steps of a hypercall -/

/-- A hypercall past the loop over the root cell is the only one. -/
lemma Core.past_step (h : Core κ s) (hp : (s.pc x).Past) (hpc : t.pc = Function.update s.pc x q)
    (hsd : t.cpuSuspended = s.cpuSuspended) (hq : q.Past ∨ q = .guest)
    (hmem : ∀ c ∈ κ.cpus, c ∈ t.root ↔ t.cell c = 0) (hsub : t.root ⊆ κ.cpus)
    (hcell : t.cell x = 0) (hsets : ∀ e ∈ t.cells, e.2 ⊆ κ.cpus) (hk : q.Past → Keeps κ t x q) :
    Core κ t := by
  have hx := h.manager x (.inl hp)
  have honly : ∀ y, (t.pc y).Managing → y = x ∧ q.Past := by
    intro y hy
    rw [hpc] at hy
    by_cases hyx : y = x
    · subst hyx
      rw [Function.update_self] at hy
      rcases hq with hq | rfl
      · exact ⟨rfl, hq⟩
      · simp [Pc.Managing, Pc.Past, Pc.Gathering] at hy
    · rw [Function.update_of_ne hyx] at hy
      exact absurd (h.alone x y hp hy) hyx
  have hpx : t.pc x = q := by rw [hpc, Function.update_self]
  refine ⟨fun c hc => ?_, fun y hy => ?_, hmem, hsub, fun y z hy hz => ?_, fun y hy => ?_, hsets⟩
  · rw [hsd] at hc
    have hce := h.engaged c hc
    have hcx : c ≠ x := by
      rintro rfl
      exact hce.not_managing (.inl hp)
    rw [hpc, Function.update_of_ne hcx]
    exact hce
  · obtain ⟨rfl, -⟩ := honly y hy
    exact ⟨hx.1, hcell⟩
  · rw [(honly y (.inl hy)).1, (honly z hz).1]
  · obtain ⟨rfl, hqp⟩ := honly y hy
    rw [hpx]
    exact hk hqp

/-- A step in the loop over the root cell, which may suspend a CPU. -/
lemma Core.gathering_step (h : Core κ s) (hp : (s.pc x).Gathering)
    (hpc : t.pc = Function.update s.pc x q) (hsd : t.cpuSuspended = s.cpuSuspended)
    (hq : q.Gathering) (hroot : t.root = s.root) (hcell : t.cell = s.cell)
    (hsus : ∀ c, s.suspendCpu c = true → t.suspendCpu c = true) (hcells : t.cells = s.cells)
    (hk : Keeps κ t x q) : Core κ t := by
  have hx := h.manager x (.inr hp)
  have hpx : t.pc x = q := by rw [hpc, Function.update_self]
  have hpy : ∀ y, y ≠ x → t.pc y = s.pc y := fun y hy => by rw [hpc, Function.update_of_ne hy]
  have hheld : ∀ c, Held s c → Held t c := fun c hc =>
    hc.mono (hsus c) (by rw [hsd]) (hpy c (hc.ne_of_managing (.inr hp)))
  refine ⟨fun c hc => ?_, fun y hy => ?_, ?_, hroot ▸ h.subset, fun y z hy hz => ?_, fun y hy => ?_,
    hcells ▸ h.sets⟩
  · rw [hsd] at hc
    have hce := h.engaged c hc
    have hcx : c ≠ x := by
      rintro rfl
      exact hce.not_managing (.inr hp)
    rw [hpy c hcx]
    exact hce
  · by_cases hyx : y = x
    · subst hyx
      exact ⟨hx.1, by rw [hcell]; exact hx.2⟩
    · rw [hpy y hyx] at hy
      rw [hcell]
      exact h.manager y hy
  · rw [hroot, hcell]
    exact h.member
  · have hyx : y ≠ x := by
      rintro rfl
      rw [hpx] at hy
      exact hq.not_past hy
    rw [hpy y hyx] at hy
    exact absurd (h.alone y x hy (.inr hp)) (Ne.symm hyx)
  · by_cases hyx : y = x
    · subst hyx
      rw [hpx]
      exact hk
    · rw [hpy y hyx] at hy ⊢
      exact (h.keeps y hy).mono hroot hheld hsus

/-- The end of the loop over the root cell: nobody else is in a hypercall. -/
lemma Core.enter (h : Core κ s) (hp : (s.pc x).Gathering) (hall : ∀ c ∈ s.root, c ≠ x → Held s c)
    (hf : ∀ c, ¬ q.Bound c) (ha : ∀ l k, q ≠ .awaiting l k) (hsound : q.Sound κ x) :
    Core κ (s.goto x q) := by
  have hx := h.manager x (.inr hp)
  have honly : ∀ y, (s.pc y).Managing → y = x := by
    intro y hy
    by_contra hyx
    exact (hall y (h.mem_root hy) hyx).engaged.not_managing hy
  have hpx : (s.goto x q).pc x = q := by simp [Hv.goto]
  have hpy : ∀ y, y ≠ x → (s.goto x q).pc y = s.pc y := fun y hy => by simp [Hv.goto, hy]
  have honly' : ∀ y, ((s.goto x q).pc y).Managing → y = x := by
    intro y hy
    by_contra hyx
    rw [hpy y hyx] at hy
    exact hyx (honly y hy)
  refine ⟨fun c hc => ?_, fun y hy => ?_, h.member, h.subset, fun y z hy hz => ?_, fun y hy => ?_,
    h.sets⟩
  · have hce := h.engaged c hc
    have hcx : c ≠ x := by
      rintro rfl
      exact hce.not_managing (.inr hp)
    rw [hpy c hcx]
    exact hce
  · rw [honly' y hy]
    exact hx
  · rw [honly' y (.inl hy), honly' z hz]
  · obtain rfl := honly' y hy
    rw [hpx]
    refine ⟨fun c hc hcx _ => ?_, fun c _ hb => absurd hb (hf c), fun l k hl => absurd hl (ha l k), hsound⟩
    exact (hall c hc hcx).mono id rfl (hpy c hcx)

/-- A CPU that is in no hypercall goes on. It leaves `check_events` only if it may. -/
lemma Core.own_step (h : Core κ s) (hp : ¬ (s.pc x).Managing)
    (hpc : t.pc = Function.update s.pc x q) (hq : ¬ q.Managing) (hroot : t.root = s.root)
    (hcell : t.cell = s.cell) (hcells : t.cells = s.cells) (hsus : t.suspendCpu = s.suspendCpu)
    (hsd : ∀ c, c ≠ x → t.cpuSuspended c = s.cpuSuspended c)
    (hx : t.cpuSuspended x = true → q.Engaged)
    (hheld : Held s x → t.cpuSuspended x = true) : Core κ t := by
  have hpx : t.pc x = q := by rw [hpc, Function.update_self]
  have hpy : ∀ y, y ≠ x → t.pc y = s.pc y := fun y hy => by rw [hpc, Function.update_of_ne hy]
  have hmng : ∀ y, (t.pc y).Managing → y ≠ x ∧ (s.pc y).Managing := by
    intro y hy
    have hyx : y ≠ x := by
      rintro rfl
      exact hq (hpx ▸ hy)
    exact ⟨hyx, hpy y hyx ▸ hy⟩
  have hkeep : ∀ c, Held s c → Held t c := by
    intro c hc
    by_cases hcx : c = x
    · subst hcx
      have hcs := hheld hc
      exact ⟨by rw [hsus]; exact hc.suspendCpu, hcs, by rw [hpx]; exact hx hcs⟩
    · exact hc.mono (by rw [hsus]; exact id) (hsd c hcx) (hpy c hcx)
  refine ⟨fun c hc => ?_, fun y hy => ?_, ?_, hroot ▸ h.subset, fun y z hy hz => ?_, fun y hy => ?_,
    hcells ▸ h.sets⟩
  · by_cases hcx : c = x
    · subst hcx
      exact hpx ▸ hx hc
    · rw [hpy c hcx]
      exact h.engaged c (hsd c hcx ▸ hc)
  · rw [hcell]
    exact h.manager y (hmng y hy).2
  · rw [hroot, hcell]
    exact h.member
  · have hyx := (hmng y (.inl hy)).1
    rw [hpy y hyx] at hy
    exact h.alone y z hy (hmng z hz).2
  · obtain ⟨hyx, hy⟩ := hmng y hy
    rw [hpy y hyx]
    exact (h.keeps y hy).mono hroot hkeep (fun c => by rw [hsus]; exact id)

/-- A hypercall begins. -/
lemma Core.begin (h : Core κ s) (hx : x ∈ κ.cpus) (hp : s.pc x = .guest) (hcell : s.cell x = 0)
    (hpast : ∀ y ∈ κ.cpus, ¬ (s.pc y).Past) (t : Task) :
    Core κ (s.goto x (.testing (.root t) 0)) := by
  have hpx : (s.goto x (.testing (.root t) 0)).pc x = .testing (.root t) 0 := by simp [Hv.goto]
  have hpy : ∀ y, y ≠ x → (s.goto x (.testing (.root t) 0)).pc y = s.pc y :=
    fun y hy => by simp [Hv.goto, hy]
  have hkeep : ∀ c, Held s c → Held (s.goto x (.testing (.root t) 0)) c := by
    intro c hc
    refine hc.mono id rfl (hpy c ?_)
    rintro rfl
    simpa [hp, Pc.Engaged] using hc.engaged
  refine ⟨fun c hc => ?_, fun y hy => ?_, h.member, h.subset, fun y z hy hz => ?_, fun y hy => ?_,
    h.sets⟩
  · have hce := h.engaged c hc
    have hcx : c ≠ x := by
      rintro rfl
      simp [hp, Pc.Engaged] at hce
    rw [hpy c hcx]
    exact hce
  · by_cases hyx : y = x
    · subst hyx
      exact ⟨hx, hcell⟩
    · exact h.manager y (hpy y hyx ▸ hy)
  · by_cases hyx : y = x
    · subst hyx
      rw [hpx] at hy
      exact absurd trivial hy
    · rw [hpy y hyx] at hy
      exact absurd hy (hpast y (h.manager y (.inl hy)).1)
  · by_cases hyx : y = x
    · subst hyx
      rw [hpx]
      exact ⟨fun c _ _ hf => absurd (Nat.zero_le c) hf, fun c _ hb => hb.elim, by simp, trivial⟩
    · rw [hpy y hyx] at hy ⊢
      exact (h.keeps y hy).mono rfl hkeep (fun _ => id)

/-- A hypercall goes on, and no other data changes. -/
lemma Core.past_goto (h : Core κ s) (hp : (s.pc x).Past) (hq : q.Past ∨ q = .guest)
    (hf : ∀ c, (s.pc x).Free c → q.Free c) (hb : ∀ c, c ≠ x → q.Bound c → Held s c)
    (ha : ∀ l k, q ≠ .awaiting l k) (hs : q.Sound κ x) : Core κ (s.goto x q) := by
  have hk := h.keeps x (.inl hp)
  have hheld : ∀ c, Held s c → Held (s.goto x q) c := fun c hc => by
    refine hc.mono id rfl ?_
    simp [Hv.goto, hc.ne_of_managing (.inl hp)]
  refine h.past_step hp rfl rfl hq h.member h.subset (h.manager x (.inl hp)).2 h.sets fun _ => ?_
  exact ⟨fun c hc hcx hqf => hheld c (hk.root c hc hcx fun hpf => hqf (hf c hpf)),
    fun c hcx hc => hheld c (hb c hcx hc), fun l k hl => absurd hl (ha l k), hs⟩

/-- A hypercall lets CPU `k` go. -/
lemma Core.past_resume (h : Core κ s) (hp : (s.pc x).Past) (hq : q.Past)
    (hf : ∀ c, (s.pc x).Free c → q.Free c) (hqk : q.Free k)
    (hb : ∀ c, q.Bound c → (s.pc x).Bound c ∧ c ≠ k) (ha : ∀ l k, q ≠ .awaiting l k)
    (hs : q.Sound κ x) : Core κ ((s.resume k).goto x q) := by
  have hk := h.keeps x (.inl hp)
  have hheld : ∀ c, c ≠ k → Held s c → Held ((s.resume k).goto x q) c := fun c hck hc => by
    refine hc.mono (fun hsus => ?_) rfl ?_
    · simpa [Hv.goto, Hv.resume, hck] using hsus
    · simp [Hv.goto, Hv.resume, hc.ne_of_managing (.inl hp)]
  refine h.past_step hp rfl rfl (.inl hq) h.member h.subset (h.manager x (.inl hp)).2 h.sets
    fun _ => ⟨fun c hc hcx hqf => ?_, fun c hcx hc => ?_, fun l k hl => absurd hl (ha l k), hs⟩
  · have hck : c ≠ k := by
      rintro rfl
      exact hqf hqk
    exact hheld c hck (hk.root c hc hcx fun hpf => hqf (hf c hpf))
  · exact hheld c (hb c hc).2 (hk.bound c hcx (hb c hc).1)

lemma Loop.root_iff (l : Loop) : l.Root ↔ ∃ t, l = .root t := by cases l <;> simp [Loop.Root]

/-- A CPU that has stopped with the request standing. -/
lemma Core.held (h : Core κ s) (hsus : s.suspendCpu c = true) (hsd : s.cpuSuspended c = true) :
    Held s c := ⟨hsus, hsd, h.engaged c hsd⟩

/-- The bookkeeping of a loop over a cell does not depend on where it is. -/
lemma Loop.free_of_not_root {l : Loop} (hr : ¬ l.Root) {k' : ℕ} (hp : p = .testing l k' ∨
      p = .locking l k' ∨ p = .awaiting l k') (hq : q = .testing l k ∨ q = .locking l k ∨
      q = .awaiting l k) (h : p.Free c) : q.Free c := by
  cases l
  case root => exact absurd trivial hr
  all_goals rcases hp with rfl | rfl | rfl <;> rcases hq with rfl | rfl | rfl <;> exact h

lemma Loop.sound_of {l : Loop} {k' : ℕ} (hp : p = .testing l k' ∨ p = .locking l k' ∨
      p = .awaiting l k') (hq : q = .testing l k ∨ q = .locking l k ∨ q = .awaiting l k)
    (h : p.Sound κ x) : q.Sound κ x := by
  cases l <;> rcases hp with rfl | rfl | rfl <;> rcases hq with rfl | rfl | rfl <;> exact h

/-- The CPUs that a loop over a cell has suspended. -/
lemma Loop.bound_iff {l : Loop} (hp : p = .testing l k ∨ p = .locking l k ∨ p = .awaiting l k) :
    p.Bound c ↔ ∃ t set, l = .target t set ∧ c ∈ set ∧ c < k := by
  cases l <;> rcases hp with rfl | rfl | rfl <;> simp [Pc.Bound]

lemma core_testing_root {t : Task} (h : Core κ s) (hp : s.pc x = .testing (.root t) k) :
    Core κ (s.goto x (if k < κ.limit then
      if k ∈ s.root ∧ k ≠ x then .locking (.root t) k else .testing (.root t) (k + 1)
    else .checking t)) := by
  have hg : (s.pc x).Gathering := by rw [hp]; trivial
  have hk := h.keeps x (.inr hg)
  rw [hp] at hk
  have hheld : ∀ q c, Held s c → Held (s.goto x q) c := fun q c hc => by
    refine hc.mono id rfl ?_
    simp [Hv.goto, hc.ne_of_managing (.inr hg)]
  split_ifs with hlt hm
  · exact h.gathering_step hg rfl rfl trivial rfl rfl (fun _ => id) rfl
      ⟨fun c hc hcx hf => hheld _ c (hk.root c hc hcx hf), fun c _ hb => hb.elim, by simp, trivial⟩
  · refine h.gathering_step hg rfl rfl trivial rfl rfl (fun _ => id) rfl
      ⟨fun c hc hcx hf => hheld _ c (hk.root c hc hcx fun hkc => ?_), fun c _ hb => hb.elim, by simp,
        trivial⟩
    simp only [Pc.Free, not_le] at hf hkc
    obtain rfl : c = k := by omega
    exact hm ⟨hc, hcx⟩
  · refine h.enter hg (fun c hc hcx => hk.root c hc hcx fun hkc => ?_) (fun c hb => hb) (by simp)
      trivial
    have := κ.lt_limit c (h.subset hc)
    simp only [Pc.Free] at hkc
    omega

lemma core_testing {l : Loop} (h : Core κ s) (hp : s.pc x = .testing l k) :
    Core κ (s.goto x (if k < κ.limit then
      if k ∈ l.members s ∧ k ≠ x then .locking l k else .testing l (k + 1)
    else l.next)) := by
  by_cases hr : l.Root
  · obtain ⟨t, rfl⟩ := (Loop.root_iff l).mp hr
    exact core_testing_root h hp
  have hpp : (s.pc x).Past := by rw [hp]; exact hr
  have hk := h.keeps x (.inl hpp)
  split_ifs with hlt hm
  · refine h.past_goto hpp (.inl hr) (fun c => Loop.free_of_not_root hr (.inl hp) (.inr (.inl rfl)))
      (fun c hcx hb => hk.bound c hcx ?_) (by simp)
      (Loop.sound_of (.inl hp) (.inr (.inl rfl)) hk.sound)
    exact (Loop.bound_iff (.inl hp)).mpr ((Loop.bound_iff (.inr (.inl rfl))).mp hb)
  · refine h.past_goto hpp (.inl hr) (fun c => Loop.free_of_not_root hr (.inl hp) (.inl rfl))
      (fun c hcx hb => hk.bound c hcx ?_) (by simp) (Loop.sound_of (.inl hp) (.inl rfl) hk.sound)
    obtain ⟨t, set, rfl, hc, hck⟩ := (Loop.bound_iff (.inl rfl)).mp hb
    refine (Loop.bound_iff (.inl hp)).mpr ⟨t, set, rfl, hc, ?_⟩
    by_contra hlt
    obtain rfl : c = k := by omega
    exact hm ⟨hc, hcx⟩
  · have hsound := hk.sound
    rw [hp] at hsound
    refine h.past_goto hpp (.inl ?_) (fun c hf => ?_) (fun c hcx hb => hk.bound c hcx ?_) ?_ ?_
    · cases l <;> simp [Loop.next, Pc.Past, Loop.Root] at hr ⊢
    · rw [hp] at hf
      cases l
      case root => exact absurd trivial hr
      all_goals exact hf
    · cases l with
      | target t set =>
        have hc : c ∈ set := hb
        have hlim := κ.lt_limit c (hsound hc)
        exact (Loop.bound_iff (.inl hp)).mpr ⟨t, set, rfl, hc, by omega⟩
      | asked t set =>
        obtain ⟨-, -, -, -, h0⟩ := (Loop.bound_iff (.inl rfl)).mp hb
        omega
      | root | stopped => exact hb.elim
    · cases l <;> simp [Loop.next]
    · cases l
      case root => exact absurd trivial hr
      all_goals exact hsound

lemma core_locking {l : Loop} (h : Core κ s) (hp : s.pc x = .locking l k) :
    Core κ (suspend x l k s) := by
  have hmng : (s.pc x).Managing := by
    rw [hp]
    by_cases hr : l.Root
    · exact .inr hr
    · exact .inl hr
  have hk := h.keeps x hmng
  have hsus : ∀ c, s.suspendCpu c = true → (suspend x l k s).suspendCpu c = true := by
    intro c hc
    by_cases hck : c = k
    · subst hck
      simp [suspend, Hv.goto]
    · simpa [suspend, Hv.goto, hck] using hc
  have hkk : (suspend x l k s).suspendCpu k = true := by simp [suspend, Hv.goto]
  have hheld : ∀ c, Held s c → Held (suspend x l k s) c := fun c hc => by
    refine hc.mono (hsus c) rfl ?_
    simp [suspend, Hv.goto, hc.ne_of_managing hmng]
  have hnew : s.cpuSuspended k = true → Held (suspend x l k s) k := fun hsd => by
    have hke := h.engaged k hsd
    have hkx : k ≠ x := by
      rintro rfl
      exact hke.not_managing hmng
    exact ⟨hkk, hsd, by simpa [suspend, Hv.goto, hkx] using hke⟩
  obtain ⟨q, hq, hpc, hcase⟩ : ∃ q, (q = .testing l (k + 1) ∨ q = .awaiting l k) ∧
      (suspend x l k s).pc = Function.update s.pc x q ∧
      (q = .testing l (k + 1) → s.cpuSuspended k = true) := by
    refine ⟨if s.cpuSuspended k then .testing l (k + 1) else .awaiting l k, ?_, rfl, ?_⟩
    · split_ifs <;> simp
    · split_ifs with hs <;> simp [hs]
  have hkeep : Keeps κ (suspend x l k s) x q := by
    refine ⟨fun c hc hcx hf => ?_, fun c hcx hb => ?_, fun l' k' hl => ?_, ?_⟩
    · by_cases hck : c = k ∧ q = .testing l (k + 1)
      · rw [hck.1]
        exact hnew (hcase hck.2)
      · refine hheld c (hk.root c hc hcx fun hpf => ?_)
        rw [hp] at hpf
        cases l with
        | root t =>
          rcases hq with rfl | rfl
          · simp only [Pc.Free, not_le, and_true] at hf hpf hck
            omega
          · exact hf hpf
        | asked | target | stopped => rcases hq with rfl | rfl <;> exact hf hpf
    · rcases hq with rfl | rfl
      · obtain ⟨t, set, rfl, hc, hck⟩ := (Loop.bound_iff (.inl rfl)).mp hb
        by_cases hck' : c = k
        · rw [hck']
          exact hnew (hcase rfl)
        · exact hheld c (hk.bound c hcx ((Loop.bound_iff (.inr (.inl hp))).mpr
            ⟨t, set, rfl, hc, by omega⟩))
      · exact hheld c (hk.bound c hcx ((Loop.bound_iff (.inr (.inl hp))).mpr
          ((Loop.bound_iff (.inr (.inr rfl))).mp hb)))
    · rcases hq with rfl | rfl
      · cases hl
      · cases hl
        exact hkk
    · rcases hq with rfl | rfl
      · exact Loop.sound_of (.inr (.inl hp)) (.inl rfl) hk.sound
      · exact Loop.sound_of (.inr (.inl hp)) (.inr (.inr rfl)) hk.sound
  by_cases hr : l.Root
  · have hg : (s.pc x).Gathering := by rw [hp]; exact hr
    exact h.gathering_step hg hpc rfl (by rcases hq with rfl | rfl <;> exact hr) rfl rfl hsus rfl hkeep
  · have hpp : (s.pc x).Past := by rw [hp]; exact hr
    exact h.past_step hpp hpc rfl (.inl (by rcases hq with rfl | rfl <;> exact hr)) h.member h.subset
      (h.manager x hmng).2 h.sets fun _ => hkeep

lemma core_awaiting {l : Loop} (h : Core κ s) (hp : s.pc x = .awaiting l k)
    (hsd : s.cpuSuspended k = true) : Core κ (s.goto x (.testing l (k + 1))) := by
  have hmng : (s.pc x).Managing := by
    rw [hp]
    by_cases hr : l.Root
    · exact .inr hr
    · exact .inl hr
  have hk := h.keeps x hmng
  have hnew : Held s k := h.held (hk.awaits l k hp) hsd
  by_cases hr : l.Root
  · obtain ⟨t, rfl⟩ := (Loop.root_iff l).mp hr
    have hg : (s.pc x).Gathering := by rw [hp]; exact hr
    rw [hp] at hk
    refine h.gathering_step hg rfl rfl trivial rfl rfl (fun _ => id) rfl
      ⟨fun c hc hcx hf => ?_, fun c _ hb => hb.elim, by simp, trivial⟩
    have hcs : Held s c := by
      by_cases hck : c = k
      · exact hck ▸ hnew
      · refine hk.root c hc hcx fun hpf => ?_
        simp only [Pc.Free, not_le] at hf hpf
        omega
    exact hcs.mono id rfl (by simp [Hv.goto, hcx])
  · have hpp : (s.pc x).Past := by rw [hp]; exact hr
    refine h.past_goto hpp (.inl hr) (fun c => Loop.free_of_not_root hr (.inr (.inr hp)) (.inl rfl))
      (fun c hcx hb => ?_) (by simp) (Loop.sound_of (.inr (.inr hp)) (.inl rfl) hk.sound)
    obtain ⟨t, set, rfl, hc, hck⟩ := (Loop.bound_iff (.inl rfl)).mp hb
    by_cases hck' : c = k
    · exact hck' ▸ hnew
    · exact hk.bound c hcx ((Loop.bound_iff (.inr (.inr hp))).mpr ⟨t, set, rfl, hc, by omega⟩)

lemma Core.find_subset (h : Core κ s) {id : ℕ} {set : Finset ℕ} (hf : s.find id = some set) :
    set ⊆ κ.cpus := by
  obtain ⟨e, he, rfl⟩ := Option.map_eq_some_iff.mp hf
  exact h.sets e (List.mem_of_find?_eq_some he)

/-- A hypercall turns to a cell it has found. -/
lemma core_target {t : Task} {l : Loop} {set : Finset ℕ} (h : Core κ s) (hp : s.pc x = .checking t)
    (hset : set ⊆ κ.cpus) (hl : ∃ t, l = .target t set ∨ l = .asked t set) :
    Core κ (s.goto x (.testing l 0)) := by
  have hpp : (s.pc x).Past := by rw [hp]; trivial
  obtain ⟨t, rfl | rfl⟩ := hl
  all_goals
    refine h.past_goto hpp (.inl id) (fun c hf => ?_) (fun c _ hb => ?_) (by simp) hset
    · rw [hp] at hf
      exact hf.elim
    · simp [Pc.Bound] at hb

lemma core_checking {t : Task} (h : Core κ s) (hp : s.pc x = .checking t)
    (ha : accept κ x s t = some q) : Core κ (s.goto x q) := by
  have hpp : (s.pc x).Past := by rw [hp]; trivial
  cases t with
  | create id set =>
    simp only [accept] at ha
    split_ifs at ha with hc
    obtain rfl := Option.some.inj ha
    refine h.past_goto hpp (.inl trivial) (fun c hf => ?_) (fun c _ hb => hb.elim) (by simp)
      ⟨hc.1, hc.2.2.2.1, hc.2.2.1⟩
    rw [hp] at hf
    exact hf.elim
  | start id | setLoadable id | destroy id =>
    obtain ⟨set, hf, rfl⟩ := Option.map_eq_some_iff.mp ha
    exact core_target h hp (h.find_subset hf) ⟨_, .inl rfl⟩

lemma core_moving {id : ℕ} {set : Finset ℕ} (h : Core κ s) (hp : s.pc x = .moving id set k) :
    Core κ { s.goto x (.taking id set (k + 1)) with
      root := s.root.erase k
      cell := Function.update s.cell k id } := by
  have hpp : (s.pc x).Past := by rw [hp]; trivial
  have hk := h.keeps x (.inl hpp)
  rw [hp] at hk
  obtain ⟨hx, hid, hset, hks⟩ := hk.sound
  have hxk : x ≠ k := by
    rintro rfl
    exact hx hks
  refine h.past_step hpp rfl rfl (.inl trivial) (fun c hc => ?_)
    ((Finset.erase_subset _ _).trans h.subset) ?_ h.sets fun _ =>
      ⟨fun c hc hcx _ => ?_, fun c _ hb => hb.elim, by simp, hx, hid, hset⟩
  · by_cases hck : c = k
    · subst hck
      simp [hid]
    · simpa [hck] using h.member c hc
  · simpa [hxk] using (h.manager x (.inl hpp)).2
  · obtain ⟨hck, hcr⟩ := Finset.mem_erase.mp hc
    exact (hk.root c hcr hcx fun hf => hck hf).mono (fun h => h) rfl (by simp [Hv.goto, hcx])

lemma core_handing {id : ℕ} {set : Finset ℕ} {listed : Bool} (h : Core κ s)
    (hp : s.pc x = .handing id set listed k) :
    Core κ { s.goto x (.returning id set listed (k + 1)) with
      root := insert k s.root
      cell := Function.update s.cell k 0 } := by
  have hpp : (s.pc x).Past := by rw [hp]; trivial
  have hk := h.keeps x (.inl hpp)
  rw [hp] at hk
  obtain ⟨hset, hks⟩ := hk.sound
  refine h.past_step hpp rfl rfl (.inl trivial) (fun c hc => ?_)
    (Finset.insert_subset (hset hks) h.subset) ?_ h.sets fun _ =>
      ⟨fun c hc hcx hf => ?_, fun c hcx hb => ?_, by simp, hset⟩
  · by_cases hck : c = k
    · subst hck
      simp
    · simpa [hck] using h.member c hc
  · by_cases hxk : x = k
    · subst hxk
      simp
    · simpa [hxk] using (h.manager x (.inl hpp)).2
  · have hck : c ≠ k := by
      rintro rfl
      exact hf ⟨hks, by omega⟩
    have hcr := (Finset.mem_insert.mp hc).resolve_left hck
    refine (hk.root c hcr hcx fun hpf => hf ⟨hpf.1, ?_⟩).mono (fun h => h) rfl (by simp [Hv.goto, hcx])
    have := hpf.2
    omega
  · refine (hk.bound c hcx ?_).mono (fun h => h) rfl (by simp [Hv.goto, hcx])
    cases listed with
    | true => exact ⟨hb.1, by have := hb.2; omega⟩
    | false => exact hb.elim

/-- A cell is added to the list or taken from it. -/
lemma core_listed {back : Finset ℕ} {cells : List (ℕ × Finset ℕ)} {num : ℕ} (h : Core κ s)
    (hpp : (s.pc x).Past) (hf : ∀ c, (s.pc x).Free c → c ∈ back)
    (hcells : ∀ e ∈ cells, e.2 ⊆ κ.cpus) :
    Core κ { s.goto x (.completing back) with cells := cells, numCells := num } := by
  have hk := h.keeps x (.inl hpp)
  refine h.past_step hpp rfl rfl (.inl trivial) h.member h.subset (h.manager x (.inl hpp)).2 hcells
    fun _ => ⟨fun c hc hcx hfc => ?_, fun c _ hb => hb.elim, by simp, trivial⟩
  exact (hk.root c hc hcx fun hpf => hfc (hf c hpf)).mono id rfl (by simp [Hv.goto, hcx])

/-- A CPU enters or leaves the barrier of `hypervisor_disable`. -/
lemma core_left (h : Core κ s) (hp : ¬ (s.pc x).Managing) (he : ¬ (s.pc x).Engaged)
    (hq : q = .barrier ∨ q = .gone) (hpc : t.pc = Function.update s.pc x q)
    (hroot : t.root = s.root) (hcell : t.cell = s.cell) (hcells : t.cells = s.cells)
    (hsus : t.suspendCpu = s.suspendCpu) (hsd : t.cpuSuspended = s.cpuSuspended) : Core κ t := by
  refine h.own_step hp hpc ?_ hroot hcell hcells hsus (fun c _ => by rw [hsd]) (fun hx => ?_)
    fun hx => absurd hx.engaged he
  · rcases hq with rfl | rfl <;> simp [Pc.Managing, Pc.Past, Pc.Gathering]
  · rw [hsd] at hx
    exact absurd (h.engaged x hx) he

lemma go_core (h : Core κ s) (ht : go κ x s = some t) : Core κ t := by
  unfold go at ht
  split at ht <;> rename_i hp
  case h_1 | h_2 => cases ht
  case h_3 =>
    split_ifs at ht with hsus
    obtain rfl := Option.some.inj ht
    refine h.own_step (by rw [hp]; simp [Pc.Managing, Pc.Past, Pc.Gathering]) rfl
      (by simp [Pc.Managing, Pc.Past, Pc.Gathering]) rfl rfl rfl rfl (fun _ _ => rfl) (fun _ => trivial)
      fun hx => ?_
    exact absurd hx.suspendCpu hsus
  case h_4 =>
    obtain rfl := Option.some.inj ht
    have hnm : ¬ (s.pc x).Managing := by rw [hp]; simp [Pc.Managing, Pc.Past, Pc.Gathering]
    split_ifs with hsus
    · exact h.own_step hnm rfl (by simp [Pc.Managing, Pc.Past, Pc.Gathering]) rfl rfl rfl rfl
        (fun c hc => by simp [hc]) (fun _ => trivial) (fun _ => by simp)
    · exact h.own_step hnm rfl (by simp [Pc.Managing, Pc.Past, Pc.Gathering]) rfl rfl rfl rfl
        (fun c hc => by simp [hc]) (fun hx => by simp at hx) fun hx => absurd hx.suspendCpu hsus
  case h_5 l k =>
    obtain rfl := Option.some.inj ht
    exact core_testing h hp
  case h_6 l k =>
    obtain rfl := Option.some.inj ht
    exact core_locking h hp
  case h_7 l k =>
    split_ifs at ht with hsd
    obtain rfl := Option.some.inj ht
    exact core_awaiting h hp hsd
  case h_8 t =>
    obtain ⟨q, ha, rfl⟩ := Option.map_eq_some_iff.mp ht
    exact core_checking h hp ha
  case h_9 t set =>
    have hpp : (s.pc x).Past := by rw [hp]; trivial
    have hk := h.keeps x (.inl hpp)
    rw [hp] at hk
    split at ht
    · cases ht
    · obtain rfl := Option.some.inj ht
      refine h.past_goto hpp (.inl trivial) (fun c hf => ?_) (fun c hcx hb => hk.bound c hcx hb.1)
        (by simp) trivial
      rw [hp] at hf
      exact hf.elim
    · obtain rfl := Option.some.inj ht
      refine h.past_goto hpp (.inl trivial) (fun c hf => ?_) (fun c hcx hb => hk.bound c hcx hb.1)
        (by simp) trivial
      rw [hp] at hf
      exact hf.elim
    · obtain rfl := Option.some.inj ht
      refine h.past_goto hpp (.inl trivial) (fun c hf => ?_) (fun c hcx hb => hk.bound c hcx hb.1)
        (by simp) hk.sound
      rw [hp] at hf
      exact hf.elim
  case h_10 id set k =>
    obtain rfl := Option.some.inj ht
    have hpp : (s.pc x).Past := by rw [hp]; trivial
    have hk := h.keeps x (.inl hpp)
    rw [hp] at hk
    split_ifs with hlt hks
    · refine h.past_resume hpp trivial (fun c hf => ?_) rfl (fun c hb => hb.elim) (by simp)
        ⟨hk.sound.1, hk.sound.2.1, hk.sound.2.2, hks⟩
      rw [hp] at hf
      exact hf.elim
    · refine h.past_goto hpp (.inl trivial) (fun c hf => ?_) (fun c _ hb => hb.elim) (by simp) hk.sound
      rw [hp] at hf
      exact hf.elim
    · refine h.past_goto hpp (.inl trivial) (fun c hf => ?_) (fun c _ hb => hb.elim) (by simp) hk.sound
      rw [hp] at hf
      exact hf.elim
  case h_11 id set k =>
    obtain rfl := Option.some.inj ht
    exact core_moving h hp
  case h_12 id set =>
    obtain rfl := Option.some.inj ht
    have hpp : (s.pc x).Past := by rw [hp]; trivial
    have hk := h.keeps x (.inl hpp)
    rw [hp] at hk
    refine core_listed h hpp (fun c hf => ?_) fun e he => ?_
    · rw [hp] at hf
      exact hf.elim
    · rcases List.mem_append.mp he with he | he
      · exact h.sets e he
      · rw [List.mem_singleton.mp he]
        exact hk.sound.2.2
  case h_13 id set listed k =>
    obtain rfl := Option.some.inj ht
    have hpp : (s.pc x).Past := by rw [hp]; trivial
    have hk := h.keeps x (.inl hpp)
    rw [hp] at hk
    split_ifs with hlt hks hl
    · refine h.past_resume hpp trivial (fun c hf => ?_) ⟨hks, le_rfl⟩ (fun c hb => ?_) (by simp)
        ⟨hk.sound, hks⟩
      · rw [hp] at hf
        exact ⟨hf.1, hf.2.le⟩
      · rw [hp]
        cases listed with
        | true =>
          have hlt := hb.2
          exact ⟨⟨hb.1, hlt.le⟩, by omega⟩
        | false => exact hb.elim
    · refine h.past_goto hpp (.inl trivial) (fun c hf => ?_) (fun c hcx hb => hk.bound c hcx ?_)
        (by simp) hk.sound
      · rw [hp] at hf
        exact ⟨hf.1, hf.2.trans (Nat.lt_succ_self k)⟩
      · cases listed with
        | true => exact ⟨hb.1, (Nat.le_succ k).trans hb.2⟩
        | false => exact hb.elim
    · refine core_listed h hpp (fun c hf => ?_) fun e he => h.sets e (List.mem_of_mem_filter he)
      rw [hp] at hf
      exact hf.1
    · refine h.past_goto hpp (.inl trivial) (fun c hf => ?_) (fun c _ hb => hb.elim) (by simp) trivial
      rw [hp] at hf
      exact .inl hf.1
  case h_14 id set listed k =>
    obtain rfl := Option.some.inj ht
    exact core_handing h hp
  case h_15 set k =>
    obtain rfl := Option.some.inj ht
    have hpp : (s.pc x).Past := by rw [hp]; trivial
    have hk := h.keeps x (.inl hpp)
    rw [hp] at hk
    split_ifs with hlt hks
    · refine h.past_resume hpp trivial (fun c hf => ?_) ⟨hks, Nat.lt_succ_self k⟩ (fun c hb => ?_)
        (by simp) trivial
      · rw [hp] at hf
        exact ⟨hf.1, hf.2.trans (Nat.lt_succ_self k)⟩
      · rw [hp]
        have hkc := hb.2
        exact ⟨⟨hb.1, (Nat.le_succ k).trans hkc⟩, by omega⟩
    · refine h.past_goto hpp (.inl trivial) (fun c hf => ?_)
        (fun c hcx hb => hk.bound c hcx ⟨hb.1, (Nat.le_succ k).trans hb.2⟩) (by simp) trivial
      rw [hp] at hf
      exact ⟨hf.1, hf.2.trans (Nat.lt_succ_self k)⟩
    · refine h.past_goto hpp (.inl trivial) (fun c hf => ?_) (fun c _ hb => hb.elim) (by simp) trivial
      rw [hp] at hf
      exact .inl hf.1
  case h_16 back =>
    obtain rfl := Option.some.inj ht
    have hpp : (s.pc x).Past := by rw [hp]; trivial
    refine h.past_goto hpp (.inl trivial) (fun c hf => ?_) (fun c _ hb => hb.elim) (by simp) trivial
    rw [hp] at hf
    exact .inl hf
  case h_17 back k =>
    obtain rfl := Option.some.inj ht
    have hpp : (s.pc x).Past := by rw [hp]; trivial
    have hmore : ∀ c, (s.pc x).Free c → (Pc.resuming back (k + 1)).Free c := by
      intro c hf
      rw [hp] at hf
      exact hf.imp_right fun hlt => hlt.trans (Nat.lt_succ_self k)
    split_ifs with hlt hks
    · exact h.past_resume hpp trivial hmore (.inr (Nat.lt_succ_self k)) (fun c hb => hb.elim) (by simp)
        trivial
    · exact h.past_goto hpp (.inl trivial) hmore (fun c _ hb => hb.elim) (by simp) trivial
    · refine h.past_step hpp rfl rfl (.inr rfl) h.member h.subset (h.manager x (.inl hpp)).2 h.sets ?_
      intro hq
      exact hq.elim
  case h_18 =>
    split_ifs at ht with hw hd
    · obtain rfl := Option.some.inj ht
      exact core_left h (by rw [hp]; simp [Pc.Managing, Pc.Past, Pc.Gathering])
        (by rw [hp]; simp [Pc.Engaged]) (.inr rfl) rfl rfl rfl rfl rfl rfl
    · obtain rfl := Option.some.inj ht
      exact core_left h (by rw [hp]; simp [Pc.Managing, Pc.Past, Pc.Gathering])
        (by rw [hp]; simp [Pc.Engaged]) (.inr rfl) rfl rfl rfl rfl rfl rfl

lemma step_core {a : Act} (h : Core κ s) (hc : Serialised κ s a) (ht : step κ s a = some t) :
    Core κ t := by
  cases a with
  | check x =>
    simp only [step] at ht
    split_ifs at ht with hx
    obtain rfl := Option.some.inj ht
    refine h.own_step (by rw [hx.2]; simp [Pc.Managing, Pc.Past, Pc.Gathering]) rfl
      (by simp [Pc.Managing, Pc.Past, Pc.Gathering]) rfl rfl rfl rfl (fun c hcx => by simp [hcx])
      (fun _ => trivial) fun hheld => by simp [hheld.cpuSuspended]
  | manage x tk =>
    simp only [step] at ht
    split_ifs at ht with hx
    obtain rfl := Option.some.inj ht
    exact h.begin hx.1 hx.2.1 hx.2.2 hc tk
  | disable x =>
    simp only [step] at ht
    split_ifs at ht with hx
    obtain rfl := Option.some.inj ht
    unfold hypervisorDisable
    split_ifs with hst
    · exact core_left h (by rw [hx.2.1]; simp [Pc.Managing, Pc.Past, Pc.Gathering])
        (by rw [hx.2.1]; simp [Pc.Engaged]) (.inl rfl) rfl rfl rfl rfl rfl rfl
    · exact ⟨h.engaged, h.manager, h.member, h.subset, h.alone, fun y hy =>
        (h.keeps y hy).mono rfl (fun _ hcs => ⟨hcs.1, hcs.2, hcs.3⟩) (fun _ => id), h.sets⟩
  | go x =>
    simp only [step] at ht
    split_ifs at ht
    exact go_core h ht
  | refuse x =>
    simp only [step] at ht
    split_ifs at ht
    split at ht
    case h_1 hp =>
      obtain rfl := Option.some.inj ht
      refine h.past_goto (by rw [hp]; trivial) (.inl trivial) (fun c hf => ?_)
        (fun c _ hb => hb.elim) (by simp) trivial
      rw [hp] at hf
      exact hf.elim
    case h_2 hp =>
      obtain rfl := Option.some.inj ht
      refine h.past_goto (by rw [hp]; trivial) (.inl trivial) (fun c hf => ?_)
        (fun c _ hb => hb.elim) (by simp) trivial
      rw [hp] at hf
      exact hf.elim
    case h_3 hp =>
      obtain rfl := Option.some.inj ht
      have hpp : (s.pc x).Past := by rw [hp]; trivial
      have hk := h.keeps x (.inl hpp)
      rw [hp] at hk
      refine h.past_goto hpp (.inl trivial) (fun c hf => ?_) (fun c _ hb => hb.elim) (by simp)
        hk.sound.2.2
      rw [hp] at hf
      exact hf.elim
    case h_4 => cases ht
  | timeout x id =>
    simp only [step] at ht
    split_ifs at ht
    split at ht
    case h_1 hp hf | h_2 hp hf | h_3 hp hf =>
      split_ifs at ht
      obtain rfl := Option.some.inj ht
      exact core_target h hp (h.find_subset hf) ⟨_, .inr rfl⟩
    case h_4 hp hf =>
      obtain rfl := Option.some.inj ht
      refine h.past_goto (by rw [hp]; trivial) (.inl not_false) (fun c hfc => ?_)
        (fun c _ hb => hb.elim) (by simp) trivial
      rw [hp] at hfc
      exact hfc
    case h_5 => cases ht

lemma init_core (κ : Config) : Core κ (init κ) := by
  refine ⟨?_, ?_, ?_, Finset.Subset.refl _, ?_, ?_, ?_⟩ <;>
    simp [init, Pc.Managing, Pc.Past, Pc.Gathering]

lemma exec_core {as : List Act} (hc : Along (step κ) (Serialised κ) (init κ) as)
    (he : exec (step κ) (init κ) as = some s) : Core κ s :=
  exec_inv_along (fun _ _ _ h hc ht => step_core h hc ht) (init_core κ) hc he

/-- **A management hypercall has the system for itself**: once it has suspended the root cell, no
other CPU is in such a hypercall, and each CPU of the root cell or of the cell it manages is kept in
`check_events` until the hypercall lets it go. Before that, it keeps the CPUs that it is past. -/
theorem management_exclusive {as : List Act} (hc : Along (step κ) (Serialised κ) (init κ) as)
    (he : exec (step κ) (init κ) as = some s) :
    (∀ x y, (s.pc x).Past → (s.pc y).Managing → y = x) ∧
    (∀ x, (s.pc x).Managing → ∀ c ∈ s.root, c ≠ x → ¬ (s.pc x).Free c → Held s c) ∧
    ∀ x, (s.pc x).Past → ∀ c, c ≠ x → (s.pc x).Bound c → Held s c := by
  have h := exec_core hc he
  exact ⟨h.alone, fun x hx => (h.keeps x hx).root, fun x hx => (h.keeps x (.inl hx)).bound⟩

/-- Three CPUs. -/
def threeCpus : Config := ⟨{0, 1, 2}, 3, by decide⟩

/-- CPU 0 creates a cell, and has told CPU 2 to park but not yet moved it. -/
def createRun : List Act :=
  [.manage 0 (.create 1 {2}), .go 0, .go 0, .go 0, .check 1, .go 0, .go 0, .go 0, .check 2, .go 0,
    .go 0, .go 0, .go 0, .go 0, .go 0]

theorem management_exclusive_create :
    ∃ s, exec (step threeCpus) (init threeCpus) createRun = some s ∧
      s.pc 0 = .moving 1 {2} 2 ∧ Held s 1 := by
  have hrun := fun (s : Hv) (he : exec (step threeCpus) (init threeCpus) createRun = some s) =>
    management_exclusive (by decide) he
  exact ⟨_, rfl, rfl, (hrun _ rfl).2.1 0 (.inl trivial) 1 (by decide) (by decide)
    (show ¬ (1 : ℕ) = 2 by decide)⟩

end FpMemSched.Management
