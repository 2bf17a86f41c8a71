import FpMemSched.Lib.Crews

/-!
Bringing the hypervisor up on all CPUs (`hypervisor/setup.c`, `driver/main.c`).

The driver calls `entry` on every online CPU with an id below `max_cpus`, and reports `-EINVAL` for
the others. The CPUs gather, the first one to take the lock after that becomes the master and sets
the system up, and each CPU initialises itself under the lock. Then the master finishes the setup
and lets the others go, or the first error makes all of them return it.

A step ends at each access to a variable that CPUs share. What the initialisation routines
return is open and stands in the label of the step. A CPU that spins has no step until it
leaves the loop.
-/

namespace FpMemSched.BringUp

open FpMemSched.Lib FpMemSched.Lib.Runs FpMemSched.Lib.Crews

def EINVAL : ℤ := 22

/-- What is left in `error` by routines called one after the other until one fails. -/
def firstError : List ℤ → ℤ
  | [] => 0
  | r :: rs => if r = 0 then firstError rs else r

/-- Where a CPU is in `entry` and in the function of the driver that calls it. -/
inductive Pc
  /-- Before `spin_lock`, with the lock, and after `entered_cpus++`. -/
  | outside | counting | counted
  /-- Spinning on `entered_cpus`, before the second `spin_lock`, and with the lock. -/
  | gathering | electing | elected
  | early | cpuInit | leaving
  /-- Spinning on `initialized_cpus`, and out of that loop. -/
  | waiting | branching
  | late | signalling
  /-- Spinning on `activate`. -/
  | holding
  | deciding | failing | restoring
  | returned (err : ℤ)
  /-- After `atomic_inc(&call_done)`. -/
  | reported (err : ℤ)
  deriving DecidableEq

/-- The order in which a CPU passes its places. -/
def Pc.rank : Pc → ℕ
  | .outside => 0 | .counting => 1 | .counted => 2 | .gathering => 3 | .electing => 4
  | .elected => 5 | .early => 6 | .cpuInit => 7 | .leaving => 8 | .waiting => 9
  | .branching => 10 | .late => 11 | .signalling => 12 | .holding => 13 | .deciding => 14
  | .failing => 15 | .restoring => 16 | .returned _ => 17 | .reported _ => 18

/-- The CPU has `init_lock`. -/
def Pc.Locked : Pc → Prop
  | .counting | .counted | .elected | .early | .cpuInit | .leaving => True
  | _ => False

/-- What `entry` returned on the CPU. -/
def Pc.value : Pc → Option ℤ
  | .returned err | .reported err => some err
  | _ => none

/-- What one CPU has for itself. -/
structure Local where
  pc : Pc
  master : Bool
  /-- The CPU runs under the hypervisor. -/
  vmm : Bool
  deriving DecidableEq

inductive Routine
  | early | cpu | late
  deriving DecidableEq

structure Call where
  cpu : ℕ
  routine : Routine
  result : ℤ
  deriving DecidableEq

structure Boot where
  cpu : ℕ → Local
  initLock : Option ℕ
  /-- `none` is -1. -/
  masterCpuId : Option ℕ
  enteredCpus : ℕ
  initializedCpus : ℕ
  error : ℤ
  activate : Bool
  /-- The initialisation routines that ran, oldest first. -/
  calls : List Call
  /-- The CPUs that called `shutdown`. -/
  shutdowns : List ℕ
  errorCode : ℤ
  callDone : ℕ
  /-- What `jailhouse_cmd_enable` makes of `error_code`, once it is there. -/
  result : Option ℤ

structure Config where
  /-- The CPUs that are online. -/
  cpus : Finset ℕ
  maxCpus : ℕ
  /-- The number of CPUs of the root cell. -/
  expectedCpus : ℕ

def Config.onlineCpus (κ : Config) : ℕ := κ.cpus.card

/-- The driver calls `entry` on all online CPUs. -/
def Config.Admitted (κ : Config) : Prop := ∀ i ∈ κ.cpus, i < κ.maxCpus

def init : Boot :=
  ⟨fun _ => ⟨.outside, false, false⟩, none, none, 0, 0, 0, false, [], [], 0, 0, none⟩

inductive Act
  | go (i : ℕ)
  /-- `init_early`, with what the routines return that it calls. -/
  | early (i : ℕ) (rs : List ℤ)
  /-- `cpu_init`, with `cpu_id_valid` and what `arch_cpu_init` returns. -/
  | cpuInit (i : ℕ) (valid : Bool) (r : ℤ)
  /-- `init_late`, with what the units and the mappings return. -/
  | late (i : ℕ) (rs : List ℤ)
  /-- `jailhouse_cmd_enable` goes on. -/
  | conclude
  deriving DecidableEq

/-- CPU `i` goes to `pc`. -/
def Boot.goto (s : Boot) (i : ℕ) (pc : Pc) : Boot :=
  { s with cpu := Function.update s.cpu i { s.cpu i with pc := pc } }

/-- A routine of CPU `i` leaves `r` in `error`. -/
def Boot.called (s : Boot) (i : ℕ) (f : Routine) (r : ℤ) : Boot :=
  { s with error := r, calls := s.calls ++ [⟨i, f, r⟩] }

def initEarly (i : ℕ) (rs : List ℤ) (s : Boot) : Boot := s.called i .early (firstError rs)

def cpuInit (i : ℕ) (valid : Bool) (r : ℤ) (s : Boot) : Boot :=
  let err := if valid then r else -EINVAL
  let s := s.called i .cpu err
  if err = 0 then { s with initializedCpus := s.initializedCpus + 1 } else s

def initLate (κ : Config) (i : ℕ) (rs : List ℤ) (s : Boot) : Boot :=
  s.called i .late (if κ.onlineCpus ≠ κ.expectedCpus then -EINVAL else firstError rs)

/-- The steps of `entry` without the initialisation routines, and the report to the driver. -/
def go (κ : Config) (i : ℕ) (s : Boot) : Option Boot :=
  match (s.cpu i).pc with
  | .outside =>
    -- `enter_hypervisor`
    if κ.maxCpus ≤ i then some (s.goto i (.returned (-EINVAL)))
    else if s.initLock = none then some { s.goto i .counting with initLock := some i }
    else none
  | .counting => some { s.goto i .counted with enteredCpus := s.enteredCpus + 1 }
  | .counted => some { s.goto i .gathering with initLock := none }
  | .gathering => if s.enteredCpus < κ.onlineCpus then none else some (s.goto i .electing)
  | .electing =>
    if s.initLock = none then some { s.goto i .elected with initLock := some i } else none
  | .elected =>
    if s.masterCpuId = none then
      some { s with
        cpu := Function.update s.cpu i { s.cpu i with pc := .early, master := true }
        masterCpuId := some i }
    else some (s.goto i .cpuInit)
  | .early => none
  | .cpuInit => if s.error = 0 then none else some (s.goto i .leaving)
  | .leaving => some { s.goto i .waiting with initLock := none }
  | .waiting =>
    if s.error = 0 ∧ s.initializedCpus < κ.onlineCpus then none else some (s.goto i .branching)
  | .branching =>
    some (s.goto i (if s.error = 0 ∧ (s.cpu i).master = true then .late else .holding))
  | .late => none
  | .signalling =>
    some (if s.error = 0 then { s.goto i .deciding with activate := true } else s.goto i .deciding)
  | .holding =>
    if s.error = 0 ∧ s.activate = false then none else some (s.goto i .deciding)
  | .deciding =>
    some (if s.error = 0 then
      { s with cpu := Function.update s.cpu i { s.cpu i with pc := .returned 0, vmm := true } }
    else s.goto i .failing)
  | .failing =>
    some (if (s.cpu i).master then { s.goto i .restoring with shutdowns := s.shutdowns ++ [i] }
    else s.goto i .restoring)
  | .restoring => some (s.goto i (.returned s.error))
  | .returned err =>
    some { s.goto i (.reported err) with
      errorCode := if err = 0 then s.errorCode else err
      callDone := s.callDone + 1 }
  | .reported _ => none

def step (κ : Config) (s : Boot) : Act → Option Boot
  | .go i => if i ∈ κ.cpus then go κ i s else none
  | .early i rs =>
    if i ∈ κ.cpus ∧ (s.cpu i).pc = .early then some ((initEarly i rs s).goto i .cpuInit) else none
  | .cpuInit i valid r =>
    if i ∈ κ.cpus ∧ (s.cpu i).pc = .cpuInit ∧ s.error = 0 then
      some ((cpuInit i valid r s).goto i .leaving)
    else none
  | .late i rs =>
    if i ∈ κ.cpus ∧ (s.cpu i).pc = .late then some ((initLate κ i rs s).goto i .signalling)
    else none
  | .conclude =>
    if s.callDone = κ.onlineCpus ∧ s.result = none then some { s with result := some s.errorCode }
    else none

/-! ### What holds all along -/

/-- What a CPU can rely on at its place, from the variables that CPUs share. -/
structure Sane (κ : Config) (entered initialized : ℕ) (error : ℤ) (activate : Bool)
    (errorCode : ℤ) (c : Local) : Prop where
  gathered : 4 ≤ c.pc.rank → entered = κ.onlineCpus
  chief : c.master = true → 6 ≤ c.pc.rank
  early : c.pc = .early → c.master = true
  passed : 10 ≤ c.pc.rank → error ≠ 0 ∨ initialized = κ.onlineCpus
  late : c.pc = .late → c.master = true ∧ error = 0
  signalling : c.pc = .signalling → c.master = true ∧ initialized = κ.onlineCpus
  silent : c.master = true → c.pc.rank ≤ 12 → activate = false
  holding : c.pc = .holding → c.master = true → error ≠ 0
  decided : c.pc = .deciding → error ≠ 0 ∨ activate = true
  failing : c.pc = .failing ∨ c.pc = .restoring → error ≠ 0
  returned : ∀ e, c.pc = .returned e →
    (error ≠ 0 ∧ e = error ∧ c.vmm = false) ∨ (activate = true ∧ e = 0 ∧ c.vmm = true)
  reported : ∀ e, c.pc = .reported e →
    (error ≠ 0 ∧ e = error ∧ errorCode = error ∧ c.vmm = false) ∨
      (activate = true ∧ e = 0 ∧ c.vmm = true)
  outside : c.pc.rank ≤ 16 → c.vmm = false

abbrev Boot.Sane (s : Boot) (κ : Config) (c : Local) : Prop :=
  BringUp.Sane κ s.enteredCpus s.initializedCpus s.error s.activate s.errorCode c

/-- The routines that ran as long as none has failed: `init_early` of the master, `cpu_init` of
CPUs in some order, and `init_late` of the master. -/
def History (κ : Config) (s : Boot) : Prop :=
  ∃ (m : ℕ) (order : List ℕ), s.masterCpuId = some m ∧ 7 ≤ (s.cpu m).pc.rank ∧ order.Nodup ∧
    (∀ i, i ∈ order ↔ i ∈ κ.cpus ∧ 8 ≤ (s.cpu i).pc.rank) ∧
    s.calls = ⟨m, .early, 0⟩ :: order.map (⟨·, .cpu, 0⟩) ++
      if 12 ≤ (s.cpu m).pc.rank then [⟨m, .late, 0⟩] else []

/-- Nothing has been initialised. -/
structure Young (κ : Config) (s : Boot) : Prop where
  calls : s.calls = []
  error : s.error = 0
  places : ∀ i ∈ κ.cpus, (s.cpu i).pc.rank ≤ 6

structure Inv (κ : Config) (s : Boot) : Prop where
  locked : ∀ i ∈ κ.cpus, (s.cpu i).pc.Locked → s.initLock = some i
  holder : ∀ i, s.initLock = some i → i ∈ κ.cpus ∧ (s.cpu i).pc.Locked
  entered : s.enteredCpus = tally κ.cpus (fun c => 2 ≤ c.pc.rank) s.cpu
  initialized : s.initializedCpus ≤ tally κ.cpus (fun c => 8 ≤ c.pc.rank) s.cpu
  complete : s.error = 0 → s.initializedCpus = tally κ.cpus (fun c => 8 ≤ c.pc.rank) s.cpu
  reports : s.callDone = tally κ.cpus (fun c => 18 ≤ c.pc.rank) s.cpu
  master : ∀ i ∈ κ.cpus, (s.cpu i).master = true ↔ s.masterCpuId = some i
  member : ∀ m, s.masterCpuId = some m → m ∈ κ.cpus
  sane : ∀ i ∈ κ.cpus, s.Sane κ (s.cpu i)
  young : (s.masterCpuId = none ∨ ∃ m ∈ κ.cpus, (s.cpu m).pc = .early) → Young κ s
  history : s.error = 0 → Young κ s ∨ History κ s
  failure : s.error ≠ 0 → ∃ cs c, s.calls = cs ++ [c] ∧ c.result = s.error ∧ ∀ d ∈ cs, d.result = 0
  activated : s.activate = true → s.error = 0 ∧ s.initializedCpus = κ.onlineCpus ∧
    ∃ m ∈ κ.cpus, (s.cpu m).master = true ∧ 14 ≤ (s.cpu m).pc.rank
  code : s.errorCode ≠ 0 → s.errorCode = s.error
  result : ∀ e, s.result = some e → s.callDone = κ.onlineCpus ∧ e = s.errorCode
  shutdown : s.shutdowns = [] ∨ ∃ m, s.masterCpuId = some m ∧ s.shutdowns = [m] ∧ s.error ≠ 0 ∧
    16 ≤ (s.cpu m).pc.rank

variable {κ : Config} {s t : Boot} {i j : ℕ} {c : Local}

lemma tally_rank (hi : i ∈ κ.cpus) (hle : (s.cpu i).pc.rank ≤ c.pc.rank) (k : ℕ) :
    tally κ.cpus (fun c => k ≤ c.pc.rank) (Function.update s.cpu i c) =
      tally κ.cpus (fun c => k ≤ c.pc.rank) s.cpu +
        if (s.cpu i).pc.rank < k ∧ k ≤ c.pc.rank then 1 else 0 := by
  split_ifs with hk
  · exact tally_update_enter hi (by omega) hk.2
  · exact tally_update_of_iff (by omega)

/-- How a step of CPU `i` to `c` treats the lock. -/
inductive LockStep (s : Boot) (i : ℕ) (c : Local) : Option ℕ → Prop
  | keep (h : c.pc.Locked ↔ (s.cpu i).pc.Locked) : LockStep s i c s.initLock
  | acquire (h : s.initLock = none) (hc : c.pc.Locked) : LockStep s i c (some i)
  | release (h : (s.cpu i).pc.Locked) (hc : ¬ c.pc.Locked) : LockStep s i c none

/-- The part of a step of CPU `i` to `c` that concerns the lock, the counters and the master. -/
structure Frame (κ : Config) (s : Boot) (i : ℕ) (c : Local) (t : Boot) : Prop where
  mem : i ∈ κ.cpus
  cpu : t.cpu = Function.update s.cpu i c
  rank : (s.cpu i).pc.rank ≤ c.pc.rank
  lock : LockStep s i c t.initLock
  entered : t.enteredCpus =
    s.enteredCpus + if (s.cpu i).pc.rank < 2 ∧ 2 ≤ c.pc.rank then 1 else 0
  initialized : t.initializedCpus = s.initializedCpus ∨
    ((s.cpu i).pc.rank < 8 ∧ 8 ≤ c.pc.rank) ∧ t.initializedCpus = s.initializedCpus + 1
  complete : t.error = 0 → s.error = 0 ∧ t.initializedCpus =
    s.initializedCpus + if (s.cpu i).pc.rank < 8 ∧ 8 ≤ c.pc.rank then 1 else 0
  reports : t.callDone = s.callDone + if (s.cpu i).pc.rank < 18 ∧ 18 ≤ c.pc.rank then 1 else 0
  master : (c.master = (s.cpu i).master ∧ t.masterCpuId = s.masterCpuId) ∨
    (c.master = true ∧ s.masterCpuId = none ∧ t.masterCpuId = some i)
  here : t.Sane κ c
  others : ∀ j ∈ κ.cpus, j ≠ i → t.Sane κ (s.cpu j)

lemma Frame.locks (f : Frame κ s i c t) (h : Inv κ s) :
    (∀ j ∈ κ.cpus, (t.cpu j).pc.Locked → t.initLock = some j) ∧
      ∀ j, t.initLock = some j → j ∈ κ.cpus ∧ (t.cpu j).pc.Locked := by
  have hlock := f.lock
  rw [f.cpu]
  generalize t.initLock = l at hlock
  constructor
  · intro j hj hl
    by_cases hji : j = i
    · subst hji
      rw [Function.update_self] at hl
      cases hlock with
      | keep hiff => exact h.locked j hj (hiff.mp hl)
      | acquire => rfl
      | release _ hc => exact absurd hl hc
    · rw [Function.update_of_ne hji] at hl
      have hlj := h.locked j hj hl
      cases hlock with
      | keep => exact hlj
      | acquire hn => simp [hn] at hlj
      | release hi =>
        rw [h.locked i f.mem hi] at hlj
        exact absurd (Option.some.inj hlj).symm hji
  · intro j hj
    cases hlock with
    | keep hiff =>
      obtain ⟨hm, hl⟩ := h.holder j hj
      by_cases hji : j = i
      · subst hji
        exact ⟨hm, by simpa using hiff.mpr hl⟩
      · exact ⟨hm, by simpa [hji] using hl⟩
    | acquire _ hc =>
      obtain rfl := Option.some.inj hj
      exact ⟨f.mem, by simpa using hc⟩
    | release => cases hj

lemma Frame.masters (f : Frame κ s i c t) (h : Inv κ s) :
    (∀ j ∈ κ.cpus, (t.cpu j).master = true ↔ t.masterCpuId = some j) ∧
      ∀ m, t.masterCpuId = some m → m ∈ κ.cpus := by
  rw [f.cpu]
  rcases f.master with ⟨hc, hm⟩ | ⟨hc, hn, hm⟩
  · rw [hm]
    refine ⟨fun j hj => ?_, h.member⟩
    by_cases hji : j = i
    · subst hji
      simpa [hc] using h.master j hj
    · simpa [hji] using h.master j hj
  · rw [hm]
    refine ⟨fun j hj => ?_, fun m hmi => Option.some.inj hmi ▸ f.mem⟩
    by_cases hji : j = i
    · subst hji
      simp [hc]
    · have := h.master j hj
      rw [hn] at this
      simpa [hji, Ne.symm hji] using this

lemma Frame.inv (f : Frame κ s i c t) (h : Inv κ s)
    (young : (t.masterCpuId = none ∨ ∃ m ∈ κ.cpus, (t.cpu m).pc = .early) → Young κ t)
    (history : t.error = 0 → Young κ t ∨ History κ t)
    (failure : t.error ≠ 0 →
      ∃ cs d, t.calls = cs ++ [d] ∧ d.result = t.error ∧ ∀ d ∈ cs, d.result = 0)
    (activated : t.activate = true → t.error = 0 ∧ t.initializedCpus = κ.onlineCpus ∧
      ∃ m ∈ κ.cpus, (t.cpu m).master = true ∧ 14 ≤ (t.cpu m).pc.rank)
    (code : t.errorCode ≠ 0 → t.errorCode = t.error)
    (result : ∀ e, t.result = some e → t.callDone = κ.onlineCpus ∧ e = t.errorCode)
    (shutdown : t.shutdowns = [] ∨ ∃ m, t.masterCpuId = some m ∧ t.shutdowns = [m] ∧ t.error ≠ 0 ∧
      16 ≤ (t.cpu m).pc.rank) : Inv κ t := by
  have htally := tally_rank f.mem f.rank
  refine ⟨(f.locks h).1, (f.locks h).2, ?_, ?_, fun he => ?_, ?_, (f.masters h).1, (f.masters h).2,
    fun j hj => ?_, young, history, failure, activated, code, result, shutdown⟩
  · rw [f.cpu, htally 2, ← h.entered, f.entered]
  · have hle := h.initialized
    rw [f.cpu, htally 8]
    rcases f.initialized with hn | ⟨hc, hn⟩
    · omega
    · rw [if_pos hc]
      omega
  · obtain ⟨hs, hn⟩ := f.complete he
    rw [f.cpu, htally 8, ← h.complete hs, hn]
  · rw [f.cpu, htally 18, ← h.reports, f.reports]
  · by_cases hji : j = i
    · subst hji
      simpa [f.cpu] using f.here
    · simpa [f.cpu, hji] using f.others j hj hji

lemma rank_update (hr : (s.cpu i).pc.rank ≤ c.pc.rank) (j : ℕ) :
    (s.cpu j).pc.rank ≤ (Function.update s.cpu i c j).pc.rank := by
  by_cases hji : j = i
  · subst hji
    simpa using hr
  · simp [hji]

lemma early_of_update (he : c.pc ≠ .early)
    (h : ∃ m ∈ κ.cpus, (Function.update s.cpu i c m).pc = .early) :
    ∃ m ∈ κ.cpus, (s.cpu m).pc = .early := by
  obtain ⟨m, hm, hme⟩ := h
  refine ⟨m, hm, ?_⟩
  by_cases hmi : m = i
  · subst hmi
    exact absurd (by simpa using hme) he
  · simpa [hmi] using hme

lemma History.move (hh : History κ s) (hr : (s.cpu i).pc.rank ≤ c.pc.rank)
    (h8 : 8 ≤ c.pc.rank → 8 ≤ (s.cpu i).pc.rank)
    (h12 : s.masterCpuId = some i → 12 ≤ c.pc.rank → 12 ≤ (s.cpu i).pc.rank)
    (hcpu : t.cpu = Function.update s.cpu i c) (hm : t.masterCpuId = s.masterCpuId)
    (hcalls : t.calls = s.calls) : History κ t := by
  obtain ⟨m, order, hms, h7, hnd, hmem, hcs⟩ := hh
  refine ⟨m, order, hm.trans hms, ?_, hnd, fun j => ?_, ?_⟩
  · rw [hcpu]
    exact h7.trans (rank_update hr m)
  · rw [hmem j, hcpu]
    by_cases hji : j = i
    · subst hji
      simp only [Function.update_self]
      exact and_congr_right fun _ => ⟨fun h => h.trans hr, h8⟩
    · simp [hji]
  · rw [hcalls, hcs, hcpu]
    congr 1
    by_cases hmi : m = i
    · subst hmi
      simp only [Function.update_self]
      exact if_congr ⟨fun h => h.trans hr, h12 hms⟩ rfl rfl
    · simp [hmi]

/-- The master of a young state is still in `init_early`. -/
lemma Young.early (hy : Young κ s) (h : Inv κ s) {m : ℕ} (hm : s.masterCpuId = some m) :
    (s.cpu m).pc = .early := by
  have hmem := h.member m hm
  have h6 := (h.sane m hmem).chief ((h.master m hmem).mpr hm)
  have := hy.places m hmem
  cases hp : (s.cpu m).pc <;> simp_all [Pc.rank]

lemma Young.move (hy : Young κ s) (h : Inv κ s) (h7 : 7 ≤ c.pc.rank → 7 ≤ (s.cpu i).pc.rank ∨
      s.masterCpuId ≠ none ∧ ∀ m ∈ κ.cpus, (s.cpu m).pc ≠ .early)
    (hcpu : t.cpu = Function.update s.cpu i c) (hcalls : t.calls = s.calls)
    (herr : t.error = s.error) : Young κ t := by
  refine ⟨hcalls.trans hy.calls, herr.trans hy.error, fun j hj => ?_⟩
  have hp := hy.places j hj
  rw [hcpu]
  by_cases hji : j = i
  · subst hji
    simp only [Function.update_self]
    by_contra h6
    rcases h7 (by omega) with h7 | ⟨hn, hne⟩
    · omega
    · obtain ⟨m, hm⟩ := Option.ne_none_iff_exists'.mp hn
      exact hne m (h.member m hm) (hy.early h hm)
  · simpa [hji] using hp

/-- The rest of the invariant, for steps that run no initialisation routine. -/
lemma Frame.inv_of_quiet (f : Frame κ s i c t) (h : Inv κ s) (hcalls : t.calls = s.calls)
    (herr : t.error = s.error) (hm : t.masterCpuId = s.masterCpuId) (he : c.pc ≠ .early)
    (h7 : 7 ≤ c.pc.rank → 7 ≤ (s.cpu i).pc.rank ∨
      s.masterCpuId ≠ none ∧ ∀ m ∈ κ.cpus, (s.cpu m).pc ≠ .early)
    (h8 : s.error = 0 → 8 ≤ c.pc.rank → 8 ≤ (s.cpu i).pc.rank)
    (h12 : s.error = 0 → (s.cpu i).master = true → 12 ≤ c.pc.rank → 12 ≤ (s.cpu i).pc.rank)
    (activated : t.activate = true → t.error = 0 ∧ t.initializedCpus = κ.onlineCpus ∧
      ∃ m ∈ κ.cpus, (t.cpu m).master = true ∧ 14 ≤ (t.cpu m).pc.rank)
    (code : t.errorCode ≠ 0 → t.errorCode = t.error)
    (result : ∀ e, t.result = some e → t.callDone = κ.onlineCpus ∧ e = t.errorCode)
    (shutdown : t.shutdowns = [] ∨ ∃ m, t.masterCpuId = some m ∧ t.shutdowns = [m] ∧ t.error ≠ 0 ∧
      16 ≤ (t.cpu m).pc.rank) : Inv κ t := by
  refine f.inv h (fun hy => ?_) (fun hz => ?_) (fun hz => ?_) activated code result shutdown
  · refine (h.young ?_).move h h7 f.cpu hcalls herr
    rw [hm, f.cpu] at hy
    exact hy.imp id (early_of_update he)
  · rw [herr] at hz
    refine (h.history hz).imp (fun hy => hy.move h h7 f.cpu hcalls herr) fun hh => ?_
    exact hh.move f.rank (h8 hz) (fun hmi => h12 hz ((h.master i f.mem).mpr hmi)) f.cpu hm hcalls
  · rw [hcalls, herr]
    exact h.failure (herr ▸ hz)

lemma Frame.activated (f : Frame κ s i c t) (h : Inv κ s) (hc : c.master = (s.cpu i).master)
    (ha : t.activate = s.activate) (herr : t.error = s.error)
    (hn : t.initializedCpus = s.initializedCpus) (hact : t.activate = true) :
    t.error = 0 ∧ t.initializedCpus = κ.onlineCpus ∧
      ∃ m ∈ κ.cpus, (t.cpu m).master = true ∧ 14 ≤ (t.cpu m).pc.rank := by
  obtain ⟨he, hs, m, hmem, hmm, h14⟩ := h.activated (ha ▸ hact)
  refine ⟨herr.trans he, hn.trans hs, m, hmem, ?_, ?_⟩
  · rw [f.cpu]
    by_cases hmi : m = i
    · subst hmi
      simpa [hc] using hmm
    · simpa [hmi] using hmm
  · rw [f.cpu]
    exact h14.trans (rank_update f.rank m)

lemma Frame.shutdown (f : Frame κ s i c t) (h : Inv κ s) (hm : t.masterCpuId = s.masterCpuId)
    (herr : t.error = s.error) (hsd : t.shutdowns = s.shutdowns) :
    t.shutdowns = [] ∨ ∃ m, t.masterCpuId = some m ∧ t.shutdowns = [m] ∧ t.error ≠ 0 ∧
      16 ≤ (t.cpu m).pc.rank := by
  rw [hm, herr, hsd, f.cpu]
  refine h.shutdown.imp id ?_
  rintro ⟨m, hmm, hsd, he, h16⟩
  exact ⟨m, hmm, hsd, he, h16.trans (rank_update f.rank m)⟩

/-- A step that changes only what one CPU has for itself and the lock. -/
lemma Inv.move (h : Inv κ s) (hi : i ∈ κ.cpus) (hm : c.master = (s.cpu i).master)
    (hr : (s.cpu i).pc.rank ≤ c.pc.rank) (h2 : 2 ≤ c.pc.rank → 2 ≤ (s.cpu i).pc.rank)
    (h7 : 7 ≤ c.pc.rank → 7 ≤ (s.cpu i).pc.rank ∨
      s.masterCpuId ≠ none ∧ ∀ m ∈ κ.cpus, (s.cpu m).pc ≠ .early) (he : c.pc ≠ .early)
    (h8 : s.error = 0 → 8 ≤ c.pc.rank → 8 ≤ (s.cpu i).pc.rank)
    (h12 : s.error = 0 → (s.cpu i).master = true → 12 ≤ c.pc.rank → 12 ≤ (s.cpu i).pc.rank)
    (h18 : c.pc.rank < 18) {l : Option ℕ} (hl : LockStep s i c l) (hs : s.Sane κ c) :
    Inv κ { s with cpu := Function.update s.cpu i c, initLock := l } := by
  have f : Frame κ s i c { s with cpu := Function.update s.cpu i c, initLock := l } :=
    ⟨hi, rfl, hr, hl, by rw [if_neg (by omega), Nat.add_zero], .inl rfl,
      fun he => ⟨he, by have := h8 he; rw [if_neg (by omega), Nat.add_zero]⟩,
      by rw [if_neg (by omega), Nat.add_zero], .inl ⟨hm, rfl⟩, hs, fun j hj _ => h.sane j hj⟩
  exact f.inv_of_quiet h rfl rfl rfl he h7 h8 h12 (f.activated h hm rfl rfl rfl) h.code h.result
    (f.shutdown h rfl rfl rfl)

/-- What a CPU has found out when it gets to a place by itself. -/
def Found (κ : Config) (s : Boot) (master : Bool) : Pc → Prop
  | .electing => s.enteredCpus = κ.onlineCpus
  | .branching => s.error ≠ 0 ∨ s.initializedCpus = κ.onlineCpus
  | .late => master = true ∧ s.error = 0
  | .holding => master = true → s.error ≠ 0
  | .deciding => s.error ≠ 0 ∨ s.activate = true
  | .failing | .restoring => s.error ≠ 0
  | .returned e => s.error ≠ 0 ∧ e = s.error
  | .early | .signalling | .reported _ => False
  | _ => True

lemma Sane.goto (h : s.Sane κ c) (pc : Pc) (hr : c.pc.rank ≤ pc.rank)
    (h4 : pc.rank ≤ 4 ∨ 4 ≤ c.pc.rank) (h10 : pc.rank ≤ 10 ∨ 10 ≤ c.pc.rank)
    (h16 : c.pc.rank ≤ 16) (hf : Found κ s c.master pc) : s.Sane κ { c with pc := pc } := by
  have hv := h.outside h16
  refine ⟨fun hk => ?_, fun hm => (h.chief hm).trans hr, fun hp => ?_, fun hk => ?_, fun hp => ?_,
    fun hp => ?_, fun hm hk => h.silent hm (hr.trans hk), fun hp => ?_, fun hp => ?_,
    fun hp => ?_, fun e hp => ?_, fun e hp => ?_, fun _ => hv⟩
  · rcases h4 with h4 | h4
    · cases pc <;> simp [Pc.rank] at hk h4
      exact hf
    · exact h.gathered h4
  · subst hp
    exact hf.elim
  · rcases h10 with h10 | h10
    · cases pc <;> simp [Pc.rank] at hk h10
      exact hf
    · exact h.passed h10
  · subst hp
    exact hf
  · subst hp
    exact hf.elim
  · subst hp
    exact hf
  · subst hp
    exact hf
  · rcases hp with hp | hp <;> subst hp <;> exact hf
  · subst hp
    exact .inl ⟨hf.1, hf.2, hv⟩
  · subst hp
    exact hf.elim

/-- The way from `o` to `pc` does not lead to the place number `k` or past it. -/
def Short (o pc : Pc) (k : ℕ) : Prop := pc.rank < k ∨ k ≤ o.rank

instance (o pc : Pc) (k : ℕ) : Decidable (Short o pc k) := inferInstanceAs (Decidable (_ ∨ _))

/-- A CPU goes on to `pc`, not past a place where it waits for the others. -/
def Onward (o pc : Pc) : Prop :=
  o.rank ≤ pc.rank ∧ Short o pc 2 ∧ (pc.rank ≤ 4 ∨ 4 ≤ o.rank) ∧ (pc.rank ≤ 10 ∨ 10 ≤ o.rank) ∧
    o.rank ≤ 16

instance (o pc : Pc) : Decidable (Onward o pc) := inferInstanceAs (Decidable (_ ∧ _))

lemma Inv.goto_of {o : Pc} (h : Inv κ s) (hi : i ∈ κ.cpus) (ho : (s.cpu i).pc = o) (pc : Pc)
    (hw : Onward o pc) (h7 : Short o pc 7 ∨
      s.masterCpuId ≠ none ∧ ∀ m ∈ κ.cpus, (s.cpu m).pc ≠ .early)
    (h8 : Short o pc 8 ∨ s.error ≠ 0)
    (h12 : Short o pc 12 ∨ ((s.cpu i).master = true → s.error ≠ 0))
    (hf : Found κ s (s.cpu i).master pc) {l : Option ℕ}
    (hl : LockStep s i { s.cpu i with pc := pc } l) : Inv κ { s.goto i pc with initLock := l } := by
  subst ho
  obtain ⟨hr, h2, h4, h10, h16⟩ := hw
  unfold Short at h2 h7 h8 h12
  have hs := (h.sane i hi).goto pc hr h4 h10 h16 hf
  refine h.move (c := { s.cpu i with pc := pc }) hi rfl hr (fun hk => ?_) (fun hk => ?_) ?_
    (fun he hk => ?_) (fun he hm hk => ?_) ?_ hl hs
  · exact h2.resolve_left (not_lt.mpr hk)
  · exact h7.imp (fun h => h.resolve_left (not_lt.mpr hk)) id
  · rintro rfl
    exact hf
  · exact (h8.resolve_right (not_not.mpr he)).resolve_left (not_lt.mpr hk)
  · exact (h12.resolve_right fun h => h hm he).resolve_left (not_lt.mpr hk)
  · cases pc <;> simp [Pc.rank]
    exact hf

/-- The same for a way that is short in every respect. -/
lemma Inv.goto {o : Pc} (h : Inv κ s) (hi : i ∈ κ.cpus) (ho : (s.cpu i).pc = o) (pc : Pc)
    (hw : Onward o pc ∧ Short o pc 7 ∧ Short o pc 8 ∧ Short o pc 12)
    (hf : Found κ s (s.cpu i).master pc) {l : Option ℕ}
    (hl : LockStep s i { s.cpu i with pc := pc } l) : Inv κ { s.goto i pc with initLock := l } := by
  obtain ⟨hw, h7, h8, h12⟩ := hw
  exact h.goto_of hi ho pc hw (.inl h7) (.inl h8) (.inl h12) hf hl

lemma LockStep.same {o pc : Pc} (ho : (s.cpu i).pc = o) (h : pc.Locked ↔ o.Locked) :
    LockStep s i { s.cpu i with pc := pc } s.initLock := .keep (by rw [ho]; exact h)

/-! ### The steps -/

lemma Sane.enter {en ini : ℕ} {err code : ℤ} {act : Bool}
    (h : BringUp.Sane κ en ini err act code c) (hlt : en < κ.onlineCpus) :
    BringUp.Sane κ (en + 1) ini err act code c :=
  { h with gathered := fun hk => absurd (h.gathered hk) hlt.ne }

/-- An initialisation routine sets `error`. -/
lemma Sane.called {en ini ini' : ℕ} {code e : ℤ} (h : BringUp.Sane κ en ini 0 false code c)
    (hp : c.pc ≠ .late) (hini : ini' = ini ∨ ini < κ.onlineCpus) :
    BringUp.Sane κ en ini' e false code c where
  gathered := h.gathered
  chief := h.chief
  early := h.early
  passed hk := by
    have := (h.passed hk).resolve_left (by simp)
    omega
  late hk := absurd hk hp
  signalling hk := by
    have := h.signalling hk
    exact ⟨this.1, by omega⟩
  silent _ _ := rfl
  holding hk hm := absurd rfl (h.holding hk hm)
  decided hk := by simpa using h.decided hk
  failing hk := absurd rfl (h.failing hk)
  returned e hk := by simpa using h.returned e hk
  reported e hk := by simpa using h.reported e hk
  outside := h.outside

lemma Sane.activated {en ini : ℕ} {code : ℤ} (h : BringUp.Sane κ en ini 0 false code c)
    (hm : c.master = false) : BringUp.Sane κ en ini 0 true code c where
  gathered := h.gathered
  chief := h.chief
  early := h.early
  passed := h.passed
  late := h.late
  signalling := h.signalling
  silent hk := by simp [hm] at hk
  holding := h.holding
  decided _ := .inr rfl
  failing := h.failing
  returned e hk := by simpa using h.returned e hk
  reported e hk := by simpa using h.reported e hk
  outside := h.outside

lemma Sane.report {en ini : ℕ} {err code code' : ℤ} {act : Bool}
    (h : BringUp.Sane κ en ini err act code c) (hc : err ≠ 0 → code = err → code' = err) :
    BringUp.Sane κ en ini err act code' c :=
  { h with
    reported := fun e hk => (h.reported e hk).imp
      (fun ⟨he, heq, hcode, hv⟩ => ⟨he, heq, hc he hcode, hv⟩) id }

/-- The number of CPUs past a place is below that of all, as long as one is not. -/
lemma tally_rank_lt (hi : i ∈ κ.cpus) {k : ℕ} (hk : (s.cpu i).pc.rank < k) :
    tally κ.cpus (fun c => k ≤ c.pc.rank) s.cpu < κ.onlineCpus := by
  refine lt_of_le_of_ne (tally_le _ _ _) fun hall => ?_
  have := tally_eq_card_iff.mp hall i hi
  omega

lemma count_inv (h : Inv κ s) (hi : i ∈ κ.cpus) (ho : (s.cpu i).pc = .counting) :
    Inv κ { s.goto i .counted with enteredCpus := s.enteredCpus + 1 } := by
  have hlt : s.enteredCpus < κ.onlineCpus := by
    rw [h.entered]
    exact tally_rank_lt hi (by simp [ho, Pc.rank])
  have hsane := (h.sane i hi).goto .counted (by simp [ho, Pc.rank]) (.inl (by decide))
    (.inl (by decide)) (by simp [ho, Pc.rank]) trivial
  have f : Frame κ s i { s.cpu i with pc := .counted }
      { s.goto i .counted with enteredCpus := s.enteredCpus + 1 } :=
    ⟨hi, rfl, by simp [ho, Pc.rank], .same ho Iff.rfl, by simp [ho, Pc.rank], .inl rfl,
      fun he => ⟨he, by simp [ho, Boot.goto, Pc.rank]⟩, by simp [ho, Boot.goto, Pc.rank], .inl ⟨rfl, rfl⟩,
      Sane.enter hsane hlt, fun j hj _ => (h.sane j hj).enter hlt⟩
  exact f.inv_of_quiet h rfl rfl rfl (by simp) (by simp [Pc.rank]) (by simp [Pc.rank]) (by simp [Pc.rank])
    (f.activated h rfl rfl rfl rfl) h.code h.result (f.shutdown h rfl rfl rfl)

lemma Inv.activate_of_young (h : Inv κ s) (hy : Young κ s) : s.activate = false := by
  by_contra ha
  obtain ⟨-, -, m, hm, -, h14⟩ := h.activated (by simpa using ha)
  have := hy.places m hm
  omega

lemma Inv.shutdowns_of_error (h : Inv κ s) (he : s.error = 0) : s.shutdowns = [] :=
  h.shutdown.resolve_right fun ⟨_, _, _, hne, _⟩ => hne he

lemma Inv.errorCode_of_error (h : Inv κ s) (he : s.error = 0) : s.errorCode = 0 := by
  by_contra hne
  exact hne ((h.code hne).trans he)

lemma elect_inv (h : Inv κ s) (hi : i ∈ κ.cpus) (ho : (s.cpu i).pc = .elected)
    (hn : s.masterCpuId = none) :
    Inv κ { s with
      cpu := Function.update s.cpu i { s.cpu i with pc := .early, master := true }
      masterCpuId := some i } := by
  have hy := h.young (.inl hn)
  have hs := h.sane i hi
  have hact := h.activate_of_young hy
  have hsane : s.Sane κ { s.cpu i with pc := .early, master := true } := by
    have hg := hs.gathered (by simp [ho, Pc.rank])
    have hv := hs.outside (by simp [ho, Pc.rank])
    constructor <;> simp [hg, hv, hact, Pc.rank]
  have f : Frame κ s i { s.cpu i with pc := .early, master := true }
      { s with
        cpu := Function.update s.cpu i { s.cpu i with pc := .early, master := true }
        masterCpuId := some i } :=
    ⟨hi, rfl, by simp [ho, Pc.rank], .keep (by simp [ho, Pc.Locked]), by simp [ho, Pc.rank], .inl rfl,
      fun he => ⟨he, by simp [ho, Pc.rank]⟩, by simp [ho, Pc.rank], .inr ⟨rfl, hn, rfl⟩, hsane,
      fun j hj _ => h.sane j hj⟩
  have hyt : Young κ { s with
      cpu := Function.update s.cpu i { s.cpu i with pc := .early, master := true }
      masterCpuId := some i } :=
    hy.move h (c := { s.cpu i with pc := .early, master := true }) (by simp [Pc.rank]) rfl rfl rfl
  exact f.inv h (fun _ => hyt) (fun _ => .inl hyt) h.failure (fun ha => by simp [hact] at ha) h.code
    h.result (.inl (h.shutdowns_of_error hy.error))

lemma Inv.results_zero (h : Inv κ s) (he : s.error = 0) : ∀ d ∈ s.calls, d.result = 0 := by
  rcases h.history he with hy | ⟨m, order, -, -, -, -, hcs⟩
  · simp [hy.calls]
  · rw [hcs]
    intro d hd
    rw [List.mem_append, List.mem_cons, List.mem_map] at hd
    rcases hd with (rfl | ⟨j, -, rfl⟩) | hd
    · rfl
    · rfl
    · split_ifs at hd
      · rw [List.mem_singleton.mp hd]
      · cases hd

/-- The rest of the invariant, for steps that run an initialisation routine. -/
lemma Frame.inv_of_called (f : Frame κ s i c t) (h : Inv κ s) {r : Routine} (he : s.error = 0)
    (ha : s.activate = false) (hact : t.activate = s.activate)
    (hcalls : t.calls = s.calls ++ [⟨i, r, t.error⟩]) (hm : t.masterCpuId ≠ none)
    (hearly : ∀ m ∈ κ.cpus, (t.cpu m).pc ≠ .early) (history : t.error = 0 → History κ t)
    (hcode : t.errorCode = s.errorCode) (hres : t.result = s.result)
    (hdone : t.callDone = s.callDone) (hsd : t.shutdowns = s.shutdowns) : Inv κ t := by
  refine f.inv h (fun hy => ?_) (fun hz => .inr (history hz)) (fun _ => ?_) (fun hta => ?_)
    (fun hne => ?_) ?_ (.inl (hsd.trans (h.shutdowns_of_error he)))
  · rcases hy with hy | ⟨m, hmem, hme⟩
    · exact absurd hy hm
    · exact absurd hme (hearly m hmem)
  · exact ⟨s.calls, _, hcalls, rfl, h.results_zero he⟩
  · simp [hact, ha] at hta
  · exact absurd (hcode.trans (h.errorCode_of_error he)) hne
  · rw [hres, hdone, hcode]
    exact h.result

/-- There is one master. -/
lemma Inv.master_unique (h : Inv κ s) (hi : i ∈ κ.cpus) (hj : j ∈ κ.cpus)
    (hmi : (s.cpu i).master = true) (hmj : (s.cpu j).master = true) : j = i :=
  Option.some.inj (((h.master j hj).mp hmj).symm.trans ((h.master i hi).mp hmi))

lemma sane_called (he : s.error = 0) (ha : s.activate = false)
    (hent : t.enteredCpus = s.enteredCpus) (hact : t.activate = s.activate)
    (hcode : t.errorCode = s.errorCode)
    (hini : t.initializedCpus = s.initializedCpus ∨ s.initializedCpus < κ.onlineCpus)
    (hc : s.Sane κ c) (hp : c.pc ≠ .late) : t.Sane κ c := by
  unfold Boot.Sane at hc ⊢
  rw [he, ha] at hc
  rw [hent, hact, hcode, ha]
  exact hc.called hp hini

lemma early_inv (h : Inv κ s) (hi : i ∈ κ.cpus) (ho : (s.cpu i).pc = .early) (rs : List ℤ) :
    Inv κ ((initEarly i rs s).goto i .cpuInit) := by
  have hy := h.young (.inr ⟨i, hi, ho⟩)
  have hs := h.sane i hi
  have hmi := hs.early ho
  have hact := h.activate_of_young hy
  have hsane : ∀ d : Local, s.Sane κ d → d.pc ≠ .late →
      ((initEarly i rs s).goto i .cpuInit).Sane κ d :=
    fun _ => sane_called hy.error hact rfl rfl rfl (.inl rfl)
  have hmove := hs.goto .cpuInit (by simp [ho, Pc.rank]) (.inr (by simp [ho, Pc.rank]))
    (.inl (by decide)) (by simp [ho, Pc.rank]) trivial
  have f : Frame κ s i { s.cpu i with pc := .cpuInit } ((initEarly i rs s).goto i .cpuInit) :=
    ⟨hi, rfl, by simp [ho, Pc.rank], .same ho Iff.rfl,
      by simp [ho, Pc.rank, initEarly, Boot.called, Boot.goto], .inl rfl,
      fun _ => ⟨hy.error, by simp [ho, Pc.rank, initEarly, Boot.called, Boot.goto]⟩,
      by simp [ho, Pc.rank, initEarly, Boot.called, Boot.goto], .inl ⟨rfl, rfl⟩,
      hsane _ hmove (by simp),
      fun j hj _ => hsane _ (h.sane j hj) fun hl => by simpa [hl, Pc.rank] using hy.places j hj⟩
  have hmi' : s.masterCpuId = some i := (h.master i hi).mp hmi
  refine f.inv_of_called h (r := .early) hy.error hact rfl rfl ?_ ?_ (fun he => ?_) rfl rfl rfl rfl
  · simp [initEarly, Boot.called, Boot.goto, hmi']
  · intro m hm hme
    rw [f.cpu] at hme
    by_cases hmi'' : m = i
    · subst hmi''
      simp at hme
    · rw [Function.update_of_ne hmi''] at hme
      exact hmi'' (h.master_unique hi hm hmi ((h.sane m hm).early hme))
  · refine ⟨i, [], hmi', ?_, List.nodup_nil, fun j => ?_, ?_⟩
    · simp [f.cpu, Pc.rank]
    · rw [f.cpu]
      constructor
      · simp
      · rintro ⟨hj, h8⟩
        have := hy.places j hj
        by_cases hji : j = i
        · subst hji
          simp [Pc.rank] at h8
        · rw [Function.update_of_ne hji] at h8
          omega
    · have hr : firstError rs = 0 := he
      simp [Pc.rank, initEarly, Boot.called, Boot.goto, hy.calls, hr]

lemma cpuInit_eq (valid : Bool) (r : ℤ) : ∃ err, (cpuInit i valid r s).goto i .leaving =
    { (s.called i .cpu err).goto i .leaving with
      initializedCpus := s.initializedCpus + if err = 0 then 1 else 0 } := by
  refine ⟨if valid then r else -EINVAL, ?_⟩
  unfold cpuInit
  generalize (if valid then r else -EINVAL) = err
  by_cases hr : err = 0
  · simp only [hr, if_true]
    rfl
  · simp only [hr, if_false]
    rfl

lemma cpuInit_inv (h : Inv κ s) (hi : i ∈ κ.cpus) (ho : (s.cpu i).pc = .cpuInit)
    (he : s.error = 0) (err : ℤ) :
    Inv κ { (s.called i .cpu err).goto i .leaving with
      initializedCpus := s.initializedCpus + if err = 0 then 1 else 0 } := by
  have hs := h.sane i hi
  have hlt : s.initializedCpus < κ.onlineCpus := by
    rw [h.complete he]
    exact tally_rank_lt hi (by simp [ho, Pc.rank])
  have hact : s.activate = false := by
    by_contra ha
    exact hlt.ne (h.activated (by simpa using ha)).2.1
  have h10 : ∀ j ∈ κ.cpus, (s.cpu j).pc.rank < 10 := by
    intro j hj
    by_contra hk
    rcases (h.sane j hj).passed (by omega) with hne | hn
    · exact hne he
    · exact hlt.ne hn
  have hmove := hs.goto .leaving (by simp [ho, Pc.rank]) (.inr (by simp [ho, Pc.rank]))
    (.inl (by decide)) (by simp [ho, Pc.rank]) trivial
  set t : Boot := { (s.called i .cpu err).goto i .leaving with
      initializedCpus := s.initializedCpus + if err = 0 then 1 else 0 } with ht
  have hsane : ∀ d : Local, s.Sane κ d → d.pc ≠ .late → t.Sane κ d :=
    fun _ => sane_called he hact rfl rfl rfl (.inr hlt)
  have f : Frame κ s i { s.cpu i with pc := .leaving } t := by
    refine ⟨hi, rfl, by simp [ho, Pc.rank], .same ho Iff.rfl,
      by simp [ho, Pc.rank, t, Boot.called, Boot.goto], ?_, fun hz => ⟨he, ?_⟩,
      by simp [ho, Pc.rank, t, Boot.called, Boot.goto], .inl ⟨rfl, rfl⟩, hsane _ hmove (by simp),
      fun j hj _ => hsane _ (h.sane j hj) fun hl => by simpa [hl, Pc.rank] using h10 j hj⟩
    · by_cases hr : err = 0
      · exact .inr ⟨by simp [ho, Pc.rank], by simp [t, hr]⟩
      · exact .inl (by simp [t, hr])
    · have hr : err = 0 := hz
      simp [ho, Pc.rank, t, hr]
  have hnoty : ¬ Young κ s := fun hy => by simpa [ho, Pc.rank] using hy.places i hi
  obtain ⟨m, order, hm, h7, hnd, hmem, hcs⟩ := (h.history he).resolve_left hnoty
  refine f.inv_of_called h (r := .cpu) he hact rfl rfl (by simp [t, Boot.called, Boot.goto, hm]) ?_
    (fun hz => ?_) rfl rfl rfl rfl
  · intro m' hm' hme
    exact hnoty (h.young (.inr (early_of_update (by simp) ⟨m', hm', f.cpu ▸ hme⟩)))
  · have hr : err = 0 := hz
    have hi' : i ∉ order := fun hio => by simpa [ho, Pc.rank] using ((hmem i).mp hio).2
    refine ⟨m, order ++ [i], hm, ?_, ?_, fun j => ?_, ?_⟩
    · rw [f.cpu]
      exact h7.trans (rank_update f.rank m)
    · exact List.nodup_append.mpr ⟨hnd, List.nodup_singleton i, fun a ha b hb => by
        rw [List.mem_singleton.mp hb]
        rintro rfl
        exact hi' ha⟩
    · rw [List.mem_append, List.mem_singleton, hmem j, f.cpu]
      by_cases hji : j = i
      · subst hji
        simp [Pc.rank, hi]
      · simp [hji]
    · have hm12 : ¬ 12 ≤ (s.cpu m).pc.rank := by
        have := h10 m (h.member m hm)
        omega
      have hm12' : ¬ 12 ≤ (t.cpu m).pc.rank := by
        rw [f.cpu]
        by_cases hmi : m = i
        · subst hmi
          simp [Pc.rank]
        · rwa [Function.update_of_ne hmi]
      rw [if_neg hm12']
      rw [if_neg hm12] at hcs
      simp [t, Boot.called, Boot.goto, hcs, hr]

lemma late_inv (h : Inv κ s) (hi : i ∈ κ.cpus) (ho : (s.cpu i).pc = .late) (rs : List ℤ) :
    Inv κ ((initLate κ i rs s).goto i .signalling) := by
  have hs := h.sane i hi
  obtain ⟨hmi, he⟩ := hs.late ho
  have hact := hs.silent hmi (by simp [ho, Pc.rank])
  have hn := (hs.passed (by simp [ho, Pc.rank])).resolve_left (by simp [he])
  have hsane : ∀ d : Local, s.Sane κ d → d.pc ≠ .late →
      ((initLate κ i rs s).goto i .signalling).Sane κ d :=
    fun _ => sane_called he hact rfl rfl rfl (.inl rfl)
  have hhere : s.Sane κ { s.cpu i with pc := .signalling } := by
    have hg := hs.gathered (by simp [ho, Pc.rank])
    have hv := hs.outside (by simp [ho, Pc.rank])
    constructor <;> simp [hg, hv, hact, Pc.rank, hn, hmi]
  have f : Frame κ s i { s.cpu i with pc := .signalling } ((initLate κ i rs s).goto i .signalling) :=
    ⟨hi, rfl, by simp [ho, Pc.rank], .same ho Iff.rfl,
      by simp [ho, Pc.rank, initLate, Boot.called, Boot.goto], .inl rfl,
      fun _ => ⟨he, by simp [ho, Pc.rank, initLate, Boot.called, Boot.goto]⟩,
      by simp [ho, Pc.rank, initLate, Boot.called, Boot.goto], .inl ⟨rfl, rfl⟩,
      hsane _ hhere (by simp),
      fun j hj hji => hsane _ (h.sane j hj) fun hl =>
        hji (h.master_unique hi hj hmi ((h.sane j hj).late hl).1)⟩
  have hmi' : s.masterCpuId = some i := (h.master i hi).mp hmi
  have hnoty : ¬ Young κ s := fun hy => by simpa [ho, Pc.rank] using hy.places i hi
  obtain ⟨m, order, hm, h7, hnd, hmem, hcs⟩ := (h.history he).resolve_left hnoty
  obtain rfl : i = m := Option.some.inj (hmi'.symm.trans hm)
  refine f.inv_of_called h (r := .late) he hact rfl rfl
    (by simp [initLate, Boot.called, Boot.goto, hm]) ?_ (fun hz => ?_) rfl rfl rfl rfl
  · intro m' hm' hme
    exact hnoty (h.young (.inr (early_of_update (by simp) ⟨m', hm', f.cpu ▸ hme⟩)))
  · refine ⟨i, order, hm, by simp [f.cpu, Pc.rank], hnd, fun j => ?_, ?_⟩
    · rw [hmem j, f.cpu]
      by_cases hji : j = i
      · subst hji
        simp [ho, Pc.rank]
      · simp [hji]
    · have hr : (if κ.onlineCpus ≠ κ.expectedCpus then -EINVAL else firstError rs) = 0 := hz
      rw [if_neg (by simp [ho, Pc.rank])] at hcs
      rw [if_pos (by simp [f.cpu, Pc.rank])]
      simp only [initLate, Boot.called, Boot.goto, hcs, hr, List.append_nil]

lemma signal_inv (h : Inv κ s) (hi : i ∈ κ.cpus) (ho : (s.cpu i).pc = .signalling)
    (he : s.error = 0) : Inv κ { s.goto i .deciding with activate := true } := by
  have hs := h.sane i hi
  obtain ⟨hmi, hn⟩ := hs.signalling ho
  have hact := hs.silent hmi (by simp [ho, Pc.rank])
  have hhere : Boot.Sane { s.goto i .deciding with activate := true } κ
      { s.cpu i with pc := .deciding } := by
    have hg := hs.gathered (by simp [ho, Pc.rank])
    have hv := hs.outside (by simp [ho, Pc.rank])
    constructor <;> simp [hg, hv, Pc.rank, hn, Boot.goto]
  have f : Frame κ s i { s.cpu i with pc := .deciding }
      { s.goto i .deciding with activate := true } := by
    refine ⟨hi, rfl, by simp [ho, Pc.rank], .same ho Iff.rfl, by simp [ho, Pc.rank, Boot.goto],
      .inl rfl, fun he => ⟨he, by simp [ho, Pc.rank, Boot.goto]⟩, by simp [ho, Pc.rank, Boot.goto],
      .inl ⟨rfl, rfl⟩, hhere, fun j hj hji => ?_⟩
    have hj' := h.sane j hj
    unfold Boot.Sane at hj'
    rw [he, hact] at hj'
    have := hj'.activated (by
      by_contra hm
      exact hji (h.master_unique hi hj hmi (by simpa using hm)))
    rwa [← he] at this
  refine f.inv_of_quiet h rfl rfl rfl (by simp) (by simp [ho, Pc.rank]) (by simp [ho, Pc.rank])
    (by simp [ho, Pc.rank]) (fun _ => ⟨he, hn, i, hi, ?_, ?_⟩) h.code h.result
    (f.shutdown h rfl rfl rfl)
  · simpa [Boot.goto] using hmi
  · simp [Boot.goto, Pc.rank]

lemma activate_inv (h : Inv κ s) (hi : i ∈ κ.cpus) (ho : (s.cpu i).pc = .deciding)
    (he : s.error = 0) :
    Inv κ { s with cpu := Function.update s.cpu i { s.cpu i with pc := .returned 0, vmm := true } } := by
  have hs := h.sane i hi
  have hact := (hs.decided ho).resolve_left (by simp [he])
  refine h.move (c := { s.cpu i with pc := .returned 0, vmm := true }) hi rfl (by simp [ho, Pc.rank])
    (by simp [ho, Pc.rank]) (by simp [ho, Pc.rank]) (by simp) (by simp [ho, Pc.rank])
    (by simp [ho, Pc.rank]) (by simp [Pc.rank]) (.keep (by simp [ho, Pc.Locked])) ?_
  have hg := hs.gathered (by simp [ho, Pc.rank])
  have hp := hs.passed (by simp [ho, Pc.rank])
  constructor <;> simp_all [Pc.rank]

lemma shutdown_inv (h : Inv κ s) (hi : i ∈ κ.cpus) (ho : (s.cpu i).pc = .failing)
    (hm : (s.cpu i).master = true) :
    Inv κ { s.goto i .restoring with shutdowns := s.shutdowns ++ [i] } := by
  have hs := h.sane i hi
  have he := hs.failing (.inl ho)
  have hmi := (h.master i hi).mp hm
  have hmove := hs.goto .restoring (by simp [ho, Pc.rank]) (.inr (by simp [ho, Pc.rank]))
    (.inr (by simp [ho, Pc.rank])) (by simp [ho, Pc.rank]) he
  have f : Frame κ s i { s.cpu i with pc := .restoring }
      { s.goto i .restoring with shutdowns := s.shutdowns ++ [i] } :=
    ⟨hi, rfl, by simp [ho, Pc.rank], .same ho Iff.rfl, by simp [ho, Pc.rank, Boot.goto], .inl rfl,
      fun he => ⟨he, by simp [ho, Pc.rank, Boot.goto]⟩, by simp [ho, Pc.rank, Boot.goto],
      .inl ⟨rfl, rfl⟩, hmove, fun j hj _ => h.sane j hj⟩
  refine f.inv_of_quiet h rfl rfl rfl (by simp) (by simp [ho, Pc.rank]) (by simp [ho, Pc.rank])
    (by simp [ho, Pc.rank]) (f.activated h rfl rfl rfl rfl) h.code h.result (.inr ⟨i, hmi, ?_, he, ?_⟩)
  · -- The master has not been here before.
    rcases h.shutdown with hsd | ⟨m, hmm, -, -, h16⟩
    · simp [hsd]
    · obtain rfl := Option.some.inj (hmm.symm.trans hmi)
      simp [ho, Pc.rank] at h16
  · simp [Boot.goto, Pc.rank]

lemma report_inv (h : Inv κ s) (hi : i ∈ κ.cpus) {err : ℤ} (ho : (s.cpu i).pc = .returned err) :
    Inv κ { s.goto i (.reported err) with
      errorCode := if err = 0 then s.errorCode else err
      callDone := s.callDone + 1 } := by
  have hs := h.sane i hi
  have hret := hs.returned err ho
  have hcode : s.error ≠ 0 → (if err = 0 then s.errorCode else err) = s.error := by
    intro he
    rcases hret with ⟨-, rfl, -⟩ | ⟨ha, -, -⟩
    · simp [he]
    · exact absurd (h.activated ha).1 he
  have hkeep : s.error = 0 → (if err = 0 then s.errorCode else err) = s.errorCode := by
    intro he
    rcases hret with ⟨hne, -, -⟩ | ⟨-, rfl, -⟩
    · exact absurd he hne
    · simp
  have hhere : Boot.Sane { s.goto i (.reported err) with
      errorCode := if err = 0 then s.errorCode else err
      callDone := s.callDone + 1 } κ { s.cpu i with pc := .reported err } := by
    have hg := hs.gathered (by simp [ho, Pc.rank])
    have hp := hs.passed (by simp [ho, Pc.rank])
    constructor <;> simp [hg, Pc.rank, Boot.goto]
    · exact hp
    · rcases hret with ⟨hne, heq, hv⟩ | ⟨ha, hz, hv⟩
      · exact .inl ⟨hne, heq, hcode hne, hv⟩
      · exact .inr ⟨ha, hz, hv⟩
  have f : Frame κ s i { s.cpu i with pc := .reported err }
      { s.goto i (.reported err) with
        errorCode := if err = 0 then s.errorCode else err
        callDone := s.callDone + 1 } :=
    ⟨hi, rfl, by simp [ho, Pc.rank], .same ho Iff.rfl, by simp [ho, Pc.rank, Boot.goto], .inl rfl,
      fun he => ⟨he, by simp [ho, Pc.rank, Boot.goto]⟩, by simp [ho, Pc.rank], .inl ⟨rfl, rfl⟩,
      hhere, fun j hj _ => (h.sane j hj).report fun he _ => hcode he⟩
  have hlt : s.callDone < κ.onlineCpus := by
    rw [h.reports]
    exact tally_rank_lt hi (by simp [ho, Pc.rank])
  refine f.inv_of_quiet h rfl rfl rfl (by simp) (by simp [ho, Pc.rank]) (by simp [ho, Pc.rank])
    (by simp [ho, Pc.rank]) (f.activated h rfl rfl rfl rfl) (fun hne => ?_) (fun e hres => ?_)
    (f.shutdown h rfl rfl rfl)
  · by_cases he : s.error = 0
    · exact absurd ((hkeep he).trans (h.errorCode_of_error he)) hne
    · exact hcode he
  · exact absurd (h.result e hres).1 hlt.ne

lemma conclude_inv (h : Inv κ s) (hn : s.callDone = κ.onlineCpus) :
    Inv κ { s with result := some s.errorCode } :=
  { h with
    young := fun hy => ⟨(h.young hy).calls, (h.young hy).error, (h.young hy).places⟩
    history := fun he => (h.history he).imp (fun hy => ⟨hy.calls, hy.error, hy.places⟩) id
    result := fun _ he => ⟨hn, (Option.some.inj he).symm⟩ }

/-- No CPU is in `init_early` while another one has the lock. -/
lemma Inv.not_early (h : Inv κ s) (hi : i ∈ κ.cpus) (hl : (s.cpu i).pc.Locked)
    (he : (s.cpu i).pc ≠ .early) : ∀ m ∈ κ.cpus, (s.cpu m).pc ≠ .early := by
  intro m hm hme
  have hml := h.locked m hm (by rw [hme]; trivial)
  rw [h.locked i hi hl] at hml
  obtain rfl := Option.some.inj hml
  exact he hme

lemma go_inv (hκ : κ.Admitted) (h : Inv κ s) (hi : i ∈ κ.cpus) (ht : go κ i s = some t) :
    Inv κ t := by
  have hs := h.sane i hi
  have hent : s.enteredCpus ≤ κ.onlineCpus := h.entered ▸ tally_le _ _ _
  have hini : s.initializedCpus ≤ κ.onlineCpus := h.initialized.trans (tally_le _ _ _)
  unfold go at ht
  split at ht <;> rename_i ho
  case h_1 =>
    rw [if_neg (hκ i hi).not_ge] at ht
    split_ifs at ht with hn
    obtain rfl := Option.some.inj ht
    exact h.goto hi ho .counting (by decide) trivial (.acquire hn trivial)
  case h_2 =>
    obtain rfl := Option.some.inj ht
    exact count_inv h hi ho
  case h_3 =>
    obtain rfl := Option.some.inj ht
    exact h.goto hi ho .gathering (by decide) trivial (.release (by rw [ho]; trivial) id)
  case h_4 =>
    split_ifs at ht with hn
    obtain rfl := Option.some.inj ht
    exact h.goto hi ho .electing (by decide) (show _ = _ by omega) (.same ho Iff.rfl)
  case h_5 =>
    split_ifs at ht with hn
    obtain rfl := Option.some.inj ht
    exact h.goto hi ho .elected (by decide) trivial (.acquire hn trivial)
  case h_6 =>
    split_ifs at ht with hn
    · obtain rfl := Option.some.inj ht
      exact elect_inv h hi ho hn
    · obtain rfl := Option.some.inj ht
      have hne := h.not_early hi (by rw [ho]; trivial) (by simp [ho])
      exact h.goto_of hi ho .cpuInit (by decide)
        (.inr ⟨hn, hne⟩) (.inl (by decide)) (.inl (by decide)) trivial (.same ho Iff.rfl)
  case h_7 => cases ht
  case h_8 =>
    split_ifs at ht with he
    obtain rfl := Option.some.inj ht
    exact h.goto_of hi ho .leaving (by decide)
      (.inl (by decide)) (.inr he) (.inl (by decide)) trivial (.same ho Iff.rfl)
  case h_9 =>
    obtain rfl := Option.some.inj ht
    exact h.goto hi ho .waiting (by decide) trivial (.release (by rw [ho]; trivial) id)
  case h_10 =>
    split_ifs at ht with hn
    obtain rfl := Option.some.inj ht
    refine h.goto hi ho .branching (by decide) ?_ (.same ho Iff.rfl)
    show s.error ≠ 0 ∨ s.initializedCpus = κ.onlineCpus
    omega
  case h_11 =>
    obtain rfl := Option.some.inj ht
    by_cases hm : s.error = 0 ∧ (s.cpu i).master = true
    · rw [if_pos hm]
      exact h.goto hi ho .late (by decide) hm.symm (.same ho Iff.rfl)
    · rw [if_neg hm]
      have hne : (s.cpu i).master = true → s.error ≠ 0 := fun hmi he => hm ⟨he, hmi⟩
      exact h.goto_of hi ho .holding (by decide)
        (.inl (by decide)) (.inl (by decide)) (.inr hne) hne (.same ho Iff.rfl)
  case h_12 => cases ht
  case h_13 =>
    obtain rfl := Option.some.inj ht
    split_ifs with he
    · exact signal_inv h hi ho he
    · exact h.goto hi ho .deciding (by decide) (.inl he) (.same ho Iff.rfl)
  case h_14 =>
    split_ifs at ht with hn
    obtain rfl := Option.some.inj ht
    refine h.goto hi ho .deciding (by decide) ?_ (.same ho Iff.rfl)
    simpa [Found, imp_iff_not_or] using hn
  case h_15 =>
    obtain rfl := Option.some.inj ht
    split_ifs with he
    · exact activate_inv h hi ho he
    · exact h.goto hi ho .failing (by decide) he (.same ho Iff.rfl)
  case h_16 =>
    obtain rfl := Option.some.inj ht
    split_ifs with hm
    · exact shutdown_inv h hi ho hm
    · exact h.goto hi ho .restoring (by decide) (hs.failing (.inl ho)) (.same ho Iff.rfl)
  case h_17 =>
    obtain rfl := Option.some.inj ht
    exact h.goto hi ho (.returned s.error) (by simp [Onward, Short, Pc.rank]) ⟨hs.failing (.inr ho), rfl⟩
      (.same ho Iff.rfl)
  case h_18 =>
    obtain rfl := Option.some.inj ht
    exact report_inv h hi ho
  case h_19 => cases ht

lemma step_inv (hκ : κ.Admitted) {a : Act} (h : Inv κ s) (ht : step κ s a = some t) : Inv κ t := by
  cases a with
  | go i =>
    simp only [step] at ht
    split_ifs at ht with hi
    exact go_inv hκ h hi ht
  | early i rs =>
    simp only [step] at ht
    split_ifs at ht with hc
    obtain rfl := Option.some.inj ht
    exact early_inv h hc.1 hc.2 rs
  | cpuInit i valid r =>
    simp only [step] at ht
    split_ifs at ht with hc
    obtain rfl := Option.some.inj ht
    obtain ⟨err, heq⟩ := cpuInit_eq (s := s) (i := i) valid r
    rw [heq]
    exact cpuInit_inv h hc.1 hc.2.1 hc.2.2 err
  | late i rs =>
    simp only [step] at ht
    split_ifs at ht with hc
    obtain rfl := Option.some.inj ht
    exact late_inv h hc.1 hc.2 rs
  | conclude =>
    simp only [step] at ht
    split_ifs at ht with hc
    obtain rfl := Option.some.inj ht
    exact conclude_inv h hc.1

lemma init_inv (κ : Config) : Inv κ init := by
  have htally : ∀ k, 0 < k → tally κ.cpus (fun c : Local => k ≤ c.pc.rank) init.cpu = 0 := by
    intro k hk
    refine tally_eq_zero_iff.mpr fun i _ => ?_
    simp only [init, Pc.rank]
    omega
  have hy : Young κ init := ⟨rfl, rfl, by simp [init, Pc.rank]⟩
  refine ⟨?_, ?_, (htally 2 (by omega)).symm, Nat.zero_le _, fun _ => (htally 8 (by omega)).symm,
    (htally 18 (by omega)).symm, ?_, ?_, ?_, fun _ => hy, fun _ => .inl hy, ?_, ?_, ?_, ?_, .inl rfl⟩
  · simp [init, Pc.Locked]
  · simp [init]
  · simp [init]
  · simp [init]
  · intro i _
    constructor <;> simp [init, Pc.rank]
  · simp [init]
  · simp [init]
  · simp [init]
  · simp [init]

lemma exec_inv_init (hκ : κ.Admitted) {as : List Act} (he : exec (step κ) init as = some s) :
    Inv κ s :=
  exec_inv (fun _ _ _ => step_inv hκ) (init_inv κ) he

end FpMemSched.BringUp
