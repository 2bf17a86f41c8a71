import FpMemSched.Lib.Runs
import Mathlib.Data.List.Nodup
import Mathlib.Logic.Function.Basic

/-!
The shared memory devices (`ivshmem.c`, with the interrupts of ARM).

Two devices with the same BDF are the two ends of a link. A device is attached and detached while
its own cell stands still, but the cell at the other end may run all along: it reads the state of
its peer and rings its doorbell between any two steps. A doorbell raises the interrupt the other
end has cached in `arch.irq_id`. Registers of the config space that matter neither for the link nor
for the interrupt are left out.
-/

namespace FpMemSched.Ivshmem

open FpMemSched.Lib.Runs

/-! ### The model -/

/-- A cell, and the index of the device in it. -/
abbrev Dev := ℕ × ℕ

/-- The configurations of the cells. A device whose memory region the cell does not have has no
`shmem`. The interrupts of a cell are fixed; those of the root cell change with each cell that is
created, and `pci_config_commit` then updates the interrupts of its devices once more, which is
left out. -/
structure Machine where
  bdf : Dev → ℕ
  shmem : Dev → Option (ℕ × ℕ)
  shmemProtocol : Dev → ℕ
  numMsixVectors : Dev → ℕ
  vpciIrqBase : ℕ → ℕ
  irqInCell : ℕ → ℕ → Bool

structure Endpoint where
  device : Option Dev
  /-- The pointer to the other endpoint is set. -/
  remote : Bool
  state : ℕ
  irqId : ℕ
  intxCtrl : Bool
  busMaster : Bool
  msixEnable : Bool
  msixMask : Bool

/-- An endpoint in a fresh page. -/
def Endpoint.zero : Endpoint := ⟨none, false, 0, 0, false, false, false, false⟩

/-- The two endpoints of `ivshmem_data`, `false` for the first. -/
structure Link where
  bdf : ℕ
  eps : Bool → Endpoint

/-- `ivshmem_endpoint` of a device, by the page and the side, and its MSI-X vector. -/
structure Device where
  endpoint : Option (ℕ × Bool)
  data : ℕ
  masked : Bool

/-- Where the hypervisor is in `ivshmem_init` or `ivshmem_exit`. -/
inductive Task
  | idle
  | linking (d : Dev) (a : ℕ) (i : Bool)
  | resetting (d : Dev) (a : ℕ) (i : Bool)
  | detaching (d : Dev) (a : ℕ) (i : Bool)
  deriving DecidableEq

structure Sys where
  ivshmemList : List ℕ
  page : ℕ → Link
  dev : Dev → Device
  task : Task

def init : Sys := ⟨[], fun _ => ⟨0, fun _ => .zero⟩, fun _ => ⟨none, 0, true⟩, .idle⟩

def Sys.ep (s : Sys) (a : ℕ) (i : Bool) : Endpoint := (s.page a).eps i

def Sys.setEp (s : Sys) (a : ℕ) (i : Bool) (e : Endpoint) : Sys :=
  let link := { s.page a with eps := Function.update (s.page a).eps i e }
  { s with page := Function.update s.page a link }

def Sys.setDev (s : Sys) (d : Dev) (x : Device) : Sys :=
  { s with dev := Function.update s.dev d x }

/-- The SPI of a device without MSI-X. The pin rotates with the device number. -/
def intxIrq (M : Machine) (d : Dev) : ℕ :=
  let pin := ((M.bdf d >>> 3) &&& 3) + 1
  32 + M.vpciIrqBase d.1 + pin - 1

def ivshmemIsMsixMasked (e : Endpoint) (x : Device) : Bool :=
  !e.msixEnable || e.msixMask || x.masked || !e.busMaster

/-- `arch_ivshmem_update_msix`. An interrupt the cell does not have is refused. -/
def archIvshmemUpdateMsix (M : Machine) (d : Dev) (x : Device) (e : Endpoint) : Endpoint :=
  if M.numMsixVectors d = 0 then e
  else if ivshmemIsMsixMasked e x then { e with irqId := 0 }
  else if x.data < 32 ∨ M.irqInCell d.1 x.data = false then e
  else { e with irqId := x.data }

def archIvshmemUpdateIntx (M : Machine) (d : Dev) (e : Endpoint) : Endpoint :=
  if M.numMsixVectors d ≠ 0 then e
  else { e with irqId := if e.intxCtrl then intxIrq M d else 0 }

/-- `ivshmem_remote_interrupt`: the interrupt it raises. -/
def ivshmemRemoteInterrupt (s : Sys) (a : ℕ) (i : Bool) : Option ℕ :=
  if (s.ep a i).remote ∧ (s.ep a !i).irqId ≠ 0 then some (s.ep a !i).irqId else none

/-- The end of `ivshmem_init`, up to the pointer of the peer. -/
def attach (s : Sys) (d : Dev) (a : ℕ) (i : Bool) : Sys :=
  let e := s.ep a i
  let peer := (s.ep a !i).device.isSome
  let s := s.setEp a i { e with device := some d, remote := e.remote || peer }
  { s.setDev d { s.dev d with endpoint := some (a, i) } with
    task := if peer then .linking d a i else .resetting d a i }

/-- A zeroed page becomes the first link of the list. -/
def Sys.push (s : Sys) (a bdf : ℕ) : Sys :=
  { s with
    ivshmemList := a :: s.ivshmemList
    page := Function.update s.page a ⟨bdf, fun _ => .zero⟩ }

/-- `ivshmem_init` for a device, with the page that the pool has for it. -/
def ivshmemInit (M : Machine) (s : Sys) (d : Dev) (page : Option ℕ) : Option Sys :=
  match M.shmem d with
  | none => some s
  | some mem =>
    match s.ivshmemList.find? fun a => decide ((s.page a).bdf = M.bdf d) with
    | some a =>
      let i := (s.ep a false).device.isSome
      if (s.ep a i).device.isSome then some s
      else
        match (s.ep a !i).device with
        | none => none
        | some peer =>
          -- check that the regions and protocols of both peers match
          if M.shmem peer ≠ some mem ∨ M.shmemProtocol peer ≠ M.shmemProtocol d then some s
          else some (attach s d a i)
    | none =>
      match page with
      | none => some s
      | some a =>
        if a ∈ s.ivshmemList then none
        else some (attach (s.push a (M.bdf d)) d a false)

/-- `pci_reset_device` with `ivshmem_reset`. -/
def reset (M : Machine) (s : Sys) (d : Dev) (a : ℕ) (i : Bool) : Sys :=
  let s := s.setEp a i { s.ep a i with
    state := 0, busMaster := false, msixEnable := false, msixMask := false }
  if M.numMsixVectors d = 0 then s else s.setDev d { s.dev d with data := 0, masked := true }

/-- `ivshmem_exit` up to the disconnection of the peer, or all of it without a peer. -/
def ivshmemExit (s : Sys) (d : Dev) (a : ℕ) (i : Bool) : Sys :=
  if (s.ep a i).remote then
    { s.setEp a (!i) { s.ep a (!i) with remote := false } with task := .detaching d a i }
  else { s.setDev d { s.dev d with endpoint := none } with ivshmemList := s.ivshmemList.erase a }

/-- The next step of `ivshmem_init` or `ivshmem_exit`. -/
def advance (M : Machine) (s : Sys) : Option Sys :=
  match s.task with
  | .idle => none
  | .linking d a i => some
    { s.setEp a (!i) { s.ep a (!i) with remote := true } with task := .resetting d a i }
  | .resetting d a i => some { reset M s d a i with task := .idle }
  | .detaching d a i =>
    let s := s.setEp a i { s.ep a i with device := none }
    some { s.setDev d { s.dev d with endpoint := none } with task := .idle }

/-- What a guest does with its device. -/
inductive Access
  | intxCtrl (enable : Bool)
  | dbell
  | lstate (value : ℕ)
  | rstate
  | vectorData (data : ℕ)
  | vectorCtrl (masked : Bool)
  | command (busMaster : Bool)
  | msixControl (enable mask : Bool)

/-- What an access changes at the endpoint and the device. -/
def access (M : Machine) (d : Dev) (x : Device) (e : Endpoint) : Access → Endpoint × Device
  | .intxCtrl b => (archIvshmemUpdateIntx M d { e with intxCtrl := b }, x)
  | .dbell | .rstate => (e, x)
  | .lstate v => ({ e with state := v }, x)
  | .vectorData v => (archIvshmemUpdateMsix M d { x with data := v } e, { x with data := v })
  | .vectorCtrl b => (archIvshmemUpdateMsix M d { x with masked := b } e, { x with masked := b })
  | .command b =>
    (if b ≠ e.busMaster then archIvshmemUpdateMsix M d x { e with busMaster := b } else e, x)
  | .msixControl b m =>
    (if b ≠ e.msixEnable ∨ m ≠ e.msixMask then
      archIvshmemUpdateMsix M d x { e with msixEnable := b, msixMask := m }
    else e, x)

inductive Act
  | ivshmemInit (d : Dev) (page : Option ℕ)
  | ivshmemExit (d : Dev)
  | pciReset (d : Dev)
  | advance
  | access (d : Dev) (x : Access)

def Task.dev : Task → Option Dev
  | .idle => none
  | .linking d _ _ | .resetting d _ _ | .detaching d _ _ => some d

def step (M : Machine) (s : Sys) : Act → Option Sys
  | .ivshmemInit d page =>
    if s.task = .idle ∧ (s.dev d).endpoint = none then ivshmemInit M s d page else none
  | .ivshmemExit d =>
    if s.task = .idle then (s.dev d).endpoint.map fun p => ivshmemExit s d p.1 p.2 else none
  | .pciReset d =>
    if s.task = .idle then (s.dev d).endpoint.map fun p => reset M s d p.1 p.2 else none
  | .advance => advance M s
  | .access d x =>
    -- the cell stands still while its device is attached or detached
    if s.task.dev = some d then none
    else (s.dev d).endpoint.map fun p =>
      let r := access M d (s.dev d) (s.ep p.1 p.2) x
      (s.setEp p.1 p.2 r.1).setDev d r.2

/-! ### Links -/

lemma side_cases (j i : Bool) : j = i ∨ j = !i := by cases j <;> cases i <;> simp

@[simp] lemma ep_setEp_self (s : Sys) (a : ℕ) (i : Bool) (e : Endpoint) :
    (s.setEp a i e).ep a i = e := by
  simp [Sys.ep, Sys.setEp]

@[simp] lemma ep_setEp_not (s : Sys) (a : ℕ) (i : Bool) (e : Endpoint) :
    (s.setEp a i e).ep a (!i) = s.ep a !i := by
  simp [Sys.ep, Sys.setEp]

lemma ep_setEp_of_ne {s : Sys} {a b : ℕ} (h : b ≠ a) (i j : Bool) (e : Endpoint) :
    (s.setEp a i e).ep b j = s.ep b j := by
  simp [Sys.ep, Sys.setEp, Function.update_of_ne h]

@[simp] lemma bdf_setEp (s : Sys) (a b : ℕ) (i : Bool) (e : Endpoint) :
    ((s.setEp a i e).page b).bdf = (s.page b).bdf := by
  by_cases h : b = a
  · subst h
    simp [Sys.setEp]
  · simp [Sys.setEp, Function.update_of_ne h]

/-- What a link consists of: the devices that are attached, and the pointers between the ends. -/
structure Links (M : Machine) (s : Sys) : Prop where
  nodup : s.ivshmemList.Nodup
  bdf : ∀ a ∈ s.ivshmemList, ∀ b ∈ s.ivshmemList, (s.page a).bdf = (s.page b).bdf → a = b
  at_iff : ∀ d a i, (s.dev d).endpoint = some (a, i) ↔
    a ∈ s.ivshmemList ∧ (s.ep a i).device = some d
  own : ∀ a ∈ s.ivshmemList, ∀ i d, (s.ep a i).device = some d → M.bdf d = (s.page a).bdf
  fit : ∀ a ∈ s.ivshmemList, ∀ i d d', (s.ep a i).device = some d → (s.ep a !i).device = some d' →
    M.shmem d = M.shmem d' ∧ M.shmemProtocol d = M.shmemProtocol d'
  /-- No pointer leads from a device to an end without one. -/
  live : ∀ a ∈ s.ivshmemList, ∀ i d, (s.ep a i).device = some d → (s.ep a i).remote = true →
    ∃ d', (s.ep a !i).device = some d'
  linked : ∀ a ∈ s.ivshmemList, ∀ i d d', (s.ep a i).device = some d →
    (s.ep a !i).device = some d' →
    (s.ep a i).remote = true ∨ s.task = .linking d' a (!i) ∨ s.task = .detaching d' a (!i)

def Used (s : Sys) (a : ℕ) : Prop := ∃ i d, (s.ep a i).device = some d

/-- What the hypervisor is at is done to an attached device. -/
def TaskOk (s : Sys) : Task → Prop
  | .idle => True
  | .linking d a i => (s.dev d).endpoint = some (a, i)
  | .resetting d a i => (s.dev d).endpoint = some (a, i)
  | .detaching d a i => (s.dev d).endpoint = some (a, i) ∧ (s.ep a !i).remote = false ∧
    ∃ d', (s.ep a !i).device = some d'

structure Inv (M : Machine) (s : Sys) : Prop where
  links : Links M s
  used : ∀ a ∈ s.ivshmemList, Used s a
  task : TaskOk s s.task

lemma inv_init (M : Machine) : Inv M init := by
  refine ⟨⟨List.nodup_nil, ?_, ?_, ?_, ?_, ?_, ?_⟩, ?_, trivial⟩ <;> simp [init]

/-- The devices stay where they are. -/
structure Still (s s' : Sys) : Prop where
  list : s'.ivshmemList = s.ivshmemList
  bdf : ∀ a, (s'.page a).bdf = (s.page a).bdf
  device : ∀ a i, (s'.ep a i).device = (s.ep a i).device
  endpoint : ∀ d, (s'.dev d).endpoint = (s.dev d).endpoint

lemma Still.links {M : Machine} {s s' : Sys} (hst : Still s s') (h : Links M s)
    (hlive : ∀ a ∈ s.ivshmemList, ∀ i d, (s.ep a i).device = some d →
      (s'.ep a i).remote = true → ∃ d', (s.ep a !i).device = some d')
    (hlinked : ∀ a ∈ s.ivshmemList, ∀ i d d', (s.ep a i).device = some d →
      (s.ep a !i).device = some d' →
      (s'.ep a i).remote = true ∨ s'.task = .linking d' a (!i) ∨ s'.task = .detaching d' a (!i)) :
    Links M s' := by
  obtain ⟨hl, hb, hd, he⟩ := hst
  refine ⟨hl ▸ h.nodup, ?_, ?_, ?_, ?_, ?_, ?_⟩
  · simpa only [hl, hb] using h.bdf
  · simpa only [hl, hd, he] using h.at_iff
  · simpa only [hl, hd, hb] using h.own
  · simpa only [hl, hd] using h.fit
  · simpa only [hl, hd] using hlive
  · simpa only [hl, hd] using hlinked

lemma Still.used {s s' : Sys} (hst : Still s s') (h : ∀ a ∈ s.ivshmemList, Used s a) :
    ∀ a ∈ s'.ivshmemList, Used s' a := by
  simpa only [Used, hst.list, hst.device] using h

/-- A step that changes neither who is attached nor a pointer. -/
lemma Still.inv {M : Machine} {s s' : Sys} (hst : Still s s') (h : Inv M s)
    (hrem : ∀ a i, (s'.ep a i).remote = (s.ep a i).remote)
    (htask : s'.task = s.task ∨ (s'.task = .idle ∧ ∃ d a i, s.task = .resetting d a i)) :
    Inv M s' := by
  obtain ⟨hl, hu, ht⟩ := h
  refine ⟨hst.links hl ?_ ?_, hst.used hu, ?_⟩
  · simpa only [hrem] using hl.live
  · intro a ha i d d' h₁ h₂
    rw [hrem]
    rcases hl.linked a ha i d d' h₁ h₂ with hr | hr | hr
    · exact Or.inl hr
    all_goals
      rcases htask with htask | ⟨-, d₀, a₀, i₀, htask⟩
      · rw [htask]
        simp only [hr, true_or, or_true]
      · exact absurd (htask.symm.trans hr) Task.noConfusion
  · rcases htask with htask | ⟨htask, -⟩
    · rw [htask]
      rcases hs : s.task with _ | _ | _ | _
      · trivial
      all_goals
        rw [hs] at ht
        simpa only [TaskOk, hst.device, hrem, hst.endpoint] using ht
    · rw [htask]
      trivial

/-! ### Attaching -/

section

variable {M : Machine} {s : Sys} {d : Dev} {a : ℕ} {i : Bool}

lemma device_attach_self : ((attach s d a i).ep a i).device = some d := by
  change ((s.setEp a i _).ep a i).device = _
  rw [ep_setEp_self]

lemma remote_attach_self : ((attach s d a i).ep a i).remote =
    ((s.ep a i).remote || (s.ep a !i).device.isSome) := by
  change ((s.setEp a i _).ep a i).remote = _
  rw [ep_setEp_self]

lemma ep_attach_not : (attach s d a i).ep a (!i) = s.ep a !i := by
  change (s.setEp a i _).ep a (!i) = _
  rw [ep_setEp_not]

lemma ep_attach_of_ne {b : ℕ} (h : b ≠ a) (j : Bool) : (attach s d a i).ep b j = s.ep b j :=
  ep_setEp_of_ne h ..

lemma bdf_attach (b : ℕ) : ((attach s d a i).page b).bdf = (s.page b).bdf := bdf_setEp ..

lemma endpoint_attach_self : ((attach s d a i).dev d).endpoint = some (a, i) := by
  simp [attach, Sys.setDev]

lemma endpoint_attach_of_ne {d' : Dev} (h : d' ≠ d) :
    ((attach s d a i).dev d').endpoint = (s.dev d').endpoint := by
  simp [attach, Sys.setDev, Sys.setEp, Function.update_of_ne h]

/-- A device that goes to a free end of a link it fits. -/
lemma inv_attach (h : Links M s) (ht : s.task = .idle)
    (hu : ∀ b ∈ s.ivshmemList, b ≠ a → Used s b) (ha : a ∈ s.ivshmemList)
    (hd : (s.dev d).endpoint = none) (hi : (s.ep a i).device = none)
    (hbdf : M.bdf d = (s.page a).bdf)
    (hfit : ∀ d', (s.ep a !i).device = some d' →
      M.shmem d = M.shmem d' ∧ M.shmemProtocol d = M.shmemProtocol d')
    (hrem : (s.ep a !i).device = none → (s.ep a i).remote = false) :
    Inv M (attach s d a i) := by
  have hnot : ∀ b ∈ s.ivshmemList, ∀ j, (s.ep b j).device ≠ some d := by
    intro b hb j he
    rw [(h.at_iff d b j).mpr ⟨hb, he⟩] at hd
    exact Option.some_ne_none _ hd
  refine ⟨⟨h.nodup, ?_, ?_, ?_, ?_, ?_, ?_⟩, ?_, ?_⟩
  · intro b hb c hc
    rw [bdf_attach, bdf_attach]
    exact h.bdf b hb c hc
  · intro d' b j
    by_cases hdd : d' = d
    · subst hdd
      rw [endpoint_attach_self]
      constructor
      · rintro ⟨⟩
        exact ⟨ha, device_attach_self⟩
      · rintro ⟨hb, he⟩
        by_cases hba : b = a
        · subst hba
          rcases side_cases j i with rfl | rfl
          · rfl
          · rw [ep_attach_not] at he
            exact absurd he (hnot b hb _)
        · rw [ep_attach_of_ne hba] at he
          exact absurd he (hnot b hb j)
    · rw [endpoint_attach_of_ne hdd, h.at_iff]
      refine and_congr_right fun hb => ?_
      by_cases hba : b = a
      · subst hba
        rcases side_cases j i with rfl | rfl
        · rw [hi, device_attach_self]
          exact iff_of_false (by simp) fun he => hdd (Option.some.inj he).symm
        · rw [ep_attach_not]
      · rw [ep_attach_of_ne hba]
  · intro b hb j d' he
    rw [bdf_attach]
    by_cases hba : b = a
    · subst hba
      rcases side_cases j i with rfl | rfl
      · rw [device_attach_self] at he
        exact Option.some.inj he ▸ hbdf
      · rw [ep_attach_not] at he
        exact h.own b hb _ d' he
    · rw [ep_attach_of_ne hba] at he
      exact h.own b hb j d' he
  · intro b hb j d₁ d₂ h₁ h₂
    by_cases hba : b = a
    · subst hba
      rcases side_cases j i with rfl | rfl
      · rw [device_attach_self] at h₁
        rw [ep_attach_not] at h₂
        exact Option.some.inj h₁ ▸ hfit d₂ h₂
      · rw [ep_attach_not] at h₁
        rw [Bool.not_not, device_attach_self] at h₂
        obtain ⟨hs, hp⟩ := hfit d₁ h₁
        exact Option.some.inj h₂ ▸ ⟨hs.symm, hp.symm⟩
    · rw [ep_attach_of_ne hba] at h₁ h₂
      exact h.fit b hb j d₁ d₂ h₁ h₂
  · intro b hb j d' he hr
    by_cases hba : b = a
    · subst hba
      rcases side_cases j i with rfl | rfl
      · rw [ep_attach_not]
        rw [remote_attach_self] at hr
        rcases hn : (s.ep b !j).device with _ | d₂
        · rw [hn, hrem hn] at hr
          exact Bool.noConfusion hr
        · exact ⟨d₂, rfl⟩
      · rw [Bool.not_not]
        exact ⟨d, device_attach_self⟩
    · rw [ep_attach_of_ne hba] at he hr ⊢
      exact h.live b hb j d' he hr
  · intro b hb j d₁ d₂ h₁ h₂
    by_cases hba : b = a
    · subst hba
      rcases side_cases j i with rfl | rfl
      · left
        rw [ep_attach_not] at h₂
        rw [remote_attach_self, h₂]
        exact Bool.or_true _
      · -- the peer learns of the device in the next step
        rw [ep_attach_not] at h₁
        rw [Bool.not_not, device_attach_self] at h₂
        right; left
        rw [← Option.some.inj h₂, Bool.not_not]
        simp [attach, h₁]
    · rw [ep_attach_of_ne hba] at h₁ h₂ ⊢
      rcases h.linked b hb j d₁ d₂ h₁ h₂ with hl | hl | hl
      · exact Or.inl hl
      · exact absurd (ht.symm.trans hl) (by simp)
      · exact absurd (ht.symm.trans hl) (by simp)
  · intro b hb
    by_cases hba : b = a
    · subst hba
      exact ⟨i, d, device_attach_self⟩
    · obtain ⟨j, d', he⟩ := hu b hb hba
      exact ⟨j, d', by rw [ep_attach_of_ne hba, he]⟩
  · have hself : ((attach s d a i).dev d).endpoint = some (a, i) := endpoint_attach_self
    rcases hp : (s.ep a !i).device with _ | d'
    · have htask : (attach s d a i).task = .resetting d a i := by simp [attach, hp]
      rw [htask]
      exact hself
    · have htask : (attach s d a i).task = .linking d a i := by simp [attach, hp]
      rw [htask]
      exact hself

end

@[simp] lemma ep_push_self (s : Sys) (a bdf : ℕ) (j : Bool) : (s.push a bdf).ep a j = .zero := by
  simp [Sys.ep, Sys.push]

lemma page_push_of_ne {s : Sys} {a b : ℕ} (h : b ≠ a) (bdf : ℕ) :
    (s.push a bdf).page b = s.page b := Function.update_of_ne h ..

lemma ep_push_of_ne {s : Sys} {a b : ℕ} (h : b ≠ a) (bdf : ℕ) (j : Bool) :
    (s.push a bdf).ep b j = s.ep b j := by
  rw [Sys.ep, page_push_of_ne h, Sys.ep]

/-- What holds of the old links and of one without devices. -/
lemma push_cases {s : Sys} {a b bdf : ℕ} (ha : a ∉ s.ivshmemList)
    (hb : b ∈ (s.push a bdf).ivshmemList) (j : Bool) :
    (b = a ∧ ((s.push a bdf).ep b j).device = none) ∨ (b ∈ s.ivshmemList ∧ b ≠ a) := by
  rcases List.mem_cons.mp hb with rfl | hb
  · exact Or.inl ⟨rfl, by rw [ep_push_self]; rfl⟩
  · exact Or.inr ⟨hb, fun he => ha (he ▸ hb)⟩

lemma links_push {M : Machine} {s : Sys} (h : Links M s) {a bdf : ℕ} (ha : a ∉ s.ivshmemList)
    (hbdf : ∀ b ∈ s.ivshmemList, (s.page b).bdf ≠ bdf) : Links M (s.push a bdf) := by
  have hself : ((s.push a bdf).page a).bdf = bdf := by simp [Sys.push]
  have hold : ∀ {b : ℕ} {j : Bool} {d : Dev}, b ∈ (s.push a bdf).ivshmemList →
      ((s.push a bdf).ep b j).device = some d →
      b ∈ s.ivshmemList ∧ b ≠ a ∧ (s.ep b j).device = some d := by
    intro b j d hb he
    rcases push_cases ha hb j with ⟨rfl, hn⟩ | ⟨hb, hne⟩
    · rw [hn] at he
      exact absurd he (Option.some_ne_none d).symm
    · rw [ep_push_of_ne hne] at he
      exact ⟨hb, hne, he⟩
  refine ⟨List.nodup_cons.mpr ⟨ha, h.nodup⟩, ?_, ?_, ?_, ?_, ?_, ?_⟩
  · intro b hb c hc he
    rcases push_cases ha hb true with ⟨rfl, -⟩ | ⟨hb', hba⟩ <;>
      rcases push_cases ha hc true with ⟨rfl, -⟩ | ⟨hc', hca⟩
    · rfl
    · rw [hself, page_push_of_ne hca] at he
      exact absurd he.symm (hbdf c hc')
    · rw [hself, page_push_of_ne hba] at he
      exact absurd he (hbdf b hb')
    · rw [page_push_of_ne hba, page_push_of_ne hca] at he
      exact h.bdf b hb' c hc' he
  · intro d b j
    change (s.dev d).endpoint = some (b, j) ↔ _
    rw [h.at_iff]
    constructor
    · rintro ⟨hb, he⟩
      have hne : b ≠ a := fun hba => ha (hba ▸ hb)
      exact ⟨List.mem_cons_of_mem _ hb, by rw [ep_push_of_ne hne]; exact he⟩
    · rintro ⟨hb, he⟩
      obtain ⟨hb, -, he⟩ := hold hb he
      exact ⟨hb, he⟩
  · intro b hb j d he
    obtain ⟨hb, hne, he⟩ := hold hb he
    rw [page_push_of_ne hne]
    exact h.own b hb j d he
  · intro b hb j d d' h₁ h₂
    exact h.fit b (hold hb h₁).1 j d d' (hold hb h₁).2.2 (hold hb h₂).2.2
  · intro b hb j d he hr
    obtain ⟨hb, hne, he⟩ := hold hb he
    rw [ep_push_of_ne hne] at hr ⊢
    exact h.live b hb j d he hr
  · intro b hb j d d' h₁ h₂
    obtain ⟨hb', hne, h₁⟩ := hold hb h₁
    rw [ep_push_of_ne hne]
    exact h.linked b hb' j d d' h₁ (hold hb h₂).2.2

lemma inv_ivshmemInit {M : Machine} {s s' : Sys} {d : Dev} {page : Option ℕ} (h : Inv M s)
    (ht : s.task = .idle) (hd : (s.dev d).endpoint = none)
    (hs : ivshmemInit M s d page = some s') : Inv M s' := by
  unfold ivshmemInit at hs
  rcases hm : M.shmem d with _ | mem
  · simp only [hm, Option.some.injEq] at hs
    exact hs ▸ h
  simp only [hm] at hs
  rcases hf : s.ivshmemList.find? fun a => decide ((s.page a).bdf = M.bdf d) with _ | a
  · simp only [hf] at hs
    have hbdf : ∀ b ∈ s.ivshmemList, (s.page b).bdf ≠ M.bdf d := by
      simpa using hf
    rcases page with _ | a
    · exact Option.some.inj hs ▸ h
    simp only at hs
    split_ifs at hs with ha
    obtain rfl := Option.some.inj hs
    refine inv_attach (links_push h.links ha hbdf) ht ?_ List.mem_cons_self hd ?_ ?_ ?_ ?_
    · intro b hb hne
      rcases List.mem_cons.mp hb with rfl | hb
      · exact absurd rfl hne
      · obtain ⟨j, d', he⟩ := h.used b hb
        exact ⟨j, d', by rw [ep_push_of_ne hne, he]⟩
    · rw [ep_push_self]
      rfl
    · simp [Sys.push]
    · intro d' he
      rw [ep_push_self] at he
      exact absurd he (Option.some_ne_none d').symm
    · intro _
      rw [ep_push_self]
      rfl
  · simp only [hf] at hs
    have ha := List.mem_of_find?_eq_some hf
    have hbdf : (s.page a).bdf = M.bdf d := by simpa using List.find?_some hf
    split_ifs at hs with hbusy
    · exact Option.some.inj hs ▸ h
    rcases hp : (s.ep a !(s.ep a false).device.isSome).device with _ | peer
    · simp only [hp, reduceCtorEq] at hs
    simp only [hp] at hs
    split_ifs at hs with hmis
    · exact Option.some.inj hs ▸ h
    obtain rfl := Option.some.inj hs
    rw [not_or, not_not, not_not] at hmis
    refine inv_attach h.links ht (fun b hb _ => h.used b hb) ha hd ?_ hbdf.symm ?_ ?_
    · simpa using hbusy
    · intro d' he
      obtain rfl := Option.some.inj (hp.symm.trans he)
      exact ⟨hm.trans hmis.1.symm, hmis.2.symm⟩
    · intro hn
      rw [hp] at hn
      exact absurd hn (Option.some_ne_none peer)

/-! ### The steps -/

section

variable {M : Machine} {s : Sys} {d : Dev} {a : ℕ} {i : Bool}

lemma ep_setEp (b : ℕ) (j : Bool) (e : Endpoint) :
    (s.setEp a i e).ep b j = if b = a ∧ j = i then e else s.ep b j := by
  by_cases hb : b = a
  · subst hb
    rcases side_cases j i with rfl | rfl
    · rw [ep_setEp_self, if_pos ⟨rfl, rfl⟩]
    · rw [ep_setEp_not, if_neg (by simp)]
  · rw [ep_setEp_of_ne hb, if_neg (fun h => hb h.1)]

/-- A change of an endpoint that leaves its device alone. -/
lemma still_setEp {e : Endpoint} (he : e.device = (s.ep a i).device) : Still s (s.setEp a i e) := by
  refine ⟨rfl, fun b => bdf_setEp .., fun b j => ?_, fun _ => rfl⟩
  rw [ep_setEp]
  split_ifs with h
  · obtain ⟨rfl, rfl⟩ := h
    exact he
  · rfl

/-- The peer learns of the device. -/
lemma inv_link (h : Inv M s) (ht : s.task = .linking d a i) :
    Inv M { s.setEp a (!i) { s.ep a (!i) with remote := true } with task := .resetting d a i } := by
  obtain ⟨hl, hu, htask⟩ := h
  rw [ht] at htask
  obtain ⟨ha, hd⟩ := (hl.at_iff d a i).mp htask
  have hst : Still s { s.setEp a (!i) { s.ep a (!i) with remote := true } with
      task := .resetting d a i } := by
    obtain ⟨h₁, h₂, h₃, h₄⟩ := still_setEp (s := s) (a := a) (i := !i)
      (e := { s.ep a (!i) with remote := true }) rfl
    exact ⟨h₁, h₂, h₃, h₄⟩
  have hep : ∀ b j, Sys.ep { s.setEp a (!i) { s.ep a (!i) with remote := true } with
      task := .resetting d a i } b j = if b = a ∧ j = !i then { s.ep a (!i) with remote := true }
        else s.ep b j := fun b j => ep_setEp ..
  refine ⟨hst.links hl ?_ ?_, hst.used hu, htask⟩
  · intro b hb j d₁ h₁ hr
    rw [hep] at hr
    split_ifs at hr with hbj
    · obtain ⟨rfl, rfl⟩ := hbj
      exact ⟨d, by rw [Bool.not_not]; exact hd⟩
    · exact hl.live b hb j d₁ h₁ hr
  · intro b hb j d₁ d₂ h₁ h₂
    left
    rw [hep]
    split_ifs with hbj
    · rfl
    · rcases hl.linked b hb j d₁ d₂ h₁ h₂ with hr | hr | hr
      · exact hr
      · obtain ⟨-, rfl, hi⟩ := Task.linking.inj (ht.symm.trans hr)
        exact absurd ⟨rfl, by rw [hi, Bool.not_not]⟩ hbj
      · exact absurd (ht.symm.trans hr) Task.noConfusion

/-- The peer forgets the device. -/
lemma inv_unlink (h : Inv M s) (ht : s.task = .idle) (hend : (s.dev d).endpoint = some (a, i))
    (hrem : (s.ep a i).remote = true) :
    Inv M { s.setEp a (!i) { s.ep a (!i) with remote := false } with
      task := .detaching d a i } := by
  obtain ⟨hl, hu, -⟩ := h
  obtain ⟨ha, hd⟩ := (hl.at_iff d a i).mp hend
  have hst : Still s { s.setEp a (!i) { s.ep a (!i) with remote := false } with
      task := .detaching d a i } := by
    obtain ⟨h₁, h₂, h₃, h₄⟩ := still_setEp (s := s) (a := a) (i := !i)
      (e := { s.ep a (!i) with remote := false }) rfl
    exact ⟨h₁, h₂, h₃, h₄⟩
  have hep : ∀ b j, Sys.ep { s.setEp a (!i) { s.ep a (!i) with remote := false } with
      task := .detaching d a i } b j = if b = a ∧ j = !i then { s.ep a (!i) with remote := false }
        else s.ep b j := fun b j => ep_setEp ..
  refine ⟨hst.links hl ?_ ?_, hst.used hu, hend, ?_, ?_⟩
  · intro b hb j d₁ h₁ hr
    rw [hep] at hr
    split_ifs at hr with hbj
    exact hl.live b hb j d₁ h₁ hr
  · intro b hb j d₁ d₂ h₁ h₂
    rw [hep]
    split_ifs with hbj
    · obtain ⟨rfl, rfl⟩ := hbj
      rw [Bool.not_not] at h₂ ⊢
      obtain rfl := Option.some.inj (hd.symm.trans h₂)
      exact Or.inr (Or.inr rfl)
    · rcases hl.linked b hb j d₁ d₂ h₁ h₂ with hr | hr | hr
      · exact Or.inl hr
      · exact absurd (ht.symm.trans hr) Task.noConfusion
      · exact absurd (ht.symm.trans hr) Task.noConfusion
  · rw [hep, if_pos ⟨rfl, rfl⟩]
  · obtain ⟨d', hd'⟩ := hl.live a ha i d hd hrem
    exact ⟨d', by rw [hst.device, hd']⟩

/-- A device goes, and the links without a device with it. -/
structure Gone (d : Dev) (s s' : Sys) : Prop where
  nodup : s'.ivshmemList.Nodup
  list : ∀ b, b ∈ s'.ivshmemList → b ∈ s.ivshmemList
  rest : ∀ b j d', b ∈ s.ivshmemList → (s.ep b j).device = some d' → d' ≠ d → b ∈ s'.ivshmemList
  bdf : ∀ b, (s'.page b).bdf = (s.page b).bdf
  device : ∀ b ∈ s'.ivshmemList, ∀ j d', (s'.ep b j).device = some d' ↔
    (s.ep b j).device = some d' ∧ d' ≠ d
  remote : ∀ b j, (s'.ep b j).remote = (s.ep b j).remote
  endpoint : ∀ d', (s'.dev d').endpoint = if d' = d then none else (s.dev d').endpoint

/-- Its peer must have forgotten it before. -/
lemma Gone.links {s' : Sys} (hg : Gone d s s') (hl : Links M s)
    (hfar : ∀ b ∈ s'.ivshmemList, ∀ j, (s.ep b j).remote = true → (s.ep b !j).device ≠ some d)
    (htask : ∀ d' b j, s.task = .linking d' b j ∨ s.task = .detaching d' b j → d' = d) :
    Links M s' := by
  obtain ⟨hn, hlist, hrest, hbdf, hdev, hrem, hend⟩ := hg
  refine ⟨hn, ?_, ?_, ?_, ?_, ?_, ?_⟩
  · intro b hb c hc he
    rw [hbdf, hbdf] at he
    exact hl.bdf b (hlist b hb) c (hlist c hc) he
  · intro d' b j
    rw [hend]
    by_cases hd : d' = d
    · rw [if_pos hd]
      refine iff_of_false (fun he => absurd he.symm (Option.some_ne_none _)) ?_
      rintro ⟨hb, he⟩
      exact ((hdev b hb j d').mp he).2 hd
    · rw [if_neg hd, hl.at_iff]
      constructor
      · rintro ⟨hb, he⟩
        have hb' := hrest b j d' hb he hd
        exact ⟨hb', (hdev b hb' j d').mpr ⟨he, hd⟩⟩
      · rintro ⟨hb, he⟩
        exact ⟨hlist b hb, ((hdev b hb j d').mp he).1⟩
  · intro b hb j d' he
    rw [hbdf]
    exact hl.own b (hlist b hb) j d' ((hdev b hb j d').mp he).1
  · intro b hb j d₁ d₂ h₁ h₂
    exact hl.fit b (hlist b hb) j d₁ d₂ ((hdev b hb j d₁).mp h₁).1 ((hdev b hb _ d₂).mp h₂).1
  · intro b hb j d₁ h₁ hr
    rw [hrem] at hr
    obtain ⟨d', hd'⟩ := hl.live b (hlist b hb) j d₁ ((hdev b hb j d₁).mp h₁).1 hr
    exact ⟨d', (hdev b hb _ d').mpr ⟨hd', fun he => hfar b hb j hr (he ▸ hd')⟩⟩
  · intro b hb j d₁ d₂ h₁ h₂
    rw [hrem]
    obtain ⟨h₂, hne⟩ := (hdev b hb _ d₂).mp h₂
    rcases hl.linked b (hlist b hb) j d₁ d₂ ((hdev b hb j d₁).mp h₁).1 h₂ with hr | hr | hr
    · exact Or.inl hr
    · exact absurd (htask d₂ b _ (Or.inl hr)) hne
    · exact absurd (htask d₂ b _ (Or.inr hr)) hne

/-- The last device of a link. -/
lemma inv_remove (h : Inv M s) (ht : s.task = .idle) (hend : (s.dev d).endpoint = some (a, i))
    (hrem : (s.ep a i).remote ≠ true) :
    Inv M { s.setDev d { s.dev d with endpoint := none } with
      ivshmemList := s.ivshmemList.erase a } := by
  obtain ⟨hl, hu, -⟩ := h
  obtain ⟨ha, hd⟩ := (hl.at_iff d a i).mp hend
  -- with a device at the other end the pointer would be set
  have halone : ∀ j d', (s.ep a j).device = some d' → d' = d := by
    intro j d' he
    rcases side_cases j i with rfl | rfl
    · exact Option.some.inj (he.symm.trans hd)
    · rcases hl.linked a ha i d d' hd he with hr | hr | hr
      · exact absurd hr hrem
      · exact absurd (ht.symm.trans hr) Task.noConfusion
      · exact absurd (ht.symm.trans hr) Task.noConfusion
  have hmem : ∀ b, b ∈ s.ivshmemList.erase a ↔ b ≠ a ∧ b ∈ s.ivshmemList := fun b =>
    hl.nodup.mem_erase_iff
  have hne : ∀ b ∈ s.ivshmemList, b ≠ a → ∀ j, (s.ep b j).device ≠ some d := by
    intro b hb hba j he
    have hat := (hl.at_iff d b j).mpr ⟨hb, he⟩
    exact hba (Prod.mk.inj (Option.some.inj (hat.symm.trans hend))).1
  have hg : Gone d s { s.setDev d { s.dev d with endpoint := none } with
      ivshmemList := s.ivshmemList.erase a } := by
    refine ⟨hl.nodup.erase a, fun b hb => ((hmem b).mp hb).2, ?_, fun _ => rfl, ?_, fun _ _ => rfl,
      ?_⟩
    · intro b j d' hb he hdd
      refine (hmem b).mpr ⟨fun hba => hdd ?_, hb⟩
      subst hba
      exact halone j d' he
    · intro b hb j d'
      obtain ⟨hba, hb⟩ := (hmem b).mp hb
      exact ⟨fun he => ⟨he, fun hdd => hne b hb hba j (hdd ▸ he)⟩, And.left⟩
    · intro d'
      by_cases hdd : d' = d
      · subst hdd
        simp [Sys.setDev]
      · simp [Sys.setDev, hdd]
  refine ⟨hg.links hl ?_ ?_, ?_, ?_⟩
  · intro b hb j _ he
    obtain ⟨hba, hb⟩ := (hmem b).mp hb
    exact hne b hb hba _ he
  · rintro d' b j (hr | hr) <;> exact absurd (ht.symm.trans hr) Task.noConfusion
  · intro b hb
    exact hu b ((hmem b).mp hb).2
  · change TaskOk _ s.task
    rw [ht]
    trivial

/-- The end of a device whose peer stays. -/
lemma inv_detach (h : Inv M s) (ht : s.task = .detaching d a i) :
    Inv M { (s.setEp a i { s.ep a i with device := none }).setDev d
      { s.dev d with endpoint := none } with task := .idle } := by
  obtain ⟨hl, hu, htask⟩ := h
  rw [ht] at htask
  obtain ⟨hend, hforgot, d', hpeer⟩ := htask
  obtain ⟨ha, hd⟩ := (hl.at_iff d a i).mp hend
  have hep : ∀ b j, Sys.ep { (s.setEp a i { s.ep a i with device := none }).setDev d
      { s.dev d with endpoint := none } with task := .idle } b j =
        if b = a ∧ j = i then { s.ep a i with device := none } else s.ep b j :=
    fun b j => ep_setEp ..
  have honly : ∀ b ∈ s.ivshmemList, ∀ j, (s.ep b j).device = some d → b = a ∧ j = i := by
    intro b hb j he
    have hat := (hl.at_iff d b j).mpr ⟨hb, he⟩
    exact Prod.mk.inj (Option.some.inj (hat.symm.trans hend))
  have hg : Gone d s { (s.setEp a i { s.ep a i with device := none }).setDev d
      { s.dev d with endpoint := none } with task := .idle } := by
    refine ⟨hl.nodup, fun _ hb => hb, fun _ _ _ hb _ _ => hb, fun b => bdf_setEp .., ?_, ?_, ?_⟩
    · intro b hb j d₁
      rw [hep]
      split_ifs with hbj
      · obtain ⟨rfl, rfl⟩ := hbj
        refine iff_of_false id ?_
        rintro ⟨he, hne⟩
        exact hne (Option.some.inj (he.symm.trans hd))
      · refine ⟨fun he => ⟨he, fun hdd => hbj (honly b hb j (hdd ▸ he))⟩, And.left⟩
    · intro b j
      rw [hep]
      split_ifs with hbj
      · obtain ⟨rfl, rfl⟩ := hbj
        rfl
      · rfl
    · intro d₁
      by_cases hdd : d₁ = d
      · subst hdd
        simp [Sys.setDev]
      · simp [Sys.setDev, Sys.setEp, hdd]
  refine ⟨hg.links hl ?_ ?_, ?_, trivial⟩
  · intro b hb j hr he
    obtain ⟨rfl, hj⟩ := honly b hb _ he
    rw [← hj, Bool.not_not, hr] at hforgot
    exact Bool.noConfusion hforgot
  · rintro d₁ b j (hr | hr)
    · exact absurd (ht.symm.trans hr) Task.noConfusion
    · exact (Task.detaching.inj (ht.symm.trans hr)).1.symm
  · intro b hb
    by_cases hba : b = a
    · subst hba
      exact ⟨!i, d', by rw [hep, if_neg (by simp)]; exact hpeer⟩
    · obtain ⟨j, d₁, he⟩ := hu b hb
      exact ⟨j, d₁, by rw [hep, if_neg (fun hc => hba hc.1)]; exact he⟩

lemma still_setDev {x : Device} (hx : x.endpoint = (s.dev d).endpoint) :
    Still s (s.setDev d x) := by
  refine ⟨rfl, fun _ => rfl, fun _ _ => rfl, fun d' => ?_⟩
  by_cases hd : d' = d
  · subst hd
    simpa [Sys.setDev] using hx
  · simp [Sys.setDev, hd]

lemma Still.trans {s' s'' : Sys} (h : Still s s') (h' : Still s' s'') : Still s s'' :=
  ⟨h'.list.trans h.list, fun a => (h'.bdf a).trans (h.bdf a),
    fun a i => (h'.device a i).trans (h.device a i),
    fun d => (h'.endpoint d).trans (h.endpoint d)⟩

lemma still_reset : Still s (reset M s d a i) := by
  unfold reset
  split_ifs
  · exact still_setEp rfl
  · refine Still.trans (still_setEp ?_) (still_setDev ?_) <;> rfl

lemma remote_reset (b : ℕ) (j : Bool) : ((reset M s d a i).ep b j).remote = (s.ep b j).remote := by
  have h : ∀ e : Endpoint, e.remote = (s.ep a i).remote →
      ((s.setEp a i e).ep b j).remote = (s.ep b j).remote := by
    intro e he
    rw [ep_setEp]
    split_ifs with hbj
    · obtain ⟨rfl, rfl⟩ := hbj
      exact he
    · rfl
  unfold reset
  split_ifs
  · exact h _ rfl
  · exact h _ rfl

/-- An access changes neither the device of its end nor its pointer. -/
lemma access_still (x : Device) (e : Endpoint) (b : Access) :
    (access M d x e b).1.device = e.device ∧ (access M d x e b).1.remote = e.remote ∧
      (access M d x e b).2.endpoint = x.endpoint := by
  have hm : ∀ (x : Device) (e : Endpoint), (archIvshmemUpdateMsix M d x e).device = e.device ∧
      (archIvshmemUpdateMsix M d x e).remote = e.remote := by
    intro x e
    unfold archIvshmemUpdateMsix
    split_ifs <;> simp
  cases b with
  | intxCtrl b =>
    simp only [access, archIvshmemUpdateIntx]
    split_ifs <;> simp
  | dbell | rstate | lstate v => exact ⟨rfl, rfl, rfl⟩
  | vectorData v => exact ⟨(hm _ e).1, (hm _ e).2, rfl⟩
  | vectorCtrl m => exact ⟨(hm _ e).1, (hm _ e).2, rfl⟩
  | command m =>
    simp only [access]
    split_ifs <;> simp [hm x]
  | msixControl m n =>
    simp only [access]
    split_ifs <;> simp [hm x]

lemma inv_step {s' : Sys} {act : Act} (h : Inv M s) (hs : step M s act = some s') : Inv M s' := by
  cases act with
  | ivshmemInit d page =>
    simp only [step, Option.ite_none_right_eq_some] at hs
    obtain ⟨⟨ht, hd⟩, hs⟩ := hs
    exact inv_ivshmemInit h ht hd hs
  | ivshmemExit d =>
    simp only [step, Option.ite_none_right_eq_some, Option.map_eq_some_iff] at hs
    obtain ⟨ht, ⟨a, i⟩, hend, rfl⟩ := hs
    unfold ivshmemExit
    split_ifs with hr
    · exact inv_unlink h ht hend hr
    · exact inv_remove h ht hend hr
  | pciReset d =>
    simp only [step, Option.ite_none_right_eq_some, Option.map_eq_some_iff] at hs
    obtain ⟨ht, ⟨a, i⟩, hend, rfl⟩ := hs
    refine still_reset.inv h remote_reset (Or.inl ?_)
    unfold reset
    split_ifs <;> rfl
  | advance =>
    rcases ht : s.task with _ | ⟨d, a, i⟩ | ⟨d, a, i⟩ | ⟨d, a, i⟩ <;>
      simp only [step, advance, ht, reduceCtorEq, Option.some.injEq] at hs <;> subst hs
    · exact inv_link h ht
    · have hst : Still s { reset M s d a i with task := .idle } := by
        obtain ⟨h₁, h₂, h₃, h₄⟩ := still_reset (M := M) (s := s) (d := d) (a := a) (i := i)
        exact ⟨h₁, h₂, h₃, h₄⟩
      exact hst.inv h remote_reset (Or.inr ⟨rfl, d, a, i, ht⟩)
    · exact inv_detach h ht
  | access d x =>
    simp only [step, Option.ite_none_left_eq_some, Option.map_eq_some_iff] at hs
    obtain ⟨-, ⟨a, i⟩, hend, rfl⟩ := hs
    obtain ⟨h₁, h₂, h₃⟩ := access_still (M := M) (d := d) (s.dev d) (s.ep a i) x
    refine ((still_setEp h₁).trans (still_setDev h₃)).inv h (fun b j => ?_) (Or.inl rfl)
    change ((s.setEp a i _).ep b j).remote = _
    rw [ep_setEp]
    split_ifs with hbj
    · obtain ⟨rfl, rfl⟩ := hbj
      exact h₂
    · rfl

end

end FpMemSched.Ivshmem
