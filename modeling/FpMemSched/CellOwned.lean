import FpMemSched.CellMemory
import FpMemSched.Lib.Runs
import Mathlib.Data.List.Flatten
import Mathlib.Data.List.Nodup
import Mathlib.Data.List.Pairwise

/-!
Who owns the memory of cells, across any sequence of management commands without failures.

The root cell is identity-mapped. An address is open to it if it lies in one of its regions and
not in a region that a cell has for itself, except for the loadable regions of a cell that is
being loaded. Each command changes the mappings so that this stays true.
-/

namespace FpMemSched.CellOwned

open FpMemSched.Coloring FpMemSched.CellLoad FpMemSched.CellMemory
open FpMemSched.Lib.Spaces FpMemSched.Lib.Runs

/-- The physical address `x` lies in the region. -/
def Lies (m : Memory) (x : ℕ) : Prop := In m.physStart m.size x

/-- A page-aligned range of physical memory, at a page of the guest. -/
structure Range (m : Memory) : Prop where
  phys : m.physStart % pageSize = 0
  virt : m.virtStart % pageSize = 0
  size : m.size % pageSize = 0
  bound : m.physStart + m.size < 2 ^ 64

/-- A region of the root cell. -/
structure RootRange (m : Memory) : Prop extends Range m where
  identity : m.virtStart = m.physStart
  backed : m.flags.commRegion = false

/-- The physical address `x` lies in a region of the root cell. -/
def InRoot (p : Platform) (x : ℕ) : Prop := ∃ r ∈ p.rootRegions, Lies r x

/-- Neither a communication region nor shared with the root cell. -/
def Exclusive (m : Memory) : Prop := m.flags.commRegion = false ∧ m.flags.rootshared = false

instance (m : Memory) : Decidable (Exclusive m) := inferInstanceAs (Decidable (_ ∧ _))

lemma shared_of_not_exclusive {m : Memory} (h : ¬ Exclusive m) :
    (m.flags.commRegion || m.flags.rootshared) = true := by
  unfold Exclusive at h
  cases hc : m.flags.commRegion with
  | true => rfl
  | false => simpa [hc] using h

def noFaults : Faults := ⟨fun _ => none, fun _ => false⟩

lemma noFaults_unmap (n : ℕ) : noFaults.unmap n = false := rfl

/-! ### The regions of a cell -/

/-- The plain regions and the fragments of the coloured ones. -/
def regions (p : Platform) (cfg : CellConfig) : List Memory :=
  cfg.memoryRegions ++ cfg.memoryRegionsColored.flatMap (fragments p.colorDesc)

section Loops

variable {α β σ : Type*} {body : α → σ → σ × ℤ}

lemma untilError_append (l l' : List α) (s : σ) :
    untilError body (l ++ l') s =
      if (untilError body l s).2 ≠ 0 then untilError body l s
      else untilError body l' (untilError body l s).1 := by
  induction l generalizing s with
  | nil => simp [untilError]
  | cons a l ih =>
    rw [List.cons_append, untilError, untilError]
    by_cases h : (body a s).2 = 0
    · simp only [h, ne_eq, not_true_eq_false, if_false]
      exact ih _
    · simp [h]

lemma untilError_flatMap (f : β → List α) (l : List β) (s : σ) :
    untilError (fun b s => untilError body (f b) s) l s = untilError body (l.flatMap f) s := by
  induction l generalizing s with
  | nil => rfl
  | cons b l ih =>
    rw [untilError, List.flatMap_cons, untilError_append]
    simp only [ih]

lemma visitAll_eq (g : Memory → σ → σ × ℤ) (l : List Memory) (s : σ) :
    visitAll g l s = untilError g l s := by
  induction l generalizing s with
  | nil => rfl
  | cons m l ih => rw [visitAll, untilError, ih]

end Loops

/-- The loops of a command treat all regions alike, fragments included. -/
theorem eachRegion_eq (k : Context) (p : Platform) (cfg : CellConfig) (mode : FailureMode)
    (type : ColOperation) (s : Maps) :
    eachRegion k p cfg mode type s =
      untilError (visit (manageFunctions k mode) type) (regions p cfg) s := by
  have hcolored : (fun colMem => manageColoredRegions (manageFunctions k mode) p.colorDesc p.stack
      colMem type) = fun colMem s => untilError (visit (manageFunctions k mode) type)
        (fragments p.colorDesc colMem) s := by
    funext colMem s
    rw [manageColoredRegions_eq, visitAll_eq]
  rw [regions, untilError_append, ← untilError_flatMap, eachRegion, hcolored]

/-! ### The overlap with a region of the root cell -/

lemma addressInRegion_iff {m : Memory} (hm : m.physStart + m.size < 2 ^ 64) (x : ℕ) :
    addressInRegion x m = true ↔ Lies m x := by
  unfold addressInRegion u64
  rw [decide_eq_true_iff, Nat.mod_eq_of_lt hm]
  rfl

/-- What `remap_to_root_cell` maps of a region of the root cell. -/
structure Part (m r part : Memory) : Prop where
  page : part.isSubpage = false
  backed : part.flags.commRegion = false
  identity : part.virtStart = part.physStart
  lies_iff : ∀ x, Lies part x ↔ Lies m x ∧ Lies r x

lemma isSubpage_eq_false {m : Memory} (hv : m.virtStart % pageSize = 0)
    (hs : m.size % pageSize = 0) : m.isSubpage = false := by
  simp [Memory.isSubpage, hv, hs]

lemma overlap_none {m r : Memory} (hm : Range m) (hr : RootRange r) (h : overlap m r = none)
    (x : ℕ) : ¬ (Lies m x ∧ Lies r x) := by
  unfold overlap at h
  rintro ⟨⟨hmx, hmx'⟩, hrx, hrx'⟩
  split_ifs at h with h₁ h₂
  rw [addressInRegion_iff hr.bound] at h₁
  rw [addressInRegion_iff hm.bound] at h₂
  unfold Lies In at h₁ h₂
  omega

lemma part_rootPart {m r : Memory} (hr : RootRange r) {a n : ℕ} (ha : a % pageSize = 0)
    (hn : n % pageSize = 0) (hlt : a < 2 ^ 64) (h : ∀ x, In a n x ↔ Lies m x ∧ Lies r x) :
    Part m r (rootPart r a n) := by
  have hvirt : (rootPart r a n).virtStart = a := by
    have hb := hr.bound
    simp only [rootPart, hr.identity]
    unfold sub64 u64
    omega
  refine ⟨isSubpage_eq_false ?_ hn, hr.backed, hvirt, h⟩
  rw [hvirt]
  exact ha

lemma overlap_some {m r part : Memory} (hm : Range m) (hr : RootRange r)
    (h : overlap m r = some part) : Part m r part := by
  have hmp := hm.phys
  have hms := hm.size
  have hmb := hm.bound
  have hrp := hr.phys
  have hrs := hr.size
  have hrb := hr.bound
  unfold overlap at h
  split_ifs at h with h₁ h₂
  · rw [addressInRegion_iff hrb] at h₁
    unfold Lies In at h₁
    have hsize : sub64 r.size (sub64 m.physStart r.physStart) =
        r.size - (m.physStart - r.physStart) := by
      unfold sub64
      omega
    obtain rfl := Option.some.inj h
    rw [hsize]
    refine part_rootPart hr hmp ?_ (by omega) fun x => ?_
    · unfold pageSize at *
      omega
    · unfold Lies In
      omega
  · rw [addressInRegion_iff hrb] at h₁
    rw [addressInRegion_iff hmb] at h₂
    unfold Lies In at h₁ h₂
    have hsize : sub64 m.size (sub64 r.physStart m.physStart) =
        m.size - (r.physStart - m.physStart) := by
      unfold sub64
      omega
    obtain rfl := Option.some.inj h
    rw [hsize]
    refine part_rootPart hr hrp ?_ (by omega) fun x => ?_
    · unfold pageSize at *
      omega
    · unfold Lies In
      omega

/-! ### The operations without failures -/

/-- The operation succeeds, leaves the cell's space alone, and the root cell has the addresses of
`Q` afterwards. -/
structure Moves (s : Maps) (o : Maps × ℤ) (Q : ℕ → Prop) : Prop where
  ok : o.2 = 0
  cell : o.1.cell = s.cell
  root : IdOn Q o.1.root

lemma Moves.congr {s : Maps} {o : Maps × ℤ} {Q Q' : ℕ → Prop} (h : Moves s o Q)
    (hQ : ∀ x, Q x ↔ Q' x) : Moves s o Q' :=
  ⟨h.ok, h.cell, h.root.congr hQ⟩

lemma Moves.refl {s : Maps} {P : ℕ → Prop} (h : IdOn P s.root) : Moves s (s, 0) P :=
  ⟨rfl, rfl, h⟩

variable {k : Context} {P : ℕ → Prop} {s : Maps}

lemma mapRoot_moves (hk : k.faults = noFaults) {m : Memory} (hback : m.flags.commRegion = false)
    (hid : m.virtStart = m.physStart) (h : IdOn P s.root) :
    Moves s (mapRoot k m s) fun x => P x ∨ Lies m x := by
  have hmap : mapRoot k m s =
      ({ s with root := s.root.map m.physStart m.physStart m.size, calls := s.calls + 1 }, 0) := by
    simp [mapRoot, archMapMemoryRegion, hk, noFaults, hback, hid]
  rw [hmap]
  exact ⟨rfl, rfl, h.map _ _⟩

lemma unmapFromRootCell_moves (hk : ∀ n, k.faults.unmap n = false) {m : Memory} (hm : Range m)
    (h : IdOn P s.root) : Moves s (unmapFromRootCell k m s) fun x => P x ∧ ¬ Lies m x := by
  have hpage : ({ m with virtStart := m.physStart } : Memory).isSubpage = false :=
    isSubpage_eq_false hm.phys hm.size
  have hunmap : unmapFromRootCell k m s =
      ({ s with root := s.root.unmap m.physStart m.size, calls := s.calls + 1 }, 0) := by
    simp [unmapFromRootCell, hpage, unmapRoot, archUnmapMemoryRegion, hk]
  rw [hunmap]
  exact ⟨rfl, rfl, h.unmap _ _⟩

lemma remapLoop_moves (hk : k.faults = noFaults) (mode : FailureMode) {m : Memory} (hm : Range m)
    {rs : List Memory} (hrs : ∀ r ∈ rs, RootRange r) (h : IdOn P s.root) :
    Moves s (remapLoop k mode m rs 0 s) fun x => P x ∨ Lies m x ∧ ∃ r ∈ rs, Lies r x := by
  induction rs generalizing s P with
  | nil => exact (Moves.refl h).congr fun x => by simp
  | cons r rs ih =>
    have hr := hrs r List.mem_cons_self
    have hrest := fun r hr => hrs r (List.mem_cons_of_mem _ hr)
    rw [remapLoop]
    cases hover : overlap m r with
    | none =>
      refine (ih hrest h).congr fun x => ?_
      have hapart := overlap_none hm hr hover x
      simp only [List.mem_cons, exists_eq_or_imp]
      tauto
    | some part =>
      obtain ⟨hpage, hback, hid, hlies⟩ := overlap_some hm hr hover
      obtain ⟨hok, hcell, hroot⟩ := mapRoot_moves (s := s) hk hback hid h
      simp only [hpage, Bool.false_eq_true, if_false, hok, ne_eq, not_true_eq_false, false_and]
      have hnext := ih hrest hroot
      refine ⟨hnext.ok, hnext.cell.trans hcell, hnext.root.congr fun x => ?_⟩
      simp only [List.mem_cons, exists_eq_or_imp, hlies]
      tauto

lemma remapToRootCell_moves (hk : k.faults = noFaults) (hroot : ∀ r ∈ k.rootRegions, RootRange r)
    (mode : FailureMode) {m : Memory} (hm : Range m) (h : IdOn P s.root) :
    Moves s (remapToRootCell k mode m s)
      fun x => P x ∨ Lies m x ∧ ∃ r ∈ k.rootRegions, Lies r x :=
  remapLoop_moves hk mode hm hroot h

section Visits

variable (p : Platform) (commPage : ℕ) (mode : FailureMode) {m : Memory}

lemma visit_create (hm : Range m) (h : IdOn P s.root) :
    let o := visit (manageFunctions (p.context commPage noFaults) mode) .create m s
    o.2 = 0 ∧ IdOn (fun x => P x ∧ ¬ (Exclusive m ∧ Lies m x)) o.1.root ∧
      o.1.cell = s.cell.map m.virtStart
        (if m.flags.commRegion then commPage else m.physStart) m.size := by
  intro o
  have hpage : m.isSubpage = false := isSubpage_eq_false hm.virt hm.size
  have hmap : ∀ t : Maps, mapCell (p.context commPage noFaults) m t = ({ t with
      cell := t.cell.map m.virtStart (if m.flags.commRegion then commPage else m.physStart) m.size
      calls := t.calls + 1 }, 0) := fun t => rfl
  by_cases he : Exclusive m
  · obtain ⟨hok, hcell, hroot⟩ := unmapFromRootCell_moves (k := p.context commPage noFaults)
      noFaults_unmap hm h
    have ho : o = mapCell (p.context commPage noFaults) m
        (unmapFromRootCell (p.context commPage noFaults) m s).1 := by
      simp [o, visit, manageFunctions, he.1, he.2, hok, hpage]
    rw [ho, hmap]
    refine ⟨rfl, hroot.congr fun x => ?_, by rw [hcell]⟩
    simp [he]
  · have hshared := shared_of_not_exclusive he
    have ho : o = mapCell (p.context commPage noFaults) m s := by
      simp [o, visit, manageFunctions, hshared, hpage]
    rw [ho, hmap]
    refine ⟨rfl, h.congr fun x => ?_, rfl⟩
    simp [he]

lemma visit_destroy (hroot : ∀ r ∈ p.rootRegions, RootRange r) (hm : Range m)
    (h : IdOn P s.root) :
    let o := visit (manageFunctions (p.context commPage noFaults) mode) .destroy m s
    o.2 = 0 ∧ IdOn (fun x => P x ∨ Exclusive m ∧ Lies m x ∧ InRoot p x) o.1.root := by
  intro o
  have hpage : m.isSubpage = false := isSubpage_eq_false hm.virt hm.size
  let t : Maps := { s with cell := s.cell.unmap m.virtStart m.size, calls := s.calls + 1 }
  have hunmap : unmapCell (p.context commPage noFaults) m s = (t, 0) := rfl
  by_cases he : Exclusive m
  · have hmoves := remapToRootCell_moves (k := p.context commPage noFaults) (s := t) rfl hroot mode
      hm h
    have ho : o = remapToRootCell (p.context commPage noFaults) mode m t := by
      simp [o, visit, manageFunctions, he.1, he.2, hpage, hunmap]
    rw [ho]
    refine ⟨hmoves.ok, hmoves.root.congr fun x => ?_⟩
    simp only [he, true_and]
    rfl
  · have hshared := shared_of_not_exclusive he
    have ho : o = (t, 0) := by
      simp [o, visit, manageFunctions, hshared, hpage, hunmap]
    rw [ho]
    refine ⟨rfl, h.congr fun x => ?_⟩
    simp [he]

lemma visit_start {faults : Faults} (hf : ∀ n, faults.unmap n = false) (hm : Range m)
    (h : IdOn P s.root) :
    Moves s (visit (manageFunctions (p.context commPage faults) mode) .start m s)
      fun x => P x ∧ ¬ (m.flags.loadable = true ∧ Lies m x) := by
  by_cases hl : m.flags.loadable = true
  · simp only [visit, hl, if_true, true_and]
    exact unmapFromRootCell_moves hf hm h
  · have ho : visit (manageFunctions (p.context commPage faults) mode) .start m s = (s, 0) := by
      simp [visit, hl]
    rw [ho]
    exact (Moves.refl h).congr fun x => by simp [hl]

lemma visit_loadable (hroot : ∀ r ∈ p.rootRegions, RootRange r) (hm : Range m)
    (h : IdOn P s.root) :
    Moves s (visit (manageFunctions (p.context commPage noFaults) mode) .loadable m s)
      fun x => P x ∨ m.flags.loadable = true ∧ Lies m x ∧ InRoot p x := by
  by_cases hl : m.flags.loadable = true
  · simp only [visit, hl, if_true, true_and]
    exact remapToRootCell_moves (k := p.context commPage noFaults) rfl hroot mode hm h
  · have ho : visit (manageFunctions (p.context commPage noFaults) mode) .loadable m s =
        (s, 0) := by
      simp [visit, hl]
    rw [ho]
    exact (Moves.refl h).congr fun x => by simp [hl]

end Visits

section Gains

variable {α : Type*} {body : α → Maps → Maps × ℤ} {Q : α → ℕ → Prop}

/-- A loop whose turns each give addresses to the root cell. -/
lemma untilError_gain {l : List α} (hbody : ∀ a ∈ l, ∀ P s, IdOn P s.root →
      (body a s).2 = 0 ∧ IdOn (fun x => P x ∨ Q a x) (body a s).1.root) (h : IdOn P s.root) :
    (untilError body l s).2 = 0 ∧
      IdOn (fun x => P x ∨ ∃ a ∈ l, Q a x) (untilError body l s).1.root := by
  induction l generalizing P s with
  | nil => exact ⟨rfl, h.congr fun x => by simp⟩
  | cons a l ih =>
    obtain ⟨hok, hroot⟩ := hbody a List.mem_cons_self P s h
    obtain ⟨hok', hroot'⟩ := ih (fun b hb => hbody b (List.mem_cons_of_mem _ hb)) hroot
    rw [untilError]
    simp only [hok, ne_eq, not_true_eq_false, if_false]
    refine ⟨hok', hroot'.congr fun x => ?_⟩
    simp only [List.mem_cons, exists_eq_or_imp, or_assoc]

/-- A loop whose turns each take addresses from the root cell. -/
lemma untilError_lose {l : List α} (hbody : ∀ a ∈ l, ∀ P s, IdOn P s.root →
      (body a s).2 = 0 ∧ IdOn (fun x => P x ∧ ¬ Q a x) (body a s).1.root) (h : IdOn P s.root) :
    (untilError body l s).2 = 0 ∧
      IdOn (fun x => P x ∧ ∀ a ∈ l, ¬ Q a x) (untilError body l s).1.root := by
  induction l generalizing P s with
  | nil => exact ⟨rfl, h.congr fun x => by simp⟩
  | cons a l ih =>
    obtain ⟨hok, hroot⟩ := hbody a List.mem_cons_self P s h
    obtain ⟨hok', hroot'⟩ := ih (fun b hb => hbody b (List.mem_cons_of_mem _ hb)) hroot
    rw [untilError]
    simp only [hok, ne_eq, not_true_eq_false, if_false]
    refine ⟨hok', hroot'.congr fun x => ?_⟩
    simp only [List.mem_cons, forall_eq_or_imp, and_assoc]

/-- A loop without error checks whose turns each give addresses to the root cell. -/
lemma foldl_gain {step : Maps → α → Maps} {l : List α} (hstep : ∀ a ∈ l, ∀ P s, IdOn P s.root →
      IdOn (fun x => P x ∨ Q a x) (step s a).root) (h : IdOn P s.root) :
    IdOn (fun x => P x ∨ ∃ a ∈ l, Q a x) (l.foldl step s).root := by
  induction l generalizing P s with
  | nil => exact h.congr fun x => by simp
  | cons a l ih =>
    have hroot := hstep a List.mem_cons_self P s h
    refine (ih (fun b hb => hstep b (List.mem_cons_of_mem _ hb)) hroot).congr fun x => ?_
    simp only [List.mem_cons, exists_eq_or_imp, or_assoc]

end Gains

section Commands

variable {p : Platform} (cfg : CellConfig) (commPage : ℕ) (mode : FailureMode)

lemma start_moves {faults : Faults} (hf : ∀ n, faults.unmap n = false)
    (hcfg : ∀ m ∈ regions p cfg, Range m) (h : IdOn P s.root) :
    let o := eachRegion (p.context commPage faults) p cfg mode .start s
    o.2 = 0 ∧
      IdOn (fun x => P x ∧ ∀ m ∈ regions p cfg, ¬ (m.flags.loadable = true ∧ Lies m x))
        o.1.root := by
  rw [eachRegion_eq]
  refine untilError_lose (fun m hm P s h => ?_) h
  have hmoves := visit_start p commPage mode hf (hcfg m hm) h
  exact ⟨hmoves.ok, hmoves.root⟩

lemma loadable_moves (hroot : ∀ r ∈ p.rootRegions, RootRange r)
    (hcfg : ∀ m ∈ regions p cfg, Range m) (h : IdOn P s.root) :
    let o := eachRegion (p.context commPage noFaults) p cfg mode .loadable s
    o.2 = 0 ∧
      IdOn (fun x => P x ∨ ∃ m ∈ regions p cfg, m.flags.loadable = true ∧ Lies m x ∧ InRoot p x)
        o.1.root := by
  rw [eachRegion_eq]
  refine untilError_gain (fun m hm P s h => ?_) h
  have hmoves := visit_loadable p commPage mode hroot (hcfg m hm) h
  exact ⟨hmoves.ok, hmoves.root⟩

lemma create_root (hcfg : ∀ m ∈ regions p cfg, Range m) (h : IdOn P s.root) :
    let o := eachRegion (p.context commPage noFaults) p cfg mode .create s
    o.2 = 0 ∧ IdOn (fun x => P x ∧ ∀ m ∈ regions p cfg, ¬ (Exclusive m ∧ Lies m x)) o.1.root := by
  rw [eachRegion_eq]
  refine untilError_lose (fun m hm P s h => ?_) h
  obtain ⟨hok, hroot, -⟩ := visit_create p commPage mode (hcfg m hm) h
  exact ⟨hok, hroot⟩

/-- Without failures, plain regions are given back like fragments. -/
lemma destroyRegion_eq (m : Memory) (t : Maps) :
    destroyRegion (p.context commPage noFaults) t m =
      (visit (manageFunctions (p.context commPage noFaults) .warnOnError) .destroy m t).1 := by
  have hok : (unmapCell (p.context commPage noFaults) m t).2 = 0 := rfl
  cases hsub : m.isSubpage <;> cases hsh : m.flags.commRegion || m.flags.rootshared <;>
    simp [destroyRegion, visit, manageFunctions, hsub, hsh, hok]

lemma destroyColored_root (hroot : ∀ r ∈ p.rootRegions, RootRange r) {colMem : MemoryColored}
    (hm : ∀ m ∈ fragments p.colorDesc colMem, Range m) (h : IdOn P s.root) :
    IdOn (fun x => P x ∨ ∃ m ∈ fragments p.colorDesc colMem, Exclusive m ∧ Lies m x ∧ InRoot p x)
      (manageColoredRegions (manageFunctions (p.context commPage noFaults) .warnOnError)
        p.colorDesc p.stack colMem .destroy s).1.root := by
  rw [manageColoredRegions_eq, visitAll_eq]
  refine (untilError_gain (fun m hmem P t h => ?_) h).2
  exact visit_destroy p commPage .warnOnError hroot (hm m hmem) h

lemma destroy_root (hroot : ∀ r ∈ p.rootRegions, RootRange r)
    (hcfg : ∀ m ∈ regions p cfg, Range m) (h : IdOn P s.root) :
    IdOn (fun x => P x ∨ ∃ m ∈ regions p cfg, Exclusive m ∧ Lies m x ∧ InRoot p x)
      (cellDestroyInternal (p.context commPage noFaults) p cfg s).root := by
  have hplain : IdOn (fun x => P x ∨ ∃ m ∈ cfg.memoryRegions, Exclusive m ∧ Lies m x ∧ InRoot p x)
      (cfg.memoryRegions.foldl (destroyRegion (p.context commPage noFaults)) s).root := by
    refine foldl_gain (fun m hm P t h => ?_) h
    rw [destroyRegion_eq]
    exact (visit_destroy p commPage .warnOnError hroot (hcfg m (List.mem_append_left _ hm)) h).2
  have hcolored := foldl_gain (fun colMem hc P t h => destroyColored_root (P := P) (s := t) commPage
    hroot (fun m hm => hcfg m (List.mem_append_right _ (List.mem_flatMap.mpr ⟨colMem, hc, hm⟩))) h)
    hplain
  refine hcolored.congr fun x => ?_
  simp only [regions, List.mem_append, List.mem_flatMap, or_and_right, exists_or, or_assoc]
  constructor
  · rintro (h | h | ⟨c, hc, m, hm, h⟩)
    · exact Or.inl h
    · exact Or.inr (Or.inl h)
    · exact Or.inr (Or.inr ⟨m, ⟨c, hc, hm⟩, h⟩)
  · rintro (h | h | ⟨m, ⟨c, hc, hm⟩, h⟩)
    · exact Or.inl h
    · exact Or.inr (Or.inl h)
    · exact Or.inr (Or.inr ⟨c, hc, m, hm, h⟩)

/-- No physical address lies in both regions. -/
def Apart (m m' : Memory) : Prop := ∀ x, Lies m x → ¬ Lies m' x

/-- No guest address lies in both regions. -/
def GuestApart (m m' : Memory) : Prop :=
  ∀ g, In m.virtStart m.size g → ¬ In m'.virtStart m'.size g

/-- The space maps the region. -/
def Has (sp : Space) (m : Memory) : Prop :=
  ∀ o < m.size, sp (m.virtStart + o) = some (m.physStart + o)

/-- What the regions of the cell do not cover stays as it is. -/
lemma create_outside {l : List Memory} (hl : ∀ m ∈ l, Range m) (h : IdOn P s.root) {g : ℕ}
    (hg : ∀ m ∈ l, ¬ In m.virtStart m.size g) :
    (untilError (visit (manageFunctions (p.context commPage noFaults) mode) .create) l s).1.cell g =
      s.cell g := by
  induction l generalizing P s with
  | nil => rfl
  | cons m l ih =>
    obtain ⟨hok, hroot, hcell⟩ := visit_create p commPage mode (hl m List.mem_cons_self) h
    rw [untilError]
    simp only [hok, ne_eq, not_true_eq_false, if_false]
    rw [ih (fun m hm => hl m (List.mem_cons_of_mem _ hm)) hroot
      fun m hm => hg m (List.mem_cons_of_mem _ hm), hcell, Space.map,
      if_neg (hg m List.mem_cons_self)]

lemma create_has {l : List Memory} (hl : ∀ m ∈ l, Range m) (hapart : l.Pairwise GuestApart)
    (h : IdOn P s.root) {m : Memory} (hm : m ∈ l) (hback : m.flags.commRegion = false) :
    Has (untilError (visit (manageFunctions (p.context commPage noFaults) mode) .create) l s).1.cell
      m := by
  induction l generalizing P s with
  | nil => simp at hm
  | cons m' l ih =>
    have hl' := fun m hm => hl m (List.mem_cons_of_mem _ hm)
    obtain ⟨hfirst, hrest⟩ := List.pairwise_cons.mp hapart
    obtain ⟨hok, hroot, hcell⟩ := visit_create p commPage mode (hl m' List.mem_cons_self) h
    rw [untilError]
    simp only [hok, ne_eq, not_true_eq_false, if_false]
    rcases List.mem_cons.mp hm with rfl | hm
    · intro o ho
      have hin : In m.virtStart m.size (m.virtStart + o) := ⟨by omega, by omega⟩
      rw [create_outside commPage mode hl' hroot fun m' hm' => hfirst m' hm' _ hin, hcell, Space.map, if_pos hin,
        hback]
      simp
    · exact ih hl' hrest hroot hm

lemma create_cell (hcfg : ∀ m ∈ regions p cfg, Range m)
    (hguest : (regions p cfg).Pairwise GuestApart) (h : IdOn P s.root) {m : Memory}
    (hm : m ∈ regions p cfg) (hback : m.flags.commRegion = false) :
    Has (eachRegion (p.context commPage noFaults) p cfg mode .create s).1.cell m := by
  rw [eachRegion_eq]
  exact create_has commPage mode hcfg hguest h hm hback

end Commands

/-! ### The invariant -/

/-- What the root cell can reach: its regions, except for what a cell has for itself. -/
def Open (p : Platform) (s : Sys) (x : ℕ) : Prop :=
  InRoot p x ∧ ∀ c ∈ s.cells, ∀ m ∈ regions p c.config, Lies m x → Exclusive m →
    m.flags.loadable = true ∧ c.loadable = true

/-- A region of a cell: a range that is not both loadable and shared. -/
structure CellRange (m : Memory) : Prop extends Range m where
  loadable : m.flags.loadable = true → Exclusive m

structure Inv (p : Platform) (s : Sys) : Prop where
  root : IdOn (Open p s) s.root
  ids : (s.cells.map fun c => c.config.id).Nodup
  ranges : ∀ c ∈ s.cells, ∀ m ∈ regions p c.config, CellRange m
  own : ∀ c ∈ s.cells, ∀ m ∈ regions p c.config, m.flags.commRegion = false → Has c.space m
  apart : (s.cells.flatMap fun c => regions p c.config).Pairwise Apart

variable {p : Platform} {t : Sys}

lemma Inv.cell_eq (h : Inv p t) {c c' : LiveCell} (hc : c ∈ t.cells) (hc' : c' ∈ t.cells)
    (hid : c.config.id = c'.config.id) : c = c' :=
  List.inj_on_of_nodup_map h.ids hc hc' hid

/-- An address lies in one region of one cell. -/
lemma Inv.region_eq (h : Inv p t) {c c' : LiveCell} (hc : c ∈ t.cells) (hc' : c' ∈ t.cells)
    {m m' : Memory} (hm : m ∈ regions p c.config) (hm' : m' ∈ regions p c'.config) {x : ℕ}
    (hx : Lies m x) (hx' : Lies m' x) : c = c' ∧ m = m' := by
  have hsymm : Std.Symm Apart := ⟨fun _ _ h x hx' hx => h x hx hx'⟩
  obtain ⟨hin, hbetween⟩ := List.pairwise_flatMap.mp h.apart
  have hc_eq : c = c' := by
    by_contra hne
    have : Std.Symm fun c c' : LiveCell => ∀ m ∈ regions p c.config,
        ∀ m' ∈ regions p c'.config, Apart m m' :=
      ⟨fun _ _ h m hm m' hm' x hx' hx => h m' hm' m hm x hx hx'⟩
    exact hbetween.forall hc hc' hne m hm m' hm' x hx hx'
  subst hc_eq
  refine ⟨rfl, ?_⟩
  by_contra hne
  exact (hin c hc).forall hm hm' hne x hx hx'

lemma mem_setLoadable {id : ℕ} {sp : Space} {b : Bool} {c : LiveCell}
    (h : c ∈ (t.setLoadable id sp b).cells) :
    ∃ c' ∈ t.cells, (c'.config.id = id ∧ c = { c' with loadable := b }) ∨
      (c'.config.id ≠ id ∧ c = c') := by
  obtain ⟨c', hc', rfl⟩ := List.mem_map.mp h
  by_cases hid : c'.config.id = id
  · exact ⟨c', hc', Or.inl ⟨hid, if_pos hid⟩⟩
  · exact ⟨c', hc', Or.inr ⟨hid, if_neg hid⟩⟩

lemma mem_setLoadable_of_mem (id : ℕ) (sp : Space) (b : Bool) {c : LiveCell} (hc : c ∈ t.cells) :
    (if c.config.id = id then { c with loadable := b } else c) ∈ (t.setLoadable id sp b).cells :=
  List.mem_map.mpr ⟨c, hc, rfl⟩

/-- The configurations stay as they are. -/
lemma map_setLoadable {β : Type*} (id : ℕ) (sp : Space) (b : Bool) (g : CellConfig → β) :
    (t.setLoadable id sp b).cells.map (fun c => g c.config) = t.cells.map fun c => g c.config := by
  have hcfg : ∀ c : LiveCell, (if c.config.id = id then { c with loadable := b } else c).config =
      c.config := by
    intro c
    split_ifs <;> rfl
  simp only [Sys.setLoadable, List.map_map, Function.comp_def, hcfg]

/-- `cell->loadable` and the root cell change together. -/
lemma Inv.setLoadable (h : Inv p t) {id : ℕ} {sp : Space} {b : Bool}
    (hroot : IdOn (Open p (t.setLoadable id sp b)) sp) : Inv p (t.setLoadable id sp b) := by
  have hmem : ∀ c ∈ (t.setLoadable id sp b).cells,
      ∃ c' ∈ t.cells, c.config = c'.config ∧ c.space = c'.space := by
    intro c hc
    obtain ⟨c', hc', ⟨-, rfl⟩ | ⟨-, rfl⟩⟩ := mem_setLoadable hc
    · exact ⟨c', hc', rfl, rfl⟩
    · exact ⟨c, hc', rfl, rfl⟩
  refine ⟨hroot, ?_, fun c hc => ?_, fun c hc => ?_, ?_⟩
  · rw [map_setLoadable id sp b CellConfig.id]
    exact h.ids
  · obtain ⟨c', hc', hcfg, -⟩ := hmem c hc
    rw [hcfg]
    exact h.ranges c' hc'
  · obtain ⟨c', hc', hcfg, hsp⟩ := hmem c hc
    rw [hcfg, hsp]
    exact h.own c' hc'
  · rw [List.flatMap_def, map_setLoadable id sp b (regions p), ← List.flatMap_def]
    exact h.apart

/-- The prologue finds the cell. -/
lemma prologue_ok {id : ℕ} {early : ℤ} {c : LiveCell}
    (h : cellManagementPrologue id early t = .ok c) : c ∈ t.cells ∧ c.config.id = id := by
  unfold cellManagementPrologue at h
  split_ifs at h
  cases hfind : t.cells.find? (·.config.id = id) with
  | none => simp [hfind] at h
  | some c' =>
    simp only [hfind, Except.ok.injEq] at h
    subst h
    exact ⟨List.mem_of_find?_eq_some hfind, by simpa using List.find?_some hfind⟩

lemma prologue_of_mem {c : LiveCell} (hc : c ∈ t.cells) :
    ∃ c', cellManagementPrologue c.config.id 0 t = .ok c' := by
  cases hfind : t.cells.find? (·.config.id = c.config.id) with
  | none =>
    have := List.find?_eq_none.mp hfind c hc
    simp at this
  | some c' => exact ⟨c', by simp [cellManagementPrologue, hfind]⟩

lemma prologue_error {id : ℕ} {early err : ℤ}
    (h : cellManagementPrologue id early t = .error err) : err ≠ 0 := by
  unfold cellManagementPrologue at h
  split_ifs at h with hearly
  · obtain rfl := Except.error.inj h
    exact hearly
  · cases hfind : t.cells.find? (·.config.id = id) with
    | none =>
      simp only [hfind, Except.error.injEq] at h
      simp [← h, eNoent]
    | some c => simp [hfind] at h

/-- What is open after the flag of a cell has changed. -/
lemma open_setLoadable_iff (h : Inv p t) {c : LiveCell} (hc : c ∈ t.cells) (sp : Space) (b : Bool)
    (x : ℕ) :
    Open p (t.setLoadable c.config.id sp b) x ↔
      InRoot p x ∧
      (∀ m ∈ regions p c.config, Lies m x → Exclusive m → m.flags.loadable = true ∧ b = true) ∧
      ∀ c' ∈ t.cells, c' ≠ c → ∀ m ∈ regions p c'.config, Lies m x → Exclusive m →
        m.flags.loadable = true ∧ c'.loadable = true := by
  constructor
  · rintro ⟨hroot, hall⟩
    refine ⟨hroot, fun m hm hx he => ?_, fun c' hc' hne m hm hx he => ?_⟩
    · have hset := hall _ (mem_setLoadable_of_mem c.config.id sp b hc)
      rw [if_pos rfl] at hset
      exact hset m hm hx he
    · have hset := hall _ (mem_setLoadable_of_mem c.config.id sp b hc')
      rw [if_neg fun hid => hne (h.cell_eq hc' hc hid)] at hset
      exact hset m hm hx he
  · rintro ⟨hroot, hself, hothers⟩
    refine ⟨hroot, fun c' hc' m hm hx he => ?_⟩
    obtain ⟨c'', hc'', ⟨hid, rfl⟩ | ⟨hid, rfl⟩⟩ := mem_setLoadable hc'
    · obtain rfl := h.cell_eq hc'' hc hid
      exact hself m hm hx he
    · exact hothers c' hc'' (fun heq => hid (heq ▸ rfl)) m hm hx he

lemma inv_start (h : Inv p t) (id : ℕ) (early : ℤ) : Inv p (cellStart p id early noFaults t).1 := by
  unfold cellStart
  cases hpro : cellManagementPrologue id early t with
  | error err => exact h
  | ok c =>
    obtain ⟨hc, rfl⟩ := prologue_ok hpro
    by_cases hl : c.loadable = true
    · obtain ⟨hok, hroot⟩ := start_moves c.config c.commPage .abortOnError
        (s := ⟨t.root, c.space, 0⟩) noFaults_unmap (fun m hm => (h.ranges c hc m hm).toRange)
        h.root
      simp only [hl, if_true, hok, ne_eq, not_true_eq_false, if_false]
      refine h.setLoadable (hroot.congr fun x => ?_)
      rw [open_setLoadable_iff h hc]
      constructor
      · rintro ⟨⟨hin, hall⟩, hloads⟩
        refine ⟨hin, fun m hm hx he => ?_, fun c' hc' _ => hall c' hc'⟩
        exact absurd ⟨(hall c hc m hm hx he).1, hx⟩ (hloads m hm)
      · rintro ⟨hin, hself, hothers⟩
        have hnone : ∀ m ∈ regions p c.config, Lies m x → ¬ Exclusive m :=
          fun m hm hx he => absurd (hself m hm hx he).2 (by simp)
        refine ⟨⟨hin, fun c' hc' m hm hx he => ?_⟩, fun m hm hlx => ?_⟩
        · by_cases hcc : c' = c
          · subst hcc
            exact absurd he (hnone m hm hx)
          · exact hothers c' hc' hcc m hm hx he
        · exact hnone m hm hlx.2 ((h.ranges c hc m hm).loadable hlx.1)
    · simp only [hl]
      exact h

lemma inv_setLoadable (hplat : ∀ r ∈ p.rootRegions, RootRange r) (h : Inv p t) (id : ℕ)
    (early : ℤ) : Inv p (cellSetLoadable p id early noFaults t).1 := by
  unfold cellSetLoadable
  cases hpro : cellManagementPrologue id early t with
  | error err => exact h
  | ok c =>
    obtain ⟨hc, rfl⟩ := prologue_ok hpro
    by_cases hl : c.loadable = true
    · simp only [hl, if_true]
      exact h
    · obtain ⟨hok, hroot⟩ := loadable_moves c.config c.commPage .abortOnError
        (s := ⟨t.root, c.space, 0⟩) hplat (fun m hm => (h.ranges c hc m hm).toRange) h.root
      simp only [hl]
      refine h.setLoadable (hroot.congr fun x => ?_)
      rw [open_setLoadable_iff h hc]
      constructor
      · rintro (⟨hin, hall⟩ | ⟨m, hm, hml, hx, hin⟩)
        · refine ⟨hin, fun m hm hx he => ?_, fun c' hc' _ => hall c' hc'⟩
          exact absurd (hall c hc m hm hx he).2 hl
        · -- no other region has an address of this one
          refine ⟨hin, fun m' hm' hx' _ => ?_, fun c' hc' hne m' hm' hx' _ => ?_⟩
          · obtain ⟨-, rfl⟩ := h.region_eq hc hc hm hm' hx hx'
            exact ⟨hml, rfl⟩
          · exact absurd (h.region_eq hc' hc hm' hm hx' hx).1 hne
      · rintro ⟨hin, hself, hothers⟩
        by_cases hload : ∃ m ∈ regions p c.config, m.flags.loadable = true ∧ Lies m x
        · obtain ⟨m, hm, hml, hx⟩ := hload
          exact Or.inr ⟨m, hm, hml, hx, hin⟩
        · refine Or.inl ⟨hin, fun c' hc' m hm hx he => ?_⟩
          by_cases hcc : c' = c
          · subst hcc
            exact absurd ⟨m, hm, (hself m hm hx he).1, hx⟩ hload
          · exact hothers c' hc' hcc m hm hx he

/-- A configuration that may join the live cells: ranges apart from all others in memory, and
apart from one another in the guest. -/
structure Fresh (p : Platform) (s : Sys) (cfg : CellConfig) : Prop where
  ranges : ∀ m ∈ regions p cfg, CellRange m
  guest : (regions p cfg).Pairwise GuestApart
  apart : ((s.cells.flatMap fun c => regions p c.config) ++ regions p cfg).Pairwise Apart

/-- The state after a cell has been created. -/
lemma create_ok {cfg : CellConfig} (commPage : ℕ) (h : Inv p t)
    (hid : ∀ c ∈ t.cells, c.config.id ≠ cfg.id) (hf : Fresh p t cfg) :
    ∃ root cell, cellCreate p cfg commPage 0 noFaults t =
        (⟨root, t.cells ++ [⟨cfg, commPage, false, cell⟩]⟩, 0) ∧
      IdOn (fun x => Open p t x ∧ ∀ m ∈ regions p cfg, ¬ (Exclusive m ∧ Lies m x)) root ∧
      ∀ m ∈ regions p cfg, m.flags.commRegion = false → Has cell m := by
  have hranges := fun m hm => (hf.ranges m hm).toRange
  obtain ⟨hok, hroot⟩ := create_root cfg commPage .abortOnError
    (s := ⟨t.root, fun _ => none, 0⟩) hranges h.root
  have hany : (t.cells.any fun c => decide (c.config.id = cfg.id)) = false := by
    simpa using hid
  refine ⟨_, _, ?_, hroot, fun m hm hback =>
    create_cell (s := ⟨t.root, fun _ => none, 0⟩) cfg commPage .abortOnError hranges hf.guest h.root
      hm hback⟩
  simp only [cellCreate, ne_eq, not_true_eq_false, if_false, hany, Bool.false_eq_true, hok]

lemma inv_create {cfg : CellConfig} (commPage : ℕ) {early : ℤ} (h : Inv p t)
    (hf : early = 0 → (∀ c ∈ t.cells, c.config.id ≠ cfg.id) → Fresh p t cfg) :
    Inv p (cellCreate p cfg commPage early noFaults t).1 := by
  by_cases hearly : early = 0
  · by_cases hid : ∀ c ∈ t.cells, c.config.id ≠ cfg.id
    · subst hearly
      have hf := hf rfl hid
      obtain ⟨root, cell, hcreate, hroot, hcell⟩ := create_ok commPage h hid hf
      rw [hcreate]
      refine ⟨hroot.congr fun x => ?_, ?_, ?_, ?_, ?_⟩
      · constructor
        · rintro ⟨⟨hin, hall⟩, hnew⟩
          refine ⟨hin, fun c hc m hm hx he => ?_⟩
          rcases List.mem_append.mp hc with hc | hc
          · exact hall c hc m hm hx he
          · obtain rfl := List.mem_singleton.mp hc
            exact absurd ⟨he, hx⟩ (hnew m hm)
        · rintro ⟨hin, hall⟩
          refine ⟨⟨hin, fun c hc => hall c (List.mem_append_left _ hc)⟩, fun m hm hex => ?_⟩
          have hnew := hall _ (List.mem_append_right _ (List.mem_singleton.mpr rfl)) m hm hex.2 hex.1
          exact absurd hnew.2 (by simp)
      · rw [List.map_append, List.nodup_append]
        refine ⟨h.ids, by simp, fun i hi j hj => ?_⟩
        obtain ⟨c, hc, rfl⟩ := List.mem_map.mp hi
        obtain rfl : j = cfg.id := by simpa using hj
        exact hid c hc
      · intro c hc
        rcases List.mem_append.mp hc with hc | hc
        · exact h.ranges c hc
        · obtain rfl := List.mem_singleton.mp hc
          exact hf.ranges
      · intro c hc
        rcases List.mem_append.mp hc with hc | hc
        · exact h.own c hc
        · obtain rfl := List.mem_singleton.mp hc
          exact hcell
      · simpa using hf.apart
    · -- the id is taken
      have hany : (t.cells.any fun c => decide (c.config.id = cfg.id)) = true := by
        push Not at hid
        simpa using hid
      simp only [cellCreate, hearly, ne_eq, not_true_eq_false, if_false, hany, if_true]
      exact h
  · simp only [cellCreate, ne_eq, hearly, not_false_eq_true, if_true]
    exact h

lemma inv_destroy (hplat : ∀ r ∈ p.rootRegions, RootRange r) (h : Inv p t) (id : ℕ)
    (early : ℤ) : Inv p (cellDestroy p id early noFaults t).1 := by
  unfold cellDestroy
  cases hpro : cellManagementPrologue id early t with
  | error err => exact h
  | ok c =>
    obtain ⟨hc, rfl⟩ := prologue_ok hpro
    have hroot := destroy_root c.config c.commPage (s := ⟨t.root, c.space, 0⟩) hplat
      (fun m hm => (h.ranges c hc m hm).toRange) h.root
    have hmem : ∀ c', c' ∈ t.cells.filter (fun c' => decide (c'.config.id ≠ c.config.id)) ↔
        c' ∈ t.cells ∧ c' ≠ c := by
      intro c'
      rw [List.mem_filter, decide_eq_true_iff]
      refine and_congr_right fun hc' => not_congr ⟨fun hid => h.cell_eq hc' hc hid, ?_⟩
      rintro rfl
      rfl
    have hsub := List.filter_sublist (l := t.cells)
      (p := fun c' => decide (c'.config.id ≠ c.config.id))
    refine ⟨hroot.congr fun x => ?_, h.ids.sublist (hsub.map _), ?_, ?_, ?_⟩
    · constructor
      · rintro (⟨hin, hall⟩ | ⟨m, hm, he, hx, hin⟩)
        · exact ⟨hin, fun c' hc' => hall c' ((hmem c').mp hc').1⟩
        · refine ⟨hin, fun c' hc' m' hm' hx' _ => ?_⟩
          obtain ⟨hc', hne⟩ := (hmem c').mp hc'
          exact absurd (h.region_eq hc' hc hm' hm hx' hx).1 hne
      · rintro ⟨hin, hall⟩
        by_cases hmine : ∃ m ∈ regions p c.config, Exclusive m ∧ Lies m x
        · obtain ⟨m, hm, he, hx⟩ := hmine
          exact Or.inr ⟨m, hm, he, hx, hin⟩
        · refine Or.inl ⟨hin, fun c' hc' m hm hx he => ?_⟩
          by_cases hcc : c' = c
          · subst hcc
            exact absurd ⟨m, hm, he, hx⟩ hmine
          · exact hall c' ((hmem c').mpr ⟨hc', hcc⟩) m hm hx he
    · exact fun c' hc' => h.ranges c' ((hmem c').mp hc').1
    · exact fun c' hc' => h.own c' ((hmem c').mp hc').1
    · exact h.apart.sublist (hsub.flatMap _)

lemma inv_init (hplat : ∀ r ∈ p.rootRegions, RootRange r) : Inv p (init p) := by
  have hroot : ∀ (l : List Memory) (P : ℕ → Prop) (sp : Space), (∀ r ∈ l, RootRange r) →
      IdOn P sp → IdOn (fun x => P x ∨ ∃ r ∈ l, Lies r x)
        (l.foldl (fun sp mem => (archMapMemoryRegion none p.rootCommPage mem sp).1) sp) := by
    intro l
    induction l with
    | nil => exact fun P sp _ h => h.congr fun x => by simp
    | cons r l ih =>
      intro P sp hl h
      have hr := hl r List.mem_cons_self
      have hmap : (archMapMemoryRegion none p.rootCommPage r sp).1 =
          sp.map r.physStart r.physStart r.size := by
        simp [archMapMemoryRegion, hr.backed, hr.identity]
      rw [List.foldl_cons, hmap]
      refine (ih _ _ (fun r hr => hl r (List.mem_cons_of_mem _ hr)) (h.map _ _)).congr fun x => ?_
      simp only [List.mem_cons, exists_eq_or_imp, or_assoc]
      rfl
  refine ⟨?_, by simp [init], by simp [init], by simp [init], by simp [init]⟩
  have hempty : IdOn (fun _ => False) fun _ => none := ⟨fun _ h => h.elim, fun _ _ => rfl⟩
  refine (hroot p.rootRegions _ _ hplat hempty).congr fun x => ?_
  simp [Open, init, InRoot]

/-! ### Runs -/

/-- Nothing fails, and new cells fit in. -/
def Allowed (p : Platform) (s : Sys) : Command → Prop
  | .create cfg _ early faults => faults = noFaults ∧
      (early = 0 → (∀ c ∈ s.cells, c.config.id ≠ cfg.id) → Fresh p s cfg)
  | .setLoadable _ _ faults | .start _ _ faults | .destroy _ _ faults => faults = noFaults

lemma inv_step (hplat : ∀ r ∈ p.rootRegions, RootRange r) {u : Sys} {a : Command} (h : Inv p t)
    (ha : Allowed p t a) (ht : step p t a = some u) : Inv p u := by
  obtain rfl := Option.some.inj ht
  cases a with
  | create cfg commPage early faults =>
    obtain ⟨rfl, hf⟩ := ha
    exact inv_create commPage h hf
  | setLoadable id early faults =>
    obtain rfl : faults = noFaults := ha
    exact inv_setLoadable hplat h id early
  | start id early faults =>
    obtain rfl : faults = noFaults := ha
    exact inv_start h id early
  | destroy id early faults =>
    obtain rfl : faults = noFaults := ha
    exact inv_destroy hplat h id early

/-- In a region that a cell has for itself, the flags decide what is open. -/
lemma Inv.open_iff (h : Inv p t) {c : LiveCell} (hc : c ∈ t.cells) {m : Memory}
    (hm : m ∈ regions p c.config) (he : Exclusive m) {x : ℕ} (hx : Lies m x) :
    Open p t x ↔ InRoot p x ∧ m.flags.loadable = true ∧ c.loadable = true := by
  constructor
  · rintro ⟨hin, hall⟩
    exact ⟨hin, hall c hc m hm hx he⟩
  · rintro ⟨hin, hboth⟩
    refine ⟨hin, fun c' hc' m' hm' hx' _ => ?_⟩
    obtain ⟨rfl, rfl⟩ := h.region_eq hc hc' hm hm' hx hx'
    exact hboth

/-- The root cell depends on the live cells alone. -/
lemma Inv.root_eq {u : Sys} (h : Inv p t) (h' : Inv p u) (hcells : t.cells = u.cells) :
    t.root = u.root := by
  refine h.root.unique (h'.root.congr fun x => ?_)
  unfold Open
  rw [hcells]

/-- Creating a cell and destroying it again changes nothing for the root cell. -/
lemma create_destroy_root (hplat : ∀ r ∈ p.rootRegions, RootRange r) (h : Inv p t)
    {cfg : CellConfig} (commPage : ℕ) (hid : ∀ c ∈ t.cells, c.config.id ≠ cfg.id)
    (hf : Fresh p t cfg) :
    (cellDestroy p cfg.id 0 noFaults (cellCreate p cfg commPage 0 noFaults t).1).1.root =
      t.root := by
  have hinv := inv_create commPage h fun (_ : (0 : ℤ) = 0) _ => hf
  refine (h.root_eq (inv_destroy hplat hinv cfg.id 0) ?_).symm
  obtain ⟨root, cell, hcreate, -, -⟩ := create_ok commPage h hid hf
  rw [hcreate]
  have hnew : (⟨cfg, commPage, false, cell⟩ : LiveCell) ∈
      t.cells ++ [⟨cfg, commPage, false, cell⟩] := by simp
  obtain ⟨c, hpro⟩ := prologue_of_mem (t := ⟨root, t.cells ++ [⟨cfg, commPage, false, cell⟩]⟩) hnew
  have hkeep : t.cells.filter (fun c => decide (c.config.id ≠ cfg.id)) = t.cells :=
    List.filter_eq_self.mpr fun c hc => decide_eq_true (hid c hc)
  simp only [cellDestroy, hpro, List.filter_append, hkeep]
  simp

/-- A cell that has been started is not loadable. -/
lemma start_loadable (h : Inv p t) {id : ℕ} {early : ℤ}
    (hok : (cellStart p id early noFaults t).2 = 0) {c : LiveCell}
    (hc : c ∈ (cellStart p id early noFaults t).1.cells) (hid : c.config.id = id) :
    c.loadable = false := by
  unfold cellStart at hok hc
  cases hpro : cellManagementPrologue id early t with
  | error err =>
    simp only [hpro] at hok
    exact absurd hok (prologue_error hpro)
  | ok b =>
    obtain ⟨hb, hbid⟩ := prologue_ok hpro
    simp only [hpro] at hok hc
    by_cases hl : b.loadable = true
    · simp only [hl, if_true] at hok hc
      split_ifs at hok hc with herr
      · exact absurd hok herr
      · obtain ⟨c', -, ⟨-, rfl⟩ | ⟨hne, rfl⟩⟩ := mem_setLoadable hc
        · rfl
        · exact absurd hid hne
    · simp only [hl] at hc
      obtain rfl := h.cell_eq hc hb (hid.trans hbid.symm)
      simpa using hl

/-- **Memory ownership.** In every state that the commands reach without failures, a cell has the
memory it does not share, and the root cell reaches of it what is loadable while the cell is;
what belongs to no cell belongs to the root cell. Creating and destroying a cell restores the root
cell, and starting a cell closes all it does not share. -/
theorem memory_owned (p : Platform) (hplat : ∀ r ∈ p.rootRegions, RootRange r)
    (as : List Command) (s : Sys) (ha : Along (step p) (Allowed p) (init p) as)
    (he : exec (step p) (init p) as = some s) :
    (∀ c ∈ s.cells, ∀ m ∈ regions p c.config, Exclusive m → ∀ o < m.size,
      c.space (m.virtStart + o) = some (m.physStart + o) ∧
      (s.root.Reaches (m.physStart + o) ↔
        InRoot p (m.physStart + o) ∧ m.flags.loadable = true ∧ c.loadable = true)) ∧
    (∀ x, (∀ c ∈ s.cells, ∀ m ∈ regions p c.config, ¬ Lies m x) →
      (s.root.Reaches x ↔ InRoot p x)) ∧
    (∀ cfg commPage, (∀ c ∈ s.cells, c.config.id ≠ cfg.id) → Fresh p s cfg →
      (cellDestroy p cfg.id 0 noFaults (cellCreate p cfg commPage 0 noFaults s).1).1.root =
        s.root) ∧
    ∀ id early, (cellStart p id early noFaults s).2 = 0 →
      ∀ c ∈ (cellStart p id early noFaults s).1.cells, c.config.id = id →
        ∀ m ∈ regions p c.config, Exclusive m → ∀ o < m.size,
          ¬ (cellStart p id early noFaults s).1.root.Reaches (m.physStart + o) := by
  have h : Inv p s := exec_inv_along (fun _ _ _ h ha ht => inv_step hplat h ha ht) (inv_init hplat)
    ha he
  refine ⟨fun c hc m hm hex o ho => ⟨h.own c hc m hm hex.1 o ho, ?_⟩, fun x hx => ?_,
    fun cfg commPage hid hf => create_destroy_root hplat h commPage hid hf,
    fun id early hok c hc hid m hm hex o ho hreach => ?_⟩
  · rw [h.root.reaches_iff]
    exact h.open_iff hc hm hex ⟨by omega, by omega⟩
  · rw [h.root.reaches_iff]
    exact ⟨And.left, fun hin => ⟨hin, fun c hc m hm hl => absurd hl (hx c hc m hm)⟩⟩
  · have hinv := inv_start h id early
    rw [hinv.root.reaches_iff, hinv.open_iff hc hm hex ⟨by omega, by omega⟩] at hreach
    rw [start_loadable h hok hc hid] at hreach
    exact absurd hreach.2.2 (by simp)

/-- A board with sixteen pages and two colours. -/
def board : Platform :=
  ⟨⟨0x1000, 0x2000⟩, fun _ => false, [⟨0, 0, 0x10000, ⟨true, false, false, false⟩⟩], 0x20000⟩

/-- A loadable page, and two pages of one colour. -/
def twoColors : CellConfig :=
  ⟨1, [⟨0x4000, 0, 0x1000, ⟨true, false, true, false⟩⟩],
    [⟨⟨0x8000, 0x1000, 0x4000, ⟨true, false, false, false⟩⟩, 1⟩]⟩

lemma board_root : ∀ r ∈ board.rootRegions, RootRange r := by
  intro r hr
  obtain rfl : r = ⟨0, 0, 0x10000, ⟨true, false, false, false⟩⟩ := by simpa [board] using hr
  exact ⟨⟨by decide, by decide, by decide, by decide⟩, rfl, rfl⟩

lemma twoColors_fresh : Fresh board (init board) twoColors := by
  have hregions : regions board twoColors =
      [⟨0x4000, 0, 0x1000, ⟨true, false, true, false⟩⟩,
        ⟨0x9000, 0x1000, 0x1000, ⟨true, false, false, false⟩⟩,
        ⟨0xb000, 0x2000, 0x1000, ⟨true, false, false, false⟩⟩] := by decide
  refine ⟨fun m hm => ?_, ?_, ?_⟩
  · rw [hregions] at hm
    simp only [List.mem_cons, List.not_mem_nil, or_false] at hm
    rcases hm with rfl | rfl | rfl <;>
      exact ⟨⟨by decide, by decide, by decide, by decide⟩, by decide⟩
  · have hsorted : (regions board twoColors).Pairwise
        fun m m' => m.virtStart + m.size ≤ m'.virtStart := by decide
    refine hsorted.imp fun {m m'} hle g hg hg' => ?_
    have := hg.2
    have := hg'.1
    omega
  · have hsorted : (regions board twoColors).Pairwise
        fun m m' => m.physStart + m.size ≤ m'.physStart := by decide
    refine hsorted.imp fun {m m'} hle x hx hx' => ?_
    have := hx.2
    have := hx'.1
    omega

/-- The cell is created and made loadable. -/
theorem memory_owned_twoColors :
    ∃ s, exec (step board) (init board)
        [.create twoColors 0x21000 0 noFaults, .setLoadable 1 0 noFaults] = some s ∧
      s.cells.length = 1 ∧
      ∀ c ∈ s.cells, ∀ m ∈ regions board c.config, Exclusive m → ∀ o < m.size,
        c.space (m.virtStart + o) = some (m.physStart + o) ∧
        (s.root.Reaches (m.physStart + o) ↔
          InRoot board (m.physStart + o) ∧ m.flags.loadable = true ∧ c.loadable = true) := by
  refine ⟨_, rfl, rfl, (memory_owned board board_root
    [.create twoColors 0x21000 0 noFaults, .setLoadable 1 0 noFaults] _ ?_ rfl).1⟩
  exact ⟨⟨rfl, fun _ _ => twoColors_fresh⟩, fun _ _ => ⟨rfl, fun _ _ => trivial⟩⟩

/-- A page that is both a communication region and loadable. -/
def commLoadable : CellConfig :=
  ⟨1, [⟨0x1000, 0, 0x1000, ⟨true, true, true, false⟩⟩], []⟩

/-- Two pages at one place of the guest. -/
def sameGuest : CellConfig :=
  ⟨1, [⟨0x1000, 0, 0x1000, ⟨true, false, false, false⟩⟩,
    ⟨0x2000, 0, 0x1000, ⟨true, false, false, false⟩⟩], []⟩

/-- The last page of the address space. -/
def lastPage : Memory := ⟨2 ^ 64 - 0x1000, 2 ^ 64 - 0x1000, 0x1000, ⟨true, false, false, false⟩⟩

def lastBoard : Platform := ⟨⟨0x1000, 0x2000⟩, fun _ => false, [lastPage], 0x20000⟩

/-- A page that is loadable and not taken from the root cell is lost to it, a region is replaced by
another at the same place of the guest, and the end of a region may wrap to 0. -/
theorem ownership_lost :
    (∃ s, exec (step board) (init board) [.create commLoadable 0x21000 0 noFaults,
        .setLoadable 1 0 noFaults, .start 1 0 noFaults, .destroy 1 0 noFaults] = some s ∧
      s.cells = [] ∧ InRoot board 0x1000 ∧ ¬ s.root.Reaches 0x1000) ∧
    (∃ s c, exec (step board) (init board) [.create sameGuest 0x21000 0 noFaults] = some s ∧
      s.cells = [c] ∧ ⟨0x1000, 0, 0x1000, ⟨true, false, false, false⟩⟩ ∈ regions board c.config ∧
      ¬ c.space.Reaches 0x1000) ∧
    ∃ s, exec (step lastBoard) (init lastBoard) [.create ⟨1, [lastPage], []⟩ 0x21000 0 noFaults,
        .destroy 1 0 noFaults] = some s ∧
      s.cells = [] ∧ InRoot lastBoard (2 ^ 64 - 0x1000) ∧ ¬ s.root.Reaches (2 ^ 64 - 0x1000) := by
  refine ⟨⟨_, rfl, rfl, ?_, ?_⟩, ⟨_, _, rfl, rfl, by decide, ?_⟩, ⟨_, rfl, rfl, ?_, ?_⟩⟩
  · exact ⟨_, List.mem_singleton.mpr rfl, by decide, by decide⟩
  · rintro ⟨g, hg⟩
    change Space.unmap (Space.map (Space.map (fun _ => none) 0 0 0x10000) 0x1000 0x1000 0x1000)
      0x1000 0x1000 g = some 0x1000 at hg
    simp only [Space.map, Space.unmap] at hg
    split_ifs at hg with hin hin'
    have := Option.some.inj hg
    unfold In at hin
    omega
  · rintro ⟨g, hg⟩
    change Space.map (Space.map (fun _ => none) 0 0x1000 0x1000) 0 0x2000 0x1000 g =
      some 0x1000 at hg
    simp only [Space.map] at hg
    split_ifs at hg with hin
    have := Option.some.inj hg
    omega
  · exact ⟨_, List.mem_singleton.mpr rfl, by decide, by decide⟩
  · rintro ⟨g, hg⟩
    change Space.unmap (Space.map (fun _ => none) (2 ^ 64 - 0x1000) (2 ^ 64 - 0x1000) 0x1000)
      (2 ^ 64 - 0x1000) 0x1000 g = some (2 ^ 64 - 0x1000) at hg
    simp only [Space.map, Space.unmap] at hg
    split_ifs at hg

end FpMemSched.CellOwned
