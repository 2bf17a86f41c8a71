import FpMemSched.SpiTargets

/-!
An SPI goes to CPUs of its cell.

The commit settles the SPIs one after the other, so a register is right for those that it has
passed and for the cells that are not managed. The word of an adjustment that is still to be
written is right in the same way, as only guests change the register meanwhile, each within its
own cell. A guest that writes back what was there before an adjustment takes the adjustment back.
-/

namespace FpMemSched.SpisRouted

open FpMemSched.CellIrqs hiding Act boot step
open FpMemSched.Distributor FpMemSched.DistributorOwned FpMemSched.IrqsOwned
open FpMemSched.SpiTargets FpMemSched.Lib.Runs

variable {p : Platform} {map : List (BitVec 8)} {s t : Sys} {id k n : ℕ}
  {cell c : ConfiguredCell} {w : BitVec 32}

/-! ### The invariant -/

/-- The targets are CPUs of the cell. -/
def Within (map : List (BitVec 8)) (s : Sys) (id : ℕ) (targets : BitVec 8) : Prop :=
  ∀ cpu < map.length, targets &&& map.getD cpu 0 = 0 ∨ s.owner cpu = some id

lemma within_iff {targets : BitVec 8} :
    gicv2TargetsInCell map (s.view id c) targets = true ↔ Within map s id targets := by
  rw [targetsInCell_iff]
  simp only [Sys.view, decide_eq_true_iff, Within]

lemma Within.mono {targets : BitVec 8} (h : Within map s id targets)
    (ho : ∀ cpu, s.owner cpu = some id → t.owner cpu = some id) : Within map t id targets :=
  fun cpu hc => (h cpu hc).imp_right (ho cpu)

/-- The commit has nothing to do any more at this pin of the cell. -/
def settled : Task → ℕ → ℕ → Prop
  | .idle, _, _ => True
  | .commit id _ n ofRoot _, k, pin =>
    ¬ (k = 0 ∨ k = id) ∨ pin < n ∨ (pin = n ∧ ofRoot = true ∧ k ≠ 0)

/-- The settled SPIs of the word are routed to their cells. -/
def WordOk (map : List (BitVec 8)) (s : Sys) (task : Task) (word : ℕ) (w : BitVec 32) : Prop :=
  ∀ id c pin, s.member id = some c → isSpi pin → pin / 4 = word →
    irqchipIrqInCell c.toCell pin = true → settled task id pin → Within map s id (targetsOf w pin)

/-- The cell that is managed, and the word that an adjustment is about to write. -/
def TaskOk (map : List (BitVec 8)) (s : Sys) : Task → Prop
  | .idle => True
  | .commit id cell n ofRoot writes =>
    (∀ c, s.member id = some c → c = cell) ∧
    (∀ k c pin, k ≠ 0 → k ≠ id → s.member k = some c → isSpi pin →
      irqchipIrqInCell cell.toCell pin = true → irqchipIrqInCell c.toCell pin = false) ∧
    ∀ w ∈ writes, WordOk map s (nextTurn id cell n ofRoot) (n / 4) w

/-- The write that a guest has begun was checked for the cell as it is. -/
structure PendingOk (map : List (BitVec 8)) (s : Sys) (w : Pending) : Prop where
  viewed : ∃ c, s.member w.id = some c ∧ w.cell = s.view w.id c
  decoded : decode w.mmio.address = some (itargetsr, w.word)
  spi : isSpi (w.mmio.address - itargetsr.base)
  write : w.mmio.isWrite = true
  inside : ¬ routedOutside map w.cell (4 * w.word) (w.mmio.value <<< lowest w.mmio) = true

structure Inv (p : Platform) (map : List (BitVec 8)) (s : Sys) : Prop where
  cpus : Cpus s
  pins : Pins p s.cells
  task : TaskOk map s s.task
  pending : ∀ w ∈ s.pending, PendingOk map s w
  routed : ∀ word, WordOk map s s.task word (s.dist .targets word)

/-! ### The commit -/

section Commit

variable {ofRoot : Bool} {writes : Option (BitVec 32)}

lemma settled_next {pin : ℕ} (writes : Option (BitVec 32))
    (h : settled (nextTurn id cell n ofRoot) k pin) :
    settled (.commit id cell n ofRoot writes) k pin ∨
      (pin = n ∧ k = turnId id ofRoot ∧ (ofRoot = false → k ≠ 0)) := by
  cases ofRoot with
  | true =>
    simp only [nextTurn, if_true, settled, Bool.false_eq_true, false_and, and_false, or_false] at h
    simp only [settled, turnId, if_true, Bool.true_eq_false, false_implies, and_true, true_and]
    omega
  | false =>
    simp only [nextTurn, Bool.false_eq_true, if_false, settled, true_and] at h
    simp only [settled, turnId, Bool.false_eq_true, if_false, false_and, and_false, or_false,
      forall_const]
    omega

/-- What a step of the commit does. -/
lemma commit_cases (ht : s.task = .commit id cell n ofRoot writes)
    (h : irqchipConfigCommit map s = some t) :
    (writes = none ∧ 1024 ≤ n ∧ t = { s with task := .idle }) ∨
    (writes = none ∧ (irqchipIrqInCell (turnCell s cell ofRoot).toCell n = true →
        Within map s (turnId id ofRoot) (targetsOf (s.dist .targets (n / 4)) n)) ∧
      t = { s with task := nextTurn id cell n ofRoot }) ∨
    (writes = none ∧ irqchipIrqInCell (turnCell s cell ofRoot).toCell n = true ∧
      ∃ w, gicv2AdjustIrqTarget map (s.view (turnId id ofRoot) (turnCell s cell ofRoot))
        (turnCell s cell ofRoot).ownsCpu (s.dist .targets (n / 4)) n = some w ∧
      t = { s with task := .commit id cell n ofRoot (some w) }) ∨
    ∃ w, writes = some w ∧ t = { s with
      dist := Function.update s.dist .targets (Function.update (s.dist .targets) (n / 4) w)
      task := nextTurn id cell n ofRoot } := by
  unfold irqchipConfigCommit at h
  rw [ht] at h
  cases writes with
  | some w => exact .inr (.inr (.inr ⟨w, rfl, (Option.some.inj h).symm⟩))
  | none =>
    simp only at h
    split at h
    · rename_i hn
      exact .inl ⟨rfl, hn, (Option.some.inj h).symm⟩
    split at h
    · rename_i hin
      refine .inr (.inl ⟨rfl, fun hc => ?_, (Option.some.inj h).symm⟩)
      exact absurd (hc.symm.trans hin) (by decide)
    rename_i hin
    have hin' : irqchipIrqInCell (turnCell s cell ofRoot).toCell n = true :=
      Bool.not_eq_false _ ▸ hin
    split at h
    · rename_i ha
      refine .inr (.inl ⟨rfl, fun _ => ?_, (Option.some.inj h).symm⟩)
      exact within_iff.mp (adjust_none.mp ha)
    · rename_i w ha
      exact .inr (.inr (.inl ⟨rfl, hin', w, ha, (Option.some.inj h).symm⟩))

lemma turnCell_eq (hm : ∀ c, s.member id = some c → c = cell)
    (hc : s.member (turnId id ofRoot) = some c) : c = turnCell s cell ofRoot := by
  cases ofRoot with
  | true => exact (Option.some.inj hc).symm
  | false => exact hm c hc

/-- The turn leaves nothing to do at a word where its SPI was right. -/
lemma word_passed {word : ℕ} (hm : ∀ c, s.member id = some c → c = cell)
    (h : WordOk map s (.commit id cell n ofRoot writes) word w)
    (hn : word = n / 4 → irqchipIrqInCell (turnCell s cell ofRoot).toCell n = true →
      Within map s (turnId id ofRoot) (targetsOf w n)) :
    WordOk map s (nextTurn id cell n ofRoot) word w := by
  intro k c pin hc hs hw hin hset
  rcases settled_next writes hset with hset | ⟨rfl, rfl, -⟩
  · exact h k c pin hc hs hw hin hset
  · exact hn hw.symm (turnCell_eq hm hc ▸ hin)

/-- An adjustment makes the word right for its SPI. -/
lemma word_adjusted (hsep : Separate map) (hcpus : Cpus s) (hpins : Pins p s.cells)
    (htask : TaskOk map s (.commit id cell n ofRoot writes))
    (hin : irqchipIrqInCell (turnCell s cell ofRoot).toCell n = true)
    (h : WordOk map s (.commit id cell n ofRoot writes) (n / 4) (s.dist .targets (n / 4)))
    (ha : gicv2AdjustIrqTarget map (s.view (turnId id ofRoot) (turnCell s cell ofRoot))
      (turnCell s cell ofRoot).ownsCpu (s.dist .targets (n / 4)) n = some w) :
    WordOk map s (nextTurn id cell n ofRoot) (n / 4) w := by
  obtain ⟨hm, hother, -⟩ := htask
  intro k c pin hc hs hw hcin hset
  rcases settled_next writes hset with hold | ⟨rfl, rfl, -⟩
  · have hpin : pin ≠ n := by
      -- the pin of the turn is of no other cell that is settled
      rintro rfl
      cases ofRoot with
      | true =>
        obtain rfl : 0 = k := hpins.unique hs rfl hc hin hcin
        simp [settled] at hold
      | false =>
        simp only [settled, Bool.false_eq_true, false_and, and_false, or_false] at hold
        have hk : ¬ (k = 0 ∨ k = id) := by omega
        have hno := hother k c pin (fun h0 => hk (.inl h0)) (fun h0 => hk (.inr h0)) hc hs hin
        exact absurd (hcin.symm.trans hno) (by decide)
    have hmod : pin % 4 ≠ n % 4 := by omega
    rw [adjust_other ha hmod]
    exact h k c pin hc hs hw hcin hold
  · obtain rfl := turnCell_eq hm hc
    rw [adjust_self ha]
    refine (within_iff (c := turnCell s cell ofRoot)).mp (first_inCell hsep (hcpus.hasFirst hc) fun cpu hcpu => ?_)
    exact decide_eq_true ((hcpus.owns _ _ hc cpu).mp hcpu)

/-- Nothing that a pending write relies on changes with the task or the distributor. -/
lemma PendingOk.congr {x : Pending} (h : PendingOk map s x) (hc : t.cells = s.cells)
    (ho : t.owner = s.owner) : PendingOk map t x := by
  obtain ⟨cells, owner, d, task, y⟩ := t
  obtain rfl : cells = s.cells := hc
  obtain rfl : owner = s.owner := ho
  exact ⟨h.viewed, h.decoded, h.spi, h.write, h.inside⟩

lemma WordOk.congr {task : Task} {word : ℕ} (h : WordOk map s task word w)
    (hc : t.cells = s.cells) (ho : t.owner = s.owner) : WordOk map t task word w := by
  obtain ⟨cells, owner, d, task', y⟩ := t
  obtain rfl : cells = s.cells := hc
  obtain rfl : owner = s.owner := ho
  exact h

/-- What the task tells of the cells stays for the next turn. -/
lemma TaskOk.next (h : TaskOk map s (.commit id cell n ofRoot writes)) (hc : t.cells = s.cells) :
    TaskOk map t (nextTurn id cell n ofRoot) := by
  obtain ⟨cells, owner, d, task, y⟩ := t
  obtain rfl : cells = s.cells := hc
  cases ofRoot <;> exact ⟨h.1, h.2.1, nofun⟩

lemma inv_commit (hsep : Separate map) (h : Inv p map s)
    (hst : irqchipConfigCommit map s = some t) : Inv p map t := by
  obtain ⟨hcpus, hpins, htask, hpend, hrouted⟩ := h
  cases ht : s.task with
  | idle => rw [irqchipConfigCommit, ht] at hst; cases hst
  | commit id cell n ofRoot writes =>
    rw [ht] at htask hrouted
    rcases commit_cases ht hst with ⟨-, hn, rfl⟩ | ⟨-, hok, rfl⟩ | ⟨-, hin, w, ha, rfl⟩ |
      ⟨w, rfl, rfl⟩
    · refine ⟨hcpus.congr rfl rfl, hpins, trivial, fun x hx => (hpend x hx).congr rfl rfl,
        fun word k c pin hc hs hw hin _ => ?_⟩
      have := hs.2
      exact hrouted word k c pin hc hs hw hin (.inr (.inl (by omega)))
    · refine ⟨hcpus.congr rfl rfl, hpins, htask.next rfl, fun x hx => (hpend x hx).congr rfl rfl,
        fun word => ?_⟩
      refine (word_passed htask.1 (hrouted word) fun hw hin => ?_).congr rfl rfl
      rw [hw]
      exact hok hin
    · refine ⟨hcpus.congr rfl rfl, hpins, ⟨htask.1, htask.2.1, fun x hx => ?_⟩,
        fun x hx => (hpend x hx).congr rfl rfl, fun word => ?_⟩
      · obtain rfl := Option.some.inj hx
        exact (word_adjusted hsep hcpus hpins htask hin (hrouted _) ha).congr rfl rfl
      · exact hrouted word
    · refine ⟨hcpus.congr rfl rfl, hpins, htask.next rfl, fun x hx => (hpend x hx).congr rfl rfl,
        fun word => ?_⟩
      by_cases hw : word = n / 4
      · subst hw
        simp only [Function.update_self]
        exact (htask.2.2 w rfl).congr rfl rfl
      · simp only [Function.update_self, Function.update_of_ne hw]
        exact (word_passed htask.1 (hrouted word) fun hn => absurd hn hw).congr rfl rfl

end Commit

/-! ### Guests -/

section Guests

variable {cpu : ℕ} {m : MmioAccess} {d : Dist} {b : Bank} {view : Cell}

lemma bank_kind (hb : b ∈ banks) (hne : b ≠ itargetsr) : b.kind ≠ .targets := by
  simp only [banks, List.mem_cons, List.not_mem_nil, or_false] at hb
  rcases hb with rfl | rfl | rfl | rfl | rfl | rfl | rfl | rfl | rfl | rfl
  case inr.inr.inr.inr.inr.inr.inr.inr.inl => exact absurd rfl hne
  all_goals decide

/-- Only a write to the targets of SPIs changes them. -/
lemma access_keeps {word : ℕ} (hd : decode m.address = some (b, k)) (hal : Aligned m)
    (hno : ¬ writesTargets m) (hw : 8 ≤ word ∧ word < 255) :
    (gicHandleDistAccess map view d m).2.1 .targets word = d .targets word := by
  obtain ⟨hmem, hlo, hhi, rfl⟩ := decode_spec hd
  by_cases hb : b = itargetsr
  · subst hb
    have hreg : regRange itargetsr 1 m.address := by
      simp only [regRange, itargetsr] at hlo hhi ⊢
      omega
    by_cases hi : isSpi (m.address - itargetsr.base)
    · have hr : m.isWrite = false := by
        by_contra hwr
        exact hno ⟨hreg, hi, by simpa using hwr⟩
      rw [(targets_read hd hi hr).1]
    · rw [access_targets hd, gicv2HandleIrqTarget, if_pos hi]
      cases hwr : m.isWrite with
      | false => rw [perform_read hd hwr]
      | true =>
        rw [perform_write hd hwr]
        have hne : word ≠ (m.address - itargetsr.base) / 4 := by
          simp only [isSpi] at hi
          omega
        simp only [itargetsr, Function.update_self]
        exact Function.update_of_ne hne _ _
  · have hkind := bank_kind hmem hb
    cases hwr : m.isWrite with
    | false =>
      rw [access_restricted hd hb]
      split
      · rw [(restrict_read hd hal.size_le hwr _).1]
      · rfl
    | true =>
      apply BitVec.eq_of_getLsbD_eq
      intro j hj
      rw [masked_written hd hb hal hwr .targets word hj]
      exact if_neg fun h => hkind h.1.symm

lemma spi_word {pin : ℕ} (h : isSpi pin) : 8 ≤ pin / 4 ∧ pin / 4 < 255 := by
  obtain ⟨hlo, hhi⟩ := h
  omega

/-- The hypervisor lets a write pass whose targets are all of the cell. -/
lemma inside_pin {v : BitVec 64} {pin : ℕ} (h : ¬ routedOutside map view (4 * (pin / 4)) v = true)
    (hin : irqchipIrqInCell view pin = true) :
    gicv2TargetsInCell map view ((v >>> (8 * (pin % 4))).setWidth 8) = true := by
  by_contra hn
  refine h (List.any_eq_true.mpr ⟨pin % 4, List.mem_range.mpr (Nat.mod_lt _ (by omega)), ?_⟩)
  rw [Nat.div_add_mod, hin, Bool.true_and, Bool.not_eq_true']
  simpa using hn

/-- What a write to the targets leaves. -/
lemma targets_written {pin : ℕ} (hd : decode m.address = some (itargetsr, k))
    (hi : isSpi (m.address - itargetsr.base)) (hw : m.isWrite = true)
    (hr : ¬ routedOutside map view (4 * k) (m.value <<< lowest m) = true) :
    let d' := (gicHandleDistAccess map view d m).2.1
    targetsOf (d' .targets (pin / 4)) pin =
      if pin / 4 = k ∧ irqchipIrqInCell view pin = true then
        ((m.value <<< lowest m) >>> (8 * (pin % 4))).setWidth 8
      else targetsOf (d .targets (pin / 4)) pin := by
  have h4 : pin % 4 < 4 := Nat.mod_lt _ (by omega)
  apply BitVec.eq_of_getLsbD_eq
  intro j hj
  have h32 : pin % 4 * 8 + j < 32 := by omega
  have howns : owns view .targets (pin / 4) (pin % 4 * 8 + j) = irqchipIrqInCell view pin := by
    have hdiv : pin / 4 * (32 / 8) + (pin % 4 * 8 + j) / 8 = pin := by omega
    exact congrArg (irqchipIrqInCell view) hdiv
  rw [targetsOf_bit hj, targets_write hd hi hw hr .targets (pin / 4) h32, ← targetsOf_bit hj]
  by_cases hk : pin / 4 = k
  · subst hk
    rw [howns]
    cases irqchipIrqInCell view pin with
    | false => simp [targetsOf_bit hj]
    | true =>
      have hlt : pin % 4 * 8 + j < 64 := by omega
      have hle : (!decide (pin % 4 * 8 + j < lowest m)) = decide (lowest m ≤ pin % 4 * 8 + j) := by
        rw [← decide_not, decide_eq_decide]
        omega
      rw [if_pos ⟨rfl, rfl, rfl⟩, if_pos ⟨rfl, rfl⟩, BitVec.getLsbD_setWidth,
        BitVec.getLsbD_ushiftRight, BitVec.getLsbD_shiftLeft, Nat.mul_comm 8, decide_eq_true hj,
        decide_eq_true hlt, hle, Bool.true_and, Bool.true_and]
  · simp [hk, targetsOf_bit hj]

lemma inv_access (h : Inv p map s) (hst : distAccess map s cpu m = some t) : Inv p map t := by
  obtain ⟨⟨id, c⟩, -, hst⟩ := Option.bind_eq_some_iff.mp hst
  split at hst
  · cases hst
  rename_i hg
  push Not at hg
  obtain ⟨hal, hd, hno⟩ := hg
  obtain rfl := Option.some.inj hst
  obtain ⟨⟨b, k⟩, hd⟩ := Option.ne_none_iff_exists'.mp (fun hn => hd (Option.isNone_iff_eq_none.mpr hn))
  refine ⟨h.cpus.congr rfl rfl, h.pins, ?_, fun x hx => (h.pending x hx).congr rfl rfl,
    fun word j e pin hc hs hw hin hset => ?_⟩
  · exact h.task
  · change Within map _ _ (targetsOf ((gicHandleDistAccess map (s.view id c) s.dist m).2.1 .targets
      word) pin)
    rw [access_keeps hd hal hno (hw ▸ spi_word hs)]
    exact h.routed word j e pin hc hs hw hin hset

lemma runs_spec {r : ℕ × ConfiguredCell} (h : s.runs cpu = some r) : s.owner cpu = some r.1 ∧
    ¬ s.task.suspends r.1 ∧ s.member r.1 = some r.2 := by
  obtain ⟨id, ho, h⟩ := Option.bind_eq_some_iff.mp h
  split at h
  · cases h
  rename_i hs
  obtain ⟨c, hc, rfl⟩ := Option.map_eq_some_iff.mp h
  exact ⟨ho, hs, hc⟩

lemma inv_begin (h : Inv p map s) (hst : targetBegin map s cpu m = some t) : Inv p map t := by
  obtain ⟨⟨id, c⟩, hr, hst⟩ := Option.bind_eq_some_iff.mp hst
  obtain ⟨-, -, hm⟩ := runs_spec hr
  split at hst
  · cases hst
  rename_i hg
  push Not at hg
  obtain ⟨-, -, hreg, hi, hw⟩ := hg
  dsimp only at hst
  split at hst
  · obtain rfl := Option.some.inj hst
    exact h
  rename_i hin
  obtain rfl := Option.some.inj hst
  refine ⟨h.cpus.congr rfl rfl, h.pins, h.task, fun x hx => ?_, h.routed⟩
  obtain rfl := Option.some.inj hx
  refine ⟨⟨c, hm, rfl⟩, ?_, hi, hw, hin⟩
  simp only [regRange, itargetsr] at hreg
  exact decode_targets hreg.1 (by simp only [itargetsr]; omega)

/-- A write that finds the register as it was read is the access at once. -/
lemma finish_eq {x : Pending} (hx : PendingOk map s x) (hf : d .targets x.word = x.itargetsr) :
    (mmioPerformAccess d x.access).1 = (gicHandleDistAccess map x.cell d x.mmio).2.1 := by
  rw [handleIrqTarget_eq hx.decoded hx.spi, if_pos hx.write, if_neg hx.inside, hf]
  rfl

lemma inv_finish (h : Inv p map s) (hf : ∀ x ∈ s.pending, s.dist .targets x.word = x.itargetsr)
    (hst : targetEnd s = some t) : Inv p map t := by
  obtain ⟨x, hx, rfl⟩ := Option.map_eq_some_iff.mp hst
  have hok := h.pending x hx
  obtain ⟨c, hm, hv⟩ := hok.viewed
  refine ⟨h.cpus.congr rfl rfl, h.pins, h.task, nofun, fun word j e pin hc hs hw hin hset => ?_⟩
  change Within map _ j (targetsOf ((mmioPerformAccess s.dist x.access).1 .targets word) pin)
  subst hw
  rw [finish_eq hok (hf x hx), targets_written hok.decoded hok.spi hok.write hok.inside]
  split
  · rename_i hown
    obtain ⟨hk, hxin⟩ := hown
    -- the pin is of the cell that writes
    have hcin : irqchipIrqInCell c.toCell pin = true := by rwa [hv] at hxin
    obtain rfl := h.pins.unique hs hm hc hcin hin
    have hins := hok.inside
    rw [← hk] at hins
    have hwith := inside_pin hins hxin
    rw [hv] at hwith
    exact within_iff.mp hwith
  · exact h.routed _ j e pin hc hs rfl hin hset

end Guests

/-! ### Creations and destructions -/

section Cells

variable {x : Pending} {r : System}

/-- A cell that keeps its CPUs keeps what was checked for it. -/
lemma PendingOk.mono (h : PendingOk map s x) (hm : t.member x.id = s.member x.id)
    (ho : ∀ cpu, t.owner cpu = some x.id ↔ s.owner cpu = some x.id) : PendingOk map t x := by
  obtain ⟨⟨c, hc, hv⟩, hd, hi, hw, hin⟩ := h
  refine ⟨⟨c, hm.trans hc, hv.trans ?_⟩, hd, hi, hw, hin⟩
  unfold Sys.view
  simp only [ho]

/-- The cells that are not managed are not affected. -/
lemma word_start {word : ℕ} (h : WordOk map s .idle word w) (hm : ∀ k, k ≠ 0 → k ≠ id →
      t.member k = s.member k) (ho : ∀ k, k ≠ 0 → k ≠ id → ∀ cpu, s.owner cpu = some k →
      t.owner cpu = some k) : WordOk map t (.commit id cell 32 false none) word w := by
  intro k c pin hc hs hw hin hset
  have hk : k ≠ 0 ∧ k ≠ id := by
    have := hs.1
    simp only [settled, Bool.false_eq_true, false_and, and_false, or_false] at hset
    omega
  rw [hm k hk.1 hk.2] at hc
  exact (h k c pin hc hs hw hin trivial).mono (ho k hk.1 hk.2)

lemma inv_assign {irqchips : List Irqchip} {set : ℕ → Bool} (h : Inv p map s)
    (hidle : s.task = .idle) (hid : id ≠ 0) (hcpus : Cpus (assign s r id cell))
    (hpins : Pins p (assign s r id cell).cells)
    (hst : CellIrqs.step p s.cells (.create id irqchips set) = some r)
    (hc : r.cells id = some cell)
    (hroot : ∀ cpu, cell.ownsCpu cpu = true → s.owner cpu = some 0) (hq : s.quiet 0) :
    Inv p map (assign s r id cell) := by
  obtain ⟨hn, cell', -, hcells, -, -⟩ := create_spec hst
  obtain rfl : cell' = cell := by
    rw [hcells, Function.update_self] at hc
    exact Option.some.inj hc
  have hmem : ∀ k, k ≠ 0 → k ≠ id → (assign s r id cell').member k = s.member k :=
    fun k hk hne => assign_member_of_ne hcells hk hne
  have howner : ∀ k, k ≠ 0 → k ≠ id → ∀ cpu,
      (assign s r id cell').owner cpu = some k ↔ s.owner cpu = some k := by
    intro k hk hne cpu
    change (if cell'.ownsCpu cpu = true then some id else s.owner cpu) = some k ↔ _
    by_cases hx : cell'.ownsCpu cpu = true
    · rw [if_pos hx, hroot cpu hx]
      simp [Ne.symm hk, Ne.symm hne]
    · rw [if_neg hx]
  have hself := assign_member (s := s) hc hid
  refine ⟨hcpus, hpins, ⟨fun c hm => ?_, fun k c pin hk hne hm hs hin => ?_, nofun⟩,
    fun x hx => ?_, fun word => ?_⟩
  · exact Option.some.inj (hm.symm.trans hself)
  · by_contra hcin
    exact hne (hpins.unique hs hm hself (by simpa using hcin) hin)
  · have hok := h.pending x hx
    have hx0 : x.id ≠ 0 := hq x hx
    have hxid : x.id ≠ id := by
      rintro rfl
      obtain ⟨c, hm, -⟩ := hok.viewed
      rw [member_of_ne hx0, hn] at hm
      cases hm
    exact hok.mono (hmem x.id hx0 hxid) (howner x.id hx0 hxid)
  · have hr := h.routed word
    rw [hidle] at hr
    exact word_start hr hmem fun k hk hne cpu => (howner k hk hne cpu).mpr

lemma inv_destroyInternal (hcpus : Cpus s) (hpins : Pins p s.cells)
    (hpend : ∀ x ∈ s.pending, PendingOk map s x)
    (hrouted : ∀ k c pin, k ≠ 0 → k ≠ id → s.member k = some c → isSpi pin →
      irqchipIrqInCell c.toCell pin = true →
      Within map s k (targetsOf (s.dist .targets (pin / 4)) pin))
    (hid : id ≠ 0) (hc : s.cells.cells id = some cell) (hq0 : s.quiet 0) (hq : s.quiet id) :
    Inv p map (cellDestroyInternal p s id cell) := by
  have hm : s.member id = some cell := (member_of_ne hid).trans hc
  have howner : ∀ k, k ≠ 0 → k ≠ id → ∀ cpu,
      (cellDestroyInternal p s id cell).owner cpu = some k ↔ s.owner cpu = some k := by
    intro k hk hne cpu
    change (if cell.ownsCpu cpu = true then some 0 else s.owner cpu) = some k ↔ _
    by_cases hx : cell.ownsCpu cpu = true
    · rw [if_pos hx, (hcpus.owns id cell hm cpu).mp hx]
      simp [Ne.symm hk, Ne.symm hne]
    · rw [if_neg hx]
  refine ⟨cpus_destroy hcpus hid hm, pins_destroy hpins hc,
    ⟨fun c hmc => ?_, fun k c pin hk hne hmc hs hin => ?_, nofun⟩, fun x hx => ?_,
    fun word k c pin hmc hs hw hin hset => ?_⟩
  · rw [destroy_member_self hid] at hmc
    cases hmc
  · by_contra hcin
    rw [destroy_member_of_ne hk hne] at hmc
    exact hne (hpins.unique hs hmc hm (by simpa using hcin) hin)
  · exact (hpend x hx).mono (destroy_member_of_ne (hq0 x hx) (hq x hx))
      (howner x.id (hq0 x hx) (hq x hx))
  · have hk : k ≠ 0 ∧ k ≠ id := by
      have hs1 := hs.1
      change settled (.commit id cell 32 false none) k pin at hset
      simp only [settled, Bool.false_eq_true, false_and, and_false, or_false] at hset
      omega
    rw [destroy_member_of_ne hk.1 hk.2] at hmc
    subst hw
    exact (hrouted k c pin hk.1 hk.2 hmc hs hin).mono fun cpu => (howner k hk.1 hk.2 cpu).mpr

variable {irqchips : List Irqchip} {cpus : List ℕ} {caller : ℕ} {mapped : Bool}

lemma inv_create (h : Inv p map s) (hidle : s.task = .idle) (hq : s.quiet 0)
    (hcf : Configured p s irqchips cpus)
    (hst : cellCreate p s caller id irqchips cpus mapped = some t) : Inv p map t := by
  obtain ⟨⟨hca, hid, hno, hsub⟩, r, cell, hr, hc, rfl⟩ := cellCreate_spec hst
  have hcpus := cpus_assign h.cpus hid hcf.2 hca hno hsub hr hc
  have hpins : Pins p (assign s r id cell).cells := pins_assign (pins_create h.pins hcf hid hr)
  have htaken : ∀ cpu, cell.ownsCpu cpu = true → s.owner cpu = some 0 := by
    intro cpu hx
    rw [(create_cpus hr hc).2, decide_eq_true_iff] at hx
    exact (h.cpus.owns 0 _ rfl cpu).mp (hsub cpu hx)
  have hi : Inv p map (assign s r id cell) := inv_assign h hidle hid hcpus hpins hr hc htaken hq
  cases mapped with
  | true => exact hi
  | false =>
    refine inv_destroyInternal hcpus hpins hi.pending (fun k c pin hk hne hm hs hin => ?_) hid hc
      hq fun x hx => ?_
    · refine hi.routed _ k c pin hm hs rfl hin (.inl ?_)
      rintro (rfl | rfl)
      · exact hk rfl
      · exact hne rfl
    · -- a pending write is of a cell that was there before
      rintro rfl
      obtain ⟨c, hm, -⟩ := (h.pending x hx).viewed
      rw [member_of_ne (hq x hx), (create_spec hr).1] at hm
      cases hm

lemma inv_destroy (h : Inv p map s) (hidle : s.task = .idle) (hq0 : s.quiet 0) (hq : s.quiet id)
    (hc : s.cells.cells id = some cell) : Inv p map (cellDestroyInternal p s id cell) := by
  have hid : id ≠ 0 := by
    rintro rfl
    rw [h.pins.rootAlone] at hc
    cases hc
  refine inv_destroyInternal h.cpus h.pins h.pending (fun k c pin _ _ hm hs hin => ?_) hid hc hq0 hq
  refine h.routed _ k c pin hm hs rfl hin ?_
  rw [hidle]
  trivial

lemma inv_boot {d : Dist} (hne : cpus ≠ []) (hfew : ∀ cpu ∈ cpus, cpu < 8)
    (hb : boot p irqchips cpus d = some s) : Inv p map s := by
  obtain ⟨r, hr, rfl⟩ := Option.map_eq_some_iff.mp hb
  obtain ⟨root, ho, rfl⟩ := Option.map_eq_some_iff.mp hr
  have hown : root.ownsCpu = fun cpu => decide (cpu ∈ cpus) := by
    cases hx : ownPins p (fresh irqchips fun cpu => decide (cpu ∈ cpus)) with
    | error e => rw [hx] at ho; cases ho
    | ok y =>
      rw [hx] at ho
      obtain rfl : y = root := Option.some.inj ho
      exact ownPins_cpus hx
  have hmem : ∀ cpu k, (if cpu ∈ cpus then some 0 else none) = some k ↔ k = 0 ∧ cpu ∈ cpus := by
    intro cpu k
    by_cases hx : cpu ∈ cpus
    · simp [hx, eq_comm]
    · simp [hx]
  have honly : ∀ {k c} {d : Dist} {task : Task} {o : ℕ → Option ℕ},
      (Sys.mk ⟨root, fun _ => none⟩ o d task none).member k = some c → k = 0 ∧ root = c := by
    intro k c d task o hc
    by_cases hk : k = 0
    · subst hk
      exact ⟨rfl, Option.some.inj hc⟩
    · rw [member_of_ne hk] at hc
      cases hc
  refine ⟨⟨fun k c hc cpu => ?_, fun cpu k hk => ?_, fun cpu k hk => ?_, fun k c hc => ?_⟩,
    ⟨rfl, nofun, fun pin _ k c hk => ?_, fun pin _ _ k c hk => ?_⟩,
    ⟨fun c hc => (honly hc).2.symm, fun k c pin hk _ hc => absurd (honly hc).1 hk, nofun⟩, nofun,
    fun word k c pin hc hs hw hin hset => ?_⟩
  · obtain ⟨rfl, rfl⟩ := honly hc
    rw [hmem, hown, decide_eq_true_iff]
    simp
  · exact hfew cpu ((hmem cpu k).mp hk).2
  · obtain ⟨rfl, -⟩ := (hmem cpu k).mp hk
    exact ⟨_, rfl⟩
  · obtain ⟨rfl, rfl⟩ := honly hc
    obtain ⟨cpu, hx⟩ := List.exists_mem_of_ne_nil _ hne
    exact ⟨cpu, (hmem cpu 0).mpr ⟨rfl, hx⟩⟩
  · cases hk
  · cases hk
  · obtain ⟨rfl, -⟩ := honly hc
    have h32 : ¬ pin < 32 := by
      have := hs.1
      omega
    simp [settled, h32] at hset

end Cells

/-! ### Runs -/

/-- New cells are configured well, and a guest writes back a register as it has read it. -/
def Meets (p : Platform) (s : Sys) : Act → Prop
  | .create _ _ irqchips cpus _ => Configured p s irqchips cpus
  | .finish => ∀ x ∈ s.pending, s.dist .targets x.word = x.itargetsr
  | _ => True

lemma inv_step (hsep : Separate map) (s : Sys) (a : Act) (t : Sys) (h : Inv p map s)
    (hc : Meets p s a) (hst : step p map s a = some t) : Inv p map t := by
  cases a with
  | create caller id irqchips cpus mapped =>
    simp only [step] at hst
    split at hst
    · rename_i hidle
      split at hst
      · rename_i hq
        exact inv_create h hidle hq hc hst
      · cases hst
    · cases hst
  | destroy id =>
    simp only [step] at hst
    split at hst
    · rename_i hidle
      split at hst
      · rename_i hq
        obtain ⟨cell, hcell, rfl⟩ := Option.map_eq_some_iff.mp hst
        exact inv_destroy h hidle hq.1 hq.2 hcell
      · cases hst
    · cases hst
  | commit => exact inv_commit hsep h hst
  | access cpu m => exact inv_access h hst
  | begin cpu m => exact inv_begin h hst
  | finish => exact inv_finish h hc hst

/-- **Interrupts stay within their cells**: whatever cells are created and destroyed and whatever
the guests do to the distributor meanwhile, an SPI of a cell that runs is routed to CPUs of this
cell only, as long as no adjustment falls between the read and the write of a guest's access to the
same register. -/
theorem spis_routed (p : Platform) (map : List (BitVec 8)) (irqchips : List Irqchip)
    (cpus : List ℕ) (d : Dist) (s t : Sys) (as : List Act) (hsep : Separate map) (hne : cpus ≠ [])
    (hfew : ∀ cpu ∈ cpus, cpu < 8) (hb : boot p irqchips cpus d = some s)
    (hc : Along (step p map) (Meets p) s as) (he : exec (step p map) s as = some t) (id : ℕ)
    (c : ConfiguredCell) (hm : t.member id = some c) (hr : ¬ t.task.suspends id) (irq : ℕ)
    (hi : isSpi irq) (hin : irqchipIrqInCell c.toCell irq = true) (cpu : ℕ)
    (hcpu : cpu < map.length)
    (ht : targetsOf (t.dist .targets (irq / 4)) irq &&& map.getD cpu 0 ≠ 0) :
    t.owner cpu = some id := by
  have hinv : Inv p map t := exec_inv_along (inv_step hsep) (inv_boot hne hfew hb) hc he
  have hset : settled t.task id irq := by
    cases htask : t.task with
    | idle => trivial
    | commit k cell n ofRoot writes =>
      rw [htask] at hr
      exact .inl hr
  exact (hinv.routed _ id c irq hm hi rfl hin hset cpu hcpu).resolve_left ht

/-- A CPU interface for each CPU. -/
def interfaces : List (BitVec 8) := [1, 2, 4, 8, 16, 32, 64, 128]

lemma interfaces_separate : Separate interfaces := by
  have hout : ∀ i, ¬ i < 8 → interfaces.getD i 0 = 0#8 := by
    intro i hi
    rw [List.getD, List.getElem?_eq_none (not_lt.mp hi)]
    rfl
  have hall : ∀ i < 8, ∀ j < 8, i ≠ j → interfaces.getD i 0 &&& interfaces.getD j 0 = 0#8 := by
    decide
  intro i j hij
  by_cases hi : i < 8
  · by_cases hj : j < 8
    · exact hall i hi j hj hij
    · rw [hout j hj]
      exact BitVec.and_zero
  · rw [hout i hi]
    exact BitVec.zero_and

/-- A root cell with the pins 32 to 39 and three CPUs, all SPIs at the first one. -/
def start : Option Sys :=
  SpiTargets.boot ⟨0, 25⟩ [chipAt 32 0xff] [0, 1, 2] fun κ _ =>
    if κ = .targets then 0x01010101 else 0

def commits (k : ℕ) : List Act := List.replicate k .commit

/-- A cell with CPU 1 and pin 33 is created. -/
def creation : List Act :=
  commits 1985 ++ ([.create 0 1 [chipAt 32 0x2] [1] true] ++ commits 1986)

lemma commits_meet (k : ℕ) (s : Sys) : Along (step p map) (Meets p) s (commits k) :=
  along_of_mem (fun a ha s => by rw [List.eq_of_mem_replicate ha]; trivial) s

lemma commits_cells (h : exec (step p map) s (commits k) = some t) : t.cells = s.cells := by
  refine exec_inv_along (C := fun _ a => a = .commit) (P := fun u => u.cells = s.cells)
    (fun u a v hu ha hst => ?_) rfl
    (along_of_mem (fun a ha _ => List.eq_of_mem_replicate ha) s) h
  subst ha
  have hst' : irqchipConfigCommit map u = some v := hst
  cases htask : u.task with
  | idle => rw [irqchipConfigCommit, htask] at hst'; cases hst'
  | commit id cell n ofRoot writes =>
    rcases commit_cases htask hst' with ⟨-, -, rfl⟩ | ⟨-, -, rfl⟩ | ⟨-, -, w, -, rfl⟩ | ⟨w, -, rfl⟩
    all_goals exact hu

theorem spis_routed_creation :
    ∃ s t c, start = some s ∧ exec (step ⟨0, 25⟩ interfaces) s creation = some t ∧
      t.member 1 = some c ∧ irqchipIrqInCell c.toCell 33 = true ∧
      ∀ cpu < 8, targetsOf (t.dist .targets 8) 33 &&& interfaces.getD cpu 0 ≠ 0 →
        t.owner cpu = some 1 := by
  have hrun : (start.bind fun s => exec (step ⟨0, 25⟩ interfaces) s creation).any (fun t =>
      !decide (t.task.suspends 1) && (t.member 1).any (irqchipIrqInCell ·.toCell 33)) = true := by
    decide +kernel
  obtain ⟨t, ht, hp⟩ := (Option.any_eq_true _ _).mp hrun
  obtain ⟨s, hs, he⟩ := Option.bind_eq_some_iff.mp ht
  obtain ⟨htask, hc⟩ := Bool.and_eq_true_iff.mp hp
  obtain ⟨c, hm, hin⟩ := (Option.any_eq_true _ _).mp hc
  refine ⟨s, t, c, hs, he, hm, hin, fun cpu hcpu hx => ?_⟩
  refine spis_routed ⟨0, 25⟩ interfaces [chipAt 32 0xff] [0, 1, 2] _ s t creation
    interfaces_separate (by decide) (by decide) hs ?_ he 1 c hm (by simpa using htask) 33 (by decide)
    hin cpu hcpu hx
  refine along_concat (commits_meet _ _) fun u hu => ⟨⟨fun pin _ _ k c hk => ?_, by decide⟩, ?_⟩
  · rw [commits_cells hu] at hk
    unfold start SpiTargets.boot at hs
    obtain ⟨r, hr, rfl⟩ := Option.map_eq_some_iff.mp hs
    obtain ⟨root, -, rfl⟩ := Option.map_eq_some_iff.mp hr
    cases hk
  · exact fun v _ => commits_meet _ v

/-- Cell 1 writes to its SPI while the cell with CPU 2 and pin 34 is created. -/
def race : List Act :=
  creation ++ ([.begin 1 ⟨0x821, 1, true, 2⟩, .create 0 2 [chipAt 32 0x4] [2] true] ++
    (commits 1986 ++ [.finish]))

/-- The write back takes an adjustment back: the SPI of the new cell is routed to the root cell. -/
theorem adjustment_undone :
    ∃ s t c, start = some s ∧ exec (step ⟨0, 25⟩ interfaces) s race = some t ∧
      ¬ t.task.suspends 2 ∧ t.member 2 = some c ∧ irqchipIrqInCell c.toCell 34 = true ∧
      targetsOf (t.dist .targets 8) 34 &&& interfaces.getD 0 0 ≠ 0 ∧ t.owner 0 = some 0 := by
  have hrun : (start.bind fun s => exec (step ⟨0, 25⟩ interfaces) s race).any (fun t =>
      !decide (t.task.suspends 2) && ((t.member 2).any (irqchipIrqInCell ·.toCell 34) &&
        decide (targetsOf (t.dist .targets 8) 34 &&& interfaces.getD 0 0 ≠ 0 ∧
          t.owner 0 = some 0))) = true := by
    decide +kernel
  obtain ⟨t, ht, hp⟩ := (Option.any_eq_true _ _).mp hrun
  obtain ⟨s, hs, he⟩ := Option.bind_eq_some_iff.mp ht
  obtain ⟨htask, hp⟩ := Bool.and_eq_true_iff.mp hp
  obtain ⟨hc, hp⟩ := Bool.and_eq_true_iff.mp hp
  obtain ⟨c, hm, hin⟩ := (Option.any_eq_true _ _).mp hc
  exact ⟨s, t, c, hs, he, by simpa using htask, hm, hin, (of_decide_eq_true hp).1,
    (of_decide_eq_true hp).2⟩

end FpMemSched.SpisRouted
