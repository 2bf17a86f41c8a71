import FpMemSched.CellIrqs
import FpMemSched.Lib.Runs

/-!
Which cell has which interrupt.

Each loop over descriptors changes a pin only in the words that a descriptor has, so a pin is
followed through the descriptors whose window it lies in. Copies let the last window win, the
final mask takes a pin away that any of the windows leaves out, and leaves a pin that is in no
window at all.
-/

namespace FpMemSched.IrqsOwned

open FpMemSched.Distributor FpMemSched.CellIrqs FpMemSched.Lib.Runs

/-! ### Pins -/

/-- The word of the bitmap is one of the descriptor. -/
def covers (chip : Irqchip) (w : ℕ) : Prop :=
  chip.pinBase / 32 ≤ w ∧ w < chip.pinBase / 32 + 4

instance (chip : Irqchip) (w : ℕ) : Decidable (covers chip w) :=
  inferInstanceAs (Decidable (_ ∧ _))

/-- The descriptor is one of the distributor and has the word of the pin. -/
def window (p : Platform) (chip : Irqchip) (pin : ℕ) : Prop :=
  chip.address = p.gicdBase ∧ covers chip (pin / 32)

instance (p : Platform) (chip : Irqchip) (pin : ℕ) : Decidable (window p chip pin) :=
  inferInstanceAs (Decidable (_ ∧ _))

/-- The word of the descriptor at this place of the bitmap. -/
def wordOf (chip : Irqchip) (w : ℕ) : BitVec 32 :=
  if h : w - chip.pinBase / 32 < 4 then chip.pinBitmap ⟨w - chip.pinBase / 32, h⟩ else 0#32

/-- The descriptor has a one for the pin. -/
def marks (chip : Irqchip) (pin : ℕ) : Bool := (wordOf chip (pin / 32)).getLsbD (pin % 32)

/-- The descriptors list the pin. -/
def listed (p : Platform) (chips : List Irqchip) (pin : ℕ) : Bool :=
  chips.any fun chip => decide (window p chip pin) && marks chip pin

def bit (bitmap : ℕ → BitVec 32) (pin : ℕ) : Bool := (bitmap (pin / 32)).getLsbD (pin % 32)

lemma irqInCell_eq (cell : Cell) {pin : ℕ} (h : isSpi pin) :
    irqchipIrqInCell cell pin = bit cell.irqBitmap pin := by
  have : ¬ 1024 ≤ pin := by have := h.2; omega
  unfold irqchipIrqInCell bit
  rw [if_neg this]

/-! ### Loops over descriptors -/

section Loops

variable {p : Platform} {chips : List Irqchip} {bitmap : ℕ → BitVec 32} {pin : ℕ}
  {f : BitVec 32 → BitVec 32 → BitVec 32} {g : Bool → Bool → Bool}

lemma foldl_update_of_ne {ι α : Type*} {q : ι → ℕ} {h : ι → α → α} {l : List ι} {w : ℕ}
    (hw : ∀ i ∈ l, q i ≠ w) (a : ℕ → α) :
    l.foldl (fun a i => Function.update a (q i) (h i (a (q i)))) a w = a w := by
  induction l generalizing a with
  | nil => rfl
  | cons i l ih =>
    rw [List.foldl_cons, ih fun k hk => hw k (List.mem_cons_of_mem i hk)]
    exact Function.update_of_ne (hw i List.mem_cons_self).symm _ _

lemma foldl_update_of_mem {ι α : Type*} {q : ι → ℕ} (hq : Function.Injective q) {h : ι → α → α}
    {l : List ι} (hl : l.Nodup) {i : ι} (hi : i ∈ l) (a : ℕ → α) :
    l.foldl (fun a i => Function.update a (q i) (h i (a (q i)))) a (q i) = h i (a (q i)) := by
  induction l generalizing a with
  | nil => cases hi
  | cons k l ih =>
    obtain ⟨hk, hl⟩ := List.nodup_cons.mp hl
    rw [List.foldl_cons]
    rcases List.mem_cons.mp hi with rfl | hil
    · have hne : ∀ m ∈ l, q m ≠ q i := by
        intro m hm he
        rw [hq he] at hm
        exact hk hm
      rw [foldl_update_of_ne hne, Function.update_self]
    · have hne : q i ≠ q k := fun he => hk (hq he ▸ hil)
      rw [ih hl hil, Function.update_of_ne hne]

lemma overPins_apply (f : BitVec 32 → BitVec 32 → BitVec 32) (chip : Irqchip) (w : ℕ) :
    overPins f chip bitmap w =
      if covers chip w then f (bitmap w) (wordOf chip w) else bitmap w := by
  by_cases hc : covers chip w
  · have hlt : w - chip.pinBase / 32 < 4 := by have := hc.1; have := hc.2; omega
    have hq : Function.Injective fun i : Fin 4 => chip.pinBase / 32 + i := by
      intro i k hik
      exact Fin.ext (Nat.add_left_cancel hik)
    have hf := foldl_update_of_mem (h := fun i old => f old (chip.pinBitmap i)) hq
      (List.nodup_finRange 4) (List.mem_finRange ⟨w - chip.pinBase / 32, hlt⟩) bitmap
    simp only [Nat.add_sub_cancel' hc.1] at hf
    rw [if_pos hc, wordOf, dif_pos hlt]
    exact hf
  · rw [if_neg hc]
    refine foldl_update_of_ne (h := fun i old => f old (chip.pinBitmap i)) (fun i _ hi => hc ?_)
      bitmap
    have := i.isLt
    exact ⟨by omega, by omega⟩

/-- What the loop does to a pin, for an operation on single bits. -/
lemma bit_forEach (hfg : ∀ a b j, j < 32 → (f a b).getLsbD j = g (a.getLsbD j) (b.getLsbD j)) :
    bit (forEachIrqchip p f chips bitmap) pin =
      (chips.filter (window p · pin)).foldl (fun x chip => g x (marks chip pin))
        (bit bitmap pin) := by
  have hj : pin % 32 < 32 := Nat.mod_lt _ (by omega)
  induction chips generalizing bitmap with
  | nil => rfl
  | cons chip chips ih =>
    unfold forEachIrqchip at ih ⊢
    rw [List.foldl_cons, ih]
    by_cases ha : chip.address = p.gicdBase
    · rw [if_neg (not_not.mpr ha)]
      by_cases hc : covers chip (pin / 32)
      · have hw : window p chip pin := ⟨ha, hc⟩
        rw [List.filter_cons_of_pos (by simpa using hw), List.foldl_cons]
        congr 1
        unfold bit marks
        rw [overPins_apply, if_pos hc, hfg _ _ _ hj]
      · have hw : ¬ window p chip pin := fun h => hc h.2
        rw [List.filter_cons_of_neg (by simpa using hw)]
        congr 1
        unfold bit
        rw [overPins_apply, if_neg hc]
    · have hw : ¬ window p chip pin := fun h => ha h.1
      rw [if_pos ha, List.filter_cons_of_neg (by simpa using hw)]

lemma listed_eq : listed p chips pin = (chips.filter (window p · pin)).any (marks · pin) := by
  rw [listed, List.any_filter]

lemma foldl_andNot {α : Type*} (m : α → Bool) (l : List α) (x : Bool) :
    l.foldl (fun x c => x && !m c) x = (x && !l.any m) := by
  induction l generalizing x with
  | nil => simp
  | cons c l ih => rw [List.foldl_cons, ih, List.any_cons, Bool.not_or, Bool.and_assoc]

lemma foldl_or {α : Type*} (m : α → Bool) (l : List α) (x : Bool) :
    l.foldl (fun x c => x || m c) x = (x || l.any m) := by
  induction l generalizing x with
  | nil => simp
  | cons c l ih => rw [List.foldl_cons, ih, List.any_cons, Bool.or_assoc]

lemma foldl_and {α : Type*} (m : α → Bool) (l : List α) (x : Bool) :
    l.foldl (fun x c => x && m c) x = (x && l.all m) := by
  induction l generalizing x with
  | nil => simp
  | cons c l ih => rw [List.foldl_cons, ih, List.all_cons, Bool.and_assoc]

lemma foldl_last {α : Type*} (m : α → Bool) (l : List α) (x : Bool) :
    l.foldl (fun _ c => m c) x = (l.getLast?.map m).getD x := by
  induction l using List.reverseRecOn with
  | nil => rfl
  | append_singleton l c ih => simp

/-- The pins of a cell are taken away. -/
lemma bit_andNot : bit (forEachIrqchip p (fun old pins => old &&& ~~~pins) chips bitmap) pin =
    (bit bitmap pin && !listed p chips pin) := by
  rw [listed_eq, bit_forEach (g := fun x y => x && !y) (by simp_all), foldl_andNot]

lemma bit_or : bit (forEachIrqchip p (fun old pins => old ||| pins) chips bitmap) pin =
    (bit bitmap pin || listed p chips pin) := by
  rw [listed_eq, bit_forEach (g := fun x y => x || y) (by simp_all), foldl_or]

/-- A pin stays where every window that it lies in has it. -/
lemma bit_and : bit (forEachIrqchip p (fun old pins => old &&& pins) chips bitmap) pin =
    (bit bitmap pin && (chips.filter (window p · pin)).all (marks · pin)) := by
  rw [bit_forEach (g := fun x y => x && y) (by simp_all), foldl_and]

/-- The last window wins. -/
lemma bit_copy : bit (forEachIrqchip p (fun _ pins => pins) chips bitmap) pin =
    ((chips.filter (window p · pin)).getLast?.map (marks · pin)).getD (bit bitmap pin) := by
  rw [bit_forEach (g := fun _ y => y) (by simp_all), foldl_last]

lemma copyPins_eq {bitmap' : ℕ → BitVec 32} (h : copyPins p chips bitmap = .ok bitmap') :
    bitmap' = forEachIrqchip p (fun _ pins => pins) chips bitmap := by
  induction chips generalizing bitmap with
  | nil => exact (Except.ok.inj h).symm
  | cons chip chips ih =>
    unfold copyPins at h ih
    rw [List.foldlM_cons] at h
    unfold forEachIrqchip at ih ⊢
    rw [List.foldl_cons]
    by_cases ha : chip.address ≠ p.gicdBase
    · rw [if_pos ha] at h ⊢
      exact ih h
    · rw [if_neg ha] at h ⊢
      by_cases hv : chip.valid
      · rw [if_neg (not_not.mpr hv)] at h
        exact ih h
      · rw [if_pos hv] at h
        cases h

end Loops

/-! ### Cells -/

section Cells

variable {p : Platform} {chips : List Irqchip} {cpus : ℕ → Bool} {pin : ℕ}
  {root cell : ConfiguredCell}

/-- The last window that a listed pin lies in lists it too. -/
def Unshadowed (p : Platform) (chips : List Irqchip) : Prop :=
  ∀ pin, isSpi pin → listed p chips pin = true →
    ∃ chip, (chips.filter (window p · pin)).getLast? = some chip ∧ marks chip pin = true

/-- The cell has the pins that it lists. -/
def HasOwn (p : Platform) (cell : ConfiguredCell) : Prop :=
  ∀ pin, isSpi pin → irqchipIrqInCell cell.toCell pin = listed p cell.irqchips pin

lemma ownPins_spec (h : ownPins p (fresh chips cpus) = .ok cell) :
    cell.irqchips = chips ∧ ∀ pin, isSpi pin → irqchipIrqInCell cell.toCell pin =
      ((chips.filter (window p · pin)).getLast?.map (marks · pin)).getD false := by
  unfold ownPins at h
  cases hc : copyPins p (fresh chips cpus).irqchips (fresh chips cpus).irqBitmap with
  | error e => rw [hc] at h; cases h
  | ok bitmap =>
    rw [hc] at h
    obtain rfl := Except.ok.inj h
    refine ⟨rfl, fun pin hs => ?_⟩
    rw [irqInCell_eq _ hs]
    have hw : pin / 32 ≠ 0 := by have := hs.1; omega
    have hb : bit bitmap pin = _ := congrArg (bit · pin) (copyPins_eq hc)
    unfold bit at hb ⊢
    simp only
    rw [Function.update_of_ne hw, hb]
    refine bit_copy.trans ?_
    simp [bit, fresh]

lemma hasOwn_iff (h : ownPins p (fresh chips cpus) = .ok cell) :
    HasOwn p cell ↔ Unshadowed p chips := by
  obtain ⟨hi, hb⟩ := ownPins_spec h
  unfold HasOwn Unshadowed
  refine forall_congr' fun pin => forall_congr' fun hs => ?_
  rw [hb pin hs, hi, listed_eq]
  generalize chips.filter (window p · pin) = l
  cases hl : l.getLast? with
  | none =>
    obtain rfl := List.getLast?_eq_none_iff.mp hl
    simp
  | some chip =>
    have hmem := List.mem_of_getLast? hl
    simp only [Option.map_some, Option.getD_some, Option.some.injEq, exists_eq_left']
    constructor
    · intro h ha
      rw [h, ha]
    · intro h
      rw [Bool.eq_iff_iff]
      exact ⟨fun hm => List.any_eq_true.mpr ⟨chip, hmem, hm⟩, h⟩

/-- The root cell after a cell is created. -/
lemma irqchipCellInit_spec {r : ConfiguredCell × ConfiguredCell}
    (h : irqchipCellInit p root (fresh chips cpus) = .ok r) :
    ownPins p (fresh chips cpus) = .ok r.2 ∧ r.1.irqchips = root.irqchips ∧
      ∀ pin, isSpi pin → irqchipIrqInCell r.1.toCell pin =
        (irqchipIrqInCell root.toCell pin && !listed p chips pin) := by
  unfold irqchipCellInit at h
  cases hc : ownPins p (fresh chips cpus) with
  | error e => rw [hc] at h; cases h
  | ok cell =>
    rw [hc] at h
    obtain rfl := Except.ok.inj h
    refine ⟨rfl, rfl, fun pin hs => ?_⟩
    rw [irqInCell_eq _ hs, irqInCell_eq _ hs, ← (ownPins_spec hc).1]
    exact bit_andNot

/-- The root cell after a cell has ended. -/
lemma irqchipCellExit_spec :
    (irqchipCellExit p root cell).irqchips = root.irqchips ∧
      ∀ pin, isSpi pin → irqchipIrqInCell (irqchipCellExit p root cell).toCell pin =
        ((irqchipIrqInCell root.toCell pin || listed p cell.irqchips pin) &&
          (root.irqchips.filter (window p · pin)).all (marks · pin)) := by
  refine ⟨rfl, fun pin hs => ?_⟩
  rw [irqInCell_eq _ hs, irqInCell_eq _ hs]
  exact bit_and.trans (congrArg (· && _) bit_or)

end Cells

/-! ### The partition -/

section Partition

variable {p : Platform} {s t : System} {a : Act} {id : ℕ} {cell : ConfiguredCell}

/-- No cell lists the pin. -/
def Unclaimed (p : Platform) (cells : ℕ → Option ConfiguredCell) (pin : ℕ) : Prop :=
  ∀ id cell, cells id = some cell → listed p cell.irqchips pin = false

/-- Every cell has the pins that it lists, and the root cell has the pins it lists that no cell
does. -/
structure Partitioned (p : Platform) (s : System) : Prop where
  cells : ∀ id cell, s.cells id = some cell → HasOwn p cell
  root : ∀ pin, isSpi pin → (irqchipIrqInCell s.root.toCell pin = true ↔
    listed p s.root.irqchips pin = true ∧ Unclaimed p s.cells pin)

/-- A new cell lists no pin of a cell that is there. -/
def DisjointPins (p : Platform) (s : System) : Act → Prop
  | .create _ chips _ => ∀ pin, isSpi pin → listed p chips pin = true → Unclaimed p s.cells pin
  | .destroy _ => True

/-- The masking of the pins of the cell gives back what the root cell lists: a pin that it does
not list lies in some window of it, and a pin that it lists is in every window it lies in. -/
def Returned (p : Platform) (s : System) (id : ℕ) (cell : ConfiguredCell) : Prop :=
  ∀ pin, isSpi pin →
    (listed p cell.irqchips pin = true → listed p s.root.irqchips pin = false →
      ∃ chip ∈ s.root.irqchips, window p chip pin) ∧
    (listed p s.root.irqchips pin = true → Unclaimed p (Function.update s.cells id none) pin →
      ∀ chip ∈ s.root.irqchips, window p chip pin → marks chip pin = true)

/-- The condition on the steps. -/
def Meets (p : Platform) (s : System) : Act → Prop
  | .create _ chips _ => Unshadowed p chips
  | .destroy id => ∀ cell, s.cells id = some cell → Returned p s id cell

/-- No two cells list the same pin. -/
def Apart (p : Platform) (cells : ℕ → Option ConfiguredCell) : Prop :=
  ∀ pin, isSpi pin → ∀ id cell, cells id = some cell → listed p cell.irqchips pin = true →
    Unclaimed p (Function.update cells id none) pin

/-- The cells that remain. -/
lemma of_removed {cells : ℕ → Option ConfiguredCell} {k : ℕ}
    (h : Function.update cells id none k = some cell) : k ≠ id ∧ cells k = some cell := by
  by_cases hid : k = id
  · subst hid
    rw [Function.update_self] at h
    cases h
  · rw [Function.update_of_ne hid] at h
    exact ⟨hid, h⟩

lemma unclaimed_update (cells : ℕ → Option ConfiguredCell) (id : ℕ) (cell : ConfiguredCell)
    (pin : ℕ) : Unclaimed p (Function.update cells id (some cell)) pin ↔
      listed p cell.irqchips pin = false ∧ Unclaimed p (Function.update cells id none) pin := by
  constructor
  · intro h
    refine ⟨h id cell (Function.update_self ..), fun k c hk => ?_⟩
    obtain ⟨hid, hk⟩ := of_removed hk
    exact h k c (by rwa [Function.update_of_ne hid])
  · rintro ⟨hc, h⟩ k c hk
    by_cases hid : k = id
    · subst hid
      rw [Function.update_self] at hk
      exact Option.some.inj hk ▸ hc
    · rw [Function.update_of_ne hid] at hk
      exact h k c (by rwa [Function.update_of_ne hid])

/-- What a step leaves. -/
lemma create_spec {chips : List Irqchip} {cpus : ℕ → Bool}
    (h : step p s (.create id chips cpus) = some t) :
    s.cells id = none ∧ ∃ cell, ownPins p (fresh chips cpus) = .ok cell ∧
      t.cells = Function.update s.cells id (some cell) ∧ t.root.irqchips = s.root.irqchips ∧
      ∀ pin, isSpi pin → irqchipIrqInCell t.root.toCell pin =
        (irqchipIrqInCell s.root.toCell pin && !listed p chips pin) := by
  simp only [step] at h
  split at h
  · cases h
  · rename_i hn
    obtain ⟨r, hr, rfl⟩ := Option.map_eq_some_iff.mp h
    refine ⟨by simpa using hn, r.2, ?_⟩
    cases hc : irqchipCellInit p s.root (fresh chips cpus) with
    | error e => rw [hc] at hr; cases hr
    | ok r' =>
      rw [hc] at hr
      obtain rfl : r' = r := Option.some.inj hr
      obtain ⟨ho, hi, hb⟩ := irqchipCellInit_spec hc
      exact ⟨ho, rfl, hi, hb⟩

lemma destroy_spec (h : step p s (.destroy id) = some t) :
    ∃ cell, s.cells id = some cell ∧
      t = ⟨irqchipCellExit p s.root cell, Function.update s.cells id none⟩ := by
  obtain ⟨cell, hc, rfl⟩ := Option.map_eq_some_iff.mp h
  exact ⟨cell, hc, rfl⟩

lemma apart_step (h : Apart p s.cells) (hd : DisjointPins p s a) (hst : step p s a = some t) :
    Apart p t.cells := by
  cases a with
  | create id chips cpus =>
    obtain ⟨hn, cell, ho, hcells, -, -⟩ := create_spec hst
    have hi := (ownPins_spec ho).1
    rw [hcells]
    intro pin hs k c hk hl
    by_cases hid : k = id
    · subst hid
      rw [Function.update_self] at hk
      obtain rfl := Option.some.inj hk
      rw [Function.update_idem, ← hn, Function.update_eq_self]
      exact hd pin hs (by rwa [← hi])
    · rw [Function.update_of_ne hid] at hk
      rw [Function.update_comm (Ne.symm hid), unclaimed_update, hi]
      constructor
      · by_contra hc
        have := hd pin hs (by simpa using hc) k c hk
        rw [hl] at this
        exact absurd this (by decide)
      · intro k' c' hk'
        exact h pin hs k c hk hl k' c' (of_removed hk').2
  | destroy id =>
    obtain ⟨cell, hc, rfl⟩ := destroy_spec hst
    intro pin hs k c hk hl k' c' hk'
    obtain ⟨hne, hk'⟩ := of_removed hk'
    refine h pin hs k c (of_removed hk).2 hl k' c' ?_
    rw [Function.update_of_ne hne]
    exact (of_removed hk').2

lemma partitioned_create {chips : List Irqchip} {cpus : ℕ → Bool} (h : Partitioned p s)
    (hst : step p s (.create id chips cpus) = some t) :
    Partitioned p t ↔ Unshadowed p chips := by
  obtain ⟨hn, cell, ho, hcells, hroot, hbit⟩ := create_spec hst
  have hi := (ownPins_spec ho).1
  have hself : Function.update s.cells id none = s.cells := by
    rw [← hn, Function.update_eq_self]
  rw [← hasOwn_iff ho]
  constructor
  · intro ht
    exact ht.cells id cell (by rw [hcells, Function.update_self])
  · intro hown
    refine ⟨fun k c hk => ?_, fun pin hs => ?_⟩
    · rw [hcells] at hk
      by_cases hid : k = id
      · subst hid
        rw [Function.update_self] at hk
        exact Option.some.inj hk ▸ hown
      · rw [Function.update_of_ne hid] at hk
        exact h.cells k c hk
    · rw [hbit pin hs, hroot, hcells, unclaimed_update, hself, hi, Bool.and_eq_true,
        h.root pin hs, Bool.not_eq_true']
      constructor
      · exact fun hx => ⟨hx.1.1, hx.2, hx.1.2⟩
      · exact fun hx => ⟨⟨hx.1, hx.2.2⟩, hx.2.1⟩

lemma partitioned_destroy (h : Partitioned p s) (ha : Apart p s.cells)
    (hst : step p s (.destroy id) = some t) : Partitioned p t ↔ Meets p s (.destroy id) := by
  obtain ⟨cell, hc, rfl⟩ := destroy_spec hst
  have hself : Function.update s.cells id (some cell) = s.cells := by
    rw [← hc, Function.update_eq_self]
  have hpin : ∀ pin, isSpi pin →
      ((irqchipIrqInCell (irqchipCellExit p s.root cell).toCell pin = true ↔
        listed p s.root.irqchips pin = true ∧ Unclaimed p (Function.update s.cells id none) pin) ↔
      ((listed p cell.irqchips pin = true → listed p s.root.irqchips pin = false →
          ∃ chip ∈ s.root.irqchips, window p chip pin) ∧
        (listed p s.root.irqchips pin = true →
          Unclaimed p (Function.update s.cells id none) pin →
          ∀ chip ∈ s.root.irqchips, window p chip pin → marks chip pin = true))) := by
    intro pin hs
    have hB := h.root pin hs
    rw [← hself, unclaimed_update] at hB
    have hL : listed p cell.irqchips pin = true →
        Unclaimed p (Function.update s.cells id none) pin := ha pin hs id cell hc
    have hR : listed p s.root.irqchips pin = true ↔
        ∃ chip ∈ s.root.irqchips, window p chip pin ∧ marks chip pin = true := by
      simp [listed]
    have hA : (s.root.irqchips.filter (window p · pin)).all (marks · pin) = true ↔
        ∀ chip ∈ s.root.irqchips, window p chip pin → marks chip pin = true := by
      simp [← imp_iff_not_or]
    rw [irqchipCellExit_spec.2 pin hs, Bool.and_eq_true, Bool.or_eq_true, hB, hA]
    constructor
    · intro hx
      refine ⟨fun hl hr => ?_, fun hr hu => (hx.mpr ⟨hr, hu⟩).2⟩
      by_contra hno
      have := (hx.mp ⟨.inr hl, fun chip hm hw => absurd ⟨chip, hm, hw⟩ hno⟩).1
      rw [hr] at this
      exact absurd this (by decide)
    · rintro ⟨hwin, hall⟩
      constructor
      · rintro ⟨hb | hl, hm⟩
        · exact ⟨hb.1, hb.2.2⟩
        · refine ⟨?_, hL hl⟩
          by_contra hr
          obtain ⟨chip, hmem, hw⟩ := hwin hl (by simpa using hr)
          exact hr (hR.mpr ⟨chip, hmem, hw, hm chip hmem hw⟩)
      · rintro ⟨hr, hu⟩
        refine ⟨?_, hall hr hu⟩
        cases hl : listed p cell.irqchips pin with
        | false => exact .inl ⟨hr, rfl, hu⟩
        | true => exact .inr rfl
  constructor
  · intro ht c hc'
    obtain rfl : cell = c := Option.some.inj (hc.symm.trans hc')
    exact fun pin hs => (hpin pin hs).mp (ht.root pin hs)
  · intro hm
    refine ⟨fun k c hk => h.cells k c (of_removed hk).2, fun pin hs => ?_⟩
    exact (hpin pin hs).mpr (hm cell hc pin hs)

end Partition

/-! ### Runs -/

lemma partitioned_boot {p : Platform} {chips : List Irqchip} {cpus : ℕ → Bool} {s : System}
    (h : boot p chips cpus = some s) : Partitioned p s ↔ Unshadowed p chips := by
  obtain ⟨root, hr, rfl⟩ := Option.map_eq_some_iff.mp h
  cases hc : ownPins p (fresh chips cpus) with
  | error e => rw [hc] at hr; cases hr
  | ok root' =>
    rw [hc] at hr
    obtain rfl : root' = root := Option.some.inj hr
    rw [← hasOwn_iff hc]
    have hu : ∀ pin, Unclaimed p (fun _ => none) pin := by
      intro pin k c hk
      cases hk
    constructor
    · intro hp pin hs
      rw [Bool.eq_iff_iff, hp.root pin hs]
      exact and_iff_left (hu pin)
    · intro hown
      refine ⟨nofun, fun pin hs => ?_⟩
      rw [hown pin hs]
      exact (and_iff_left (hu pin)).symm

/-- **Interrupts are partitioned** between the cells all along exactly when no copy hides a pin
and no mask gives one back wrongly. -/
theorem partitioned_iff (p : Platform) (chips : List Irqchip) (cpus : ℕ → Bool) (s t : System)
    (as : List Act) (hb : boot p chips cpus = some s)
    (hd : Along (step p) (DisjointPins p) s as) (he : exec (step p) s as = some t) :
    Always (step p) (Partitioned p) s as ↔
      Unshadowed p chips ∧ Along (step p) (Meets p) s as := by
  by_cases hu : Unshadowed p chips
  · have hinit : Partitioned p s ∧ Apart p s.cells := by
      refine ⟨(partitioned_boot hb).mpr hu, ?_⟩
      obtain ⟨root, -, rfl⟩ := Option.map_eq_some_iff.mp hb
      intro pin _ id cell hc
      cases hc
    have hstep : ∀ s a t, Partitioned p s ∧ Apart p s.cells → DisjointPins p s a →
        step p s a = some t →
        (Meets p s a ∧ Partitioned p t ∧ Apart p t.cells) ∨ (¬ Meets p s a ∧ ¬ Partitioned p t) := by
      rintro s a t ⟨hp, ha⟩ hda hst
      have hiff : Partitioned p t ↔ Meets p s a := by
        cases a with
        | create id chips cpus => exact partitioned_create hp hst
        | destroy id => exact partitioned_destroy hp ha hst
      by_cases hm : Meets p s a
      · exact .inl ⟨hm, hiff.mpr hm, apart_step ha hda hst⟩
      · exact .inr ⟨hm, fun ht => hm (hiff.mp ht)⟩
    rw [always_iff_along_of (fun _ h => h.1) hstep hinit hd he]
    exact (and_iff_right hu).symm
  · refine iff_of_false (fun h => hu ?_) (fun h => hu h.1)
    exact (partitioned_boot hb).mp (h [] as s rfl rfl)

/-- A descriptor with pins of its first word. -/
def chipAt (pinBase : ℕ) (pins : BitVec 32) : Irqchip :=
  ⟨0, pinBase, fun pos => if pos.val = 0 then pins else 0#32⟩

lemma listed_singleton {p : Platform} {chip : Irqchip} {pin : ℕ}
    (h : listed p [chip] pin = true) : window p chip pin ∧ marks chip pin = true := by
  simpa [listed] using h

lemma unshadowed_singleton (p : Platform) (chip : Irqchip) : Unshadowed p [chip] := by
  intro pin _ hl
  obtain ⟨hw, hm⟩ := listed_singleton hl
  exact ⟨chip, by simp [hw], hm⟩

theorem partitioned_createDestroy :
    ∃ s t, boot ⟨0, 25⟩ [chipAt 32 0xf] (fun _ => true) = some s ∧
      exec (step ⟨0, 25⟩) s [.create 1 [chipAt 32 0x11] fun _ => false, .destroy 1] = some t ∧
      Always (step ⟨0, 25⟩) (Partitioned ⟨0, 25⟩) s
        [.create 1 [chipAt 32 0x11] fun _ => false, .destroy 1] := by
  refine ⟨_, _, rfl, rfl, (partitioned_iff ⟨0, 25⟩ [chipAt 32 0xf] (fun _ => true) _ _ _ rfl ?_
    rfl).mpr ⟨unshadowed_singleton _ _, unshadowed_singleton _ _, fun t ht => ⟨?_, ?_⟩⟩⟩
  · refine ⟨fun pin _ _ id cell hc => ?_, fun t _ => ⟨trivial, fun _ _ => trivial⟩⟩
    cases hc
  · intro cell hc pin _
    obtain rfl := Option.some.inj ht
    obtain rfl := Option.some.inj hc
    refine ⟨fun hl _ => ⟨chipAt 32 0xf, List.mem_singleton_self _, ?_⟩, fun hl _ chip hm _ => ?_⟩
    · have hl' : listed ⟨0, 25⟩ [chipAt 32 0x11] pin = true := hl
      exact (listed_singleton hl').1
    · obtain rfl : chip = chipAt 32 0xf := List.mem_singleton.mp hm
      exact (listed_singleton (p := ⟨0, 25⟩) hl).2
  · exact fun _ _ => trivial

/-- The root cell gets a pin that it does not list, of a word that it has no descriptor for. -/
theorem foreign_pin_returned :
    ∃ s t, boot ⟨0, 25⟩ [chipAt 32 0xf] (fun _ => true) = some s ∧
      Along (step ⟨0, 25⟩) (DisjointPins ⟨0, 25⟩) s
        [.create 1 [chipAt 160 0x1] fun _ => false, .destroy 1] ∧
      exec (step ⟨0, 25⟩) s [.create 1 [chipAt 160 0x1] fun _ => false, .destroy 1] = some t ∧
      ¬ Partitioned ⟨0, 25⟩ t := by
  refine ⟨_, _, rfl, ?_, rfl, fun h => ?_⟩
  · refine ⟨fun pin _ _ id cell hc => ?_, fun t _ => ⟨trivial, fun _ _ => trivial⟩⟩
    cases hc
  · have hroot := (h.root 160 (by decide)).mp (by decide +kernel)
    exact absurd hroot.1 (by decide +kernel)

end FpMemSched.IrqsOwned
