import FpMemSched.Distributor

/-!
What a guest reaches of the distributor.

The hypervisor masks whole registers, but the value of an access to a part of a register starts
at the lowest byte of that part. So the mask fits where the interrupts at the lowest bytes of the
register belong to the cell exactly as those at the accessed bytes do, which every access to the
lowest bytes meets. For the targets the access is made to the whole word instead, and the rest of
the word is then written too.
-/

namespace FpMemSched.DistributorOwned

open FpMemSched.Distributor

/-! ### Bits -/

section Bits

variable {w n j : ℕ}

lemma foldl_or_bit (P : ℕ → Bool) (f : ℕ → BitVec w) (n j : ℕ) :
    ((List.range n).foldl (fun mask i => if P i then mask ||| f i else mask) 0).getLsbD j =
      (List.range n).any fun i => P i && (f i).getLsbD j := by
  induction n with
  | zero => simp
  | succ n ih =>
    rw [List.range_succ, List.foldl_append, List.any_append, ← ih]
    rw [List.foldl_cons, List.foldl_nil, List.any_cons, List.any_nil, Bool.or_false]
    cases P n <;> simp

/-- Of fields side by side only one has the bit. -/
lemma any_field {b : ℕ} (P : ℕ → Bool) (hb : 0 < b) :
    ((List.range n).any fun i => P i && decide (i * b ≤ j ∧ j < i * b + b)) =
      (decide (j < n * b) && P (j / b)) := by
  rw [Bool.eq_iff_iff, List.any_eq_true, Bool.and_eq_true, decide_eq_true_iff]
  constructor
  · rintro ⟨i, hi, h⟩
    rw [Bool.and_eq_true, decide_eq_true_iff] at h
    have hij : j / b = i := by
      apply Nat.div_eq_of_lt_le
      · exact h.2.1
      · rw [Nat.succ_mul]; exact h.2.2
    refine ⟨?_, hij ▸ h.1⟩
    rw [← Nat.div_lt_iff_lt_mul hb, hij]
    exact List.mem_range.mp hi
  · rintro ⟨hj, hP⟩
    refine ⟨j / b, List.mem_range.mpr ((Nat.div_lt_iff_lt_mul hb).mpr hj), ?_⟩
    rw [Bool.and_eq_true, decide_eq_true_iff]
    have hdm := Nat.div_add_mod' j b
    have := Nat.mod_lt j hb
    exact ⟨hP, by omega, by omega⟩

/-- Ones for fields of `b` bits side by side, where they are wanted. -/
lemma foldl_fields_bit {b : ℕ} (P : ℕ → Bool) (x : BitVec w) (hb : 0 < b) (hn : n * b ≤ w)
    (hx : ∀ i, x.getLsbD i = decide (i < b)) :
    ((List.range n).foldl (fun mask i => if P i then mask ||| (x <<< (i * b)) else mask)
      0).getLsbD j = (decide (j < n * b) && P (j / b)) := by
  rw [foldl_or_bit, ← any_field P hb]
  rw [Bool.eq_iff_iff, List.any_eq_true, List.any_eq_true]
  refine exists_congr fun i => and_congr_right fun hi => ?_
  have hin := List.mem_range.mp hi
  have : i * b + b ≤ n * b := by
    rw [← Nat.succ_mul]; exact Nat.mul_le_mul_right b hin
  rw [BitVec.getLsbD_shiftLeft, hx]
  simp only [Bool.and_eq_true, Bool.not_eq_true', decide_eq_true_iff, decide_eq_false_iff_not]
  refine and_congr_right fun _ => ?_
  omega

end Bits

/-! ### Masks -/

variable (cell : Cell) {κ : Kind} {k j : ℕ}

/-- The bit of the register is one of an interrupt of the cell. -/
def owns (κ : Kind) (k j : ℕ) : Bool :=
  irqchipIrqInCell cell (k * (32 / κ.bits) + j / κ.bits)

lemma accessMask_bit (k j : ℕ) :
    (accessMask cell k κ.bits).getLsbD j = (decide (j < 32) && owns cell κ k j) := by
  have hb : 0 < κ.bits := by cases κ <;> decide
  have hn : 32 >>> ffsl κ.bits = 32 / κ.bits := by cases κ <;> decide
  have h32 : 32 / κ.bits * κ.bits = 32 := by cases κ <;> rfl
  have hx : (1 <<< κ.bits - 1 : BitVec 64) = (BitVec.allOnes κ.bits).setWidth 64 := by
    cases κ <;> decide
  have hk : κ.bits ≤ 8 := by cases κ <;> decide
  unfold accessMask owns
  simp only [hn]
  rw [foldl_fields_bit (fun i => irqchipIrqInCell cell (k * (32 / κ.bits) + i)) _ hb (by omega),
    h32]
  intro i
  rw [hx, BitVec.getLsbD_setWidth, BitVec.getLsbD_allOnes]
  rw [Bool.eq_iff_iff]
  simp only [Bool.and_eq_true, decide_eq_true_iff]
  omega

/-- The ones of the interrupts of the cell in a word of targets. -/
def targetMask (cell : Cell) (irqBase : ℕ) : BitVec 32 :=
  (List.range 4).foldl (fun mask n =>
    if irqchipIrqInCell cell (irqBase + n) then mask ||| ((0xff : BitVec 32) <<< (8 * n))
    else mask) 0

lemma targetMask_bit (k j : ℕ) :
    (targetMask cell (4 * k)).getLsbD j = (decide (j < 32) && owns cell .targets k j) := by
  have hx : (0xff : BitVec 32) = (BitVec.allOnes 8).setWidth 32 := by decide
  have h8 : Kind.targets.bits = 8 := rfl
  unfold targetMask owns
  simp only [Nat.mul_comm 8, Nat.mul_comm 4 k, h8, Nat.reduceDiv]
  refine foldl_fields_bit (fun n => irqchipIrqInCell cell (k * 4 + n)) _ (by omega) (by omega)
    fun i => ?_
  rw [hx, BitVec.getLsbD_setWidth, BitVec.getLsbD_allOnes, Bool.eq_iff_iff]
  simp only [Bool.and_eq_true, decide_eq_true_iff]
  omega

/-! ### Accesses to the device -/

/-- The lowest bit of the register that is accessed. -/
def lowest (m : MmioAccess) : ℕ := 8 * (m.address % 4)

/-- The bits of the register that are accessed. -/
def addressed (m : MmioAccess) (j : ℕ) : Prop := lowest m ≤ j ∧ j < lowest m + 8 * m.size

instance (m : MmioAccess) (j : ℕ) : Decidable (addressed m j) :=
  inferInstanceAs (Decidable (_ ∧ _))

/-- What a bit becomes when it is written. -/
def onBit : Effect → Bool → Bool → Bool
  | .plain, _, v => v
  | .set, old, v => old || v
  | .clear, old, v => old && !v

variable {d : Dist} {m : MmioAccess} {b : Bank}

lemma reach_bit (hj : j < 32) : (reach m).getLsbD j = decide (addressed m j) := by
  rw [Bool.eq_iff_iff, decide_eq_true_iff]
  unfold reach addressed lowest
  rw [BitVec.getLsbD_shiftLeft, BitVec.getLsbD_setWidth, BitVec.getLsbD_allOnes]
  simp only [Bool.and_eq_true, Bool.not_eq_true', decide_eq_true_iff, decide_eq_false_iff_not]
  omega

lemma apply_bit (e : Effect) (old bits : BitVec 32) (hj : j < 32) :
    (e.apply old (reach m) bits).getLsbD j =
      if addressed m j then onBit e (old.getLsbD j) (bits.getLsbD j) else old.getLsbD j := by
  have hr : (reach m)[j] = decide (addressed m j) := reach_bit hj
  by_cases ha : addressed m j <;> cases e <;> simp [Effect.apply, onBit, hr, ha, hj]

lemma shifted_bit (v : BitVec 64) (o : ℕ) (hj : j < 32) :
    ((v <<< o).setWidth 32).getLsbD j = (decide (o ≤ j) && v.getLsbD (j - o)) := by
  rw [BitVec.getLsbD_setWidth, BitVec.getLsbD_shiftLeft, Bool.eq_iff_iff]
  simp only [Bool.and_eq_true, Bool.not_eq_true', decide_eq_true_iff, decide_eq_false_iff_not]
  constructor
  · rintro ⟨-, ⟨-, h⟩, hv⟩
    exact ⟨by omega, hv⟩
  · rintro ⟨h, hv⟩
    exact ⟨hj, ⟨by omega, by omega⟩, hv⟩

lemma perform_read (hd : decode m.address = some (b, k)) (hw : m.isWrite = false) :
    mmioPerformAccess d m = (d, { m with value :=
      (((d b.kind k) >>> lowest m).setWidth (8 * m.size)).setWidth 64 }) := by
  simp [mmioPerformAccess, hd, hw, lowest]

lemma read_value_bit (x : BitVec 32) {i : ℕ} (hs : m.size ≤ 4) :
    (((x >>> lowest m).setWidth (8 * m.size)).setWidth 64).getLsbD i =
      (decide (i < 8 * m.size) && x.getLsbD (lowest m + i)) := by
  rw [BitVec.getLsbD_setWidth, BitVec.getLsbD_setWidth, BitVec.getLsbD_ushiftRight,
    Bool.eq_iff_iff]
  simp only [Bool.and_eq_true, decide_eq_true_iff]
  constructor
  · exact fun h => h.2
  · exact fun h => ⟨by omega, h⟩

/-- A write changes the accessed bits of its register. -/
lemma perform_write (hd : decode m.address = some (b, k)) (hw : m.isWrite = true) :
    (mmioPerformAccess d m).1 = Function.update d b.kind (Function.update (d b.kind) k
      (b.effect.apply (d b.kind k) (reach m) ((m.value <<< lowest m).setWidth 32))) := by
  simp [mmioPerformAccess, hd, hw, lowest]

lemma written_bit (hd : decode m.address = some (b, k)) (hw : m.isWrite = true) (κ' : Kind)
    (k' : ℕ) (hj : j < 32) :
    ((mmioPerformAccess d m).1 κ' k').getLsbD j =
      if κ' = b.kind ∧ k' = k ∧ addressed m j then
        onBit b.effect ((d b.kind k).getLsbD j) (m.value.getLsbD (j - lowest m))
      else (d κ' k').getLsbD j := by
  rw [perform_write hd hw]
  by_cases hκ : κ' = b.kind
  · subst hκ
    rw [Function.update_self]
    by_cases hk : k' = k
    · subst hk
      rw [Function.update_self, apply_bit _ _ _ hj, shifted_bit _ _ hj]
      by_cases ha : addressed m j
      · simp [ha, ha.1]
      · simp [ha]
    · rw [Function.update_of_ne hk, if_neg (fun h => hk h.2.1)]
  · rw [Function.update_of_ne hκ, if_neg (fun h => hκ h.1)]

/-! ### Restricted accesses -/

variable {cell} {map : List (BitVec 8)}

lemma decode_spec {a : ℕ} (h : decode a = some (b, k)) :
    b ∈ banks ∧ b.base ≤ a ∧ a < b.base + 4 * b.words ∧ k = (a - b.base) / 4 := by
  obtain ⟨c, hf, hc⟩ := Option.map_eq_some_iff.mp h
  obtain ⟨rfl, rfl⟩ := Prod.mk.inj hc
  have hr := List.find?_some hf
  rw [decide_eq_true_iff] at hr
  exact ⟨List.mem_of_find?_eq_some hf, hr.1, hr.2, rfl⟩

/-- The access gets as far as the register. -/
def served (b : Bank) (m : MmioAccess) : Prop := regRange b 4 m.address

instance (b : Bank) (m : MmioAccess) : Decidable (served b m) :=
  inferInstanceAs (Decidable (regRange _ _ _))

/-- The accesses to a bank other than the targets are restricted by its bits per interrupt. -/
lemma access_restricted (hd : decode m.address = some (b, k)) (hb : b ≠ itargetsr) :
    gicHandleDistAccess map cell d m =
      if served b m then
        restrictBitmaskAccess cell d m k b.kind.bits (decide (b.effect ≠ .plain))
      else (.handled, d, m) := by
  obtain ⟨hmem, hlo, hhi, rfl⟩ := decode_spec hd
  simp only [banks, List.mem_cons, List.not_mem_nil, or_false] at hmem
  clear hd
  -- no two banks share an address
  split
  all_goals
    rename_i hs
    unfold served at hs
    simp only [gicHandleDistAccess]
    obtain rfl | rfl | rfl | rfl | rfl | rfl | rfl | rfl | rfl | rfl := hmem
    case inr.inr.inr.inr.inr.inr.inr.inr.inl => exact absurd rfl hb
    all_goals
      clear hb
      split_ifs
      all_goals
        simp only [regRange, igroupr, isenabler, icenabler, ispendr, icpendr, isactiver,
          icactiver, ipriorityr, itargetsr, icfgr, Kind.bits, ne_eq, reduceCtorEq,
          not_false_eq_true, not_true_eq_false, decide_true, decide_false] at *
      all_goals first
        | omega
        | (refine congrArg (fun k => restrictBitmaskAccess cell d m k _ _) ?_; omega)

lemma onBit_false (e : Effect) (old : Bool) (he : e ≠ .plain) : onBit e old false = old := by
  cases e <;> simp_all [onBit]

/-- A read gives the accessed bits, as far as the mask lets them pass. -/
lemma restrict_read (hd : decode m.address = some (b, k)) (hs : m.size ≤ 4)
    (hw : m.isWrite = false) (p : Bool) :
    let r := restrictBitmaskAccess cell d m k b.kind.bits p
    r.2.1 = d ∧ ∀ i, r.2.2.value.getLsbD i =
      (decide (i < 8 * m.size) && (d b.kind k).getLsbD (lowest m + i) && owns cell b.kind k i) := by
  simp only [restrictBitmaskAccess, hw, if_true, perform_read hd hw, true_and]
  intro i
  rw [BitVec.getLsbD_and, read_value_bit _ hs, accessMask_bit, Bool.eq_iff_iff]
  simp only [Bool.and_eq_true, decide_eq_true_iff]
  constructor
  · exact fun h => ⟨h.1, h.2.2⟩
  · exact fun h => ⟨h.1, by omega, h.2⟩

/-- A write reaches the accessed bits, as far as the mask lets them pass. -/
lemma restrict_write (hd : decode m.address = some (b, k)) (hs : m.size ≤ 4)
    (hw : m.isWrite = true) (κ' : Kind) (k' : ℕ) (hj : j < 32) :
    let r := restrictBitmaskAccess cell d m k b.kind.bits (decide (b.effect ≠ .plain))
    (r.2.1 κ' k').getLsbD j =
      if κ' = b.kind ∧ k' = k ∧ addressed m j ∧ owns cell b.kind k (j - lowest m) = true then
        onBit b.effect ((d b.kind k).getLsbD j) (m.value.getLsbD (j - lowest m))
      else (d κ' k').getLsbD j := by
  have hmask := accessMask_bit cell (κ := b.kind) k (j - lowest m)
  rw [decide_eq_true (by omega : j - lowest m < 32), Bool.true_and] at hmask
  intro r
  -- some value is written to the accessed bits
  obtain ⟨v, hr, hv⟩ : ∃ v, r.2.1 = (mmioPerformAccess d { m with value := v }).1 ∧
      (addressed m j → onBit b.effect ((d b.kind k).getLsbD j) (v.getLsbD (j - lowest m)) =
        if owns cell b.kind k (j - lowest m) = true then
          onBit b.effect ((d b.kind k).getLsbD j) (m.value.getLsbD (j - lowest m))
        else (d b.kind k).getLsbD j) := by
    by_cases he : b.effect = .plain
    · refine ⟨(((((d b.kind k) >>> lowest m).setWidth (8 * m.size)).setWidth 64) &&&
        ~~~accessMask cell k b.kind.bits) ||| (m.value &&& accessMask cell k b.kind.bits), ?_, ?_⟩
      · simp only [r, restrictBitmaskAccess, hw, he, ne_eq, not_true_eq_false, decide_false,
          Bool.true_eq_false, if_false, if_true]
        rw [perform_read (m := { m with isWrite := false }) hd rfl]
        simp [lowest]
      · intro ha
        rw [BitVec.getLsbD_or, BitVec.getLsbD_and, BitVec.getLsbD_and, BitVec.getLsbD_not, hmask,
          read_value_bit _ hs, Nat.add_sub_cancel' ha.1, he]
        have h1 : j - lowest m < 64 := by omega
        have h2 : j - lowest m < 8 * m.size := by have := ha.1; have := ha.2; omega
        cases owns cell b.kind k (j - lowest m) <;> simp [onBit, h1, h2]
    · refine ⟨m.value &&& accessMask cell k b.kind.bits, ?_, ?_⟩
      · simp [r, restrictBitmaskAccess, hw, he]
      · intro ha
        rw [BitVec.getLsbD_and, hmask]
        cases owns cell b.kind k (j - lowest m) <;> simp [onBit_false _ _ he]
  rw [hr, written_bit (m := { m with value := v }) hd hw _ _ hj]
  by_cases hc : κ' = b.kind ∧ k' = k ∧ addressed m j
  · obtain ⟨rfl, rfl, ha⟩ := hc
    rw [if_pos ⟨rfl, rfl, ha⟩]
    simp only [ha, true_and]
    exact hv ha
  · refine (if_neg hc).trans (if_neg fun h => hc ?_).symm
    exact ⟨h.1, h.2.1, h.2.2.1⟩

/-! ### Accesses to the targets -/

lemma decode_targets {a : ℕ} (hlo : itargetsr.base ≤ a)
    (hhi : a < itargetsr.base + 4 * itargetsr.words) :
    decode a = some (itargetsr, (a - itargetsr.base) / 4) := by
  have hno : ([igroupr, isenabler, icenabler, ispendr, icpendr, isactiver, icactiver,
      ipriorityr].find? fun c => decide (c.base ≤ a ∧ a < c.base + 4 * c.words)) = none := by
    rw [List.find?_eq_none]
    simp only [itargetsr] at hlo
    simp only [List.forall_mem_cons, igroupr, isenabler, icenabler, ispendr, icpendr, isactiver,
      icactiver, ipriorityr, decide_eq_true_iff, List.not_mem_nil, false_implies, implies_true,
      and_true]
    omega
  have hb : banks = [igroupr, isenabler, icenabler, ispendr, icpendr, isactiver, icactiver,
      ipriorityr] ++ itargetsr :: [icfgr] := rfl
  unfold decode
  rw [hb, List.find?_append, hno, Option.none_or, List.find?_cons_of_pos (by simp [hlo, hhi])]
  rfl

lemma access_targets (hd : decode m.address = some (itargetsr, k)) :
    gicHandleDistAccess map cell d m =
      gicv2HandleIrqTarget map cell d m (m.address - itargetsr.base) := by
  obtain ⟨-, hlo, hhi, -⟩ := decode_spec hd
  refine if_pos ?_
  simp only [regRange, itargetsr] at hlo hhi ⊢
  omega

/-- The word that an access to the targets is made to. -/
def wordAccess (m : MmioAccess) : MmioAccess :=
  { m with address := m.address - m.address % 4, value := m.value <<< lowest m, size := 4 }

lemma decode_wordAccess (hd : decode m.address = some (itargetsr, k)) :
    decode (wordAccess m).address = some (itargetsr, k) := by
  obtain ⟨-, hlo, hhi, rfl⟩ := decode_spec hd
  have hw : (wordAccess m).address = m.address - m.address % 4 := rfl
  simp only [itargetsr] at hlo hhi
  rw [hw, decode_targets (by simp only [itargetsr]; omega) (by simp only [itargetsr]; omega)]
  simp only [itargetsr, Option.some.injEq, Prod.mk.injEq, true_and]
  omega

lemma lowest_wordAccess : lowest (wordAccess m) = 0 := by
  simp only [lowest, wordAccess]
  omega

lemma handleIrqTarget_eq (hd : decode m.address = some (itargetsr, k))
    (hi : isSpi (m.address - itargetsr.base)) :
    gicHandleDistAccess map cell d m =
      if m.isWrite then
        if routedOutside map cell (4 * k) (m.value <<< lowest m) then (.error, d, wordAccess m)
        else (.handled, mmioPerformAccess d { wordAccess m with
          value := ((m.value <<< lowest m) &&& (targetMask cell (4 * k)).setWidth 64) |||
            ((d .targets k) &&& ~~~targetMask cell (4 * k)).setWidth 64 })
      else
        let r := mmioPerformAccess d (wordAccess m)
        (.handled, r.1, { r.2 with
          value := r.2.value &&& (targetMask cell (4 * k)).setWidth 64 }) := by
  obtain ⟨-, hlo, -, rfl⟩ := decode_spec hd
  rw [access_targets hd]
  have hb : itargetsr.base = 0x800 := rfl
  have h4 : (m.address - itargetsr.base) % 4 = m.address % 4 := by omega
  clear hd hb hlo
  generalize m.address - itargetsr.base = irq at hi h4 ⊢
  have hbase : irq - m.address % 4 = 4 * (irq / 4) := by omega
  have hk : 4 * (irq / 4) / 4 = irq / 4 := by omega
  unfold gicv2HandleIrqTarget
  simp only [h4, hbase, hk]
  rw [if_neg (not_not.mpr hi)]
  rfl

lemma targets_read (hd : decode m.address = some (itargetsr, k))
    (hi : isSpi (m.address - itargetsr.base)) (hw : m.isWrite = false) :
    (gicHandleDistAccess map cell d m).2.1 = d ∧
      ∀ i, (gicHandleDistAccess map cell d m).2.2.value.getLsbD i =
        (decide (i < 32) && (d .targets k).getLsbD i && owns cell .targets k i) := by
  rw [handleIrqTarget_eq hd hi, hw]
  simp only [Bool.false_eq_true, if_false, perform_read (decode_wordAccess hd) hw, true_and]
  intro i
  rw [BitVec.getLsbD_and, read_value_bit _ (Nat.le_refl 4), BitVec.getLsbD_setWidth,
    targetMask_bit, lowest_wordAccess, Nat.zero_add]
  change (decide (i < 8 * 4) && _ && _) = _
  rw [Bool.eq_iff_iff]
  simp only [Bool.and_eq_true, decide_eq_true_iff]
  constructor
  · exact fun h => ⟨h.1, h.2.2.2⟩
  · exact fun h => ⟨h.1, by omega, by omega, h.2⟩

lemma targets_write (hd : decode m.address = some (itargetsr, k))
    (hi : isSpi (m.address - itargetsr.base)) (hw : m.isWrite = true)
    (hr : ¬ routedOutside map cell (4 * k) (m.value <<< lowest m) = true) (κ' : Kind) (k' : ℕ)
    (hj : j < 32) :
    ((gicHandleDistAccess map cell d m).2.1 κ' k').getLsbD j =
      if κ' = .targets ∧ k' = k ∧ owns cell .targets k j = true then
        (decide (lowest m ≤ j) && m.value.getLsbD (j - lowest m))
      else (d κ' k').getLsbD j := by
  rw [handleIrqTarget_eq hd hi, if_pos hw, if_neg hr]
  generalize hv : (m.value <<< lowest m &&& (targetMask cell (4 * k)).setWidth 64 |||
    (d .targets k &&& ~~~targetMask cell (4 * k)).setWidth 64) = v
  have hbit : v.getLsbD j = if owns cell .targets k j = true then
      (decide (lowest m ≤ j) && m.value.getLsbD (j - lowest m))
      else (d .targets k).getLsbD j := by
    have h64 : j < 64 := by omega
    rw [← hv, BitVec.getLsbD_or, BitVec.getLsbD_and, BitVec.getLsbD_setWidth,
      BitVec.getLsbD_setWidth, BitVec.getLsbD_and, BitVec.getLsbD_not, targetMask_bit,
      BitVec.getLsbD_shiftLeft]
    have hlt : (!decide (j < lowest m)) = decide (lowest m ≤ j) := by
      rw [← decide_not, decide_eq_decide]
      omega
    cases owns cell .targets k j <;> simp [hj, h64, hlt]
  have hl : lowest { wordAccess m with value := v } = 0 := lowest_wordAccess
  have ha : addressed { wordAccess m with value := v } j := by
    refine ⟨by omega, ?_⟩
    rw [hl]
    change j < 0 + 8 * 4
    omega
  refine (written_bit (m := { wordAccess m with value := v }) (decode_wordAccess hd) hw _ _
    hj).trans ?_
  change (if _ ∧ _ ∧ _ then v.getLsbD (j - _) else _) = _
  rw [hl, Nat.sub_zero, hbit]
  by_cases hc : κ' = .targets ∧ k' = k
  · obtain ⟨rfl, rfl⟩ := hc
    rw [if_pos ⟨rfl, rfl, ha⟩]
    simp only [true_and]
  · refine (if_neg fun h => hc ⟨h.1, h.2.1⟩).trans (if_neg fun h => hc ⟨h.1, h.2.1⟩).symm

/-! ### Exact accesses -/

/-- The states differ at interrupts of other cells only. -/
def SameOwn (cell : Cell) (d d' : Dist) : Prop :=
  ∀ κ k j, j < 32 → owns cell κ k j = true → (d κ k).getLsbD j = (d' κ k).getLsbD j

/-- A read shows the accessed bits of the cell and nothing of others. -/
structure ReadExact (map : List (BitVec 8)) (cell : Cell) (m : MmioAccess) (κ : Kind) (k : ℕ) :
    Prop where
  unchanged : ∀ d, (gicHandleDistAccess map cell d m).2.1 = d
  hidden : ∀ d d', SameOwn cell d d' →
    (gicHandleDistAccess map cell d m).2.2.value = (gicHandleDistAccess map cell d' m).2.2.value
  shown : ∀ d i, i < 8 * m.size → owns cell κ k (lowest m + i) = true →
    (gicHandleDistAccess map cell d m).2.2.value.getLsbD i = (d κ k).getLsbD (lowest m + i)

/-- A write reaches the accessed bits of the cell and nothing else. -/
structure WriteExact (map : List (BitVec 8)) (cell : Cell) (m : MmioAccess) (b : Bank) (k : ℕ) :
    Prop where
  kept : ∀ d κ' k' j, j < 32 →
    ¬ (κ' = b.kind ∧ k' = k ∧ addressed m j ∧ owns cell b.kind k j = true) →
    ((gicHandleDistAccess map cell d m).2.1 κ' k').getLsbD j = (d κ' k').getLsbD j
  written : ∀ d j, j < 32 → addressed m j → owns cell b.kind k j = true →
    (gicHandleDistAccess map cell d m).1 = .handled →
    ((gicHandleDistAccess map cell d m).2.1 b.kind k).getLsbD j =
      onBit b.effect ((d b.kind k).getLsbD j) (m.value.getLsbD (j - lowest m))
  refused : ∀ d, (gicHandleDistAccess map cell d m).1 = .error →
    (gicHandleDistAccess map cell d m).2.1 = d

/-- The access respects the ownership of interrupts, in every state of the distributor. -/
def Exact (map : List (BitVec 8)) (cell : Cell) (m : MmioAccess) (b : Bank) (k : ℕ) : Prop :=
  (m.isWrite = false → ReadExact map cell m b.kind k) ∧
    (m.isWrite = true → WriteExact map cell m b k)

/-- The lowest bits of the register belong to the cell as the accessed ones do. Of a write that
sets or clears only the ones count. -/
def MaskFits (cell : Cell) (m : MmioAccess) (b : Bank) (k : ℕ) : Prop :=
  ∀ i < 8 * m.size, (m.isWrite = true → b.effect ≠ .plain → m.value.getLsbD i = true) →
    ((served b m ∧ owns cell b.kind k i = true) ↔ owns cell b.kind k (lowest m + i) = true)

/-- The word that the access is widened to has nothing of the cell that the access does not
mean. -/
def WordFits (map : List (BitVec 8)) (cell : Cell) (m : MmioAccess) (k : ℕ) : Prop :=
  if m.isWrite then
    routedOutside map cell (4 * k) (m.value <<< lowest m) = true ∨
      ∀ j < 32, owns cell .targets k j = true → addressed m j
  else
    m.address % 4 = 0 ∨ ∀ i < 8 * m.size, owns cell .targets k (lowest m + i) = false

def Fits (map : List (BitVec 8)) (cell : Cell) (m : MmioAccess) (b : Bank) (k : ℕ) : Prop :=
  if b = itargetsr then WordFits map cell m k else MaskFits cell m b k

/-- Aligned, and of a size that the registers have. -/
structure Aligned (m : MmioAccess) : Prop where
  size : m.size = 1 ∨ m.size = 2 ∨ m.size = 4
  aligned : m.address % m.size = 0

lemma Aligned.fits (h : Aligned m) : lowest m + 8 * m.size ≤ 32 := by
  obtain ⟨hs | hs | hs, ha⟩ := h <;> rw [hs] at ha ⊢ <;> unfold lowest <;> omega

lemma Aligned.size_le (h : Aligned m) : m.size ≤ 4 := by
  have := h.fits
  omega

/-- A state without ones. -/
def zeros : Dist := fun _ _ => 0#32

lemma zeros_bit (i : ℕ) : (zeros κ k).getLsbD i = false := BitVec.getLsbD_zero

/-- A state with a single one. -/
def single (κ : Kind) (k j : ℕ) : Dist :=
  fun κ' k' => if κ' = κ ∧ k' = k then BitVec.twoPow 32 j else 0#32

lemma single_bit (κ' : Kind) (k' i : ℕ) (hj : j < 32) :
    (single κ k j κ' k').getLsbD i = decide (κ' = κ ∧ k' = k ∧ i = j) := by
  unfold single
  by_cases h : κ' = κ ∧ k' = k
  · rw [if_pos h, BitVec.getLsbD_twoPow, Bool.eq_iff_iff]
    simp [h, hj, eq_comm]
  · rw [if_neg h, BitVec.getLsbD_zero, decide_eq_false fun hc => h ⟨hc.1, hc.2.1⟩]

lemma exists_bit (κ : Kind) (k : ℕ) (hj : j < 32) (old : Bool) :
    ∃ d : Dist, (d κ k).getLsbD j = old := by
  cases old with
  | false => exact ⟨zeros, zeros_bit j⟩
  | true => exact ⟨single κ k j, by simp [single_bit _ _ _ hj]⟩

/-- Some bit is changed by a write that is no poke with a zero. -/
lemma onBit_changes (e : Effect) (v : Bool) (h : e ≠ .plain → v = true) :
    ∃ old, onBit e old v ≠ old := by
  cases e with
  | plain => exact ⟨!v, by simp [onBit]⟩
  | set => exact ⟨false, by simp [onBit, h]⟩
  | clear => exact ⟨true, by simp [onBit, h]⟩

lemma onBit_keeps (e : Effect) (old v : Bool) (h : ¬ (e ≠ .plain → v = true)) :
    onBit e old v = old := by
  cases e <;> simp_all [onBit]

/-! ### Masked registers -/

section Masked

variable (hd : decode m.address = some (b, k)) (hb : b ≠ itargetsr) (hal : Aligned m)

include hd hb hal

lemma masked_read (hw : m.isWrite = false) :
    ReadExact map cell m b.kind k ↔ MaskFits cell m b k := by
  have hfit := hal.fits
  constructor
  · intro h i hi _
    have hj : lowest m + i < 32 := by omega
    constructor
    · rintro ⟨hs, hown⟩
      by_contra hn
      have hsame : SameOwn cell zeros (single b.kind k (lowest m + i)) := by
        intro κ' k' j' _ hown'
        rw [single_bit _ _ _ hj, zeros_bit, eq_comm, decide_eq_false_iff_not]
        rintro ⟨rfl, rfl, rfl⟩
        exact hn hown'
      have hv := congrArg (fun v => v.getLsbD i) (h.hidden _ _ hsame)
      simp only [access_restricted hd hb, if_pos hs,
        (restrict_read hd hal.size_le hw _).2, single_bit _ _ _ hj, zeros_bit] at hv
      simp [hi, hown] at hv
    · intro hown
      by_contra hn
      -- the value does not depend on the bit
      have h0 := h.shown zeros i hi hown
      have h1 := h.shown (single b.kind k (lowest m + i)) i hi hown
      rw [access_restricted hd hb] at h0 h1
      by_cases hs : served b m
      · have hi' : owns cell b.kind k i = false := by simpa [hs] using hn
        simp only [if_pos hs, (restrict_read hd hal.size_le hw _).2, single_bit _ _ _ hj] at h1
        simp [hi'] at h1
      · simp only [if_neg hs, single_bit _ _ _ hj, zeros_bit] at h0 h1
        simp [h0] at h1
  · intro h
    have hfits := fun i (hi : i < 8 * m.size) => h i hi (fun hw' => by simp [hw] at hw')
    by_cases hs : served b m
    · refine ⟨fun d => ?_, fun d d' hsame => ?_, fun d i hi hown => ?_⟩
      · rw [access_restricted hd hb, if_pos hs]
        exact (restrict_read hd hal.size_le hw _).1
      · simp only [access_restricted hd hb, if_pos hs]
        apply BitVec.eq_of_getLsbD_eq
        intro i _
        rw [(restrict_read hd hal.size_le hw _).2, (restrict_read hd hal.size_le hw _).2]
        by_cases hi : i < 8 * m.size
        · cases hown : owns cell b.kind k i with
          | false => simp
          | true => rw [hsame _ _ _ (by omega) ((hfits i hi).mp ⟨hs, hown⟩)]
        · simp [hi]
      · rw [access_restricted hd hb, if_pos hs, (restrict_read hd hal.size_le hw _).2]
        simp [hi, ((hfits i hi).mpr hown).2]
    · refine ⟨fun d => ?_, fun d d' _ => ?_, fun d i hi hown => ?_⟩
      · rw [access_restricted hd hb, if_neg hs]
      · rw [access_restricted hd hb, access_restricted hd hb, if_neg hs, if_neg hs]
      · exact absurd ((hfits i hi).mpr hown).1 hs

omit hal in
lemma masked_handled : (gicHandleDistAccess map cell d m).1 = .handled := by
  rw [access_restricted hd hb]
  split
  · unfold restrictBitmaskAccess
    split
    · rfl
    · split <;> rfl
  · rfl

lemma masked_written (hw : m.isWrite = true) (κ' : Kind) (k' : ℕ) (hj : j < 32) :
    ((gicHandleDistAccess map cell d m).2.1 κ' k').getLsbD j =
      if κ' = b.kind ∧ k' = k ∧ addressed m j ∧
          (served b m ∧ owns cell b.kind k (j - lowest m) = true) then
        onBit b.effect ((d b.kind k).getLsbD j) (m.value.getLsbD (j - lowest m))
      else (d κ' k').getLsbD j := by
  rw [access_restricted hd hb]
  by_cases hs : served b m
  · rw [if_pos hs, restrict_write hd hal.size_le hw κ' k' hj]
    simp only [hs, true_and]
  · rw [if_neg hs, if_neg fun h => hs h.2.2.2.1]

lemma masked_write (hw : m.isWrite = true) : WriteExact map cell m b k ↔ MaskFits cell m b k := by
  have hfit := hal.fits
  constructor
  · intro h i hi hv
    have hj : lowest m + i < 32 := by omega
    have ha : addressed m (lowest m + i) := ⟨by omega, by omega⟩
    obtain ⟨old, hold⟩ := onBit_changes b.effect (m.value.getLsbD i) (hv hw)
    obtain ⟨d, hdo⟩ := exists_bit b.kind k hj old
    have hbit : ((gicHandleDistAccess map cell d m).2.1 b.kind k).getLsbD (lowest m + i) = _ :=
      masked_written hd hb hal hw b.kind k hj
    rw [Nat.add_sub_cancel_left, hdo] at hbit
    constructor
    · intro hc
      by_contra hn
      rw [if_pos ⟨rfl, rfl, ha, hc⟩, h.kept d _ _ _ hj fun hc' => hn hc'.2.2.2, hdo] at hbit
      exact hold hbit.symm
    · intro hown
      by_contra hn
      rw [if_neg fun hc => hn hc.2.2.2, h.written d _ hj ha hown (masked_handled hd hb),
        Nat.add_sub_cancel_left, hdo] at hbit
      exact hold hbit
  · intro h
    refine ⟨fun d κ' k' j hj hn => ?_, fun d j hj ha hown _ => ?_, fun d he => ?_⟩
    · rw [masked_written hd hb hal hw _ _ hj]
      split
      · rename_i hc
        obtain ⟨rfl, rfl, ha, hc⟩ := hc
        apply onBit_keeps
        intro hv
        have := (h (j - lowest m) (by have := ha.1; have := ha.2; omega) fun _ => hv).mp hc
        rw [Nat.add_sub_cancel' ha.1] at this
        exact hn ⟨rfl, rfl, ha, this⟩
      · rfl
    · rw [masked_written hd hb hal hw _ _ hj]
      split
      · rfl
      · rename_i hc
        refine (onBit_keeps _ _ _ fun hv => hc ⟨rfl, rfl, ha, ?_⟩).symm
        refine (h (j - lowest m) (by have := ha.1; have := ha.2; omega) fun _ => hv).mpr ?_
        rw [Nat.add_sub_cancel' ha.1]
        exact hown
    · rw [masked_handled hd hb] at he
      exact absurd he (by decide)

end Masked

/-! ### Targets -/

section Targets

variable (hd : decode m.address = some (itargetsr, k)) (hi : isSpi (m.address - itargetsr.base))
  (hal : Aligned m)

include hd hi hal

lemma word_read (hw : m.isWrite = false) :
    ReadExact map cell m .targets k ↔ WordFits map cell m k := by
  have hfit := hal.fits
  unfold WordFits
  rw [if_neg (by simp [hw])]
  constructor
  · intro h
    by_contra hc
    push Not at hc
    obtain ⟨h0, i, hi8, hown⟩ := hc
    have hj : lowest m + i < 32 := by omega
    have hne : i ≠ lowest m + i := by unfold lowest; omega
    have hsh := h.shown (single .targets k (lowest m + i)) i hi8 (by simpa using hown)
    rw [(targets_read hd hi hw).2, single_bit _ _ _ hj, single_bit _ _ _ hj] at hsh
    have hl : ¬ lowest m = 0 := by omega
    simp [hl] at hsh
  · intro h
    refine ⟨fun d => (targets_read hd hi hw).1, fun d d' hsame => ?_, fun d i hi8 hown => ?_⟩
    · apply BitVec.eq_of_getLsbD_eq
      intro i _
      rw [(targets_read hd hi hw).2, (targets_read hd hi hw).2]
      by_cases hi32 : i < 32
      · cases hown : owns cell .targets k i with
        | false => simp
        | true => rw [hsame _ _ _ hi32 hown]
      · simp [hi32]
    · obtain h0 | hn := h
      · have hl : lowest m = 0 := by unfold lowest; omega
        rw [(targets_read hd hi hw).2, hl, Nat.zero_add]
        rw [hl, Nat.zero_add] at hown
        have hi32 : i < 32 := by omega
        simp [hi32, hown]
      · rw [hn i hi8] at hown
        exact absurd hown Bool.false_ne_true

omit hal in
lemma word_write (hw : m.isWrite = true) :
    WriteExact map cell m itargetsr k ↔ WordFits map cell m k := by
  unfold WordFits
  rw [if_pos hw]
  by_cases hr : routedOutside map cell (4 * k) (m.value <<< lowest m) = true
  · have hacc : ∀ d, gicHandleDistAccess map cell d m = (.error, d, wordAccess m) := by
      intro d
      rw [handleIrqTarget_eq hd hi, if_pos hw, if_pos hr]
    refine iff_of_true ⟨fun d _ _ _ _ _ => ?_, fun d _ _ _ _ hh => ?_, fun d _ => ?_⟩ (.inl hr)
    · rw [hacc]
    · rw [hacc] at hh
      cases hh
    · rw [hacc]
  · have hh : ∀ d, (gicHandleDistAccess map cell d m).1 = .handled := by
      intro d
      rw [handleIrqTarget_eq hd hi, if_pos hw, if_neg hr]
    constructor
    · intro h
      refine .inr fun j hj hown => ?_
      by_contra hn
      obtain ⟨d, hdo⟩ := exists_bit .targets k hj
        (!(decide (lowest m ≤ j) && m.value.getLsbD (j - lowest m)))
      have hbit := targets_write (d := d) hd hi hw hr .targets k hj
      rw [if_pos ⟨rfl, rfl, hown⟩, h.kept d _ _ _ hj fun hc => hn hc.2.2.1, hdo] at hbit
      exact Bool.not_ne_self _ hbit
    · intro h
      have hall := h.resolve_left hr
      refine ⟨fun d κ' k' j hj hn => ?_, fun d j hj ha hown _ => ?_, fun d he => ?_⟩
      · rw [targets_write hd hi hw hr _ _ hj]
        refine if_neg fun hc => hn ⟨hc.1, hc.2.1, hall j hj hc.2.2, hc.2.2⟩
      · refine (targets_write hd hi hw hr _ _ hj).trans ((if_pos ⟨rfl, rfl, hown⟩).trans ?_)
        rw [decide_eq_true ha.1, Bool.true_and]
        rfl
      · rw [hh] at he
        exact absurd he (by decide)

end Targets

/-- **Accesses respect the ownership of interrupts** exactly where the mask fits the access. -/
theorem exact_iff_fits (map : List (BitVec 8)) (cell : Cell) (m : MmioAccess) (b : Bank) (k : ℕ)
    (hd : decode m.address = some (b, k)) (hal : Aligned m)
    (hi : b = itargetsr → isSpi (m.address - itargetsr.base)) :
    Exact map cell m b k ↔ Fits map cell m b k := by
  unfold Exact Fits
  by_cases hb : b = itargetsr
  · subst hb
    rw [if_pos rfl]
    cases hw : m.isWrite with
    | false =>
      have h : ReadExact map cell m .targets k ↔ _ := word_read hd (hi rfl) hal hw
      exact ⟨fun hx => h.mp (hx.1 rfl), fun hf => ⟨fun _ => h.mpr hf, nofun⟩⟩
    | true =>
      have h : WriteExact map cell m itargetsr k ↔ _ := word_write hd (hi rfl) hw
      exact ⟨fun hx => h.mp (hx.2 rfl), fun hf => ⟨nofun, fun _ => h.mpr hf⟩⟩
  · rw [if_neg hb]
    cases hw : m.isWrite with
    | false => simpa using masked_read hd hb hal hw
    | true => simpa using masked_write hd hb hal hw

/-- A cell with interrupt 32 only. -/
def oneIrq : Cell := ⟨fun w => if w = 1 then 1 else 0, fun _ => true⟩

theorem exact_lowestByte : Exact [] oneIrq ⟨0x420, 1, true, 0xa0⟩ ipriorityr 8 := by
  refine (exact_iff_fits [] oneIrq ⟨0x420, 1, true, 0xa0⟩ ipriorityr 8 (by decide)
    ⟨by decide, by decide⟩ (by decide)).mpr ?_
  unfold Fits
  rw [if_neg (by decide)]
  intro i _ _
  exact ⟨fun h => by simpa [lowest] using h.2, fun h => ⟨by decide, by simpa [lowest] using h⟩⟩

/-- The cell writes the priority of interrupt 33 through the mask of interrupt 32. -/
theorem foreign_priority_written :
    ¬ Exact [] oneIrq ⟨0x421, 1, true, 0xa0⟩ ipriorityr 8 := by
  intro h
  have hk := (h.2 rfl).kept zeros .priority 8 15 (by decide) (by decide)
  exact absurd hk (by decide +kernel)

end FpMemSched.DistributorOwned
