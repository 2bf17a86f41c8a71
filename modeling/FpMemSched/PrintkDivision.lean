import FpMemSched.Printk
import Mathlib.Data.Nat.Bitwise

/-!
Decimal output on machines with 32-bit `long`, where `div_u64_u64` divides by shifting and
subtracting.

The divisor is shifted left until it exceeds the dividend or its top bit leaves the word. The first
divisor of `uint2str`, 10^19, has its top bit set from the beginning.
-/

namespace FpMemSched.PrintkDivision

open FpMemSched.Printk

/-! ### The model -/

/-- The inner loop of `div_u64_u64`, with a bound on its turns: the largest power of two. -/
def grow : ℕ → BitVec 64 → BitVec 64 → BitVec 64 → Option (BitVec 64)
  | 0, _, _, _ => none
  | n + 1, dividend, tmpRes, tmpDiv =>
    if dividend < tmpDiv then some tmpRes
    else if tmpDiv &&& (1#64 <<< 63) ≠ 0 then some (tmpRes <<< 1)
    else grow n dividend (tmpRes <<< 1) (tmpDiv <<< 1)

def divLoop : ℕ → BitVec 64 → BitVec 64 → BitVec 64 → Option (BitVec 64)
  | 0, _, _, _ => none
  | n + 1, dividend, divisor, result =>
    if dividend < divisor then some result
    else (grow 64 dividend 1 (divisor <<< 1)).bind fun tmpRes =>
      divLoop n (dividend - divisor * tmpRes) divisor (result + tmpRes)

/-- `none` when the loops do not end in 64 turns. -/
def divU64U64 (dividend divisor : BitVec 64) : Option (BitVec 64) :=
  divLoop 65 dividend divisor 0

/-- The loop of `uint2str`, with a bound on its turns. -/
def decimalLoop : ℕ → BitVec 64 → BitVec 64 → Bool → Option (List Char)
  | 0, _, _, _ => none
  | n + 1, divisor, value, firstDigit =>
    if divisor = 0 then some []
    else
      (divU64U64 value divisor).bind fun digit =>
      (divU64U64 divisor 10).bind fun next =>
        let value := value - digit * divisor
        if !firstDigit ∨ 0 < digit ∨ divisor = 1 then
          (decimalLoop n next value false).map (Char.ofNat ('0'.toNat + digit.toNat) :: ·)
        else decimalLoop n next value firstDigit

/-- The first divisor of `uint2str`. -/
def tenPow19 : BitVec 64 := 10000000000000000000#64

def uint2str (value : BitVec 64) : Option (List Char) := decimalLoop 21 tenPow19 value true

/-! ### The division -/

lemma ofNat_shift (x : ℕ) : BitVec.ofNat 64 x <<< 1 = BitVec.ofNat 64 (2 * x) := by
  apply BitVec.eq_of_toNat_eq
  rw [BitVec.toNat_shiftLeft, BitVec.toNat_ofNat, BitVec.toNat_ofNat, Nat.shiftLeft_eq]
  omega

lemma top_bit_iff (x : BitVec 64) : x &&& (1#64 <<< 63) ≠ 0 ↔ 2 ^ 63 ≤ x.toNat := by
  have hx := x.isLt
  have hand : (x &&& (1#64 <<< 63)).toNat = 2 ^ 63 * (x.toNat.testBit 63).toNat := by
    rw [BitVec.toNat_and, Nat.and_comm]
    exact Nat.two_pow_and _ 63
  have hbit : x.toNat.testBit 63 = decide (2 ^ 63 ≤ x.toNat) := by
    rw [Nat.testBit_eq_decide_div_mod_eq]
    congr 1
    apply propext
    omega
  rw [Ne, ← BitVec.toNat_inj, hand, hbit]
  by_cases h : 2 ^ 63 ≤ x.toNat
  · rw [decide_eq_true h]
    exact iff_of_true (by decide) h
  · rw [decide_eq_false h]
    exact iff_of_false (fun hne => hne rfl) h

/-- The shifts find the largest power of two that times the divisor fits. -/
lemma grow_eq {dividend : BitVec 64} {d k n : ℕ} (hk : 2 ^ (k + 1) * d < 2 ^ 64) (hd : 0 < d)
    (hle : 2 ^ k * d ≤ dividend.toNat) (hn : 64 ≤ n + k) :
    ∃ j, grow n dividend (BitVec.ofNat 64 (2 ^ k)) (BitVec.ofNat 64 (2 ^ (k + 1) * d)) =
        some (BitVec.ofNat 64 (2 ^ j)) ∧
      2 ^ j * d ≤ dividend.toNat ∧ dividend.toNat < 2 ^ (j + 1) * d := by
  have hdiv : (BitVec.ofNat 64 (2 ^ (k + 1) * d)).toNat = 2 ^ (k + 1) * d := Nat.mod_eq_of_lt hk
  have hres : BitVec.ofNat 64 (2 ^ k) <<< 1 = BitVec.ofNat 64 (2 ^ (k + 1)) := by
    rw [ofNat_shift, ← Nat.pow_succ']
  have hnext : 2 * (2 ^ (k + 1) * d) = 2 ^ (k + 1 + 1) * d := by ring
  induction n generalizing k with
  | zero =>
    have h64 : 2 ^ 64 ≤ 2 ^ (k + 1) * d :=
      (Nat.pow_le_pow_right (by decide) (by omega)).trans (Nat.le_mul_of_pos_right _ hd)
    omega
  | succ n ih =>
    rw [grow]
    split_ifs with hlt htop
    · rw [BitVec.lt_def, hdiv] at hlt
      exact ⟨k, rfl, hle, hlt⟩
    · rw [BitVec.lt_def, hdiv, Nat.not_lt] at hlt
      rw [top_bit_iff, hdiv] at htop
      have hdd := dividend.isLt
      exact ⟨k + 1, by rw [hres], hlt, by omega⟩
    · rw [BitVec.lt_def, hdiv, Nat.not_lt] at hlt
      rw [top_bit_iff, hdiv, Nat.not_le] at htop
      have hk' : 2 ^ (k + 1 + 1) * d < 2 ^ 64 := by omega
      rw [hres, ofNat_shift, hnext]
      refine ih hk' hlt (by omega) (Nat.mod_eq_of_lt hk') ?_ ?_
      · rw [ofNat_shift, ← Nat.pow_succ']
      · ring

/-- Each turn takes the top bit off the quotient. -/
lemma divLoop_eq {divisor : BitVec 64} (hpos : 0 < divisor.toNat) (hlt : divisor.toNat < 2 ^ 63)
    {n : ℕ} {dividend result : BitVec 64} (hq : dividend.toNat / divisor.toNat < 2 ^ n) :
    divLoop (n + 1) dividend divisor result =
      some (result + BitVec.ofNat 64 (dividend.toNat / divisor.toNat)) := by
  induction n generalizing dividend result with
  | zero =>
    have hz : dividend.toNat / divisor.toNat = 0 := Nat.lt_one_iff.mp hq
    have hdd : dividend < divisor := by
      rw [Nat.div_eq_zero_iff] at hz
      exact hz.resolve_left hpos.ne'
    rw [divLoop, if_pos hdd, hz]
    simp
  | succ n ih =>
    rw [divLoop]
    split_ifs with hdd
    · rw [Nat.div_eq_of_lt hdd]
      simp
    · rw [BitVec.lt_def, Nat.not_lt] at hdd
      have hone : 2 ^ 0 * divisor.toNat ≤ dividend.toNat := by omega
      obtain ⟨j, hj, hle, hgt⟩ := grow_eq (by omega) hpos hone (Nat.le_refl 64)
      have hstart : divisor <<< 1 = BitVec.ofNat 64 (2 ^ (0 + 1) * divisor.toNat) := by
        rw [Nat.zero_add, Nat.pow_one, ← ofNat_shift, BitVec.ofNat_toNat, BitVec.setWidth_eq]
      have hmul : (divisor * BitVec.ofNat 64 (2 ^ j)).toNat = 2 ^ j * divisor.toNat := by
        have hdd := dividend.isLt
        have hj64 : 2 ^ j < 2 ^ 64 := (Nat.le_mul_of_pos_right _ hpos).trans_lt (hle.trans_lt hdd)
        rw [BitVec.toNat_mul, BitVec.toNat_ofNat, Nat.mod_eq_of_lt hj64, Nat.mul_comm]
        exact Nat.mod_eq_of_lt (hle.trans_lt hdd)
      have hsub : (dividend - divisor * BitVec.ofNat 64 (2 ^ j)).toNat =
          dividend.toNat - 2 ^ j * divisor.toNat := by
        rw [BitVec.toNat_sub_of_le (by rw [BitVec.le_def, hmul]; exact hle), hmul]
      have hquot : (dividend - divisor * BitVec.ofNat 64 (2 ^ j)).toNat / divisor.toNat =
          dividend.toNat / divisor.toNat - 2 ^ j := by
        rw [hsub, Nat.mul_comm, Nat.sub_mul_div]
      have hqle : 2 ^ j ≤ dividend.toNat / divisor.toNat := (Nat.le_div_iff_mul_le hpos).mpr hle
      have hqlt : dividend.toNat / divisor.toNat < 2 ^ (j + 1) :=
        (Nat.div_lt_iff_lt_mul hpos).mpr hgt
      have hjn : 2 ^ j ≤ 2 ^ n := by
        have : j < n + 1 := (Nat.pow_lt_pow_iff_right (by decide)).mp (hqle.trans_lt hq)
        exact Nat.pow_le_pow_right (by decide) (Nat.le_of_lt_succ this)
      rw [hstart, show (1 : BitVec 64) = BitVec.ofNat 64 (2 ^ 0) from rfl, hj, Option.bind_some,
        ih (by rw [hquot]; omega), hquot, BitVec.add_assoc, ← BitVec.ofNat_add,
        Nat.add_sub_cancel' hqle]

/-- **The division is right for divisors below 2^63.** -/
theorem divU64U64_eq {divisor : BitVec 64} (hpos : 0 < divisor.toNat)
    (hlt : divisor.toNat < 2 ^ 63) (dividend : BitVec 64) :
    divU64U64 dividend divisor = some (dividend / divisor) := by
  have hq : dividend.toNat / divisor.toNat < 2 ^ 64 :=
    (Nat.div_le_self _ _).trans_lt dividend.isLt
  have hdiv : BitVec.ofNat 64 (dividend.toNat / divisor.toNat) = dividend / divisor := by
    apply BitVec.eq_of_toNat_eq
    rw [BitVec.toNat_ofNat, BitVec.toNat_udiv, Nat.mod_eq_of_lt hq]
  rw [divU64U64, divLoop_eq hpos hlt hq, hdiv]
  simp

/-! ### Decimal output -/

lemma ten_pow_lt {n : ℕ} (hn : n ≤ 18) : 10 ^ n < 2 ^ 63 :=
  (Nat.pow_le_pow_right (by decide) hn).trans_lt (by decide)

lemma decimal_char : ∀ d < 10, Char.ofNat ('0'.toNat + d) = hexdigit d := by decide

/-- The divisors are the powers of ten, and 0 after them. -/
lemma next_divisor {n : ℕ} (hn : n ≤ 19) :
    divU64U64 (BitVec.ofNat 64 (10 ^ n)) 10 = some (BitVec.ofNat 64 (10 ^ n / 10)) := by
  have hlt : 10 ^ n < 2 ^ 64 := (Nat.pow_le_pow_right (by decide) hn).trans_lt (by decide)
  rw [divU64U64_eq (by decide) (by decide)]
  congr 1
  apply BitVec.eq_of_toNat_eq
  rw [BitVec.toNat_udiv, BitVec.toNat_ofNat, BitVec.toNat_ofNat, Nat.mod_eq_of_lt hlt,
    Nat.mod_eq_of_lt ((Nat.div_le_self _ _).trans_lt hlt)]
  rfl

/-- From the divisor 10^18 on the digits are those of the number. -/
lemma decimalLoop_eq {n : ℕ} (hn : n ≤ 19) (value : BitVec 64) (first : Bool)
    (hv : value.toNat < 10 ^ n) :
    decimalLoop (n + 1) (BitVec.ofNat 64 (10 ^ n / 10)) value first =
      some (digits 10 0 n value.toNat first) := by
  induction n generalizing value first with
  | zero => rfl
  | succ n ih =>
    have hp : 10 ^ n < 2 ^ 63 := ten_pow_lt (Nat.le_of_succ_le_succ hn)
    have hpos : 0 < 10 ^ n := Nat.pow_pos (by decide)
    have hdivisor : 10 ^ (n + 1) / 10 = 10 ^ n := Nat.mul_div_cancel _ (by decide)
    have hdiv : (BitVec.ofNat 64 (10 ^ n)).toNat = 10 ^ n := Nat.mod_eq_of_lt (by omega)
    have hne : BitVec.ofNat 64 (10 ^ n) ≠ 0 := by
      rw [Ne, ← BitVec.toNat_inj, hdiv]
      exact hpos.ne'
    have hdigit : (value / BitVec.ofNat 64 (10 ^ n)).toNat = value.toNat / 10 ^ n := by
      rw [BitVec.toNat_udiv, hdiv]
    have hlt : value.toNat / 10 ^ n < 10 := by
      rw [Nat.div_lt_iff_lt_mul hpos, ← Nat.pow_succ']
      exact hv
    have hrest : (value - value / BitVec.ofNat 64 (10 ^ n) * BitVec.ofNat 64 (10 ^ n)).toNat =
        value.toNat % 10 ^ n := by
      have hmul : (value / BitVec.ofNat 64 (10 ^ n) * BitVec.ofNat 64 (10 ^ n)).toNat =
          value.toNat / 10 ^ n * 10 ^ n := by
        rw [BitVec.toNat_mul, hdigit, hdiv]
        exact Nat.mod_eq_of_lt ((Nat.div_mul_le_self _ _).trans_lt value.isLt)
      rw [BitVec.toNat_sub_of_le (by rw [BitVec.le_def, hmul]; exact Nat.div_mul_le_self _ _), hmul,
        Nat.mod_eq_sub_div_mul]
    have hchar := decimal_char _ hlt
    have hcond : (!first ∨ 0 < value / BitVec.ofNat 64 (10 ^ n) ∨ BitVec.ofNat 64 (10 ^ n) = 1) ↔
        (!first ∨ 0 < value.toNat / 10 ^ n ∨ 10 ^ n = 1 ∨ 10 ^ n &&& 0 ≠ 0) := by
      rw [BitVec.lt_def, hdigit, ← BitVec.toNat_inj, hdiv]
      simp
    rw [hdivisor, decimalLoop, if_neg hne,
      divU64U64_eq (by rw [hdiv]; exact hpos) (by rw [hdiv]; exact hp), Option.bind_some,
      next_divisor (Nat.le_of_succ_le hn), Option.bind_some, digits_succ, hdigit, hchar]
    simp only [hcond]
    split_ifs
    · rw [ih (Nat.le_of_succ_le hn) _ _ (by rw [hrest]; exact Nat.mod_lt _ hpos), hrest]
      rfl
    · rw [ih (Nat.le_of_succ_le hn) _ _ (by rw [hrest]; exact Nat.mod_lt _ hpos), hrest]

/-! ### The first divisor -/

lemma toNat_tenPow19 : tenPow19.toNat = 10 ^ 19 := by decide

lemma tenPow19_eq : tenPow19 = BitVec.ofNat 64 (10 ^ 19) := by decide

lemma grow_tenPow19 {value : BitVec 64} (hv : 10 ^ 19 ≤ value.toNat) :
    grow 64 value 1 (tenPow19 <<< 1) =
      some (if value < 12426047410323587072#64 then 8#64 else 16#64) := by
  have h1 : ¬ value < 1553255926290448384#64 := by bv_omega
  have h2 : ¬ value < 3106511852580896768#64 := by bv_omega
  have h3 : ¬ value < 6213023705161793536#64 := by bv_omega
  have hs : tenPow19 <<< 1 = 1553255926290448384#64 := by decide
  rw [hs, grow, if_neg h1, if_neg (by decide)]
  change grow 63 value 2#64 3106511852580896768#64 = _
  rw [grow, if_neg h2, if_neg (by decide)]
  change grow 62 value 4#64 6213023705161793536#64 = _
  rw [grow, if_neg h3, if_neg (by decide)]
  change grow 61 value 8#64 12426047410323587072#64 = _
  rw [grow]
  split_ifs with h4 h5
  · rfl
  · rfl
  · exact absurd (by decide) h5

/-- For smaller numbers the first quotient is 8, for the others 16. -/
def tooMuch : ℕ := 12426047410323587072

/-- One division by it takes too much, and leaves less than it. -/
lemma divU64U64_tenPow19 {value : BitVec 64} (hv : 10 ^ 19 ≤ value.toNat) :
    ∃ digit, divU64U64 value tenPow19 = some digit ∧
      digit = (if value.toNat < tooMuch then 8#64 else 16#64) ∧
      (value - digit * tenPow19).toNat < 10 ^ 19 := by
  have h10 : tenPow19 = 10000000000000000000#64 := rfl
  have h0 : ¬ value < tenPow19 := by
    rw [BitVec.lt_def, toNat_tenPow19]
    exact hv.not_gt
  have hcase : value < 12426047410323587072#64 ↔ value.toNat < tooMuch := by
    rw [BitVec.lt_def, tooMuch]
    rfl
  -- the turn of the loop and the end of it
  have hturn : ∀ digit, (if value < 12426047410323587072#64 then 8#64 else 16#64) = digit →
      value - tenPow19 * digit < tenPow19 → divU64U64 value tenPow19 = some digit := by
    intro digit hd hlt
    rw [divU64U64, divLoop, if_neg h0, grow_tenPow19 hv, Option.bind_some, hd, divLoop,
      if_pos hlt]
    simp
  by_cases h : value < 12426047410323587072#64
  · have hlt : value - tenPow19 * 8#64 < tenPow19 := by
      rw [show tenPow19 * 8#64 = 6213023705161793536#64 by decide, h10]
      bv_omega
    refine ⟨8#64, hturn _ (if_pos h) hlt, (if_pos (hcase.mp h)).symm, ?_⟩
    rw [BitVec.mul_comm, ← toNat_tenPow19]
    exact hlt
  · have hlt : value - tenPow19 * 16#64 < tenPow19 := by
      rw [show tenPow19 * 16#64 = 12426047410323587072#64 by decide, h10]
      bv_omega
    refine ⟨16#64, hturn _ (if_neg h) hlt, (if_neg (hcase.not.mp h)).symm, ?_⟩
    rw [BitVec.mul_comm, ← toNat_tenPow19]
    exact hlt

/-- The turn of the first divisor. -/
lemma uint2str_turn {value digit : BitVec 64} (hdiv : divU64U64 value tenPow19 = some digit) :
    uint2str value =
      if 0 < digit then
        (decimalLoop 20 (BitVec.ofNat 64 (10 ^ 19 / 10)) (value - digit * tenPow19) false).map
          (Char.ofNat ('0'.toNat + digit.toNat) :: ·)
      else decimalLoop 20 (BitVec.ofNat 64 (10 ^ 19 / 10)) (value - digit * tenPow19) true := by
  have hnext : divU64U64 tenPow19 10 = some (BitVec.ofNat 64 (10 ^ 19 / 10)) := by
    rw [tenPow19_eq]
    exact next_divisor (Nat.le_refl 19)
  have hne : tenPow19 ≠ 0 := by decide
  have hcond : (!true ∨ 0 < digit ∨ tenPow19 = 1) ↔ 0 < digit := by
    have hne1 : tenPow19 ≠ 1 := by decide
    rw [or_iff_left hne1, Bool.not_true]
    exact or_iff_right Bool.false_ne_true
  rw [uint2str, decimalLoop, if_neg hne, hdiv, Option.bind_some, hnext, Option.bind_some]
  simp only [hcond]

lemma uint2str_of_lt {value : BitVec 64} (hv : value.toNat < 10 ^ 19) :
    uint2str value = some (Printk.uint2str value) := by
  have hdiv : divU64U64 value tenPow19 = some 0 := by
    have hlt : value < tenPow19 := by
      rw [BitVec.lt_def, toNat_tenPow19]
      exact hv
    rw [divU64U64, divLoop, if_pos hlt]
  have hsub : value - 0 * tenPow19 = value := by simp
  rw [uint2str_turn hdiv, if_neg (by decide), hsub, decimalLoop_eq (Nat.le_refl 19) value true hv,
    uint2str_eq, decimal]
  exact congrArg some (digits_eq_toDigits (by decide) hv)

/-- The first digit of such a number is one. -/
lemma head_uint2str {value : BitVec 64} (hv : 10 ^ 19 ≤ value.toNat) :
    (Printk.uint2str value).head? = some '1' := by
  have hlt := value.isLt
  have h := toDigits_append_digits (by decide : 1 < 10) 0 Nat.one_pos
    (show value.toNat - 10 ^ 19 < 10 ^ 19 by omega)
  rw [Nat.one_mul, Nat.add_sub_cancel' hv] at h
  rw [uint2str_eq, decimal, h]
  rfl

/-- What is printed in its place. -/
lemma uint2str_of_le {value : BitVec 64} (hv : 10 ^ 19 ≤ value.toNat) :
    ∃ t, uint2str value = some ((if value.toNat < tooMuch then '8' else '@') :: t) := by
  obtain ⟨digit, hdiv, hdigit, hrest⟩ := divU64U64_tenPow19 hv
  have hpos : 0 < digit := by
    rw [hdigit]
    split_ifs <;> decide
  have hchar : Char.ofNat ('0'.toNat + digit.toNat) =
      if value.toNat < tooMuch then '8' else '@' := by
    rw [hdigit]
    split_ifs <;> decide
  rw [uint2str_turn hdiv, if_pos hpos, decimalLoop_eq (Nat.le_refl 19) _ false hrest, hchar]
  exact ⟨_, rfl⟩

/-- **Decimal output is exact for the numbers below 10^19**, and only for them: for a number from
there on the first digit is not the 1 that it should be. -/
theorem uint2str_eq_iff (value : BitVec 64) :
    (uint2str value = some (Printk.uint2str value) ↔ value.toNat < 10 ^ 19) ∧
    (10 ^ 19 ≤ value.toNat → (Printk.uint2str value).head? = some '1' ∧
      ∃ t, uint2str value = some ((if value.toNat < tooMuch then '8' else '@') :: t)) := by
  refine ⟨⟨fun h => Nat.lt_of_not_le fun hv => ?_, uint2str_of_lt⟩,
    fun hv => ⟨head_uint2str hv, uint2str_of_le hv⟩⟩
  obtain ⟨t, ht⟩ := uint2str_of_le hv
  have hhead := head_uint2str hv
  rw [Option.some.inj (h.symm.trans ht), List.head?_cons] at hhead
  split_ifs at hhead <;> exact absurd hhead (by decide)

/-- The largest number. -/
theorem uint2str_eq_iff_largest : ∃ t, uint2str (BitVec.allOnes 64) = some ('@' :: t) :=
  ((uint2str_eq_iff (BitVec.allOnes 64)).2 (by decide)).2

end FpMemSched.PrintkDivision
