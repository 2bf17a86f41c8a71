import Mathlib.Data.List.TakeWhile
import Mathlib.Tactic.Ring

/-!
Formatted output of the hypervisor (`printk-core.c`), on a machine with 64-bit `long`.

`__vprintk` collects what it prints in a buffer of 128 bytes and hands it to `console_write` before
each conversion and when the buffer is full. A write behind the buffer, an argument of another type
than the conversion asks for and a read behind the end of the format are the ways in which it can
fail. The strings a format is called with are the bytes before their terminators.
-/

namespace FpMemSched.Printk

/-! ### The model -/

/-- What can go wrong: an access outside the buffer, no argument of the type that is asked for, a
read behind the terminator of the format. -/
inductive Fault
  | overflow | argument | pastEnd
  /-- The bound on the turns of the loop is used up. -/
  | turns
  deriving DecidableEq

def need {α : Type} (f : Fault) : Option α → Except Fault α
  | none => .error f
  | some x => .ok x

def nul : Char := Char.ofNat 0

def bufSize : ℕ := 128

structure Buf where
  cells : List Char
  p : ℕ

def write (m : List Char) (i : ℕ) (c : Char) : Option (List Char) :=
  if i < m.length then some (m.set i c) else none

def Buf.put (b : Buf) (c : Char) : Option Buf :=
  (write b.cells b.p c).map fun m => ⟨m, b.p + 1⟩

def Buf.puts (b : Buf) : List Char → Option Buf
  | [] => some b
  | c :: s => (b.put c).bind fun b => b.puts s

/-- Terminate the buffer, pass it to `console_write` and go back to its start. -/
def Buf.flush (b : Buf) (out : List Char) : Option (Buf × List Char) :=
  (write b.cells b.p nul).map fun m => (⟨m, 0⟩, out ++ m.takeWhile (· ≠ nul))

def hexdigit (d : ℕ) : Char := Nat.digitChar d

/-- The loop of `uint2str` and `hex2str`, where `n` digits are left and the divisor is a power of
the base. -/
def digits (base leadingZeroMask : ℕ) : ℕ → ℕ → Bool → List Char
  | 0, _, _ => []
  | n + 1, value, firstDigit =>
    let divisor := base ^ n
    let digit := value / divisor
    let value := value - digit * divisor
    if !firstDigit ∨ 0 < digit ∨ divisor = 1 ∨ divisor &&& leadingZeroMask ≠ 0 then
      hexdigit digit :: digits base leadingZeroMask n value false
    else digits base leadingZeroMask n value firstDigit

def uint2str (value : BitVec 64) : List Char := digits 10 0 20 value.toNat true

def int2str (value : BitVec 64) : List Char :=
  if value.toInt < 0 then '-' :: uint2str (-value) else uint2str value

def hex2str (value : BitVec 64) (leadingZeroMask : BitVec 64) : List Char :=
  digits 16 leadingZeroMask.toNat 16 value.toNat true

/-- The loop of `align`, from the last character of the text to its first. -/
def moveUp (p0 shift : ℕ) : ℕ → List Char → Option (List Char)
  | 0, m => some m
  | n + 1, m => (m[p0 + n]?).bind fun c => (write m (p0 + shift + n) c).bind (moveUp p0 shift n)

def memset (p0 : ℕ) (c : Char) : ℕ → List Char → Option (List Char)
  | 0, m => some m
  | n + 1, m => (write m (p0 + n) c).bind (memset p0 c n)

def Buf.align (b : Buf) (p0 width : ℕ) (fill : Char) : Option Buf :=
  if width ≤ b.p - p0 then some b
  else (moveUp p0 (width - (b.p - p0)) (b.p - p0) b.cells).bind fun m =>
    (memset p0 fill (width - (b.p - p0)) m).map fun m => ⟨m, p0 + width⟩

inductive Arg
  | int (v : BitVec 32)
  | long (v : BitVec 64)
  | longLong (v : BitVec 64)
  | str (s : List Char)

inductive Length
  | normal
  | long
  | longLong
  deriving DecidableEq

/-- The next argument, of a type of this length, in 64 bits. -/
def vaArg (signed : Bool) : Length → List Arg → Option (BitVec 64 × List Arg)
  | .normal, .int v :: args => some (if signed then v.signExtend 64 else v.setWidth 64, args)
  | .long, .long v :: args => some (v, args)
  | .longLong, .longLong v :: args => some (v, args)
  | _, _ => none

def next : List Char → Option (Char × List Char)
  | [] => none
  | c :: fmt => some (c, fmt)

/-- One digit more of a width. -/
def widthDigit (width : ℕ) (c : Char) : ℕ :=
  let width := width * 10 + (c.toNat - '0'.toNat)
  if bufSize - 1 ≤ width then 0 else width

def readWidth (width : ℕ) (c : Char) : List Char → Option (ℕ × Char × List Char)
  | [] => if c.isDigit then none else some (width, c, [])
  | d :: fmt =>
    if c.isDigit then readWidth (widthDigit width c) d fmt else some (width, c, d :: fmt)

def readLength (c : Char) (fmt : List Char) : Option (Length × Char × List Char) :=
  if c = 'l' then
    (next fmt).bind fun (c, fmt) =>
      if c = 'l' then (next fmt).map fun (c, fmt) => (.longLong, c, fmt)
      else some (.long, c, fmt)
  else some (.normal, c, fmt)

/-- The `switch` of `__vprintk`. -/
def convert (length : Length) (width : ℕ) (fill c : Char) (args : List Arg) (b : Buf)
    (out : List Char) : Except Fault (Buf × List Arg × List Char) :=
  let number (v : BitVec 64 × List Arg) (s : List Char) :=
    (need .overflow ((b.puts s).bind fun b' => b'.align b.p width fill)).map fun b => (b, v.2, out)
  if c = 'c' then
    match args with
    | .int v :: args =>
      (need .overflow (b.put (Char.ofNat (v.toNat % 256)))).map fun b => (b, args, out)
    | _ => .error .argument
  else if c = 'd' then
    (need .argument (vaArg true length args)).bind fun v => number v (int2str v.1)
  else if c = 'p' then
    (need .overflow (b.puts ['0', 'x'])).bind fun b =>
    (need .argument (vaArg false .long args)).bind fun v =>
      (need .overflow (b.puts (hex2str v.1 (BitVec.allOnes 64)))).map fun b => (b, v.2, out)
  else if c = 's' then
    match args with
    | .str s :: args => .ok (b, args, out ++ s)
    | _ => .error .argument
  else if c = 'u' then
    (need .argument (vaArg false length args)).bind fun v => number v (uint2str v.1)
  else if c = 'x' then
    (need .argument (vaArg false length args)).bind fun v => number v (hex2str v.1 0)
  else (need .overflow (b.puts ['%', c])).map fun b => (b, args, out)

/-- Write the buffer out when only the place of its terminator is left. -/
def Buf.check (b : Buf) (out : List Char) : Option (Buf × List Char) :=
  if bufSize - 1 ≤ b.p then b.flush out else some (b, out)

/-- The loop of `__vprintk`, with a bound on its turns. -/
def vprintkLoop : ℕ → List Char → List Arg → Buf → List Char → Except Fault (List Char)
  | 0, _, _, _, _ => .error .turns
  | n + 1, fmt, args, b, out =>
    (need .pastEnd (next fmt)).bind fun (c, fmt) =>
      if c = nul then (need .overflow (b.flush out)).map fun r => r.2
      else if c = '%' then
        (need .overflow (b.flush out)).bind fun (b, out) =>
        (need .pastEnd (next fmt)).bind fun (c, fmt) =>
        (need .pastEnd (readWidth 0 c fmt)).bind fun (width, c', fmt) =>
        (need .pastEnd (readLength c' fmt)).bind fun (length, c', fmt) =>
        (convert length width (if c = '0' then '0' else ' ') c' args b out).bind
          fun (b, args, out) => (need .overflow (b.check out)).bind
            fun (b, out) => vprintkLoop n fmt args b out
      else
        (need .overflow (b.put c)).bind fun b => (need .overflow (b.check out)).bind
          fun (b, out) => vprintkLoop n fmt args b out

/-- What `__vprintk` passes to `console_write`, one after the other. -/
def vprintk (cells : List Char) (fmt : List Char) (args : List Arg) : Except Fault (List Char) :=
  vprintkLoop (fmt.length + 2) (fmt ++ [nul]) args ⟨cells, 0⟩ []

@[simp] lemma need_some {α : Type} (f : Fault) (x : α) : need f (some x) = .ok x := rfl

@[simp] lemma ok_bind {α β : Type} (x : α) (f : α → Except Fault β) :
    (Except.ok x).bind f = f x := rfl

@[simp] lemma ok_map {α β : Type} (x : α) (f : α → β) :
    (Except.ok x : Except Fault α).map f = .ok (f x) := rfl

/-! ### The meaning of a format -/

/-- A format is made of characters and of conversions. -/
inductive Piece
  | lit (c : Char)
  | conv (width : List Char) (length : Length) (c : Char)

def Length.text : Length → List Char
  | .normal => []
  | .long => ['l']
  | .longLong => ['l', 'l']

def Piece.text : Piece → List Char
  | .lit c => [c]
  | .conv width length c => '%' :: (width ++ length.text ++ [c])

/-- The text of a piece reads as that piece. -/
def Piece.Ok : Piece → Prop
  | .lit c => c ≠ '%' ∧ c ≠ nul
  | .conv width length c =>
    (∀ d ∈ width, d.isDigit) ∧ (length = .normal → ¬ c.isDigit) ∧
      (length ≠ .longLong → c ≠ 'l') ∧ c ≠ nul

def widthOf (width : List Char) : ℕ := width.foldl widthDigit 0

def fillOf (width : List Char) : Char := if width.head? = some '0' then '0' else ' '

def decimal (v : BitVec 64) : List Char := Nat.toDigits 10 v.toNat

def signedDecimal (v : BitVec 64) : List Char :=
  if v.toInt < 0 then '-' :: Nat.toDigits 10 v.toInt.natAbs else Nat.toDigits 10 v.toInt.natAbs

/-- What a piece prints, and the arguments behind those it takes. -/
def Piece.show : Piece → List Arg → Option (List Char × List Arg)
  | .lit c, args => some ([c], args)
  | .conv width length c, args =>
    let padded (s : List Char) := s.leftpad (widthOf width) (fillOf width)
    if c = 'c' then
      match args with
      | .int v :: args => some ([Char.ofNat (v.toNat % 256)], args)
      | _ => none
    else if c = 'd' then (vaArg true length args).map fun v => (padded (signedDecimal v.1), v.2)
    else if c = 'p' then (vaArg false .long args).map fun v =>
      (['0', 'x'] ++ (Nat.toDigits 16 v.1.toNat).leftpad 16 '0', v.2)
    else if c = 's' then
      match args with
      | .str s :: args => some (s, args)
      | _ => none
    else if c = 'u' then (vaArg false length args).map fun v => (padded (decimal v.1), v.2)
    else if c = 'x' then (vaArg false length args).map fun v =>
      (padded (Nat.toDigits 16 v.1.toNat), v.2)
    else some (['%', c], args)

def render : List Piece → List Arg → Option (List Char)
  | [], _ => some []
  | p :: ps, args => (p.show args).bind fun (s, args) => (render ps args).map (s ++ ·)

/-- The format of these pieces. -/
def Spells (ps : List Piece) (fmt : List Char) : Prop :=
  (∀ p ∈ ps, p.Ok) ∧ fmt = ps.flatMap Piece.text

/-- The beginning of a conversion. -/
def Unfinished (fmt : List Char) : Prop :=
  ∃ (width : List Char) (length : Length), (∀ d ∈ width, d.isDigit) ∧
    fmt = '%' :: (width ++ length.text)

/-! ### Digits -/

variable {base : ℕ}

lemma digits_succ (mask n v : ℕ) (first : Bool) :
    digits base mask (n + 1) v first =
      if !first ∨ 0 < v / base ^ n ∨ base ^ n = 1 ∨ base ^ n &&& mask ≠ 0 then
        hexdigit (v / base ^ n) :: digits base mask n (v % base ^ n) false
      else digits base mask n (v % base ^ n) first := by
  have hmod : v - v / base ^ n * base ^ n = v % base ^ n := by
    rw [Nat.mod_eq_sub_div_mul]
  simp only [digits, hmod]

lemma length_digits_le (mask n v : ℕ) (first : Bool) : (digits base mask n v first).length ≤ n := by
  induction n generalizing v first with
  | zero => simp [digits]
  | succ n ih =>
    rw [digits_succ]
    split
    · exact Nat.succ_le_succ (ih _ _)
    · exact (ih _ _).trans (Nat.le_succ n)

/-- Behind its first digit a number is written to the end. -/
lemma toDigits_append_digits (hb : 1 < base) (mask : ℕ) {u : ℕ} (hu : 0 < u) {n v : ℕ}
    (hv : v < base ^ n) :
    Nat.toDigits base (u * base ^ n + v) = Nat.toDigits base u ++ digits base mask n v false := by
  induction n generalizing u v with
  | zero =>
    obtain rfl : v = 0 := by simpa using hv
    simp [digits]
  | succ n ih =>
    have hpos : 0 < base ^ n := Nat.pow_pos (Nat.zero_lt_of_lt hb)
    have hd : v / base ^ n < base := by
      rw [Nat.div_lt_iff_lt_mul hpos, ← Nat.pow_succ']
      exact hv
    have hsplit : u * base ^ (n + 1) + v = (base * u + v / base ^ n) * base ^ n + v % base ^ n := by
      calc u * base ^ (n + 1) + v
          = u * base ^ (n + 1) + (base ^ n * (v / base ^ n) + v % base ^ n) := by
            rw [Nat.div_add_mod]
        _ = (base * u + v / base ^ n) * base ^ n + v % base ^ n := by ring
    have hpos' : 0 < base * u + v / base ^ n :=
      Nat.add_pos_left (Nat.mul_pos (Nat.zero_lt_of_lt hb) hu) _
    rw [hsplit, ih hpos' (Nat.mod_lt _ hpos), ← Nat.toDigits_append_toDigits hb hu hd,
      Nat.toDigits_of_lt_base hd, digits_succ]
    simp [hexdigit]

/-- **A number is written without leading zeros.** -/
lemma digits_eq_toDigits (hb : 1 < base) {n v : ℕ} (hv : v < base ^ (n + 1)) :
    digits base 0 (n + 1) v true = Nat.toDigits base v := by
  induction n with
  | zero =>
    have hv' : v < base := by simpa using hv
    rw [Nat.toDigits_of_lt_base hv', digits_succ]
    simp [hexdigit, digits]
  | succ n ih =>
    have hpos : 0 < base ^ (n + 1) := Nat.pow_pos (Nat.zero_lt_of_lt hb)
    rw [digits_succ]
    by_cases hq : 0 < v / base ^ (n + 1)
    · have hd : v / base ^ (n + 1) < base := by
        rw [Nat.div_lt_iff_lt_mul hpos, ← Nat.pow_succ']
        exact hv
      rw [if_pos (Or.inr (Or.inl hq))]
      have h := toDigits_append_digits hb 0 hq (Nat.mod_lt v hpos)
      rw [Nat.div_add_mod', Nat.toDigits_of_lt_base hd] at h
      exact h.symm
    · have hlt : v < base ^ (n + 1) := by
        rw [Nat.not_lt, Nat.le_zero, Nat.div_eq_zero_iff] at hq
        exact hq.resolve_left hpos.ne'
      rw [if_neg (by simp [hq, hb.ne']), Nat.mod_eq_of_lt hlt]
      exact ih hlt

lemma length_digits (mask n v : ℕ) : (digits base mask n v false).length = n := by
  induction n generalizing v with
  | zero => rfl
  | succ n ih => simp [digits_succ, ih]

/-- With leading zeros a number fills its width. -/
lemma digits_eq_leftpad (hb : 1 < base) (mask : ℕ) {n v : ℕ} (hv : v < base ^ (n + 1)) :
    digits base mask (n + 1) v false = (Nat.toDigits base v).leftpad (n + 1) '0' := by
  induction n with
  | zero =>
    have hv' : v < base := by simpa using hv
    rw [Nat.toDigits_of_lt_base hv', digits_succ]
    simp [hexdigit, digits, List.leftpad]
  | succ n ih =>
    have hpos : 0 < base ^ (n + 1) := Nat.pow_pos (Nat.zero_lt_of_lt hb)
    rw [digits_succ, if_pos (Or.inl Bool.not_false)]
    rcases Nat.eq_zero_or_pos (v / base ^ (n + 1)) with hq | hq
    · have hlt : v < base ^ (n + 1) := by
        rw [Nat.div_eq_zero_iff] at hq
        exact hq.resolve_left hpos.ne'
      have hlen : (Nat.toDigits base v).length ≤ n + 1 := by
        rw [← digits_eq_toDigits hb hlt]
        exact length_digits_le _ _ _ _
      rw [hq, Nat.mod_eq_of_lt hlt, ih hlt]
      simp only [List.leftpad, hexdigit, Nat.succ_sub hlen, List.replicate_succ]
      rfl
    · have hd : v / base ^ (n + 1) < base := by
        rw [Nat.div_lt_iff_lt_mul hpos, ← Nat.pow_succ']
        exact hv
      have h := toDigits_append_digits hb mask hq (Nat.mod_lt v hpos)
      rw [Nat.div_add_mod', Nat.toDigits_of_lt_base hd] at h
      rw [h, List.leftpad, List.length_append, length_digits, List.length_singleton, Nat.add_comm 1,
        Nat.sub_self]
      rfl

lemma uint2str_eq (v : BitVec 64) : uint2str v = decimal v :=
  digits_eq_toDigits (by decide) (v.isLt.trans (by decide))

lemma hex2str_eq (v : BitVec 64) : hex2str v 0 = Nat.toDigits 16 v.toNat :=
  digits_eq_toDigits (by decide) (v.isLt.trans_le (by decide))

lemma digits_masked {mask n : ℕ} (h : ∀ k < n, base ^ k &&& mask ≠ 0) (v : ℕ) (first : Bool) :
    digits base mask n v first = digits base mask n v false := by
  cases n with
  | zero => rfl
  | succ n =>
    have hm := h n (Nat.lt_succ_self n)
    rw [digits_succ, digits_succ, if_pos (Or.inr (Or.inr (Or.inr hm))),
      if_pos (Or.inl Bool.not_false)]

lemma hex2str_masked_eq (v : BitVec 64) :
    hex2str v (BitVec.allOnes 64) = (Nat.toDigits 16 v.toNat).leftpad 16 '0' := by
  have hmask : ∀ k < 16, 16 ^ k &&& (BitVec.allOnes 64).toNat ≠ 0 := by decide
  rw [hex2str, digits_masked hmask]
  exact digits_eq_leftpad (by decide) _ (v.isLt.trans_le (by decide))

lemma int2str_eq (v : BitVec 64) : int2str v = signedDecimal v := by
  have hv := BitVec.toInt_eq_toNat_cond v
  have hlt := v.isLt
  unfold int2str signedDecimal
  split_ifs with h
  · have hneg : (-v).toNat = v.toInt.natAbs := by
      rw [BitVec.toNat_neg]
      split_ifs at hv <;> omega
    rw [uint2str_eq, decimal, hneg]
  · have hpos : v.toNat = v.toInt.natAbs := by
      split_ifs at hv <;> omega
    rw [uint2str_eq, decimal, hpos]

lemma length_uint2str (v : BitVec 64) : (uint2str v).length ≤ 20 := length_digits_le _ _ _ _

lemma length_hex2str (v mask : BitVec 64) : (hex2str v mask).length ≤ 16 := length_digits_le _ _ _ _

lemma length_int2str (v : BitVec 64) : (int2str v).length ≤ 21 := by
  unfold int2str
  split_ifs
  · exact Nat.succ_le_succ (length_uint2str _)
  · exact (length_uint2str v).trans (by decide)

/-! ### The buffer -/

lemma put_eq {b : Buf} (h : b.p < b.cells.length) (c : Char) :
    b.put c = some ⟨b.cells.set b.p c, b.p + 1⟩ := by
  simp [Buf.put, write, h]

/-- What is in the buffer before its end. -/
def Buf.text (b : Buf) : List Char := b.cells.take b.p

lemma take_set {m : List Char} {p : ℕ} (h : p < m.length) (c : Char) :
    (m.set p c).take (p + 1) = m.take p ++ [c] := by
  have hl : (m.take p).length = p := List.length_take_of_le h.le
  rw [List.set_eq_take_append_cons_drop, if_pos h, List.take_append, hl,
    List.take_of_length_le (hl.le.trans (Nat.le_succ p)), Nat.add_sub_cancel_left]
  rfl

lemma puts_eq {b : Buf} {s : List Char} (h : b.p + s.length ≤ b.cells.length) :
    ∃ b', b.puts s = some b' ∧ b'.cells.length = b.cells.length ∧ b'.p = b.p + s.length ∧
      b'.text = b.text ++ s := by
  induction s generalizing b with
  | nil => exact ⟨b, rfl, rfl, rfl, by simp⟩
  | cons c s ih =>
    rw [List.length_cons] at h
    have hp : b.p < b.cells.length := by omega
    have hs : b.p + 1 + s.length ≤ (b.cells.set b.p c).length := by
      rw [List.length_set]
      omega
    obtain ⟨b', he, hl, hp', ht⟩ := ih (b := ⟨b.cells.set b.p c, b.p + 1⟩) hs
    refine ⟨b', by rw [Buf.puts, put_eq hp]; exact he, by simpa using hl, ?_, ?_⟩
    · rw [hp', List.length_cons, Nat.add_assoc, Nat.add_comm 1]
    · rw [ht, Buf.text, take_set hp, List.append_assoc]
      rfl

/-- The loop of `align` reads each character before it writes there. -/
lemma moveUp_eq {shift n : ℕ} {m : List Char} (h : shift + n ≤ m.length) :
    ∃ m', moveUp 0 shift n m = some m' ∧ m'.length = m.length ∧
      ∀ j, m'[j]? = if shift ≤ j ∧ j < shift + n then m[j - shift]? else m[j]? := by
  induction n generalizing m with
  | zero => exact ⟨m, rfl, rfl, fun j => by rw [if_neg]; omega⟩
  | succ n ih =>
    have hn : n < m.length := by omega
    have hd : shift + n < m.length := by omega
    obtain ⟨m', he, hl, hj⟩ := ih (m := m.set (shift + n) m[n]) (by rw [List.length_set]; omega)
    refine ⟨m', ?_, by rw [hl, List.length_set], fun j => ?_⟩
    · simp only [moveUp, Nat.zero_add, List.getElem?_eq_getElem hn, Option.bind_some, write,
        if_pos hd]
      exact he
    · rw [hj]
      by_cases hr : shift ≤ j ∧ j < shift + n
      · rw [if_pos hr, if_pos ⟨hr.1, by omega⟩, List.getElem?_set_ne (by omega)]
      · rw [if_neg hr, List.getElem?_set]
        by_cases heq : shift + n = j
        · subst heq
          rw [if_pos rfl, if_pos hd, if_pos ⟨Nat.le_add_right .., by omega⟩,
            Nat.add_sub_cancel_left, List.getElem?_eq_getElem hn]
        · rw [if_neg heq, if_neg (by omega)]

/-- What `memset` writes. -/
lemma memset_eq {c : Char} {n : ℕ} {m : List Char} (h : n ≤ m.length) :
    ∃ m', memset 0 c n m = some m' ∧ m'.length = m.length ∧
      ∀ j, m'[j]? = if j < n then some c else m[j]? := by
  induction n generalizing m with
  | zero => exact ⟨m, rfl, rfl, fun j => rfl⟩
  | succ n ih =>
    have hn : n < m.length := h
    obtain ⟨m', he, hl, hj⟩ := ih (m := m.set n c) (by rw [List.length_set]; omega)
    refine ⟨m', ?_, by rw [hl, List.length_set], fun j => ?_⟩
    · simp only [memset, Nat.zero_add, write, if_pos hn, Option.bind_some]
      exact he
    · rw [hj, List.getElem?_set]
      by_cases hlt : j < n
      · rw [if_pos hlt, if_pos (by omega)]
      · rw [if_neg hlt]
        by_cases heq : n = j
        · subst heq
          rw [if_pos rfl, if_pos hn, if_pos (Nat.lt_succ_self n)]
        · rw [if_neg heq, if_neg (by omega)]

/-- **`align` pads on the left.** -/
lemma align_eq {b : Buf} {width : ℕ} (fill : Char) (hp : b.p ≤ b.cells.length)
    (hw : width ≤ b.cells.length) :
    ∃ b', b.align 0 width fill = some b' ∧ b'.cells.length = b.cells.length ∧
      b'.p = max width b.p ∧ b'.text = b.text.leftpad width fill := by
  have hlen : b.text.length = b.p := List.length_take_of_le hp
  rw [List.leftpad, hlen]
  by_cases hle : width ≤ b.p
  · refine ⟨b, by simp [Buf.align, hle], rfl, (max_eq_right hle).symm, ?_⟩
    rw [Nat.sub_eq_zero_of_le hle]
    rfl
  · have hsum : width - b.p + b.p = width := by omega
    obtain ⟨m, hm, hml, hmj⟩ := moveUp_eq
      (show width - b.p + b.p ≤ b.cells.length by omega)
    obtain ⟨m', hm', hml', hmj'⟩ := memset_eq (c := fill) (n := width - b.p) (m := m) (by omega)
    refine ⟨⟨m', width⟩, ?_, hml'.trans hml, (max_eq_left (Nat.le_of_not_le hle)).symm, ?_⟩
    · simp [Buf.align, hle, hm, hm']
    · refine List.ext_getElem? fun j => ?_
      change (m'.take width)[j]? = (_ ++ b.cells.take b.p)[j]?
      rw [List.getElem?_take, List.getElem?_append, hmj', hmj, List.length_replicate,
        List.getElem?_replicate, List.getElem?_take]
      by_cases h1 : j < width - b.p
      · rw [if_pos h1, if_pos (by omega), if_pos h1, if_pos h1]
      · rw [if_neg h1, if_neg h1]
        by_cases h2 : j < width
        · rw [if_pos h2, if_pos ⟨by omega, by omega⟩, if_pos (by omega)]
        · rw [if_neg h2, if_neg (by omega)]

/-! ### One piece after the other -/

/-- What was passed on and what is in the buffer are the text so far, as far as it has no
terminator in it. -/
structure Writes (b : Buf) (out text : List Char) : Prop where
  size : b.cells.length = bufSize
  room : b.p < bufSize
  text : nul ∉ text → out ++ b.text = text

lemma takeWhile_nul {m : List Char} {p : ℕ} (hp : p < m.length) (h : nul ∉ m.take p) :
    (m.set p nul).takeWhile (· ≠ nul) = m.take p := by
  rw [List.set_eq_take_append_cons_drop, if_pos hp]
  rw [List.takeWhile_append_of_pos]
  · simp
  · intro c hc
    have : c ≠ nul := fun he => h (he ▸ hc)
    simpa using this

lemma Writes.flush {b : Buf} {out text : List Char} (h : Writes b out text) :
    ∃ b' out', b.flush out = some (b', out') ∧ Writes b' out' text ∧ b'.p = 0 ∧
      (nul ∉ text → out' = text) := by
  have hp : b.p < b.cells.length := h.size.symm ▸ h.room
  have hout : nul ∉ text → out ++ (b.cells.set b.p nul).takeWhile (· ≠ nul) = text := by
    intro hn
    have ht := h.text hn
    rw [takeWhile_nul hp]
    · exact ht
    · intro hm
      rw [← ht] at hn
      exact hn (List.mem_append_right _ hm)
  refine ⟨⟨b.cells.set b.p nul, 0⟩, _, by simp only [Buf.flush, write, if_pos hp]; rfl,
    ⟨?_, Nat.succ_pos 127, fun hn => ?_⟩, rfl, hout⟩
  · exact (List.length_set ..).trans h.size
  · rw [hout hn]
    simp [Buf.text]

/-- Text that still fits, the place of the terminator left out. -/
lemma Writes.puts {b : Buf} {out text s : List Char} (h : Writes b out text)
    (hs : b.p + s.length < bufSize) :
    ∃ b', b.puts s = some b' ∧ Writes b' out (text ++ s) ∧ b'.p = b.p + s.length := by
  obtain ⟨b', he, hl, hp, ht⟩ := puts_eq (b := b) (s := s) (h.size.symm ▸ hs.le)
  refine ⟨b', he, ⟨hl.trans h.size, hp ▸ hs, fun hn => ?_⟩, hp⟩
  rw [ht, ← List.append_assoc, h.text fun hm => hn (List.mem_append_left _ hm)]

lemma Writes.check {b : Buf} {out text : List Char} (h : Writes b out text) :
    ∃ b' out', b.check out = some (b', out') ∧ Writes b' out' text ∧ b'.p < bufSize - 1 := by
  unfold Buf.check
  split_ifs with hp
  · obtain ⟨b', out', he, hw, hp', -⟩ := h.flush
    exact ⟨b', out', he, hw, hp' ▸ by decide⟩
  · exact ⟨b, out, rfl, h, Nat.lt_of_not_le hp⟩

/-- A number at the start of the buffer. -/
lemma Writes.number {b : Buf} {out text s : List Char} {width : ℕ} (h : Writes b out text)
    (hp : b.p = 0) (hs : s.length < bufSize) (hw : width < bufSize) (fill : Char) :
    ∃ b₁ b₂, b.puts s = some b₁ ∧ b₁.align b.p width fill = some b₂ ∧
      Writes b₂ out (text ++ s.leftpad width fill) := by
  obtain ⟨b₁, he, hl, hp₁, ht⟩ := puts_eq (b := b) (s := s) (by rw [h.size, hp]; omega)
  have hb : b.text = [] := by rw [Buf.text, hp, List.take_zero]
  rw [hp, Nat.zero_add] at hp₁
  rw [hb, List.nil_append] at ht
  have hcap : b₁.cells.length = bufSize := hl.trans h.size
  obtain ⟨b₂, he₂, hl₂, hp₂, ht₂⟩ := align_eq (b := b₁) fill (by omega)
    (show width ≤ b₁.cells.length by omega)
  refine ⟨b₁, b₂, he, hp ▸ he₂, ⟨hl₂.trans hcap, ?_, fun hn => ?_⟩⟩
  · rw [hp₂, hp₁]
    exact max_lt hw hs
  · have hout := h.text fun hm => hn (List.mem_append_left _ hm)
    rw [hb, List.append_nil] at hout
    rw [ht₂, ht, hout]

lemma Writes.put {b : Buf} {out text : List Char} (h : Writes b out text)
    (hp : b.p + 1 < bufSize) (c : Char) :
    ∃ b', b.put c = some b' ∧ Writes b' out (text ++ [c]) := by
  obtain ⟨b', he, hw, -⟩ := h.puts (s := [c]) hp
  exact ⟨b', by simpa [Buf.puts] using he, hw⟩

lemma readWidth_eq {ds : List Char} (hds : ∀ d ∈ ds, d.isDigit) {d : Char} (hd : ¬ d.isDigit)
    (fmt : List Char) {w : ℕ} {c : Char} {fmt' : List Char} (h : c :: fmt' = ds ++ d :: fmt) :
    readWidth w c fmt' = some (ds.foldl widthDigit w, d, fmt) := by
  induction ds generalizing w c fmt' with
  | nil =>
    obtain ⟨rfl, rfl⟩ := List.cons_eq_cons.mp h
    cases fmt' with
    | nil => simp [readWidth, hd]
    | cons e fmt => simp [readWidth, hd]
  | cons e ds ih =>
    obtain ⟨rfl, rfl⟩ := List.cons_eq_cons.mp h
    have hc : c.isDigit := hds c List.mem_cons_self
    have hrest : ∀ d ∈ ds, d.isDigit := fun d hd => hds d (List.mem_cons_of_mem c hd)
    rcases hl : ds ++ d :: fmt with _ | ⟨e, rest⟩
    · simp at hl
    · change readWidth w c (ds ++ d :: fmt) = _
      rw [hl, readWidth, if_pos hc]
      exact ih hrest hl.symm

lemma readLength_eq {length : Length} {c : Char} (hc : length ≠ .longLong → c ≠ 'l')
    (fmt : List Char) {x : Char} {fmt' : List Char} (h : x :: fmt' = length.text ++ c :: fmt) :
    readLength x fmt' = some (length, c, fmt) := by
  cases length with
  | normal =>
    obtain ⟨rfl, rfl⟩ := List.cons_eq_cons.mp h
    rw [readLength, if_neg (hc Length.noConfusion)]
  | long =>
    obtain ⟨rfl, rfl⟩ := List.cons_eq_cons.mp h
    simp [readLength, next, hc Length.noConfusion]
  | longLong =>
    obtain ⟨rfl, rfl⟩ := List.cons_eq_cons.mp h
    simp [readLength, next]

lemma widthDigit_lt (w : ℕ) (c : Char) : widthDigit w c < bufSize - 1 := by
  unfold widthDigit
  dsimp only
  split_ifs with h
  · decide
  · exact Nat.lt_of_not_le h

lemma widthOf_lt (ds : List Char) : widthOf ds < bufSize - 1 := by
  have h : ∀ w, w < bufSize - 1 → ds.foldl widthDigit w < bufSize - 1 := by
    induction ds with
    | nil => exact fun w hw => hw
    | cons d ds ih => exact fun w _ => ih _ (widthDigit_lt w d)
  exact h 0 (by decide)

/-- What a conversion does to the buffer is what its piece prints. -/
lemma convert_eq (width : List Char) (length : Length) (c : Char) (args : List Arg) {b : Buf}
    {out text : List Char} (h : Writes b out text) (hp : b.p = 0) :
    ((Piece.conv width length c).show args = none ∧
      convert length (widthOf width) (fillOf width) c args b out = .error .argument) ∨
    ∃ s args' b' out', (Piece.conv width length c).show args = some (s, args') ∧
      convert length (widthOf width) (fillOf width) c args b out = .ok (b', args', out') ∧
      Writes b' out' (text ++ s) := by
  have hw : widthOf width < bufSize := (widthOf_lt width).trans (by decide)
  have hnum : ∀ {s : List Char} (args' : List Arg), s.length ≤ 21 →
      ∃ b', ((need .overflow ((b.puts s).bind fun b' =>
          b'.align b.p (widthOf width) (fillOf width))).map fun b => (b, args', out)) =
            .ok (b', args', out) ∧
        Writes b' out (text ++ s.leftpad (widthOf width) (fillOf width)) := by
    intro s args' hs
    obtain ⟨b₁, b₂, h₁, h₂, hw⟩ := h.number hp (hs.trans_lt (by decide)) hw (fillOf width)
    exact ⟨b₂, by rw [h₁, Option.bind_some, h₂, need_some, ok_map], hw⟩
  unfold Piece.show convert
  dsimp only
  by_cases h1 : c = 'c'
  · simp only [if_pos h1]
    rcases args with _ | ⟨v | _ | _ | _, args⟩
    · exact Or.inl ⟨rfl, rfl⟩
    · obtain ⟨b', he, hw⟩ := h.put (by rw [hp]; decide) _
      exact Or.inr ⟨_, _, b', out, rfl, by simp only [he, need_some, ok_map], hw⟩
    all_goals exact Or.inl ⟨rfl, rfl⟩
  simp only [if_neg h1]
  by_cases h2 : c = 'd'
  · simp only [if_pos h2]
    rcases vaArg true length args with _ | ⟨v, args'⟩
    · exact Or.inl ⟨rfl, rfl⟩
    · obtain ⟨b', he, hw⟩ := hnum args' (length_int2str v)
      exact Or.inr ⟨_, args', b', out, rfl, he, int2str_eq v ▸ hw⟩
  simp only [if_neg h2]
  by_cases h3 : c = 'p'
  · simp only [if_pos h3]
    obtain ⟨b₁, he₁, hw₁, hp₁⟩ := h.puts (s := ['0', 'x']) (by rw [hp]; decide)
    rw [he₁, need_some, ok_bind]
    rcases vaArg false .long args with _ | ⟨v, args'⟩
    · exact Or.inl ⟨rfl, rfl⟩
    · have hlen := length_hex2str v (BitVec.allOnes 64)
      obtain ⟨b₂, he₂, hw₂, -⟩ := hw₁.puts (s := hex2str v (BitVec.allOnes 64)) <| by
        rw [hp₁, hp]
        exact Nat.lt_of_le_of_lt (Nat.add_le_add_left hlen _) (by decide)
      rw [List.append_assoc, hex2str_masked_eq] at hw₂
      exact Or.inr ⟨_, args', b₂, out, rfl, by simp only [need_some, ok_bind, he₂, ok_map], hw₂⟩
  simp only [if_neg h3]
  by_cases h4 : c = 's'
  · simp only [if_pos h4]
    rcases args with _ | ⟨_ | _ | _ | s, args⟩
    · exact Or.inl ⟨rfl, rfl⟩
    · exact Or.inl ⟨rfl, rfl⟩
    · exact Or.inl ⟨rfl, rfl⟩
    · exact Or.inl ⟨rfl, rfl⟩
    · -- the string goes behind what the buffer held
      have hb : b.text = [] := by rw [Buf.text, hp, List.take_zero]
      refine Or.inr ⟨s, args, b, out ++ s, rfl, rfl, h.size, h.room, fun hn => ?_⟩
      have hout := h.text fun hm => hn (List.mem_append_left _ hm)
      rw [hb, List.append_nil] at hout ⊢
      rw [hout]
  simp only [if_neg h4]
  by_cases h5 : c = 'u'
  · simp only [if_pos h5]
    rcases vaArg false length args with _ | ⟨v, args'⟩
    · exact Or.inl ⟨rfl, rfl⟩
    · obtain ⟨b', he, hw⟩ := hnum args' ((length_uint2str v).trans (by decide))
      exact Or.inr ⟨_, args', b', out, rfl, he, uint2str_eq v ▸ hw⟩
  simp only [if_neg h5]
  by_cases h6 : c = 'x'
  · simp only [if_pos h6]
    rcases vaArg false length args with _ | ⟨v, args'⟩
    · exact Or.inl ⟨rfl, rfl⟩
    · obtain ⟨b', he, hw⟩ := hnum args' ((length_hex2str v 0).trans (by decide))
      exact Or.inr ⟨_, args', b', out, rfl, he, hex2str_eq v ▸ hw⟩
  simp only [if_neg h6]
  obtain ⟨b', he, hw, -⟩ := h.puts (s := ['%', c]) (by rw [hp]; exact (by decide : 2 < bufSize))
  exact Or.inr ⟨_, args, b', out, rfl, by rw [he, need_some, ok_map], hw⟩

lemma fill_eq {ds : List Char} {d : Char} (hd : ¬ d.isDigit) {fmt fmt' : List Char} {c : Char}
    (h : c :: fmt' = ds ++ d :: fmt) : (if c = '0' then '0' else ' ') = fillOf ds := by
  cases ds with
  | nil =>
    obtain ⟨rfl, -⟩ := List.cons_eq_cons.mp h
    have hc : c ≠ '0' := by
      rintro rfl
      exact hd rfl
    rw [if_neg hc]
    rfl
  | cons e ds =>
    obtain ⟨rfl, -⟩ := List.cons_eq_cons.mp h
    simp [fillOf]

/-- What the loop did once it is through a piece. -/
def Through (n : ℕ) (p : Piece) (fmt : List Char) (args : List Arg) (text : List Char)
    (r : Except Fault (List Char)) : Prop :=
  (p.show args = none ∧ r = .error .argument) ∨
    ∃ s args' b' out', p.show args = some (s, args') ∧ Writes b' out' (text ++ s) ∧
      b'.p < bufSize - 1 ∧ r = vprintkLoop n fmt args' b' out'

lemma loop_conv {width : List Char} {length : Length} {c : Char} (hds : ∀ d ∈ width, d.isDigit)
    (hd : length = .normal → ¬ c.isDigit) (hl : length ≠ .longLong → c ≠ 'l') {n : ℕ}
    (fmt : List Char) (args : List Arg) {b : Buf} {out text : List Char} (h : Writes b out text) :
    Through n (.conv width length c) fmt args text
      (vprintkLoop (n + 1) ((Piece.conv width length c).text ++ fmt) args b out) := by
  obtain ⟨b₁, out₁, he₁, hw₁, hp₁, -⟩ := h.flush
  obtain ⟨x, rest, hx, hxd⟩ : ∃ x rest, x :: rest = length.text ++ c :: fmt ∧ ¬ x.isDigit := by
    cases length with
    | normal => exact ⟨c, fmt, rfl, hd rfl⟩
    | long => exact ⟨'l', c :: fmt, rfl, by decide⟩
    | longLong => exact ⟨'l', 'l' :: c :: fmt, rfl, by decide⟩
  obtain ⟨e, tail, he⟩ : ∃ e tail, e :: tail = width ++ x :: rest := by
    cases width with
    | nil => exact ⟨x, rest, rfl⟩
    | cons d ds => exact ⟨d, ds ++ x :: rest, rfl⟩
  have htext : (Piece.conv width length c).text ++ fmt = '%' :: e :: tail := by
    rw [he, hx]
    simp [Piece.text]
  have hwidth : readWidth 0 e tail = some (widthOf width, x, rest) := readWidth_eq hds hxd rest he
  have hlength : readLength x rest = some (length, c, fmt) := readLength_eq hl fmt hx
  have hloop : vprintkLoop (n + 1) ('%' :: e :: tail) args b out =
      (convert length (widthOf width) (fillOf width) c args b₁ out₁).bind fun (b, args, out) =>
        (need .overflow (b.check out)).bind fun (b, out) => vprintkLoop n fmt args b out := by
    have hnul : '%' ≠ nul := by decide
    simp only [vprintkLoop, next, need_some, ok_bind, if_neg hnul, if_true, he₁, hwidth, hlength,
      fill_eq hxd he]
  rw [htext, hloop]
  rcases convert_eq width length c args hw₁ hp₁ with
    ⟨hs, hc⟩ | ⟨s, args', b₂, out₂, hs, hc, hw₂⟩
  · exact Or.inl ⟨hs, by rw [hc]; rfl⟩
  · obtain ⟨b₃, out₃, he₃, hw₃, hb₃⟩ := hw₂.check
    exact Or.inr ⟨s, args', b₃, out₃, hs, hw₃, hb₃, by simp only [hc, ok_bind, he₃, need_some]⟩

lemma loop_piece {p : Piece} (hok : p.Ok) {n : ℕ} (fmt : List Char) (args : List Arg) {b : Buf}
    {out text : List Char} (h : Writes b out text) (hb : b.p < bufSize - 1) :
    Through n p fmt args text (vprintkLoop (n + 1) (p.text ++ fmt) args b out) := by
  cases p with
  | lit c =>
    obtain ⟨b₁, he₁, hw₁⟩ := h.put (Nat.add_lt_of_lt_sub hb) c
    obtain ⟨b₂, out₂, he₂, hw₂, hb₂⟩ := hw₁.check
    refine Or.inr ⟨[c], args, b₂, out₂, rfl, hw₂, hb₂, ?_⟩
    simp [vprintkLoop, Piece.text, next, hok.1, hok.2, he₁, he₂]
  | conv width length c => exact loop_conv hok.1 hok.2.1 hok.2.2.1 fmt args h

/-- What a list of pieces comes to. -/
lemma loop_render {ps : List Piece} (hok : ∀ p ∈ ps, p.Ok) {n : ℕ} (hn : ps.length < n)
    (args : List Arg) {b : Buf} {out text : List Char} (h : Writes b out text)
    (hb : b.p < bufSize - 1) :
    (render ps args = none →
      vprintkLoop n (ps.flatMap Piece.text ++ [nul]) args b out = .error .argument) ∧
    ∀ r, render ps args = some r →
      ∃ r', vprintkLoop n (ps.flatMap Piece.text ++ [nul]) args b out = .ok r' ∧
        (nul ∉ text ++ r → r' = text ++ r) := by
  obtain ⟨n, rfl⟩ := Nat.exists_eq_add_one_of_ne_zero (Nat.ne_zero_of_lt hn)
  induction ps generalizing n args b out text with
  | nil =>
    obtain ⟨b', out', he, -, -, hout⟩ := h.flush
    have hloop : vprintkLoop (n + 1) ([] ++ [nul]) args b out = .ok out' := by
      simp [vprintkLoop, next, he]
    rw [List.flatMap_nil, hloop]
    refine ⟨fun hr => absurd hr (Option.some_ne_none []), fun r hr => ⟨out', rfl, fun hnul => ?_⟩⟩
    obtain rfl := Option.some.inj hr
    rw [List.append_nil] at hnul ⊢
    exact hout hnul
  | cons p ps ih =>
    obtain ⟨hp, hps⟩ := List.forall_mem_cons.mp hok
    have hn' : ps.length < n := Nat.lt_of_succ_lt_succ hn
    obtain ⟨m, rfl⟩ := Nat.exists_eq_add_one_of_ne_zero (Nat.ne_zero_of_lt hn')
    rw [List.flatMap_cons, List.append_assoc]
    rcases loop_piece (n := m + 1) hp (ps.flatMap Piece.text ++ [nul]) args h hb
      with ⟨hs, hr⟩ | ⟨s, args', b', out', hs, hw, hb', hr⟩
    · simp [render, hs, hr]
    · obtain ⟨hnone, hsome⟩ := ih hps args' hw hb' m hn'
      have hrender : render (p :: ps) args = (render ps args').map (s ++ ·) := by
        simp [render, hs]
      rw [hr, hrender]
      refine ⟨fun he => hnone (Option.map_eq_none_iff.mp he), fun r he => ?_⟩
      obtain ⟨r', hr', rfl⟩ := Option.map_eq_some_iff.mp he
      simp only [← List.append_assoc]
      exact hsome r' hr'

/-- A format that ends within a conversion is read on behind its terminator, if the arguments last
until there. -/
lemma loop_unfinished {ps : List Piece} (hok : ∀ p ∈ ps, p.Ok) {rest : List Char}
    (hrest : Unfinished rest) {n : ℕ} (hn : ps.length + 1 < n) {args : List Arg} {b : Buf}
    {out text : List Char} (h : Writes b out text) (hb : b.p < bufSize - 1) :
    vprintkLoop n (ps.flatMap Piece.text ++ (rest ++ [nul])) args b out =
      .error (if (render ps args).isSome then .pastEnd else .argument) := by
  obtain ⟨n, rfl⟩ := Nat.exists_eq_add_one_of_ne_zero (Nat.ne_zero_of_lt hn)
  obtain ⟨n, rfl⟩ := Nat.exists_eq_add_one_of_ne_zero
    (Nat.ne_zero_of_lt (Nat.lt_of_succ_lt_succ hn))
  induction ps generalizing n args b out text with
  | nil =>
    obtain ⟨width, length, hds, rfl⟩ := hrest
    have hd : length = .normal → ¬ nul.isDigit := fun _ => by decide
    have hl : length ≠ .longLong → nul ≠ 'l' := fun _ => by decide
    have hr := loop_conv (n := n + 1) hds hd hl [] args h
    have htext : (Piece.conv width length nul).text ++ [] =
        '%' :: (width ++ length.text) ++ [nul] := by
      simp [Piece.text]
    rw [htext] at hr
    rcases hr with ⟨hs, -⟩ | ⟨s, args', b', out', -, -, -, hr⟩
    · cases hs
    · exact hr
  | cons p ps ih =>
    obtain ⟨hp, hps⟩ := List.forall_mem_cons.mp hok
    have hn' : ps.length + 1 < n + 1 := Nat.lt_of_succ_lt_succ hn
    obtain ⟨m, rfl⟩ := Nat.exists_eq_add_one_of_ne_zero
      (Nat.ne_zero_of_lt (Nat.lt_of_succ_lt_succ hn'))
    rw [List.flatMap_cons, List.append_assoc]
    rcases loop_piece (n := m + 1 + 1) hp (ps.flatMap Piece.text ++ (rest ++ [nul])) args h hb
      with ⟨hs, hr⟩ | ⟨s, args', b', out', hs, hw, hb', hr⟩
    · simp [render, hs, hr]
    · rw [hr, ih hps hw hb' m hn']
      simp [render, hs]

/-! ### Every format -/

lemma exists_digits (t : List Char) : ∃ ds r, (∀ d ∈ ds, Char.isDigit d) ∧
    (∀ x ∈ r.head?, ¬ Char.isDigit x) ∧ t = ds ++ r := by
  refine ⟨t.takeWhile Char.isDigit, t.dropWhile Char.isDigit,
    fun d hd => List.mem_takeWhile_imp hd, fun x hx => ?_, List.takeWhile_append_dropWhile.symm⟩
  have h := List.head?_dropWhile_not Char.isDigit t
  rw [Option.mem_def.mp hx] at h
  simpa using h

/-- A format is a list of pieces, with the beginning of a conversion behind them or without. -/
lemma exists_pieces {fmt : List Char} (h : nul ∉ fmt) :
    ∃ (ps : List Piece) (rest : List Char), (∀ p ∈ ps, p.Ok) ∧
      fmt = ps.flatMap Piece.text ++ rest ∧ (rest = [] ∨ Unfinished rest) := by
  -- one piece, and the rest by induction
  have hcons : ∀ {p : Piece} {t : List Char}, p.Ok →
      (∃ (ps : List Piece) (rest : List Char), (∀ p ∈ ps, p.Ok) ∧
        t = ps.flatMap Piece.text ++ rest ∧ (rest = [] ∨ Unfinished rest)) →
      ∃ (ps : List Piece) (rest : List Char), (∀ p ∈ ps, p.Ok) ∧
        p.text ++ t = ps.flatMap Piece.text ++ rest ∧ (rest = [] ∨ Unfinished rest) := by
    rintro p t hp ⟨ps, rest, hok, rfl, hrest⟩
    exact ⟨p :: ps, rest, List.forall_mem_cons.mpr ⟨hp, hok⟩,
      by rw [List.flatMap_cons, List.append_assoc], hrest⟩
  have hend : ∀ {ds : List Char} (length : Length), (∀ d ∈ ds, d.isDigit) →
      ∃ (ps : List Piece) (rest : List Char), (∀ p ∈ ps, p.Ok) ∧
        '%' :: (ds ++ length.text) = ps.flatMap Piece.text ++ rest ∧
          (rest = [] ∨ Unfinished rest) := by
    intro ds length hds
    exact ⟨[], _, by simp, rfl, Or.inr ⟨ds, length, hds, rfl⟩⟩
  induction hlen : fmt.length using Nat.strong_induction_on generalizing fmt with
  | _ n ih =>
    rcases fmt with _ | ⟨c, t⟩
    · exact ⟨[], [], by simp, rfl, Or.inl rfl⟩
    have hc : c ≠ nul := fun he => h (he ▸ List.mem_cons_self)
    have hsub : ∀ {u v : List Char}, t = u ++ v → nul ∉ v := by
      rintro u v rfl hm
      exact h (List.mem_cons_of_mem c (List.mem_append_right u hm))
    have hrec : ∀ {u v : List Char}, t = u ++ v →
        ∃ (ps : List Piece) (rest : List Char), (∀ p ∈ ps, p.Ok) ∧
          v = ps.flatMap Piece.text ++ rest ∧ (rest = [] ∨ Unfinished rest) := by
      intro u v huv
      refine ih v.length ?_ (hsub huv) rfl
      rw [← hlen, huv, List.length_cons, List.length_append]
      omega
    by_cases hpc : c = '%'
    · subst hpc
      obtain ⟨ds, r, hds, hr, rfl⟩ := exists_digits t
      rcases r with _ | ⟨x, r⟩
      · simpa [Length.text] using hend .normal hds
      have hx := hr x rfl
      by_cases hxl : x = 'l'
      · subst hxl
        rcases r with _ | ⟨y, r⟩
        · simpa [Length.text] using hend .long hds
        by_cases hyl : y = 'l'
        · subst hyl
          rcases r with _ | ⟨z, r⟩
          · simpa [Length.text] using hend .longLong hds
          have hz : z ≠ nul := by
            rintro rfl
            exact hsub (u := ds ++ ['l', 'l']) (v := nul :: r) (by simp) List.mem_cons_self
          have hok : (Piece.conv ds .longLong z).Ok :=
            ⟨hds, fun he => Length.noConfusion he, fun he => absurd rfl he, hz⟩
          simpa [Piece.text, Length.text] using
            hcons hok (hrec (u := ds ++ ['l', 'l', z]) (v := r) (by simp))
        · have hy : y ≠ nul := by
            rintro rfl
            exact hsub (u := ds ++ ['l']) (v := nul :: r) (by simp) List.mem_cons_self
          have hok : (Piece.conv ds .long y).Ok :=
            ⟨hds, fun he => Length.noConfusion he, fun _ => hyl, hy⟩
          simpa [Piece.text, Length.text] using
            hcons hok (hrec (u := ds ++ ['l', y]) (v := r) (by simp))
      · have hxn : x ≠ nul := by
          rintro rfl
          exact hsub (u := ds) rfl List.mem_cons_self
        have hok : (Piece.conv ds .normal x).Ok := ⟨hds, fun _ => hx, fun _ => hxl, hxn⟩
        simpa [Piece.text, Length.text] using hcons hok (hrec (u := ds ++ [x]) (v := r) (by simp))
    · exact hcons (p := .lit c) ⟨hpc, hc⟩ (hrec (u := []) (v := t) rfl)

lemma length_le_text (ps : List Piece) : ps.length ≤ (ps.flatMap Piece.text).length := by
  induction ps with
  | nil => exact Nat.le_refl 0
  | cons p ps ih =>
    have hp : 0 < p.text.length := by cases p <;> exact Nat.succ_pos _
    rw [List.flatMap_cons, List.length_cons, List.length_append]
    omega

/-- **What `__vprintk` prints.** Every format is made of pieces, or ends within a conversion, and no
format makes it write behind its buffer. The pieces are printed one after the other, whatever they
are and however long the output gets, unless an argument of the right type is missing; what is
printed is what they mean as long as that has no terminator in it. A format that ends within a
conversion is read beyond its end. -/
theorem vprintk_renders {cells : List Char} (hcells : cells.length = bufSize) {fmt : List Char}
    (hfmt : nul ∉ fmt) (args : List Arg) :
    ((∃ ps, Spells ps fmt) ∨
      ∃ ps fmt' rest, Spells ps fmt' ∧ Unfinished rest ∧ fmt = fmt' ++ rest) ∧
    vprintk cells fmt args ≠ .error .overflow ∧
    (∀ ps, Spells ps fmt →
      (render ps args = none → vprintk cells fmt args = .error .argument) ∧
      ∀ out, render ps args = some out →
        ∃ out', vprintk cells fmt args = .ok out' ∧ (nul ∉ out → out' = out)) ∧
    ∀ ps fmt' rest, Spells ps fmt' → Unfinished rest → fmt = fmt' ++ rest →
      vprintk cells fmt args =
        .error (if (render ps args).isSome then .pastEnd else .argument) := by
  have hw : Writes ⟨cells, 0⟩ [] [] := ⟨hcells, Nat.succ_pos 127, fun _ => rfl⟩
  have hpieces : ((∃ ps, Spells ps fmt) ∨
      ∃ ps fmt' rest, Spells ps fmt' ∧ Unfinished rest ∧ fmt = fmt' ++ rest) := by
    obtain ⟨ps, rest, hok, hps, rfl | hrest⟩ := exists_pieces hfmt
    · exact Or.inl ⟨ps, hok, by rw [hps, List.append_nil]⟩
    · exact Or.inr ⟨ps, _, rest, ⟨hok, rfl⟩, hrest, hps⟩
  have hwhole : ∀ ps, Spells ps fmt →
      (render ps args = none → vprintk cells fmt args = .error .argument) ∧
      ∀ out, render ps args = some out →
        ∃ out', vprintk cells fmt args = .ok out' ∧ (nul ∉ out → out' = out) := by
    rintro ps ⟨hok, rfl⟩
    have hlen : ps.length < (ps.flatMap Piece.text).length + 2 :=
      Nat.lt_add_right 1 (Nat.lt_succ_of_le (length_le_text ps))
    exact loop_render hok hlen args hw (Nat.succ_pos 126)
  have hcut : ∀ ps fmt' rest, Spells ps fmt' → Unfinished rest → fmt = fmt' ++ rest →
      vprintk cells fmt args =
        .error (if (render ps args).isSome then .pastEnd else .argument) := by
    rintro ps fmt' rest ⟨hok, rfl⟩ hrest rfl
    have hlen := length_le_text ps
    rw [vprintk, List.append_assoc]
    refine loop_unfinished hok hrest ?_ hw (Nat.succ_pos 126)
    obtain ⟨width, length, -, rfl⟩ := hrest
    simp only [List.length_append, List.length_cons]
    omega
  refine ⟨hpieces, fun he => ?_, hwhole, hcut⟩
  rcases hpieces with ⟨ps, hps⟩ | ⟨ps, fmt', rest, hps, hrest, hfmt⟩
  · rcases hr : render ps args with _ | out
    · rw [(hwhole ps hps).1 hr] at he
      cases he
    · obtain ⟨out', ho, -⟩ := (hwhole ps hps).2 out hr
      rw [ho] at he
      cases he
  · rw [hcut ps fmt' rest hps hrest hfmt] at he
    split_ifs at he <;> cases he

/-- A padded number and a string. -/
theorem vprintk_renders_line :
    vprintk (List.replicate 128 nul) ['%', '4', 'd', ' ', '%', 's', '!']
      [.int (-7), .str ['o', 'k']] = .ok [' ', ' ', '-', '7', ' ', 'o', 'k', '!'] := by
  let ps : List Piece := [.conv ['4'] .normal 'd', .lit ' ', .conv [] .normal 's', .lit '!']
  have hps : Spells ps ['%', '4', 'd', ' ', '%', 's', '!'] := ⟨by simp [ps, Piece.Ok, nul], rfl⟩
  have hrender : render ps [.int (-7), .str ['o', 'k']] =
      some [' ', ' ', '-', '7', ' ', 'o', 'k', '!'] := by decide +kernel
  have hcells : (List.replicate 128 nul).length = bufSize := List.length_replicate
  obtain ⟨out, ho, hout⟩ := ((vprintk_renders hcells (by decide) _).2.2.1 ps hps).2 _ hrender
  rw [ho, hout (by decide)]

end FpMemSched.Printk
