import Mathlib.Data.Nat.Notation
import Mathlib.Algebra.Order.Ring.Nat
import Mathlib.Algebra.Order.Group.Nat
import Mathlib.Tactic.SplitIfs

/-!
Maps that are changed block by block.

A block of size `a` is the `a` addresses from a multiple of `a` on; two addresses lie in one block
if they have the same quotient. A state shows a map of addresses, and a change replaces what it
shows in the block of one address. A filling goes over a range with blocks that begin where it
stands. A sweep clears blocks; it may stand anywhere in the block that it clears and goes on by
the size of it, so that what it leaves behind has to be looked at pass by pass.
-/

namespace FpMemSched.Lib.Blocks

/-! ### Blocks -/

/-- Where the block of `a` addresses around `v` begins. -/
def base (a v : ℕ) : ℕ := v / a * a

lemma base_le (a v : ℕ) : base a v ≤ v := Nat.div_mul_le_self v a

lemma lt_base_add {a : ℕ} (ha : 0 < a) (v : ℕ) : v < base a v + a := by
  have := Nat.lt_div_mul_add (a := v) ha
  exact this

lemma base_of_dvd {a v : ℕ} (h : a ∣ v) : base a v = v := Nat.div_mul_cancel h

lemma base_eq_iff {a v : ℕ} : base a v = v ↔ a ∣ v :=
  ⟨fun h => ⟨v / a, (h.symm.trans (Nat.mul_comm ..))⟩, base_of_dvd⟩

/-- A smaller block that begins in a block ends in it. -/
lemma add_le_base_add {a b v : ℕ} (hb : 0 < b) (hab : a ∣ b) (hv : a ∣ v) :
    v + a ≤ base b v + b := by
  have hlt := lt_base_add hb v
  have hend : a ∣ base b v + b := Nat.dvd_add (hab.trans (Nat.dvd_mul_left ..)) hab
  have := Nat.le_of_dvd (Nat.sub_pos_of_lt hlt) (Nat.dvd_sub hend hv)
  omega

lemma div_eq_iff {a : ℕ} (ha : 0 < a) (x v : ℕ) :
    x / a = v / a ↔ base a v ≤ x ∧ x < base a v + a := by
  rw [base, Nat.div_eq_iff ha, ← Nat.lt_iff_le_pred (by omega)]

/-- A block lies in one block of each multiple of its size. -/
lemma div_eq_of_dvd {a b x y : ℕ} (h : a ∣ b) (hxy : x / a = y / a) : x / b = y / b := by
  obtain ⟨c, rfl⟩ := h
  rw [← Nat.div_div_eq_div_mul, hxy, Nat.div_div_eq_div_mul]

/-- The addresses from `v` on that are still in its block. -/
lemma div_add_eq {c v n : ℕ} (h : v % c + n < c) : (v + n) / c = v / c := by
  have hc : 0 < c := by omega
  rw [Nat.add_div hc, if_neg (by rw [Nat.mod_eq_of_lt (by omega : n < c)]; omega),
    Nat.div_eq_of_lt (by omega : n < c)]
  rfl

lemma mod_add_eq {c v n : ℕ} (h : v % c + n < c) : (v + n) % c = v % c + n := by
  rw [Nat.add_mod, Nat.mod_eq_of_lt (by omega : n < c), Nat.mod_eq_of_lt h]

/-- A range that ends in the block where it begins. -/
lemma div_eq_of_mem {c o k x : ℕ} (hc : o % c + k ≤ c) (h₁ : o ≤ x) (h₂ : x < o + k) :
    x / c = o / c := by
  obtain ⟨d, rfl⟩ := Nat.exists_eq_add_of_le h₁
  exact div_add_eq (by omega)

section

variable {σ τ β : Type*} {look : σ → ℕ → Option β} {view : τ → ℕ → Option β}

/-! ### Changes -/

/-- What is shown in the block of `a` addresses around `v` becomes `new`. -/
structure Repaints (look : σ → ℕ → Option β) (c : ℕ) (s t : σ) (v a : ℕ) (new : ℕ → Option β) :
    Prop where
  pos : 0 < a
  dvd : a ∣ c
  after : ∀ x, x / c = v / c → look t x = if x / a = v / a then new x else look s x

variable {c d v a n : ℕ} {s t : σ} {u w : τ} {new : ℕ → Option β}

/-- A change inside a smaller block is a change of everything that shows it there. -/
lemma Repaints.lift (h : Repaints view d u w v a new) (hd : d ∣ c)
    (hs : ∀ x, x / d = v / d → look s x = view u x)
    (ht : ∀ x, x / c = v / c → look t x = if x / d = v / d then view w x else look s x) :
    Repaints look c s t v a new := by
  refine ⟨h.pos, h.dvd.trans hd, fun x hx => ?_⟩
  rw [ht x hx]
  by_cases hb : x / d = v / d
  · rw [if_pos hb, h.after x hb, hs x hb]
  · rw [if_neg hb, if_neg (mt (div_eq_of_dvd h.dvd) hb)]

/-- Blocks are painted one after the other, each beginning where the last one ended. -/
inductive Filling (look : σ → ℕ → Option β) (c : ℕ) (new : ℕ → Option β) : σ → ℕ → ℕ → σ → Prop
  | done (s : σ) (v : ℕ) : Filling look c new s v 0 s
  | step {s t u : σ} {v a n : ℕ} (h : Repaints look c s t v a new) (hv : a ∣ v) (hn : a ≤ n)
      (hu : Filling look c new t (v + a) (n - a) u) : Filling look c new s v n u

lemma Filling.eq_of_zero (h : Filling look c new s v 0 t) : t = s := by
  cases h with
  | done => rfl
  | step h hv hn hu => exact absurd h.pos (by omega)

/-- A filling changes its range and nothing else. -/
lemma Filling.exact (h : Filling look c new s v n t) (hc : v % c + n ≤ c) :
    ∀ x, x / c = v / c → look t x = if v ≤ x ∧ x < v + n then new x else look s x := by
  induction h with
  | done s v =>
    intro x _
    rw [if_neg (by omega)]
  | @step s t u v a n h hv hn hu ih =>
    intro x hx
    have hpos := h.pos
    have hin := div_eq_iff hpos x v
    rw [base_of_dvd hv] at hin
    rcases Nat.eq_or_lt_of_le hn with rfl | hlt
    · rw [Nat.sub_self] at hu
      rw [hu.eq_of_zero, h.after x hx]
      simp only [hin]
    · have hva := div_add_eq (c := c) (v := v) (n := a) (by omega)
      rw [ih (by rw [mod_add_eq (by omega)]; omega) x (hx.trans hva.symm), h.after x hx]
      simp only [hin]
      split_ifs <;> first | rfl | omega

/-! ### Sweeps -/

/-- The block of `a` addresses around `v` is cleared. Either all of it is shown, and it is no
larger than what is left to clear, or nothing of it. -/
structure Clears (look : σ → ℕ → Option β) (c : ℕ) (s t : σ) (v n a : ℕ) : Prop
    extends Repaints look c s t v a fun _ => none where
  shown : look s v ≠ none → a ≤ n ∧ ∀ x, x / a = v / a → look s x ≠ none
  hole : look s v = none → ∀ x, x / a = v / a → look s x = none

lemma Clears.lift (h : Clears view d u w v n a) (hd : d ∣ c)
    (hs : ∀ x, x / d = v / d → look s x = view u x)
    (ht : ∀ x, x / c = v / c → look t x = if x / d = v / d then view w x else look s x) :
    Clears look c s t v n a := by
  refine ⟨h.toRepaints.lift hd hs ht, fun hv => ?_, fun hv x hx => ?_⟩
  · rw [hs v rfl] at hv
    refine ⟨(h.shown hv).1, fun x hx => ?_⟩
    rw [hs x (div_eq_of_dvd h.dvd hx)]
    exact (h.shown hv).2 x hx
  · rw [hs v rfl] at hv
    rw [hs x (div_eq_of_dvd h.dvd hx)]
    exact h.hole hv x hx

variable {stop : σ → ℕ → ℕ → ℕ}

/-- A sweep from `v` over `n` addresses, with the passes it consists of: the state, the address
and what is left before each. A pass clears a block of the size `stop`. -/
inductive Sweep (look : σ → ℕ → Option β) (stop : σ → ℕ → ℕ → ℕ) (c : ℕ) :
    List (σ × ℕ × ℕ) → σ → ℕ → ℕ → σ → Prop
  | done (s : σ) (v : ℕ) : Sweep look stop c [] s v 0 s
  | last {s t : σ} {v n : ℕ} (hn : 0 < n) (h : Clears look c s t v n (stop s v n))
      (hlt : n < stop s v n) : Sweep look stop c [(s, v, n)] s v n t
  | step {log : List (σ × ℕ × ℕ)} {s t u : σ} {v n : ℕ} (h : Clears look c s t v n (stop s v n))
      (hle : stop s v n ≤ n) (hu : Sweep look stop c log t (v + stop s v n) (n - stop s v n) u) :
      Sweep look stop c ((s, v, n) :: log) s v n u

variable {log : List (σ × ℕ × ℕ)} {x y : ℕ}

lemma Sweep.eq_of_zero (h : Sweep look stop c log s v 0 t) : t = s ∧ log = [] := by
  cases h with
  | done => exact ⟨rfl, rfl⟩
  | last hn => exact absurd hn (by omega)
  | step h hle => exact absurd h.pos (by omega)

/-- A sweep shows nothing new. -/
lemma Sweep.none_of_none (h : Sweep look stop c log s v n t) (hc : v % c + n ≤ c)
    (hx : x / c = v / c) (hnone : look s x = none) : look t x = none := by
  induction h with
  | done => exact hnone
  | last hn h hlt =>
    rw [h.after x hx, hnone, ite_self]
  | @step log s t u v n h hle hu ih =>
    have ht : look t x = none := by rw [h.after x hx, hnone, ite_self]
    rcases Nat.eq_or_lt_of_le hle with he | hlt
    · rw [he, Nat.sub_self] at hu
      rw [hu.eq_of_zero.1]
      exact ht
    · have hin : v % c + stop s v n < c := by omega
      refine ih ?_ ?_ ht
      · rw [mod_add_eq hin]
        omega
      · rw [div_add_eq hin]
        exact hx

/-- What lies behind a gap is left as it is. -/
lemma Clears.behind_gap (h : Clears look c s t v n a) (hx : x / c = v / c) (hxy : x < y)
    (hyv : y ≤ v) (hgap : look s y = none) : look t x = look s x := by
  rw [h.after x hx]
  split_ifs with hb
  · have hblock := (div_eq_iff h.pos x v).mp hb
    have hy : y / a = v / a := by
      rw [div_eq_iff h.pos]
      have := lt_base_add h.pos v
      omega
    by_cases hv : look s v = none
    · exact (h.hole hv x hb).symm
    · exact absurd hgap ((h.shown hv).2 y hy)
  · rfl

lemma Sweep.behind_gap (h : Sweep look stop c log s v n t) (hc : v % c + n ≤ c)
    (hx : x / c = v / c) (hy : y / c = v / c) (hxy : x < y) (hyv : y ≤ v)
    (hgap : look s y = none) : look t x = look s x := by
  induction h with
  | done => rfl
  | last hn h hlt => exact h.behind_gap hx hxy hyv hgap
  | @step log s t u v n h hle hu ih =>
    have ht := h.behind_gap hx hxy hyv hgap
    have hty : look t y = none := by rw [h.after y hy, hgap, ite_self]
    rcases Nat.eq_or_lt_of_le hle with he | hlt
    · rw [he, Nat.sub_self] at hu
      rw [hu.eq_of_zero.1]
      exact ht
    · have hin : v % c + stop s v n < c := by omega
      rw [← ht]
      refine ih ?_ ?_ ?_ (by omega) hty
      · rw [mod_add_eq hin]
        omega
      · rw [div_add_eq hin]
        exact hx
      · rw [div_add_eq hin]
        exact hy

/-! ### Exact sweeps -/

/-- The range from `o` on that has been swept up to `v` is still shown as in `m` elsewhere. -/
def Kept (look : σ → ℕ → Option β) (c : ℕ) (m : ℕ → Option β) (o v : ℕ) (s : σ) : Prop :=
  ∀ x, x / c = o / c → x < o ∨ v ≤ x → look s x = m x

/-- The range is cleared and nothing else. -/
def Cleared (look : σ → ℕ → Option β) (c : ℕ) (m : ℕ → Option β) (o k : ℕ) (s : σ) : Prop :=
  ∀ x, x / c = o / c → look s x = if o ≤ x ∧ x < o + k then none else m x

/-- A pass of a sweep that began at `o` does no harm: the block that it clears does not begin
before `o`; what has been left behind is in it; and the last pass leaves nothing. -/
structure Fine (look : σ → ℕ → Option β) (stop : σ → ℕ → ℕ → ℕ) (o : ℕ) (s : σ) (v n : ℕ) :
    Prop where
  begins : look s v ≠ none → o ≤ base (stop s v n) v
  behind : ∀ x, o ≤ x → x < v → look s x ≠ none → look s v ≠ none ∧ base (stop s v n) v ≤ x
  rest : n ≤ stop s v n → ∀ x, base (stop s v n) v + stop s v n ≤ x → x < v + n → look s x = none

variable {m : ℕ → Option β} {o k : ℕ}

/-- A block that is shown lies in the range once it begins there. -/
lemma Clears.kept (h : Clears look c s t v n a) (hk : Kept look c m o v s) (hov : v / c = o / c)
    (hbegins : look s v ≠ none → o ≤ base a v) : Kept look c m o (v + a) t := by
  intro x hx hout
  have hle := base_le a v
  rw [h.after x (hx.trans hov.symm)]
  split_ifs with hb
  · have hblock := (div_eq_iff h.pos x v).mp hb
    by_cases hv : look s v = none
    · rw [← hk x hx, h.hole hv x hb]
      rcases hout with hlt | hge
      · exact Or.inl hlt
      · exact Or.inr (by omega)
    · have := hbegins hv
      omega
  · exact hk x hx (by omega)

/-- The pass after which nothing is left to do. -/
lemma Clears.cleared_iff (h : Clears look c s t v n (stop s v n)) (hk : Kept look c m o v s)
    (hov : v / c = o / c) (ho : o ≤ v) (hn : v + n = o + k) (hc : o % c + k ≤ c) (hpos : 0 < n)
    (hlast : n ≤ stop s v n) : Cleared look c m o k t ↔ Fine look stop o s v n := by
  have hle := base_le (stop s v n) v
  have hlt := lt_base_add h.pos v
  have hbase : base (stop s v n) v / (stop s v n) = v / (stop s v n) := by
    rw [div_eq_iff h.pos]
    omega
  constructor
  · intro hex
    refine ⟨fun hv => ?_, fun x hox hxv hx => ?_, fun _ x hbx hxn => ?_⟩
    · by_contra hb
      have hshown := (h.shown hv).2 _ hbase
      have hx : base (stop s v n) v / c = o / c := (div_eq_of_dvd h.dvd hbase).trans hov
      rw [hk _ hx (by omega)] at hshown
      have ht := hex _ hx
      rw [if_neg (by omega), h.after _ (hx.trans hov.symm), if_pos hbase] at ht
      exact hshown ht.symm
    · have hxc := div_eq_of_mem hc hox (by omega)
      have ht := hex x hxc
      rw [if_pos ⟨hox, by omega⟩, h.after x (hxc.trans hov.symm)] at ht
      split_ifs at ht with hb
      · refine ⟨fun hv => hx (h.hole hv x hb), ((div_eq_iff h.pos x v).mp hb).1⟩
      · exact absurd ht hx
    · have hxc := div_eq_of_mem (x := x) hc (by omega) (by omega)
      have ht := hex x hxc
      rw [if_pos ⟨by omega, by omega⟩, h.after x (hxc.trans hov.symm), if_neg] at ht
      · exact ht
      · rw [div_eq_iff h.pos]
        omega
  · intro hf x hx
    have hkept := h.kept hk hov hf.begins
    split_ifs with hr
    · rw [h.after x (hx.trans hov.symm)]
      split_ifs with hb
      · rfl
      · rw [div_eq_iff h.pos] at hb
        by_contra hxs
        rcases Nat.lt_or_ge x v with hxv | hxv
        · have := hf.behind x hr.1 hxv hxs
          omega
        · exact hxs (hf.rest hlast x (by omega) (by omega))
    · rcases Nat.lt_or_ge x o with hxo | hxo
      · exact hkept x hx (Or.inl hxo)
      · rw [h.after x (hx.trans hov.symm)]
        split_ifs with hb
        · rw [div_eq_iff h.pos] at hb
          by_cases hv : look s v = none
          · rw [← hk x hx (by omega), h.hole hv x ((div_eq_iff h.pos x v).mpr hb)]
          · have := (h.shown hv).1
            omega
        · exact hk x hx (by omega)

/-- What a pass before the last must not do if the sweep is to be exact. -/
lemma Sweep.fine_of_cleared (h : Clears look c s t v n (stop s v n))
    {r : σ} (hu : Sweep look stop c log t (v + stop s v n) (n - stop s v n) r)
    (hk : Kept look c m o v s) (hov : v / c = o / c) (ho : o ≤ v) (hn : v + n = o + k)
    (hc : o % c + k ≤ c) (hlt : stop s v n < n) (hex : Cleared look c m o k r) :
    Fine look stop o s v n := by
  have hle := base_le (stop s v n) v
  have hblock := lt_base_add h.pos v
  have hvc : v % c + n ≤ c := by
    obtain ⟨d, rfl⟩ := Nat.exists_eq_add_of_le ho
    rw [mod_add_eq (by omega)]
    omega
  have hin : v % c + stop s v n < c := by omega
  have hv' : (v + stop s v n) / c = o / c := (div_add_eq hin).trans hov
  have hrest : (v + stop s v n) % c + (n - stop s v n) ≤ c := by
    rw [mod_add_eq hin]
    omega
  have hbase : base (stop s v n) v / (stop s v n) = v / (stop s v n) := by
    rw [div_eq_iff h.pos]
    omega
  have hbc : base (stop s v n) v / c = o / c := (div_eq_of_dvd h.dvd hbase).trans hov
  refine ⟨fun hv => ?_, fun x hox hxv hx => ?_, fun hlast => absurd hlast (by omega)⟩
  · by_contra hb
    have hshown := (h.shown hv).2 _ hbase
    rw [hk _ hbc (by omega)] at hshown
    have ht : look t (base (stop s v n) v) = none := by
      rw [h.after _ (hbc.trans hov.symm), if_pos hbase]
    have hr := hex _ hbc
    rw [if_neg (by omega), hu.none_of_none hrest (hbc.trans hv'.symm) ht] at hr
    exact hshown hr.symm
  · have hxc : x / c = o / c := div_eq_of_mem hc hox (by omega)
    have hr := hex x hxc
    rw [if_pos ⟨hox, by omega⟩] at hr
    by_contra hno
    -- an address behind `x` is not shown any more, so that `x` stays
    obtain ⟨y, hxy, hyv, hyc, hout, hgap⟩ : ∃ y, x < y ∧ y ≤ v ∧ y / c = o / c ∧
        ¬ x / stop s v n = v / stop s v n ∧ look t y = none := by
      by_cases hv : look s v = none
      · refine ⟨v, hxv, le_rfl, hov, fun hb => hx (h.hole hv x hb), ?_⟩
        rw [h.after v rfl, hv, ite_self]
      · have hxb : x < base (stop s v n) v := by
          by_contra hge
          exact hno ⟨hv, by omega⟩
        refine ⟨base (stop s v n) v, hxb, hle, hbc, ?_, ?_⟩
        · rw [div_eq_iff h.pos]
          omega
        · rw [h.after _ (hbc.trans hov.symm), if_pos hbase]
    rw [hu.behind_gap hrest (hxc.trans hv'.symm) (hyc.trans hv'.symm) hxy (by omega) hgap,
      h.after x (hxc.trans hov.symm), if_neg hout] at hr
    exact hx hr

/-- **A sweep is exact exactly if all its passes are fine.** -/
theorem Sweep.cleared_iff (h : Sweep look stop c log s v n t) (hk : Kept look c m o v s)
    (hov : v / c = o / c) (ho : o ≤ v) (hn : v + n = o + k) (hc : o % c + k ≤ c) (hpos : 0 < n) :
    Cleared look c m o k t ↔ ∀ e ∈ log, Fine look stop o e.1 e.2.1 e.2.2 := by
  induction h with
  | done => exact absurd hpos (by omega)
  | last _ h hlt =>
    rw [List.forall_mem_singleton]
    exact h.cleared_iff hk hov ho hn hc hpos hlt.le
  | @step log s t u v n h hle hu ih =>
    rw [List.forall_mem_cons]
    rcases Nat.eq_or_lt_of_le hle with he | hlt
    · have hu' := hu
      rw [he, Nat.sub_self] at hu'
      obtain ⟨rfl, rfl⟩ := hu'.eq_of_zero
      rw [h.cleared_iff hk hov ho hn hc hpos he.ge]
      simp
    · have hov' : (v + stop s v n) / c = o / c := div_eq_of_mem hc (by omega) (by omega)
      have hnext : Fine look stop o s v n →
          (Cleared look c m o k u ↔ ∀ e ∈ log, Fine look stop o e.1 e.2.1 e.2.2) :=
        fun hf => ih (h.kept hk hov hf.begins) hov' (by omega) (by omega) (by omega)
      constructor
      · intro hex
        have hf := Sweep.fine_of_cleared h hu hk hov ho hn hc hlt hex
        exact ⟨hf, (hnext hf).mp hex⟩
      · rintro ⟨hf, hall⟩
        exact (hnext hf).mpr hall

/-! ### Straight sweeps -/

/-- A pass is straight: its block begins where it stands, or nothing is left to clear. -/
def Straight (look : σ → ℕ → Option β) (stop : σ → ℕ → ℕ → ℕ) (s : σ) (v n : ℕ) : Prop :=
  stop s v n ∣ v ∨ ∀ x, v ≤ x → x < v + n → look s x = none

/-- A hole stays as it is. -/
lemma Clears.eq_of_none (h : Clears look c s t v n a) (hv : look s v = none)
    (hx : x / c = v / c) : look t x = look s x := by
  rw [h.after x hx]
  split_ifs with hb
  · exact (h.hole hv x hb).symm
  · rfl

/-- A straight pass leaves nothing behind, and the rest as it was. -/
lemma Clears.straight (h : Clears look c s t v n (stop s v n)) (hs : Straight look stop s v n)
    (hk : Kept look c m o v s) (hgone : ∀ x, o ≤ x → x < v → look s x = none) (ho : o ≤ v)
    (hn : v + n = o + k) (hc : o % c + k ≤ c) (hle : stop s v n ≤ n) :
    Kept look c m o (v + stop s v n) t ∧
      ∀ x, o ≤ x → x < v + stop s v n → look t x = none := by
  have hpos := h.pos
  have hov : v / c = o / c := div_eq_of_mem hc ho (by omega)
  rcases hs with hdvd | hnone
  · have hbase : base (stop s v n) v = v := base_of_dvd hdvd
    refine ⟨h.kept hk hov fun _ => hbase.symm ▸ ho, fun x h₁ h₂ => ?_⟩
    rw [h.after x ((div_eq_of_mem hc h₁ (by omega)).trans hov.symm)]
    split_ifs with hx
    · rfl
    · refine hgone x h₁ ?_
      rw [div_eq_iff hpos, hbase] at hx
      omega
  · have hsame : ∀ x, x / c = o / c → look t x = look s x :=
      fun x hx => h.eq_of_none (hnone v le_rfl (by omega)) (hx.trans hov.symm)
    refine ⟨fun x hx hout => ?_, fun x h₁ h₂ => ?_⟩
    · rw [hsame x hx]
      exact hk x hx (by omega)
    · rw [hsame x (div_eq_of_mem hc h₁ (by omega))]
      rcases Nat.lt_or_ge x v with hxv | hxv
      · exact hgone x h₁ hxv
      · exact hnone x hxv (by omega)

/-- **A sweep whose passes are all straight** is exact. -/
theorem Sweep.cleared_of_straight (h : Sweep look stop c log s v n t) (hk : Kept look c m o v s)
    (hgone : ∀ x, o ≤ x → x < v → look s x = none) (ho : o ≤ v) (hn : v + n = o + k)
    (hc : o % c + k ≤ c) (hall : ∀ e ∈ log, Straight look stop e.1 e.2.1 e.2.2) :
    Cleared look c m o k t := by
  -- where nothing is cleared any more
  have hidle : ∀ {s : σ} {v n : ℕ}, Kept look c m o v s → v + n = o + k →
      (∀ x, o ≤ x → x < o + k → look s x = none) → Cleared look c m o k s := by
    intro s v n hk hn hnone x hx
    split_ifs with hr
    · exact hnone x hr.1 hr.2
    · exact hk x hx (by omega)
  induction h with
  | done s v => exact hidle hk hn fun x h₁ h₂ => hgone x h₁ (by omega)
  | @last s t v n hpos h hlt =>
    have hov : v / c = o / c := div_eq_of_mem hc ho (by omega)
    have hle := base_le (stop s v n) v
    have hv : look s v = none := by
      by_contra hv
      have := (h.shown hv).1
      omega
    have hsame : ∀ x, x / c = o / c → look t x = look s x :=
      fun x hx => h.eq_of_none hv (hx.trans hov.symm)
    have hrest : ∀ x, v ≤ x → x < v + n → look s x = none := by
      rcases hall _ (List.mem_singleton_self _) with hdvd | hnone
      · intro x h₁ h₂
        refine h.hole hv x ((div_eq_iff h.pos x v).mpr ?_)
        rw [base_of_dvd hdvd]
        dsimp only
        omega
      · exact hnone
    intro x hx
    rw [hsame x hx]
    refine hidle hk hn (fun x h₁ h₂ => ?_) x hx
    rcases Nat.lt_or_ge x v with hxv | hxv
    · exact hgone x h₁ hxv
    · exact hrest x hxv (by omega)
  | @step log s t u v n h hle hu ih =>
    obtain ⟨hfirst, hall⟩ := List.forall_mem_cons.mp hall
    obtain ⟨hk', hgone'⟩ := h.straight hfirst hk hgone ho hn hc hle
    exact ih hk' hgone' (by omega) (by omega) hall

/-! ### Sweeps without gaps -/

lemma Sweep.first (h : Sweep look stop c log s v n t) (hpos : 0 < n) :
    ∃ r, Clears look c s r v n (stop s v n) ∧ (s, v, n) ∈ log := by
  cases h with
  | done => exact absurd hpos (by omega)
  | last _ h => exact ⟨_, h, List.mem_singleton_self _⟩
  | step h => exact ⟨_, h, List.mem_cons_self⟩

/-- A block that is shown begins after what is cleared right before it. -/
lemma Clears.base_eq (h : Clears look c s t v n a) (hv : look s v ≠ none) (hpos : 0 < v)
    (hgap : look s (v - 1) = none) : base a v = v := by
  have hle := base_le a v
  have hlt := lt_base_add h.pos v
  by_contra hne
  refine absurd hgap ((h.shown hv).2 (v - 1) ?_)
  rw [div_eq_iff h.pos]
  omega

/-- A sweep over a range that is all shown clears block after block, once the first begins where
the range does. -/
lemma Sweep.fine_of_shown (h : Sweep look stop c log s v n t) (ho : o ≤ v) (hn : v + n = o + k)
    (hc : o % c + k ≤ c) (hshown : ∀ x, v ≤ x → x < o + k → look s x ≠ none)
    (hgone : ∀ x, o ≤ x → x < v → look s x = none) (hbase : 0 < n → base (stop s v n) v = v) :
    ∀ e ∈ log, Fine look stop o e.1 e.2.1 e.2.2 := by
  induction h with
  | done => exact fun e he => absurd he List.not_mem_nil
  | @last s t v n hpos h hlt =>
    have := (h.shown (hshown v le_rfl (by omega))).1
    omega
  | @step log s t u v n h hle hu ih =>
    have hpos := h.pos
    have hb := hbase (by omega)
    have hin : ∀ x, x / stop s v n = v / stop s v n ↔ v ≤ x ∧ x < v + stop s v n := by
      intro x
      rw [div_eq_iff hpos, hb]
    have hov : v / c = o / c := div_eq_of_mem hc ho (by omega)
    have hshown' : ∀ x, v + stop s v n ≤ x → x < o + k → look t x ≠ none := by
      intro x h₁ h₂
      have hxc : x / c = o / c := div_eq_of_mem hc (by omega) h₂
      rw [h.after x (hxc.trans hov.symm), if_neg (by rw [hin]; omega)]
      exact hshown x (by omega) h₂
    have hgone' : ∀ x, o ≤ x → x < v + stop s v n → look t x = none := by
      intro x h₁ h₂
      have hxc : x / c = o / c := div_eq_of_mem hc h₁ (by omega)
      rw [h.after x (hxc.trans hov.symm)]
      split_ifs with hx
      · rfl
      · exact hgone x h₁ (by rw [hin] at hx; omega)
    have hrest := ih (by omega) (by omega) hshown' hgone' fun hleft => by
      obtain ⟨r, hr, -⟩ := hu.first hleft
      exact hr.base_eq (hshown' _ le_rfl (by omega)) (by omega) (hgone' _ (by omega) (by omega))
    rw [List.forall_mem_cons]
    refine ⟨⟨fun _ => ?_, fun x h₁ h₂ hx => absurd (hgone x h₁ h₂) hx, fun hlast x h₁ h₂ => ?_⟩, hrest⟩
    · dsimp only
      omega
    · dsimp only at hlast h₁ h₂
      omega

/-- A sweep that is exact begins with a block that begins where the range does. -/
lemma Sweep.dvd_of_cleared (h : Sweep look stop c log s o k t) (hc : o % c + k ≤ c) (hpos : 0 < k)
    (hv : look s o ≠ none) (hex : Cleared look c (look s) o k t) : stop s o k ∣ o := by
  obtain ⟨-, -, hmem⟩ := h.first hpos
  have hall := (h.cleared_iff (fun _ _ _ => rfl) rfl le_rfl rfl hc hpos).mp hex
  exact base_eq_iff.mp (le_antisymm (base_le _ _) ((hall _ hmem).begins hv))

/-- **A sweep over a range that is all shown** is exact exactly if the first block begins where the
range does. -/
theorem Sweep.cleared_iff_dvd (h : Sweep look stop c log s o k t) (hc : o % c + k ≤ c)
    (hpos : 0 < k) (hshown : ∀ x, o ≤ x → x < o + k → look s x ≠ none) :
    Cleared look c (look s) o k t ↔ stop s o k ∣ o := by
  refine ⟨h.dvd_of_cleared hc hpos (hshown o le_rfl (by omega)), fun hdvd => ?_⟩
  rw [h.cleared_iff (fun _ _ _ => rfl) rfl le_rfl rfl hc hpos]
  exact h.fine_of_shown le_rfl rfl hc hshown (fun x h₁ h₂ => absurd h₁ (by omega))
    fun _ => base_of_dvd hdvd

end

end FpMemSched.Lib.Blocks
