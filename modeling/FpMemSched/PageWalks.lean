import Mathlib.Tactic.Ring
import FpMemSched.Lib.Blocks
import FpMemSched.PageTables

/-!
What a walk through the page tables does to the translations.

A pass of `paging_create` maps one page, the largest that fits, at the address where the loop
stands. A pass of `paging_destroy` clears the page around that address, or a piece of it of the
largest size that is left to clear; in a hole it clears nothing and goes on by the size of the
entry that is missing. A page that is split is mapped as before.
-/

namespace FpMemSched.PageWalks

open FpMemSched FpMemSched.Lib.Blocks FpMemSched.PageTables

variable {F : Type} {p q : Paging} {ls : List Paging} {t u : Table F} {e : Entry F}
  {phys size virt free x v : ℕ} {flags : F}

/-! ### Levels -/

/-- The addresses that a table of the first level tells apart; below the last one there are
pages. -/
def coverage : List Paging → ℕ
  | [] => PagePool.pageSize
  | p :: _ => p.span * 2 ^ p.bits

/-- An entry covers what a table of the next level does. The last level maps pages, and so do all
levels below one that does. -/
def Levels : List Paging → Prop
  | [] => True
  | p :: ls => p.span = coverage ls ∧ (ls = [] → p.terminal) ∧
      (p.terminal → ∀ q ∈ ls, q.terminal) ∧ Levels ls

/-- A page is aligned, at a level that maps pages; a table is one of the next level. -/
def EntryWF (p : Paging) (sub : Table F → Prop) : Entry F → Prop
  | .invalid => True
  | .page phys _ => p.terminal ∧ p.span ∣ phys
  | .table u => sub u

/-- The page tables are well formed. -/
def WF : List Paging → Table F → Prop
  | [] => fun _ => False
  | p :: ls => fun t => ∀ i < 2 ^ p.bits, EntryWF p (WF ls) (t i)

lemma span_pos (p : Paging) : 0 < p.span := Nat.two_pow_pos _

lemma pageSize_of_terminal (hp : p.terminal) : p.pageSize = p.span := if_pos hp

lemma dvd_coverage (hl : Levels ls) : PagePool.pageSize ∣ coverage ls := by
  induction ls with
  | nil => exact dvd_rfl
  | cons p ls ih =>
    rw [coverage, hl.1]
    exact (ih hl.2.2.2).mul_right _

lemma dvd_span (hl : Levels (p :: ls)) : PagePool.pageSize ∣ p.span := by
  rw [hl.1]
  exact dvd_coverage hl.2.2.2

lemma span_dvd_coverage (p : Paging) (ls : List Paging) : p.span ∣ coverage (p :: ls) :=
  Nat.dvd_mul_right ..

lemma index_lt (p : Paging) (v : ℕ) : p.index v < 2 ^ p.bits := Nat.mod_lt _ (Nat.two_pow_pos _)

lemma index_of_div_eq (h : x / p.span = v / p.span) : p.index x = p.index v := by
  unfold Paging.index
  rw [h]

/-- Among the addresses of a table, those of one entry are one block. -/
lemma index_eq_iff (h : x / coverage (p :: ls) = v / coverage (p :: ls)) :
    p.index x = p.index v ↔ x / p.span = v / p.span := by
  refine ⟨fun hi => ?_, index_of_div_eq⟩
  rw [coverage, ← Nat.div_div_eq_div_mul, ← Nat.div_div_eq_div_mul] at h
  have hx := Nat.div_add_mod (x / p.span) (2 ^ p.bits)
  have hv := Nat.div_add_mod (v / p.span) (2 ^ p.bits)
  unfold Paging.index at hi
  rw [← hx, ← hv, h, hi]

/-! ### Translations -/

/-- What an entry translates. -/
def entryPhys (p : Paging) (ls : List Paging) (e : Entry F) (x : ℕ) : Option (ℕ × F) :=
  match e with
  | .invalid => none
  | .page phys flags => some (phys + x % p.span, flags)
  | .table u => virt2phys ls u x

lemma virt2phys_cons (t : Table F) (x : ℕ) :
    virt2phys (p :: ls) t x = entryPhys p ls (t (p.index x)) x := rfl

/-- The translations in the block of an entry, and in the others. -/
lemma virt2phys_update (hx : x / coverage (p :: ls) = v / coverage (p :: ls)) :
    virt2phys (p :: ls) (Function.update t (p.index v) e) x =
      if x / p.span = v / p.span then entryPhys p ls e x else virt2phys (p :: ls) t x := by
  rw [virt2phys_cons, virt2phys_cons]
  split_ifs with hb
  · rw [index_of_div_eq hb, Function.update_self]
  · rw [Function.update_of_ne (mt (index_eq_iff hx).mp hb)]

lemma virt2phys_emptyTable (ls : List Paging) (x : ℕ) :
    virt2phys ls (emptyTable : Table F) x = none := by
  cases ls <;> rfl

lemma virt2phys_of_empty (h : pageTableEmpty (ops ls : Ops F).entries t = true) (x : ℕ) :
    virt2phys ls t x = none := by
  cases ls with
  | nil => rfl
  | cons p ls =>
    have hi := List.all_eq_true.mp h (p.index x) (List.mem_range.mpr (index_lt p x))
    rw [virt2phys_cons]
    cases he : t (p.index x) with
    | invalid => rfl
    | page phys flags => simp [he, Entry.valid] at hi
    | table u => simp [he, Entry.valid] at hi

lemma wf_update (ht : WF (p :: ls) t) (he : EntryWF p (WF ls) e) :
    WF (p :: ls) (Function.update t (p.index v) e) := by
  intro i hi
  by_cases hiv : i = p.index v
  · rw [hiv, Function.update_self]
    exact he
  · rw [Function.update_of_ne hiv]
    exact ht i hi

lemma wf_emptyTable (hne : ls ≠ []) : WF ls (emptyTable : Table F) := by
  cases ls with
  | nil => exact absurd rfl hne
  | cons p ls => exact fun _ _ => trivial

/-! ### Pages that fit -/

lemma destroyPass_other {sub : Ops F} {i : ℕ} (hi : i ≠ p.index virt) :
    (destroyPass p sub t virt size free).table i = t i := by
  have hbelow : ∀ u free, (destroyBelow p sub t u virt size free).table i = t i := by
    intro u free
    unfold destroyBelow
    dsimp only
    split_ifs <;> exact Function.update_of_ne hi ..
  unfold destroyPass
  split
  · exact Function.update_of_ne hi ..
  · split_ifs
    · split
      · rfl
      · split_ifs
        · exact hbelow ..
        · exact Function.update_of_ne hi ..
    · exact Function.update_of_ne hi ..
  · exact hbelow ..

/-- The loop stays in its range, whatever happens to it. -/
lemma destroyLoop_other {sub : Ops F} {k i : ℕ}
    (hi : ∀ x, virt ≤ x → x < virt + size → i ≠ p.index x) :
    (destroyLoop (destroyPass p sub) k t virt size free).table i = t i := by
  induction k generalizing t virt size free with
  | zero => rfl
  | succ k ih =>
    rw [destroyLoop]
    split_ifs with h0
    · rfl
    · have hpass : (destroyPass p sub t virt size free).table i = t i :=
        destroyPass_other (hi virt le_rfl (by omega))
      dsimp only
      split
      · exact hpass
      · split_ifs
        · exact hpass
        · rw [ih fun x h₁ h₂ => hi x (by omega) (by omega)]
          exact hpass

lemma fits_terminal (h : p.Fits phys size virt) : p.terminal := by
  by_contra hno
  have hpos := h.1
  simp [Paging.pageSize, hno] at hpos

/-- **A page that fits** replaces what was mapped in its place, whether or not all of it could be
released. -/
lemma createPass_fits (sub : Ops F) (t : Table F) (flags : F) (free : ℕ)
    (h : p.Fits phys size virt) :
    ∃ free', createPass p sub (destroyPass p sub) t phys size virt flags free =
      ⟨Function.update t (p.index virt) (.page phys flags), free', some p.pageSize⟩ := by
  have halign := h.2.2.2
  have hsize := pageSize_of_terminal (fits_terminal h)
  have hother : ∀ i, i ≠ p.index virt →
      (releaseFiner p (destroyPass p sub) t virt free).table i = t i := by
    intro i hi
    unfold releaseFiner
    split_ifs
    · refine destroyLoop_other fun x h₁ h₂ he => hi (he.trans (index_of_div_eq ?_))
      rw [hsize] at h₂ halign
      rw [div_eq_iff (span_pos p), base_of_dvd (Nat.dvd_of_mod_eq_zero halign)]
      exact ⟨h₁, h₂⟩
    · rfl
  refine ⟨(releaseFiner p (destroyPass p sub) t virt free).free, ?_⟩
  unfold createPass
  rw [if_pos h]
  dsimp only
  congr 1
  funext i
  by_cases hi : i = p.index virt
  · rw [hi, Function.update_self, Function.update_self]
  · rw [Function.update_of_ne hi, Function.update_of_ne hi, hother i hi]

/-! ### Pages that are split -/

lemma createLoop_fits (k : ℕ) (hp : p.Fits phys size virt) :
    ∃ free', createLoop (ops (p :: ls)).create flags (k + 1) t phys size virt free =
      createLoop (ops (p :: ls)).create flags k
        (Function.update t (p.index virt) (.page phys flags)) (phys + p.pageSize)
        (size - p.pageSize) (virt + p.pageSize) free' := by
  obtain ⟨free', hpass⟩ := createPass_fits (ops ls) t flags free hp
  refine ⟨free', ?_⟩
  have hne : size ≠ 0 := by
    have := hp.1
    have := hp.2.1
    omega
  rw [createLoop, if_neg hne, show (ops (p :: ls) : Ops F).create t phys size virt flags free =
    createPass p (ops ls) (destroyPass p (ops ls)) t phys size virt flags free from rfl, hpass]

/-- The entries from `i` on become pages, one after the other. -/
lemma createLoop_pages (hl : Levels (q :: ls)) (hq : q.terminal) (hphys : q.span ∣ phys)
    (flags : F) (B k i n : ℕ) (t : Table F) (free : ℕ) (hn : i + n = 2 ^ q.bits)
    (hk : n * q.span ≤ k * PagePool.pageSize) :
    let r := createLoop (ops (q :: ls)).create flags k t (phys + i * q.span) (n * q.span)
      ((B * 2 ^ q.bits + i) * q.span) free
    r.ok = true ∧
      ∀ j < 2 ^ q.bits, r.table j = if i ≤ j then .page (phys + j * q.span) flags else t j := by
  have hpos := span_pos q
  have hsize := pageSize_of_terminal hq
  have hpage : PagePool.pageSize ≤ q.span := Nat.le_of_dvd hpos (dvd_span hl)
  induction k generalizing t i n free with
  | zero =>
    have hn0 : n = 0 := by
      rw [Nat.zero_mul, Nat.le_zero, Nat.mul_eq_zero] at hk
      omega
    refine ⟨rfl, fun j hj => ?_⟩
    rw [if_neg (by omega)]
    rfl
  | succ k ih =>
    cases n with
    | zero =>
      rw [Nat.zero_mul, createLoop, if_pos rfl]
      refine ⟨rfl, fun j hj => ?_⟩
      rw [if_neg (by omega)]
    | succ n =>
      have hindex : q.index ((B * 2 ^ q.bits + i) * q.span) = i := by
        rw [Paging.index, Nat.mul_div_cancel _ hpos, Nat.mul_comm, Nat.mul_add_mod,
          Nat.mod_eq_of_lt (by omega)]
      have hfits : q.Fits (phys + i * q.span) ((n + 1) * q.span)
          ((B * 2 ^ q.bits + i) * q.span) := by
        rw [Paging.Fits, hsize]
        refine ⟨hpos, Nat.le_mul_of_pos_left _ (Nat.succ_pos n), ?_, Nat.mul_mod_left ..⟩
        rw [Nat.add_mul_mod_self_right]
        exact Nat.mod_eq_zero_of_dvd hphys
      obtain ⟨free', hloop⟩ := createLoop_fits k hfits
      rw [hloop, hindex, hsize, show phys + i * q.span + q.span = phys + (i + 1) * q.span by ring,
        show (n + 1) * q.span - q.span = n * q.span by rw [Nat.succ_mul, Nat.add_sub_cancel],
        show (B * 2 ^ q.bits + i) * q.span + q.span = (B * 2 ^ q.bits + (i + 1)) * q.span by ring]
      obtain ⟨hok, htable⟩ := ih (i + 1) n
        (Function.update t i (.page (phys + i * q.span) flags)) free' (by omega)
        (by rw [Nat.succ_mul, Nat.succ_mul] at hk; omega)
      refine ⟨hok, fun j hj => ?_⟩
      rw [htable j hj]
      by_cases hji : j = i
      · rw [hji, if_neg (by omega), if_pos le_rfl, Function.update_self]
      · rw [Function.update_of_ne hji]
        split_ifs <;> first | rfl | omega

/-- The table that a page is split into. -/
def SplitInto (q : Paging) (phys : ℕ) (flags : F) (u : Table F) : Prop :=
  ∀ j < 2 ^ q.bits, u j = .page (phys + j * q.span) flags

/-- **A split succeeds** once its table is allocated. -/
lemma splitHugepage_spec {r : Result F} (hl : Levels (p :: q :: ls)) (hp : p.terminal)
    (hphys : p.span ∣ phys) (h : splitHugepage p (ops (q :: ls)) phys flags virt free = some r) :
    r.ok = true ∧ SplitInto q phys flags r.table := by
  have hspan : p.span = q.span * 2 ^ q.bits := hl.1
  have hq : q.terminal := hl.2.2.1 hp q List.mem_cons_self
  have hdvd : q.span ∣ phys := (Nat.dvd_mul_right ..).trans (hspan ▸ hphys)
  unfold splitHugepage at h
  rw [pageSize_of_terminal hp] at h
  split_ifs at h
  obtain rfl := Option.some.inj h
  have hbase : virt - virt % p.span = (virt / p.span * 2 ^ q.bits + 0) * q.span := by
    have hdiv := Nat.div_add_mod virt p.span
    have hmul : (virt / p.span * 2 ^ q.bits + 0) * q.span = p.span * (virt / p.span) := by
      rw [hspan]
      ring
    omega
  have hloop := createLoop_pages hl.2.2.2 hq hdvd flags (virt / p.span)
    (p.span / PagePool.pageSize) 0 (2 ^ q.bits) emptyTable (free - 1) (Nat.zero_add _)
    (by rw [Nat.div_mul_cancel (dvd_span hl), hspan, Nat.mul_comm])
  rw [Nat.zero_mul, Nat.add_zero, Nat.mul_comm (2 ^ q.bits), ← hspan, ← hbase] at hloop
  refine ⟨hloop.1, fun j hj => ?_⟩
  rw [hloop.2 j hj, if_pos (Nat.zero_le j)]

/-- A page that is split is mapped as before. -/
lemma virt2phys_split (hspan : p.span = q.span * 2 ^ q.bits) (h : SplitInto q phys flags u)
    (x : ℕ) : virt2phys (q :: ls) u x = some (phys + x % p.span, flags) := by
  rw [virt2phys_cons, h _ (index_lt q x), entryPhys, hspan, Nat.mod_mul, Paging.index]
  congr 2
  ring

lemma wf_split (hq : q.terminal) (hphys : q.span ∣ phys) (h : SplitInto q phys flags u) :
    WF (q :: ls) u := by
  intro i hi
  rw [h i hi]
  exact ⟨hq, Nat.dvd_add hphys (Nat.dvd_mul_left ..)⟩

/-! ### Clearing -/

/-- The largest page size of the levels that is left to clear. -/
def pieceOf : List Paging → ℕ → ℕ
  | [], _ => PagePool.pageSize
  | p :: ls, size => if size < p.pageSize then pieceOf ls size else p.pageSize

/-- By how much a pass of `paging_destroy` goes on. -/
def stopSize : List Paging → Table F → ℕ → ℕ → ℕ
  | [], _, _, _ => PagePool.pageSize
  | p :: ls, t, virt, size =>
    match t (p.index virt) with
    | .invalid => p.advance
    | .page _ _ => pieceOf (p :: ls) size
    | .table u => stopSize ls u virt size

/-- What is claimed of a pass: it clears the block around its address. -/
structure Destroys (ls : List Paging) (t : Table F) (virt size : ℕ) (r : Pass F) (a : ℕ) : Prop where
  wf : WF ls r.table
  dvd : ∀ b, r.advance = some b → b = a ∧ PagePool.pageSize ∣ a
  clears : ∀ b, r.advance = some b → Clears (virt2phys ls) (coverage ls) t r.table virt size a

lemma advance_cases (p : Paging) :
    p.advance = PagePool.pageSize ∨ (p.terminal ∧ p.advance = p.span) := by
  unfold Paging.advance
  split_ifs with h
  · exact Or.inl rfl
  · have hterm : p.terminal := by
      by_contra hno
      simp [Paging.pageSize, hno] at h
    exact Or.inr ⟨hterm, pageSize_of_terminal hterm⟩

lemma advance_of_terminal (hp : p.terminal) : p.advance = p.span := by
  rw [Paging.advance, pageSize_of_terminal hp, if_neg (span_pos p).ne']

lemma advance_dvd (hl : Levels (p :: ls)) : PagePool.pageSize ∣ p.advance ∧ p.advance ∣ p.span := by
  rcases advance_cases p with h | ⟨-, h⟩
  · rw [h]
    exact ⟨dvd_rfl, dvd_span hl⟩
  · rw [h]
    exact ⟨dvd_span hl, dvd_rfl⟩

/-- A hole stays as it is. -/
lemma destroys_hole (hl : Levels (p :: ls)) (ht : WF (p :: ls) t)
    (he : t (p.index virt) = .invalid) (free : ℕ) :
    Destroys (p :: ls) t virt size
      ⟨Function.update t (p.index virt) .invalid, free, some p.advance⟩ p.advance := by
  obtain ⟨hpage, hspan⟩ := advance_dvd hl
  have hpos : 0 < p.advance := Nat.pos_of_dvd_of_pos hspan (span_pos p)
  have hnone : ∀ x, x / p.advance = virt / p.advance → virt2phys (p :: ls) t x = none := by
    intro x hx
    rw [virt2phys_cons, index_of_div_eq (div_eq_of_dvd hspan hx), he]
    rfl
  have hsame : Function.update t (p.index virt) .invalid = t := by
    rw [← he, Function.update_eq_self]
  refine ⟨wf_update ht trivial, fun b hb => ⟨(Option.some.inj hb).symm, hpage⟩, fun b _ => ?_⟩
  rw [hsame]
  refine ⟨⟨hpos, hspan.trans (span_dvd_coverage p ls), fun x _ => ?_⟩,
    fun hv => absurd (hnone virt rfl) hv, fun _ => hnone⟩
  split_ifs with hx
  · exact hnone x hx
  · rfl

/-- A page that is no larger than what is left is cleared. -/
lemma destroys_page (hl : Levels (p :: ls)) (ht : WF (p :: ls) t) (hp : p.terminal)
    (he : t (p.index virt) = .page phys flags) (hsize : p.span ≤ size) (free : ℕ) :
    Destroys (p :: ls) t virt size
      ⟨Function.update t (p.index virt) .invalid, free, some p.advance⟩ p.span := by
  have hadv : p.advance = p.span := by
    have := span_pos p
    rw [Paging.advance, pageSize_of_terminal hp, if_neg (by omega)]
  have hsome : ∀ x, x / p.span = virt / p.span → virt2phys (p :: ls) t x ≠ none := by
    intro x hx
    rw [virt2phys_cons, index_of_div_eq hx, he]
    exact Option.some_ne_none _
  refine ⟨wf_update ht trivial, fun b hb => ⟨hadv ▸ (Option.some.inj hb).symm, dvd_span hl⟩,
    fun b _ => ?_⟩
  refine ⟨⟨span_pos p, span_dvd_coverage p ls, fun x hx => ?_⟩,
    fun _ => ⟨hsize, hsome⟩, fun hv => absurd hv (hsome virt rfl)⟩
  exact virt2phys_update hx

/-- What is done in the table of the next level shows in this one, also if that is released. -/
lemma destroys_below {a : ℕ} (hl : Levels (p :: ls)) (ht : WF (p :: ls) t)
    (hs : ∀ x, x / p.span = virt / p.span → virt2phys (p :: ls) t x = virt2phys ls u x)
    (h : Destroys ls u virt size ((ops ls).destroy u virt size free) a) :
    Destroys (p :: ls) t virt size (destroyBelow p (ops ls) t u virt size free) a := by
  obtain ⟨hwf, hdvd, hclears⟩ := h
  have hlift : ∀ e, (∀ x, entryPhys p ls e x =
      virt2phys ls ((ops ls).destroy u virt size free).table x) → ∀ b,
      ((ops ls).destroy u virt size free).advance = some b →
      Clears (virt2phys (p :: ls)) (coverage (p :: ls)) t (Function.update t (p.index virt) e)
        virt size a := by
    intro e hlook b hb
    have hc := hclears b hb
    rw [← hl.1] at hc
    refine hc.lift (span_dvd_coverage p ls) hs fun x hx => ?_
    rw [virt2phys_update hx, hlook]
  unfold destroyBelow
  dsimp only
  split_ifs with hempty
  · refine ⟨wf_update ht trivial, hdvd, hlift _ fun x => ?_⟩
    rw [virt2phys_of_empty hempty.2]
    rfl
  · exact ⟨wf_update ht hwf, hdvd, hlift _ fun x => rfl⟩

/-- A page that is larger than what is left is split first. -/
lemma destroys_split {r : Result F} (hl : Levels (p :: q :: ls)) (ht : WF (p :: q :: ls) t)
    (he : t (p.index virt) = .page phys flags) (hok : r.ok = true)
    (hinto : SplitInto q phys flags r.table)
    (h : Destroys (q :: ls) r.table virt size ((ops (q :: ls)).destroy r.table virt size r.free)
      (stopSize (q :: ls) r.table virt size)) :
    Destroys (p :: q :: ls) t virt size (if r.ok then
      destroyBelow p (ops (q :: ls)) t r.table virt size r.free
      else ⟨Function.update t (p.index virt) (.table r.table), r.free, none⟩)
      (pieceOf (q :: ls) size) := by
  have hstop : stopSize (q :: ls) r.table virt size = pieceOf (q :: ls) size := by
    rw [stopSize, hinto _ (index_lt q virt)]
  rw [hstop] at h
  rw [if_pos hok]
  refine destroys_below hl ht (fun x hx => ?_) h
  rw [virt2phys_split hl.1 hinto, virt2phys_cons, index_of_div_eq hx, he]
  rfl

/-- **A pass of `paging_destroy`** clears the block around its address of the size at which the
walk stops. -/
theorem destroys (hl : Levels ls) (ht : WF ls t) (hsize : PagePool.pageSize ≤ size) :
    Destroys ls t virt size ((ops ls).destroy t virt size free) (stopSize ls t virt size) := by
  induction ls generalizing t free with
  | nil => exact ht.elim
  | cons p ls ih =>
    have hentry := ht (p.index virt) (index_lt p virt)
    change Destroys (p :: ls) t virt size (destroyPass p (ops ls) t virt size free) _
    cases he : t (p.index virt) with
    | invalid =>
      simp only [destroyPass, stopSize, he]
      exact destroys_hole hl ht he free
    | page phys flags =>
      rw [he] at hentry
      obtain ⟨hp, hphys⟩ := hentry
      simp only [destroyPass, stopSize, he, pieceOf, pageSize_of_terminal hp]
      split_ifs with hlt
      · cases ls with
        | nil =>
          have hspan : p.span = PagePool.pageSize := hl.1
          omega
        | cons q ls =>
          have hspan : p.span = q.span * 2 ^ q.bits := hl.1
          have hq : q.terminal := hl.2.2.1 hp q List.mem_cons_self
          have hdvd : q.span ∣ phys := (Nat.dvd_mul_right ..).trans (hspan ▸ hphys)
          cases hsplit : splitHugepage p (ops (q :: ls)) phys flags virt free with
          | none => exact ⟨ht, nofun, nofun⟩
          | some r =>
            obtain ⟨hok, hinto⟩ := splitHugepage_spec hl hp hphys hsplit
            exact destroys_split hl ht he hok hinto (ih hl.2.2.2 (wf_split hq hdvd hinto))
      · exact destroys_page hl ht hp he (Nat.le_of_not_lt hlt) free
    | table u =>
      rw [he] at hentry
      simp only [destroyPass, stopSize, he]
      refine destroys_below hl ht (fun x hx => ?_) (ih hl.2.2.2 hentry)
      rw [virt2phys_cons, index_of_div_eq hx, he]
      rfl

/-! ### Mapping -/

/-- What is claimed of a pass: it maps a page at its address. -/
structure Creates (ls : List Paging) (t : Table F) (phys size virt : ℕ) (flags : F) (r : Pass F) :
    Prop where
  wf : WF ls r.table
  fits : ∀ a, r.advance = some a → PagePool.pageSize ∣ a ∧ a ∣ virt ∧ a ≤ size
  paints : ∀ a, r.advance = some a → Repaints (virt2phys ls) (coverage ls) t r.table virt a
    fun x => some (phys + (x - virt), flags)

/-- On the last level every page fits. -/
lemma fits_last (hl : Levels [p]) (hphys : PagePool.pageSize ∣ phys)
    (hsize : PagePool.pageSize ≤ size) (hvirt : PagePool.pageSize ∣ virt) :
    p.Fits phys size virt := by
  have hspan : p.span = PagePool.pageSize := hl.1
  rw [Paging.Fits, pageSize_of_terminal (hl.2.1 rfl), hspan]
  exact ⟨by decide, hsize, Nat.mod_eq_zero_of_dvd hphys, Nat.mod_eq_zero_of_dvd hvirt⟩

lemma creates_page (hl : Levels (p :: ls)) (ht : WF (p :: ls) t) (h : p.Fits phys size virt)
    (free : ℕ) :
    Creates (p :: ls) t phys size virt flags
      ⟨Function.update t (p.index virt) (.page phys flags), free, some p.pageSize⟩ := by
  have hp := fits_terminal h
  obtain ⟨-, hsize, hphys, hvirt⟩ := h
  rw [pageSize_of_terminal hp] at hsize hphys hvirt ⊢
  have hdvd : p.span ∣ virt := Nat.dvd_of_mod_eq_zero hvirt
  refine ⟨wf_update ht ⟨hp, Nat.dvd_of_mod_eq_zero hphys⟩, fun a ha => ?_, fun a ha => ?_⟩
  · obtain rfl := Option.some.inj ha
    exact ⟨dvd_span hl, hdvd, hsize⟩
  · obtain rfl := Option.some.inj ha
    refine ⟨span_pos p, span_dvd_coverage p ls, fun x hx => ?_⟩
    rw [virt2phys_update hx]
    split_ifs with hb
    · have hin := (div_eq_iff (span_pos p) x virt).mp hb
      rw [base_of_dvd hdvd] at hin
      obtain ⟨d, rfl⟩ := Nat.exists_eq_add_of_le hin.1
      rw [entryPhys, Nat.add_mod, hvirt, Nat.zero_add, Nat.mod_mod, Nat.mod_eq_of_lt (by omega),
        Nat.add_sub_cancel_left]
    · rfl

lemma creates_below (hl : Levels (p :: ls)) (ht : WF (p :: ls) t)
    (hs : ∀ x, x / p.span = virt / p.span → virt2phys (p :: ls) t x = virt2phys ls u x)
    (h : Creates ls u phys size virt flags ((ops ls).create u phys size virt flags free)) :
    Creates (p :: ls) t phys size virt flags
      (createBelow p (ops ls) t u phys size virt flags free) := by
  obtain ⟨hwf, hfits, hpaints⟩ := h
  refine ⟨wf_update ht hwf, hfits, fun a ha => ?_⟩
  have hr := hpaints a ha
  rw [← hl.1] at hr
  refine hr.lift (span_dvd_coverage p ls) hs fun x hx => ?_
  rw [createBelow, virt2phys_update hx]
  rfl

/-- **A pass of `paging_create`** maps a page at its address, whatever was mapped there. -/
theorem creates (hl : Levels ls) (ht : WF ls t) (hphys : PagePool.pageSize ∣ phys)
    (hsize : PagePool.pageSize ≤ size) (hvirt : PagePool.pageSize ∣ virt) :
    Creates ls t phys size virt flags ((ops ls).create t phys size virt flags free) := by
  induction ls generalizing t free with
  | nil => exact ht.elim
  | cons p ls ih =>
    have hentry := ht (p.index virt) (index_lt p virt)
    change Creates (p :: ls) t phys size virt flags
      (createPass p (ops ls) (destroyPass p (ops ls)) t phys size virt flags free)
    by_cases hf : p.Fits phys size virt
    · obtain ⟨free', hpass⟩ := createPass_fits (ops ls) t flags free hf
      rw [hpass]
      exact creates_page hl ht hf free'
    · -- the walk goes on, so that this is not the last level
      obtain ⟨q, ls, rfl⟩ : ∃ q ls', ls = q :: ls' := by
        cases ls with
        | nil => exact absurd (fits_last hl hphys hsize hvirt) hf
        | cons q ls => exact ⟨q, ls, rfl⟩
      cases he : t (p.index virt) with
      | invalid =>
        simp only [createPass, if_neg hf, he]
        split_ifs
        · exact ⟨ht, nofun, nofun⟩
        · refine creates_below hl ht (fun x hx => ?_) (ih hl.2.2.2 (wf_emptyTable (by simp)))
          rw [virt2phys_emptyTable, virt2phys_cons, index_of_div_eq hx, he]
          rfl
      | page phys' flags' =>
        rw [he] at hentry
        obtain ⟨hp, hdvd⟩ := hentry
        have hspan : p.span = q.span * 2 ^ q.bits := hl.1
        have hq : q.terminal := hl.2.2.1 hp q List.mem_cons_self
        simp only [createPass, if_neg hf, he]
        cases hsplit : splitHugepage p (ops (q :: ls)) phys' flags' virt free with
        | none => exact ⟨ht, nofun, nofun⟩
        | some r =>
          obtain ⟨hok, hinto⟩ := splitHugepage_spec hl hp hdvd hsplit
          have hsub : WF (q :: ls) r.table :=
            wf_split hq ((Nat.dvd_mul_right ..).trans (hspan ▸ hdvd)) hinto
          dsimp only
          rw [if_pos hok]
          refine creates_below hl ht (fun x hx => ?_) (ih hl.2.2.2 hsub)
          rw [virt2phys_split hspan hinto, virt2phys_cons, index_of_div_eq hx, he]
          rfl
      | table u =>
        rw [he] at hentry
        simp only [createPass, if_neg hf, he]
        refine creates_below hl ht (fun x hx => ?_) (ih hl.2.2.2 hentry)
        rw [virt2phys_cons, index_of_div_eq hx, he]
        rfl

end FpMemSched.PageWalks
