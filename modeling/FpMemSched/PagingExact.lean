import FpMemSched.StraightPasses

/-!
Mapping is exact, and unmapping is where it does not go astray.

`paging_create` walks along pages that begin where it stands. `paging_destroy` goes on by the size
of the page or of the hole around the address where it stands, which need not begin there: it may
clear what lies before its range, and it may go past what lies in it.
-/

namespace FpMemSched.PagingExact

open FpMemSched FpMemSched.Lib.Blocks FpMemSched.PageTables FpMemSched.PageWalks
  FpMemSched.TableReleases FpMemSched.StraightPasses

variable {F : Type} {ls : List Paging} {t : Table F} {phys size virt k : ℕ} {flags : F}

/-! ### Loops -/

lemma createLoop_fills (hl : Levels ls) (t : Table F) (phys size virt free : ℕ) (ht : WF ls t)
    (hphys : PagePool.pageSize ∣ phys) (hsize : PagePool.pageSize ∣ size)
    (hvirt : PagePool.pageSize ∣ virt) (hk : size ≤ k * PagePool.pageSize)
    {new : ℕ → Option (ℕ × F)} (hnew : ∀ x, virt ≤ x → new x = some (phys + (x - virt), flags)) :
    let r := createLoop (ops ls).create flags k t phys size virt free
    WF ls r.table ∧ (r.ok = true →
      Filling (virt2phys ls) (coverage ls) new t virt size r.table) := by
  induction k generalizing t phys size virt free with
  | zero =>
    obtain rfl : size = 0 := by omega
    exact ⟨ht, fun _ => .done t virt⟩
  | succ k ih =>
    rw [createLoop]
    split_ifs with h0
    · subst h0
      exact ⟨ht, fun _ => .done t virt⟩
    · have hpass : Creates ls t phys size virt flags
          ((ops ls).create t phys size virt flags free) :=
        creates hl ht hphys (Nat.le_of_dvd (Nat.pos_of_ne_zero h0) hsize) hvirt
      dsimp only
      cases ha : ((ops ls).create t phys size virt flags free).advance with
      | none => exact ⟨hpass.wf, fun h => by cases h⟩
      | some a =>
        obtain ⟨hpage, hdvd, hle⟩ := hpass.fits a ha
        have hpaint := hpass.paints a ha
        have hnew' : ∀ x, virt + a ≤ x → new x = some (phys + a + (x - (virt + a)), flags) := by
          intro x hx
          rw [hnew x (by omega)]
          congr 2
          omega
        obtain ⟨hwf, hfill⟩ := ih _ (phys + a) (size - a) (virt + a)
          ((ops ls).create t phys size virt flags free).free hpass.wf (Nat.dvd_add hphys hpage)
          (Nat.dvd_sub hsize hpage) (Nat.dvd_add hvirt hpage) (left_le hk hpage hpaint.pos) hnew'
        refine ⟨hwf, fun hok => .step ⟨hpaint.pos, hpaint.dvd, fun x hx => ?_⟩ hdvd hle (hfill hok)⟩
        rw [hpaint.after x hx]
        split_ifs with hb
        · have hin := (div_eq_iff hpaint.pos x virt).mp hb
          rw [base_of_dvd hdvd] at hin
          exact (hnew x hin.1).symm
        · rfl

lemma destroyLoop_sweeps (hl : Levels ls) (t : Table F) (virt size free : ℕ) (ht : WF ls t)
    (hsize : PagePool.pageSize ∣ size) (hk : size ≤ k * PagePool.pageSize) :
    let r := destroyLoop (ops ls).destroy k t virt size free
    WF ls r.table ∧ (r.ok = true →
      Sweep (virt2phys ls) (stopSize ls) (coverage ls)
        (destroyPasses (ops ls).destroy k t virt size free) t virt size r.table) := by
  induction k generalizing t virt size free with
  | zero =>
    obtain rfl : size = 0 := by omega
    exact ⟨ht, fun _ => .done t virt⟩
  | succ k ih =>
    rw [destroyLoop, destroyPasses]
    split_ifs with h0
    · subst h0
      exact ⟨ht, fun _ => .done t virt⟩
    · have hpos : 0 < size := Nat.pos_of_ne_zero h0
      have hpass : Destroys ls t virt size ((ops ls).destroy t virt size free)
          (stopSize ls t virt size) := destroys hl ht (Nat.le_of_dvd hpos hsize)
      dsimp only
      cases ha : ((ops ls).destroy t virt size free).advance with
      | none => exact ⟨hpass.wf, fun h => by cases h⟩
      | some a =>
        obtain ⟨rfl, hpage⟩ := hpass.dvd a ha
        have hclears := hpass.clears _ ha
        dsimp only
        split_ifs with hlt
        · exact ⟨hpass.wf, fun _ => .last hpos hclears hlt⟩
        · obtain ⟨hwf, hsweep⟩ := ih _ (virt + stopSize ls t virt size)
            (size - stopSize ls t virt size) ((ops ls).destroy t virt size free).free hpass.wf
            (Nat.dvd_sub hsize hpage) (left_le hk hpage hclears.pos)
          exact ⟨hwf, fun hok => .step hclears (Nat.le_of_not_lt hlt) (hsweep hok)⟩

/-! ### The operations -/

lemma pageAlign_of_dvd (h : PagePool.pageSize ∣ size) : pageAlign size = size := by
  obtain ⟨n, rfl⟩ := h
  unfold pageAlign PagePool.pageSize
  omega

lemma pageMask_dvd (addr : ℕ) : PagePool.pageSize ∣ pageMask addr := by
  unfold pageMask PagePool.pageSize
  omega

lemma pageMask_of_dvd (h : PagePool.pageSize ∣ virt) : pageMask virt = virt := by
  rw [pageMask, Nat.mod_eq_zero_of_dvd h, Nat.sub_zero]

/-- The page tables stay well formed, also when the pool runs empty on the way. -/
lemma wf_pagingCreate (hl : Levels ls) (ht : WF ls t) (phys size virt : ℕ) (flags : F) (free : ℕ) :
    WF ls (pagingCreate ls t phys size virt flags free).table := by
  have hdvd : PagePool.pageSize ∣ pageAlign size := Nat.dvd_mul_left ..
  refine (createLoop_fills hl t _ _ _ free ht (pageMask_dvd phys) hdvd (pageMask_dvd virt)
    (Nat.div_mul_cancel hdvd).ge fun x _ => rfl).1

/-- **Mapping is exact**: all of the region is mapped, and nothing else is changed. -/
lemma pagingCreate_exact (hl : Levels ls) (ht : WF ls t) (phys free : ℕ)
    (hvirt : PagePool.pageSize ∣ virt) (hsize : PagePool.pageSize ∣ size)
    (hin : virt % coverage ls + size ≤ coverage ls)
    (hok : (pagingCreate ls t phys size virt flags free).ok = true) (x : ℕ)
    (hx : x / coverage ls = virt / coverage ls) :
    virt2phys ls (pagingCreate ls t phys size virt flags free).table x =
      if virt ≤ x ∧ x < virt + size then some (pageMask phys + (x - virt), flags)
      else virt2phys ls t x := by
  unfold pagingCreate at hok ⊢
  rw [pageAlign_of_dvd hsize, pageMask_of_dvd hvirt] at hok ⊢
  have hfill := (createLoop_fills hl t _ size virt free ht (pageMask_dvd phys) hsize hvirt
    (Nat.div_mul_cancel hsize).ge fun x _ => rfl).2 hok
  exact hfill.exact hin x hx

/-- The passes of `paging_destroy` from the start of the region on. -/
def pagingPasses (ls : List Paging) (t : Table F) (virt size free : ℕ) : List (Table F × ℕ × ℕ) :=
  destroyPasses (ops ls).destroy (pageAlign size / PagePool.pageSize) t virt (pageAlign size) free

/-- None of the region is mapped, and all other addresses are translated as before. -/
def Unmaps (ls : List Paging) (t : Table F) (virt size : ℕ) (t' : Table F) : Prop :=
  Cleared (virt2phys ls) (coverage ls) (virt2phys ls t) virt size t'

lemma pagingDestroy_sweeps (hl : Levels ls) (ht : WF ls t) (free : ℕ)
    (hsize : PagePool.pageSize ∣ size) (hok : (pagingDestroy ls t virt size free).ok = true) :
    Sweep (virt2phys ls) (stopSize ls) (coverage ls) (pagingPasses ls t virt size free) t virt size
      (pagingDestroy ls t virt size free).table := by
  unfold pagingDestroy at hok ⊢
  unfold pagingPasses
  rw [pageAlign_of_dvd hsize] at hok ⊢
  exact (destroyLoop_sweeps hl t virt size free ht hsize (Nat.div_mul_cancel hsize).ge).2 hok

lemma pagingPasses_straight (hl : Levels ls) (ht : WF ls t) (free : ℕ)
    (hvirt : PagePool.pageSize ∣ virt) (hsize : PagePool.pageSize ∣ size)
    (hin : virt % coverage ls + size ≤ coverage ls) (hun : Unmappable ls t virt size) :
    ∀ e ∈ pagingPasses ls t virt size free,
      Straight (virt2phys ls) (stopSize ls) e.1 e.2.1 e.2.2 := by
  unfold pagingPasses
  rw [pageAlign_of_dvd hsize]
  exact straight_passes hl hun hin t virt size free (swept_refl ht virt) rfl hsize hvirt
    (Or.inl ⟨rfl, rfl⟩) le_rfl fun _ => hun.start

/-- **What the tables must be like** is what makes all passes straight. -/
lemma unmappable_iff (hl : Levels ls) (hb : ∀ p ∈ ls, 0 < p.bits) (ht : WF ls t) (free : ℕ)
    (hvirt : PagePool.pageSize ∣ virt) (hsize : PagePool.pageSize ∣ size)
    (hin : virt % coverage ls + size ≤ coverage ls)
    (hok : (pagingDestroy ls t virt size free).ok = true) :
    Unmappable ls t virt size ↔ ∀ e ∈ pagingPasses ls t virt size free,
      Straight (virt2phys ls) (stopSize ls) e.1 e.2.1 e.2.2 := by
  refine ⟨pagingPasses_straight hl ht free hvirt hsize hin, fun hall => ⟨?_, ?_⟩⟩
  · rcases Nat.eq_zero_or_pos size with rfl | hpos
    · exact Or.inr fun x h₁ h₂ => absurd h₂ (Nat.not_lt.mpr h₁)
    · obtain ⟨-, -, hfirst⟩ := (pagingDestroy_sweeps hl ht free hsize hok).first hpos
      exact hall _ hfirst
  · intro p w hterm hp how hwn hbegin
    by_contra hno
    push Not at hno
    obtain ⟨hheld, habove, x, hx, hxo, hmapped⟩ := hno
    have hlt := lt_base_add (span_pos p) w
    unfold pagingDestroy at hok
    unfold pagingPasses at hall
    rw [pageAlign_of_dvd hsize] at hok hall
    have := end_le_of_straight hl hb hin hterm hp (div_eq_of_mem hin how hwn) hbegin hheld habove hx
      hxo hmapped t virt size free (swept_refl ht virt) rfl hsize (Nat.div_mul_cancel hsize).ge
      hvirt (Or.inl ⟨rfl, rfl⟩) le_rfl hok hall
    omega

/-- **Unmapping is exact** where the tables are as they must be. -/
lemma pagingDestroy_exact (hl : Levels ls) (ht : WF ls t) (free : ℕ)
    (hvirt : PagePool.pageSize ∣ virt) (hsize : PagePool.pageSize ∣ size)
    (hin : virt % coverage ls + size ≤ coverage ls) (hun : Unmappable ls t virt size)
    (hok : (pagingDestroy ls t virt size free).ok = true) :
    Unmaps ls t virt size (pagingDestroy ls t virt size free).table := by
  have hsweep := pagingDestroy_sweeps hl ht free hsize hok
  exact hsweep.cleared_of_straight (fun _ _ _ => rfl) (swept_refl ht virt).gone le_rfl rfl hin
    (pagingPasses_straight hl ht free hvirt hsize hin hun)

/-- **When unmapping is exact**, pass by pass. -/
lemma pagingDestroy_exact_iff (hl : Levels ls) (ht : WF ls t) (free : ℕ)
    (hsize : PagePool.pageSize ∣ size) (hin : virt % coverage ls + size ≤ coverage ls)
    (hok : (pagingDestroy ls t virt size free).ok = true) :
    Unmaps ls t virt size (pagingDestroy ls t virt size free).table ↔
      ∀ e ∈ pagingPasses ls t virt size free,
        Fine (virt2phys ls) (stopSize ls) virt e.1 e.2.1 e.2.2 := by
  have hsweep := pagingDestroy_sweeps hl ht free hsize hok
  rcases Nat.eq_zero_or_pos size with rfl | hpos
  · obtain ⟨htable, hlog⟩ := hsweep.eq_of_zero
    rw [hlog, htable]
    refine ⟨fun _ e he => absurd he List.not_mem_nil, fun _ x _ => ?_⟩
    rw [if_neg (by omega)]
  · exact hsweep.cleared_iff (fun x _ _ => rfl) rfl le_rfl rfl hin hpos

/-- **Mapping and unmapping**: for all levels, page tables and page-aligned regions among the
addresses that the tables tell apart, once the needed tables could be allocated, `paging_create`
maps exactly the region; and `paging_destroy` unmaps exactly the region where the tables are as they
must be. If no table has one entry only, they are so if and only if the page or the hole at which
each of the passes stands begins there, as long as something is left to unmap. A region whose start
is mapped is unmapped exactly only if the first page to be cleared begins with it, and one that is
mapped throughout then is. Whatever the tables are like, unmapping is exact if and only if in none
of the passes the page to be cleared begins before the region, a part of the region is left behind
that is not in that page, or, in the last pass, is left in front of it. -/
theorem paging_exact_iff (hl : Levels ls) (ht : WF ls t) (virt size free : ℕ)
    (hvirt : PagePool.pageSize ∣ virt) (hsize : PagePool.pageSize ∣ size)
    (hin : virt % coverage ls + size ≤ coverage ls) :
    (∀ phys (flags : F), (pagingCreate ls t phys size virt flags free).ok = true →
      ∀ x, x / coverage ls = virt / coverage ls →
        virt2phys ls (pagingCreate ls t phys size virt flags free).table x =
          if virt ≤ x ∧ x < virt + size then some (pageMask phys + (x - virt), flags)
          else virt2phys ls t x) ∧
    ((pagingDestroy ls t virt size free).ok = true →
      (Unmappable ls t virt size →
        Unmaps ls t virt size (pagingDestroy ls t virt size free).table) ∧
      ((∀ p ∈ ls, 0 < p.bits) → (Unmappable ls t virt size ↔
        ∀ e ∈ pagingPasses ls t virt size free,
          Straight (virt2phys ls) (stopSize ls) e.1 e.2.1 e.2.2)) ∧
      (0 < size → virt2phys ls t virt ≠ none →
        Unmaps ls t virt size (pagingDestroy ls t virt size free).table →
          stopSize ls t virt size ∣ virt) ∧
      (0 < size → (∀ x, virt ≤ x → x < virt + size → virt2phys ls t x ≠ none) →
        (Unmaps ls t virt size (pagingDestroy ls t virt size free).table ↔
          stopSize ls t virt size ∣ virt)) ∧
      (Unmaps ls t virt size (pagingDestroy ls t virt size free).table ↔
        ∀ e ∈ pagingPasses ls t virt size free,
          Fine (virt2phys ls) (stopSize ls) virt e.1 e.2.1 e.2.2)) := by
  refine ⟨fun phys _ hok => pagingCreate_exact hl ht phys free hvirt hsize hin hok, fun hok => ?_⟩
  have hsweep := pagingDestroy_sweeps hl ht free hsize hok
  exact ⟨fun hun => pagingDestroy_exact hl ht free hvirt hsize hin hun hok,
    fun hb => unmappable_iff hl hb ht free hvirt hsize hin hok,
    fun hpos hmapped hex => hsweep.dvd_of_cleared hin hpos hmapped hex,
    fun hpos hmapped => hsweep.cleared_iff_dvd hin hpos hmapped,
    pagingDestroy_exact_iff hl ht free hsize hin hok⟩

/-- Pages of 1 GiB, 2 MiB and 4 KiB. -/
def threeLevels : List Paging := [⟨30, 9, true⟩, ⟨21, 9, true⟩, ⟨12, 9, true⟩]

lemma levels_threeLevels : Levels threeLevels :=
  ⟨by decide, by decide, by decide, by decide, by decide, by decide, by decide, by decide, by decide,
    trivial⟩

/-- A page of 2 MiB at address 0. -/
def hugeMapped : Table Unit := (pagingCreate threeLevels emptyTable 0 0x200000 0 () 8).table

/-- Pages of 4 KiB at address 0 and at 2 MiB, in two tables. -/
def twoMapped : Table Unit :=
  (pagingCreate threeLevels (pagingCreate threeLevels emptyTable 0 0x1000 0 () 8).table
    0x5000 0x1000 0x200000 () 4).table

/-- The only table on the way reaches beyond the region. -/
lemma unmappable_hugeMapped : Unmappable threeLevels hugeMapped 0 0x200000 := by
  have hstop : stopSize threeLevels hugeMapped 0 0x200000 = 0x200000 := by decide +kernel
  refine ⟨Or.inl (hstop ▸ Nat.dvd_zero _), fun p v _ htable _ hv _ => Or.inr (Or.inr ?_)⟩
  intro x h₁ h₂
  obtain ⟨u, phys, hu, hpage⟩ : ∃ u phys, hugeMapped 0 = .table u ∧ u 0 = .page phys () :=
    ⟨_, _, rfl, rfl⟩
  have hindex : Paging.index ⟨30, 9, true⟩ v = 0 ∧ Paging.index ⟨21, 9, true⟩ v = 0 := by
    unfold Paging.index Paging.span
    omega
  obtain rfl : p = ⟨30, 9, true⟩ := by
    simpa [threeLevels, TableAt, hindex, hu, hpage, eq_comm] using htable
  have hspan : Paging.span ⟨30, 9, true⟩ = 2 ^ 30 := rfl
  rw [hspan] at h₁
  omega

theorem paging_exact_huge :
    WF threeLevels hugeMapped ∧
      Unmaps threeLevels hugeMapped 0 0x200000
        (pagingDestroy threeLevels hugeMapped 0 0x200000 8).table := by
  have ht : WF threeLevels hugeMapped :=
    wf_pagingCreate levels_threeLevels (wf_emptyTable (by decide)) _ _ _ _ _
  exact ⟨ht, ((paging_exact_iff levels_threeLevels ht 0 0x200000 8 (by decide) (by decide)
    (by decide)).2 (by decide +kernel)).1 unmappable_hugeMapped⟩

/-- A page is cleared that begins before the region; and a table that is released on the way lets
the next pass go past a page. -/
theorem unmapping_goes_wrong :
    (pagingDestroy threeLevels hugeMapped 0x1000 0x200000 8).ok = true ∧
      virt2phys threeLevels hugeMapped 0 = some (0, ()) ∧
      virt2phys threeLevels (pagingDestroy threeLevels hugeMapped 0x1000 0x200000 8).table 0 = none ∧
      ¬ Unmaps threeLevels hugeMapped 0x1000 0x200000
        (pagingDestroy threeLevels hugeMapped 0x1000 0x200000 8).table ∧
      (pagingDestroy threeLevels twoMapped 0 0x201000 8).ok = true ∧
      virt2phys threeLevels (pagingDestroy threeLevels twoMapped 0 0x201000 8).table 0x200000 =
        some (0x5000, ()) ∧
      ¬ Unmaps threeLevels twoMapped 0 0x201000
        (pagingDestroy threeLevels twoMapped 0 0x201000 8).table := by
  have hbefore : virt2phys threeLevels hugeMapped 0 = some (0, ()) := by decide +kernel
  have hcleared : virt2phys threeLevels
      (pagingDestroy threeLevels hugeMapped 0x1000 0x200000 8).table 0 = none := by decide +kernel
  have hleft : virt2phys threeLevels (pagingDestroy threeLevels twoMapped 0 0x201000 8).table
      0x200000 = some (0x5000, ()) := by decide +kernel
  refine ⟨by decide +kernel, hbefore, hcleared, fun h => ?_, by decide +kernel, hleft, fun h => ?_⟩
  · have h0 := h 0 (by decide)
    rw [hcleared, if_neg (by decide), hbefore] at h0
    cases h0
  · have h0 := h 0x200000 (by decide)
    rw [hleft, if_pos (by decide)] at h0
    cases h0

end FpMemSched.PagingExact
