import FpMemSched.PageWalks

/-!
Which tables are released while a region is unmapped.

A pass of `paging_destroy` releases the tables on its walk that it leaves empty, from the last one
up. So a table is left as long as it holds a page or a table that no pass has come to, and once it
is released the hole in its place is as long as the table was, if its entry could map a page.
-/

namespace FpMemSched.TableReleases

open FpMemSched FpMemSched.Lib.Blocks FpMemSched.PageTables FpMemSched.PageWalks

variable {F : Type} {p q : Paging} {ls : List Paging} {t u : Table F} {e : Entry F}
  {phys size virt free v x y n : ℕ} {flags : F}

/-! ### Tables on a walk -/

/-- The walk from `v` goes through a table that an entry of the level `p` holds. -/
def TableAt : List Paging → Table F → Paging → ℕ → Prop
  | [], _, _, _ => False
  | q :: ls, t, p, v =>
    match t (q.index v) with
    | .table u => q = p ∨ TableAt ls u p v
    | _ => False

lemma tableAt_cons : TableAt (q :: ls) t p v ↔
    ∃ u, t (q.index v) = .table u ∧ (q = p ∨ TableAt ls u p v) := by
  rw [TableAt]
  cases t (q.index v) with
  | invalid => simp
  | page phys flags => simp
  | table u => simp

lemma TableAt.mem (h : TableAt ls t p v) : p ∈ ls := by
  induction ls generalizing t with
  | nil => exact h.elim
  | cons q ls ih =>
    obtain ⟨u, -, rfl | hu⟩ := tableAt_cons.mp h
    · exact List.mem_cons_self
    · exact List.mem_cons_of_mem q (ih hu)

lemma span_dvd_of_mem (hl : Levels ls) (hp : p ∈ ls) : p.span ∣ coverage ls := by
  induction ls with
  | nil => simp at hp
  | cons q ls ih =>
    rcases List.mem_cons.mp hp with rfl | hp
    · exact span_dvd_coverage p ls
    · have hq := ih hl.2.2.2 hp
      rw [← hl.1] at hq
      exact hq.trans (span_dvd_coverage q ls)

lemma pageSize_dvd_of_mem (hl : Levels ls) (hp : p ∈ ls) : PagePool.pageSize ∣ p.span := by
  induction ls with
  | nil => simp at hp
  | cons q ls ih =>
    rcases List.mem_cons.mp hp with rfl | hp
    · exact dvd_span hl
    · exact ih hl.2.2.2 hp

lemma span_dvd_span (hl : Levels (q :: ls)) (hp : p ∈ ls) : p.span ∣ q.span := by
  rw [hl.1]
  exact span_dvd_of_mem hl.2.2.2 hp

/-- Of two levels one covers the entries of the other. -/
lemma span_dvd_or_dvd (hl : Levels ls) (hp : p ∈ ls) (hq : q ∈ ls) :
    p.span ∣ q.span ∨ q.span ∣ p.span := by
  induction ls with
  | nil => simp at hp
  | cons r ls ih =>
    rcases List.mem_cons.mp hp with rfl | hp'
    · rcases List.mem_cons.mp hq with rfl | hq'
      · exact Or.inl dvd_rfl
      · exact Or.inr (span_dvd_span hl hq')
    · rcases List.mem_cons.mp hq with rfl | hq'
      · exact Or.inl (span_dvd_span hl hp')
      · exact ih hl.2.2.2 hp' hq'

/-- Levels that map no pages come first. -/
lemma span_dvd_of_terminal (hl : Levels ls) (hp : p ∈ ls) (hq : q ∈ ls) (hpt : p.terminal)
    (hqt : ¬ q.terminal) : p.span ∣ q.span := by
  induction ls with
  | nil => simp at hp
  | cons r ls ih =>
    rcases List.mem_cons.mp hq with rfl | hq'
    · rcases List.mem_cons.mp hp with rfl | hp'
      · exact dvd_rfl
      · exact span_dvd_span hl hp'
    · rcases List.mem_cons.mp hp with rfl | hp'
      · exact absurd (hl.2.2.1 hpt q hq') hqt
      · exact ih hl.2.2.2 hp' hq'

/-- The walks from all addresses of a table go through it. -/
lemma TableAt.congr (hl : Levels ls) (h : TableAt ls t p v) (hx : x / p.span = v / p.span) :
    TableAt ls t p x := by
  induction ls generalizing t with
  | nil => exact h.elim
  | cons q ls ih =>
    obtain ⟨u, hu, hp⟩ := tableAt_cons.mp h
    refine tableAt_cons.mpr ⟨u, ?_, hp.imp_right fun hp => ih hl.2.2.2 hp⟩
    rcases hp with rfl | hp
    · rw [index_of_div_eq hx, hu]
    · rw [index_of_div_eq (div_eq_of_dvd (span_dvd_span hl hp.mem) hx), hu]

/-- There is no table in an empty one. -/
lemma not_tableAt_of_empty (h : pageTableEmpty (ops ls : Ops F).entries t = true) :
    ¬ TableAt ls t p x := by
  intro hp
  cases ls with
  | nil => exact hp
  | cons q ls =>
    obtain ⟨u, hu, -⟩ := tableAt_cons.mp hp
    have hi := List.all_eq_true.mp h (q.index x) (List.mem_range.mpr (index_lt q x))
    simp [hu, Entry.valid] at hi

/-! ### Sizes -/

/-- The sizes at which a walk stops. -/
def Size (ls : List Paging) (s : ℕ) : Prop :=
  s = PagePool.pageSize ∨ ∃ p ∈ ls, p.terminal ∧ p.span = s

lemma Size.cons {s : ℕ} (h : Size ls s) : Size (p :: ls) s :=
  h.imp_right fun ⟨q, hq, hs⟩ => ⟨q, List.mem_cons_of_mem p hq, hs⟩

lemma Size.pos {s : ℕ} (hs : Size ls s) : 0 < s := by
  rcases hs with rfl | ⟨p, -, -, rfl⟩
  · decide
  · exact span_pos p

lemma Size.dvd {s : ℕ} (hl : Levels ls) (hs : Size ls s) : s ∣ coverage ls := by
  rcases hs with rfl | ⟨p, hp, -, rfl⟩
  · exact dvd_coverage hl
  · exact span_dvd_of_mem hl hp

/-- Of two sizes one is a multiple of the other. -/
lemma Size.dvd_or_dvd {a b : ℕ} (hl : Levels ls) (ha : Size ls a) (hb : Size ls b) :
    a ∣ b ∨ b ∣ a := by
  induction ls with
  | nil =>
    rcases ha with rfl | ⟨p, hp, -⟩
    · rcases hb with rfl | ⟨p, hp, -⟩
      · exact Or.inl dvd_rfl
      · simp at hp
    · simp at hp
  | cons p ls ih =>
    have hless : ∀ {s : ℕ}, Size (p :: ls) s → s = p.span ∨ Size ls s := by
      rintro s (rfl | ⟨q, hq, hterm, hs⟩)
      · exact Or.inr (Or.inl rfl)
      · rcases List.mem_cons.mp hq with rfl | hq
        · exact Or.inl hs.symm
        · exact Or.inr (Or.inr ⟨q, hq, hterm, hs⟩)
    have hdvd : ∀ {s : ℕ}, Size ls s → s ∣ p.span := by
      intro s hs
      rw [hl.1]
      exact hs.dvd hl.2.2.2
    rcases hless ha with rfl | ha'
    · rcases hless hb with rfl | hb'
      · exact Or.inl dvd_rfl
      · exact Or.inr (hdvd hb')
    · rcases hless hb with rfl | hb'
      · exact Or.inl (hdvd ha')
      · exact ih hl.2.2.2 ha' hb'

lemma size_pieceOf (hterm : ∀ q ∈ ls, q.terminal) (n : ℕ) : Size ls (pieceOf ls n) := by
  induction ls with
  | nil => exact Or.inl rfl
  | cons p ls ih =>
    rw [pieceOf]
    split_ifs
    · exact (ih fun q hq => hterm q (List.mem_cons_of_mem p hq)).cons
    · have hp := hterm p List.mem_cons_self
      exact Or.inr ⟨p, List.mem_cons_self, hp, (pageSize_of_terminal hp).symm⟩

lemma size_stop (hl : Levels ls) (ht : WF ls t) (v n : ℕ) : Size ls (stopSize ls t v n) := by
  induction ls generalizing t with
  | nil => exact ht.elim
  | cons p ls ih =>
    have hentry := ht (p.index v) (index_lt p v)
    rw [stopSize]
    cases he : t (p.index v) with
    | invalid =>
      rcases advance_cases p with h | ⟨hterm, h⟩
      · exact Or.inl h
      · exact Or.inr ⟨p, List.mem_cons_self, hterm, h.symm⟩
    | page phys flags =>
      rw [he] at hentry
      refine size_pieceOf (fun q hq => ?_) n
      rcases List.mem_cons.mp hq with rfl | hq
      · exact hentry.1
      · exact hl.2.2.1 hentry.1 q hq
    | table u =>
      rw [he] at hentry
      exact (ih hl.2.2.2 hentry).cons

lemma pieceOf_dvd (hl : Levels (p :: ls)) (hp : p.terminal) (n : ℕ) :
    pieceOf (p :: ls) n ∣ p.span := by
  rw [pieceOf, pageSize_of_terminal hp]
  split_ifs
  · rw [hl.1]
    exact (size_pieceOf (hl.2.2.1 hp) n).dvd hl.2.2.2
  · exact dvd_rfl

/-- A walk stops within the entry of each level that it comes to. -/
lemma stopSize_dvd (hl : Levels (p :: ls)) (ht : WF (p :: ls) t) (v n : ℕ) :
    stopSize (p :: ls) t v n ∣ p.span := by
  have hentry := ht (p.index v) (index_lt p v)
  rw [stopSize]
  cases he : t (p.index v) with
  | invalid => exact (advance_dvd hl).2
  | page phys flags =>
    rw [he] at hentry
    exact pieceOf_dvd hl hentry.1 n
  | table u =>
    rw [he] at hentry
    rw [hl.1]
    exact (size_stop hl.2.2.2 hentry v n).dvd hl.2.2.2

/-- A hole is one from each of its addresses. -/
lemma stopSize_hole {m n : ℕ} (hl : Levels ls) (ht : WF ls t) (hv : virt2phys ls t v = none)
    (hx : x / stopSize ls t v n = v / stopSize ls t v n) :
    stopSize ls t x m = stopSize ls t v n ∧ virt2phys ls t x = none := by
  induction ls generalizing t with
  | nil => exact ht.elim
  | cons p ls ih =>
    have hentry := ht (p.index v) (index_lt p v)
    have hindex := index_of_div_eq (div_eq_of_dvd (stopSize_dvd hl ht v n) hx)
    rw [virt2phys_cons] at hv ⊢
    rw [stopSize, hindex]
    cases he : t (p.index v) with
    | invalid => exact ⟨by rw [stopSize, he], rfl⟩
    | page phys flags =>
      rw [he] at hv
      cases hv
    | table u =>
      rw [he] at hentry hv
      have hstop : stopSize (p :: ls) t v n = stopSize ls u v n := by rw [stopSize, he]
      rw [hstop] at hx ⊢
      exact ih hl.2.2.2 hentry hv hx

/-- The piece of a page that is to be cleared is mapped. -/
lemma stopSize_shown {n : ℕ} (hl : Levels ls) (ht : WF ls t) (hv : virt2phys ls t v ≠ none)
    (hx : x / stopSize ls t v n = v / stopSize ls t v n) : virt2phys ls t x ≠ none := by
  induction ls generalizing t with
  | nil => exact ht.elim
  | cons p ls ih =>
    have hentry := ht (p.index v) (index_lt p v)
    have hindex := index_of_div_eq (div_eq_of_dvd (stopSize_dvd hl ht v n) hx)
    rw [virt2phys_cons] at hv ⊢
    rw [hindex]
    cases he : t (p.index v) with
    | invalid =>
      rw [he] at hv
      exact absurd rfl hv
    | page phys flags => exact Option.some_ne_none _
    | table u =>
      rw [he] at hentry hv
      have hstop : stopSize (p :: ls) t v n = stopSize ls u v n := by rw [stopSize, he]
      rw [hstop] at hx
      exact ih hl.2.2.2 hentry hv hx

/-- A table that the block reaches where a walk stops is on this walk, and no smaller. -/
lemma TableAt.stop (hl : Levels ls) (ht : WF ls t) (h : TableAt ls t p x)
    (hx : x / stopSize ls t v n = v / stopSize ls t v n) :
    TableAt ls t p v ∧ stopSize ls t v n ∣ p.span := by
  induction ls generalizing t with
  | nil => exact h.elim
  | cons q ls ih =>
    have hentry := ht (q.index v) (index_lt q v)
    have hdvd := stopSize_dvd hl ht v n
    obtain ⟨u, hu, hp⟩ := tableAt_cons.mp h
    rw [index_of_div_eq (div_eq_of_dvd hdvd hx)] at hu
    rw [hu] at hentry
    have hstop : stopSize (q :: ls) t v n = stopSize ls u v n := by rw [stopSize, hu]
    rcases hp with rfl | hp
    · exact ⟨tableAt_cons.mpr ⟨u, hu, Or.inl rfl⟩, hdvd⟩
    · rw [hstop] at hx ⊢
      obtain ⟨hv, hd⟩ := ih hl.2.2.2 hentry hp hx
      exact ⟨tableAt_cons.mpr ⟨u, hu, Or.inr hv⟩, hd⟩

/-- A walk stops at less than the tables it goes through, if these have entries to choose from. -/
lemma TableAt.stop_lt (hl : Levels ls) (hb : ∀ p ∈ ls, 0 < p.bits) (ht : WF ls t)
    (h : TableAt ls t p v) (n : ℕ) : stopSize ls t v n < p.span := by
  induction ls generalizing t with
  | nil => exact h.elim
  | cons q ls ih =>
    have hentry := ht (q.index v) (index_lt q v)
    obtain ⟨u, hu, hp⟩ := tableAt_cons.mp h
    rw [hu] at hentry
    have hstop : stopSize (q :: ls) t v n = stopSize ls u v n := by rw [stopSize, hu]
    rw [hstop]
    rcases hp with rfl | hp
    · cases ls with
      | nil => exact hentry.elim
      | cons r ls =>
        have hspan : q.span = r.span * 2 ^ r.bits := hl.1
        have hpos := span_pos r
        have hbits : 1 < 2 ^ r.bits := Nat.one_lt_two_pow (hb r (by simp)).ne'
        rw [hspan]
        exact (Nat.le_of_dvd hpos (stopSize_dvd hl.2.2.2 hentry v n)).trans_lt
          ((Nat.lt_mul_iff_one_lt_right hpos).mpr hbits)
    · exact ih hl.2.2.2 (fun p hp => hb p (List.mem_cons_of_mem q hp)) hentry hp

/-! ### What the tables were before -/

/-- On the walk from `x` there are tables and pages of `t'` only where `t` has them, apart from a
page that has been split. -/
def Under : List Paging → Table F → Table F → ℕ → Prop
  | [], _, _, _ => True
  | p :: ls, t, t', x =>
    match t' (p.index x) with
    | .invalid => True
    | .page _ _ => ∃ phys flags, t (p.index x) = .page phys flags
    | .table u' => (∃ phys flags, t (p.index x) = .page phys flags) ∨
        ∃ u, t (p.index x) = .table u ∧ Under ls u u' x

lemma Under.refl (ls : List Paging) (t : Table F) (x : ℕ) : Under ls t t x := by
  induction ls generalizing t with
  | nil => trivial
  | cons p ls ih =>
    cases he : t (p.index x) with
    | invalid => simp [Under, he]
    | page phys flags => simp [Under, he]
    | table u =>
      rw [Under, he]
      exact Or.inr ⟨u, rfl, ih u⟩

lemma Under.trans {t₁ t₂ t₃ : Table F} (h : Under ls t₁ t₂ x) (h' : Under ls t₂ t₃ x) :
    Under ls t₁ t₃ x := by
  induction ls generalizing t₁ t₂ t₃ with
  | nil => trivial
  | cons p ls ih =>
    rw [Under] at h h' ⊢
    have hpage : (∃ phys flags, t₂ (p.index x) = .page phys flags) →
        ∃ phys flags, t₁ (p.index x) = .page phys flags := by
      rintro ⟨phys, flags, he⟩
      rwa [he] at h
    cases h₃ : t₃ (p.index x) with
    | invalid => trivial
    | page phys flags =>
      rw [h₃] at h'
      exact hpage h'
    | table u₃ =>
      rw [h₃] at h'
      rcases h' with h' | ⟨u₂, h₂, h'⟩
      · exact Or.inl (hpage h')
      · rw [h₂] at h
        rcases h with h | ⟨u₁, h₁, h⟩
        · exact Or.inl h
        · exact Or.inr ⟨u₁, h₁, ih h h'⟩

/-- A pass of `paging_destroy` adds no table but by a split. -/
lemma under_destroy (ls : List Paging) (t : Table F) (virt size free x : ℕ) :
    Under ls t ((ops ls).destroy t virt size free).table x := by
  induction ls generalizing t free with
  | nil => trivial
  | cons p ls ih =>
    change Under (p :: ls) t (destroyPass p (ops ls) t virt size free).table x
    by_cases hx : p.index x = p.index virt
    · have hentry : ∀ e, (match e with
          | .invalid => True
          | .page _ _ => ∃ phys flags, t (p.index x) = .page phys flags
          | .table u' => (∃ phys flags, t (p.index x) = .page phys flags) ∨
              ∃ u, t (p.index x) = .table u ∧ Under ls u u' x) →
          Under (p :: ls) t (Function.update t (p.index virt) e) x := by
        intro e he
        rw [Under, hx, Function.update_self]
        rwa [hx] at he
      have hbelow : ∀ u free, ((∃ phys flags, t (p.index x) = .page phys flags) ∨
          t (p.index x) = .table u) →
          Under (p :: ls) t (destroyBelow p (ops ls) t u virt size free).table x := by
        intro u free hu
        unfold destroyBelow
        dsimp only
        split_ifs
        · exact hentry .invalid trivial
        · exact hentry (.table _) (hu.imp_right fun hu => ⟨u, hu, ih u free⟩)
      unfold destroyPass
      cases he : t (p.index virt) with
      | invalid => exact hentry .invalid trivial
      | page phys flags =>
        have hpage : ∃ phys flags, t (p.index x) = .page phys flags := ⟨phys, flags, hx ▸ he⟩
        dsimp only
        split_ifs
        · split
          · exact Under.refl ..
          · split_ifs
            · exact hbelow _ _ (Or.inl hpage)
            · exact hentry (.table _) (Or.inl hpage)
        · exact hentry .invalid trivial
      | table u => exact hbelow u free (Or.inr (hx ▸ he))
    · have hsame : (destroyPass p (ops ls) t virt size free).table (p.index x) = t (p.index x) :=
        destroyPass_other hx
      have hrefl := Under.refl (p :: ls) t x
      rw [Under] at hrefl ⊢
      rwa [hsame]

/-- A table that is left was there before, where nothing was mapped. -/
lemma TableAt.of_under {t' : Table F} (h : TableAt ls t' p v) (hu : Under ls t t' v)
    (ht : virt2phys ls t v = none) : TableAt ls t p v := by
  induction ls generalizing t t' with
  | nil => exact h
  | cons q ls ih =>
    obtain ⟨u', he', hp⟩ := tableAt_cons.mp h
    rw [Under, he'] at hu
    rw [virt2phys_cons] at ht
    rcases hu with ⟨phys, flags, he⟩ | ⟨u, he, hu⟩
    · rw [he] at ht
      cases ht
    · rw [he] at ht
      exact tableAt_cons.mpr ⟨u, he, hp.imp_right fun hp => ih hp hu ht⟩

/-- A hole is what it was, or one page long, or has taken the place of a table. -/
lemma hole_of_under {t' : Table F} {m n : ℕ} (hu : Under ls t t' v)
    (ht : virt2phys ls t v = none) (ht' : virt2phys ls t' v = none) :
    stopSize ls t' v n = stopSize ls t v m ∨ stopSize ls t' v n = PagePool.pageSize ∨
      ∃ p, p.terminal ∧ p.span = stopSize ls t' v n ∧ TableAt ls t p v := by
  induction ls generalizing t t' with
  | nil => exact Or.inl rfl
  | cons p ls ih =>
    rw [Under] at hu
    rw [virt2phys_cons] at ht ht'
    rw [stopSize, stopSize]
    cases he' : t' (p.index v) with
    | invalid =>
      cases he : t (p.index v) with
      | invalid => exact Or.inl rfl
      | page phys flags =>
        rw [he] at ht
        cases ht
      | table u =>
        refine Or.inr ((advance_cases p).imp_right ?_)
        rintro ⟨hterm, hadv⟩
        exact ⟨p, hterm, hadv.symm, tableAt_cons.mpr ⟨u, he, Or.inl rfl⟩⟩
    | page phys flags =>
      rw [he'] at ht'
      cases ht'
    | table u' =>
      rw [he'] at hu ht'
      rcases hu with ⟨phys, flags, he⟩ | ⟨u, he, hu⟩
      · rw [he] at ht
        cases ht
      · rw [he] at ht
        rw [he]
        refine (ih hu ht ht').imp_right fun h => h.imp_right ?_
        rintro ⟨r, hterm, hr, hrt⟩
        exact ⟨r, hterm, hr, tableAt_cons.mpr ⟨u, he, Or.inr hrt⟩⟩

/-- A table that is not left is in a hole, of the entry of a table that is not left either. -/
lemma hole_of_released {t' : Table F} (hl : Levels ls) (hu : Under ls t t' v)
    (h : TableAt ls t p v) (hno : ¬ TableAt ls t' p v) (n : ℕ) :
    ∃ q, TableAt ls t q v ∧ (q.terminal → p.terminal) ∧ p.span ∣ q.span ∧
      stopSize ls t' v n = q.advance ∧
      ∀ y, y / q.span = v / q.span → virt2phys ls t' y = none ∧
        ∀ r, TableAt ls t' r y → q.span ∣ r.span := by
  induction ls generalizing t t' with
  | nil => exact h.elim
  | cons q ls ih =>
    obtain ⟨u, he, hp⟩ := tableAt_cons.mp h
    rw [Under] at hu
    cases he' : t' (q.index v) with
    | invalid =>
      refine ⟨q, tableAt_cons.mpr ⟨u, he, Or.inl rfl⟩, fun hq => ?_, ?_, by rw [stopSize, he'],
        fun y hy => ?_⟩
      · rcases hp with rfl | hp
        · exact hq
        · exact hl.2.2.1 hq p hp.mem
      · rcases hp with rfl | hp
        · exact dvd_rfl
        · exact span_dvd_span hl hp.mem
      · have hi : t' (q.index y) = .invalid := (congrArg t' (index_of_div_eq hy)).trans he'
        refine ⟨by rw [virt2phys_cons, hi]; rfl, fun r hr => ?_⟩
        obtain ⟨w, hw, -⟩ := tableAt_cons.mp hr
        rw [hi] at hw
        cases hw
    | page phys flags =>
      rw [he'] at hu
      obtain ⟨phys', flags', hpage⟩ := hu
      rw [he] at hpage
      cases hpage
    | table u' =>
      rw [he'] at hu
      rcases hu with ⟨phys, flags, hpage⟩ | ⟨w, hw, hu⟩
      · rw [he] at hpage
        cases hpage
      obtain rfl := Entry.table.inj (he.symm.trans hw)
      obtain ⟨hpq, hp'⟩ := not_or.mp fun hor => hno (tableAt_cons.mpr ⟨u', he', hor⟩)
      obtain ⟨r, hr, hterm, hpr, hstop, hhole⟩ := ih hl.2.2.2 hu (hp.resolve_left hpq) hp'
      have hstop' : stopSize (q :: ls) t' v n = r.advance := by
        rw [stopSize, he']
        exact hstop
      refine ⟨r, tableAt_cons.mpr ⟨u, he, Or.inr hr⟩, hterm, hpr, hstop', fun y hy => ?_⟩
      have hdvd := span_dvd_span hl hr.mem
      have hi : t' (q.index y) = .table u' :=
        (congrArg t' (index_of_div_eq (div_eq_of_dvd hdvd hy))).trans he'
      obtain ⟨hnone, htables⟩ := hhole y hy
      refine ⟨by rw [virt2phys_cons, hi]; exact hnone, fun s hs => ?_⟩
      obtain ⟨w, hw, rfl | hs⟩ := tableAt_cons.mp hs
      · exact hdvd
      · obtain rfl := Entry.table.inj (hi.symm.trans hw)
        exact htables s hs

/-! ### A pass -/

lemma tableAt_update {e : Entry F} (hx : x / coverage (q :: ls) = v / coverage (q :: ls)) :
    TableAt (q :: ls) (Function.update t (q.index v) e) p x ↔
      if x / q.span = v / q.span then ∃ u, e = .table u ∧ (q = p ∨ TableAt ls u p x)
      else TableAt (q :: ls) t p x := by
  rw [tableAt_cons]
  split_ifs with hb
  · rw [index_of_div_eq hb, Function.update_self]
  · rw [Function.update_of_ne (mt (index_eq_iff hx).mp hb), tableAt_cons]

/-- A pass changes an entry into one that holds no table, or fails, or goes on in a table, which
may be one of pages only that it has split. -/
lemma destroyPass_cases (hl : Levels (q :: ls)) (ht : WF (q :: ls) t)
    (hn : PagePool.pageSize ≤ n) (v free : ℕ) :
    (∃ e, (destroyPass q (ops ls) t v n free).table = Function.update t (q.index v) e ∧
        ∀ u, e ≠ .table u) ∨
      (destroyPass q (ops ls) t v n free).advance = none ∨
      ∃ u free', (t (q.index v) = .table u ∨ ∀ p x, ¬ TableAt ls u p x) ∧ WF ls u ∧
        destroyPass q (ops ls) t v n free = destroyBelow q (ops ls) t u v n free' := by
  have hentry := ht (q.index v) (index_lt q v)
  unfold destroyPass
  cases he : t (q.index v) with
  | invalid => exact Or.inl ⟨.invalid, rfl, nofun⟩
  | page phys flags =>
    rw [he] at hentry
    obtain ⟨hq, hphys⟩ := hentry
    dsimp only
    rw [pageSize_of_terminal hq]
    split_ifs with hlt
    · right
      cases ls with
      | nil =>
        have hspan : q.span = PagePool.pageSize := hl.1
        omega
      | cons r ls =>
        have hspan : q.span = r.span * 2 ^ r.bits := hl.1
        have hr : r.terminal := hl.2.2.1 hq r List.mem_cons_self
        cases hsplit : splitHugepage q (ops (r :: ls)) phys flags v free with
        | none => exact Or.inl rfl
        | some w =>
          obtain ⟨hok, hinto⟩ := splitHugepage_spec hl hq hphys hsplit
          refine Or.inr ⟨w.table, w.free, Or.inr fun p x hp => ?_,
            wf_split hr ((Nat.dvd_mul_right ..).trans (hspan ▸ hphys)) hinto, if_pos hok⟩
          obtain ⟨u, hu, -⟩ := tableAt_cons.mp hp
          rw [hinto _ (index_lt r x)] at hu
          cases hu
    · exact Or.inl ⟨.invalid, rfl, nofun⟩
  | table u =>
    rw [he] at hentry
    exact Or.inr (Or.inr ⟨u, free, Or.inl rfl, hentry, rfl⟩)

/-- A pass leaves the tables alone that are not on its walk. -/
lemma stays_destroy (hl : Levels ls) (h : TableAt ls t p x)
    (hx : x / coverage ls = v / coverage ls) (hne : x / p.span ≠ v / p.span) (n free : ℕ) :
    TableAt ls ((ops ls).destroy t v n free).table p x := by
  induction ls generalizing t free with
  | nil => exact h.elim
  | cons q ls ih =>
    change TableAt (q :: ls) (destroyPass q (ops ls) t v n free).table p x
    obtain ⟨u, hu, hp⟩ := tableAt_cons.mp h
    by_cases hi : q.index x = q.index v
    · have hb : x / q.span = v / q.span := (index_eq_iff hx).mp hi
      have hq : q ≠ p := fun he => hne (he ▸ hb)
      have hbelow := ih hl.2.2.2 (hp.resolve_left hq) (hl.1 ▸ hb) free
      have hfull := mt (not_tableAt_of_empty (p := p) (x := x)) (not_not.mpr hbelow)
      rw [hi] at hu
      unfold destroyPass
      rw [hu]
      dsimp only [destroyBelow]
      rw [if_neg fun he => hfull he.2]
      exact (tableAt_update hx).mpr (by rw [if_pos hb]; exact ⟨_, rfl, Or.inr hbelow⟩)
    · refine tableAt_cons.mpr ⟨u, ?_, hp⟩
      rw [destroyPass_other hi, hu]

/-- A pass adds tables on its walk only. -/
lemma tableAt_destroy (hl : Levels ls) (ht : WF ls t) (hn : PagePool.pageSize ≤ n)
    (hadv : ((ops ls).destroy t v n free).advance ≠ none)
    (hx : x / coverage ls = v / coverage ls)
    (h : TableAt ls ((ops ls).destroy t v n free).table p x) :
    TableAt ls t p x ∨ x / p.span = v / p.span := by
  induction ls generalizing t free with
  | nil => exact h.elim
  | cons q ls ih =>
    change (destroyPass q (ops ls) t v n free).advance ≠ none at hadv
    change TableAt (q :: ls) (destroyPass q (ops ls) t v n free).table p x at h
    rcases destroyPass_cases hl ht hn v free with ⟨e, htable, he⟩ | hnone | ⟨u, free', hu, hwf, hr⟩
    · rw [htable, tableAt_update hx] at h
      split_ifs at h
      · obtain ⟨u, rfl, -⟩ := h
        exact absurd rfl (he u)
      · exact Or.inl h
    · exact absurd hnone hadv
    · rw [hr] at hadv h
      unfold destroyBelow at hadv h
      dsimp only at hadv h
      split_ifs at hadv h with hempty
      · rw [tableAt_update hx] at h
        split_ifs at h
        · obtain ⟨w, hw, -⟩ := h
          cases hw
        · exact Or.inl h
      · rw [tableAt_update hx] at h
        split_ifs at h with hb
        · obtain ⟨w, hw, rfl | hp⟩ := h
          · exact Or.inr hb
          · obtain rfl := Entry.table.inj hw
            rcases ih hl.2.2.2 hwf hadv (hl.1 ▸ hb) hp with hp | hp
            · refine hu.imp (fun hu => tableAt_cons.mpr ⟨u, ?_, Or.inr hp⟩)
                fun hno => absurd hp (hno p x)
              rw [index_of_div_eq hb, hu]
            · exact Or.inr hp
        · exact Or.inl h

/-- An address of each entry of a table. -/
lemma exists_index (hspan : q.span = p.span * 2 ^ p.bits) (v : ℕ) {i : ℕ} (hi : i < 2 ^ p.bits) :
    ∃ y, y / q.span = v / q.span ∧ p.index y = i := by
  have hpos := span_pos p
  refine ⟨(v / q.span * 2 ^ p.bits + i) * p.span, ?_, ?_⟩
  · rw [hspan, ← Nat.div_div_eq_div_mul, Nat.mul_div_cancel _ hpos, Nat.add_comm,
      Nat.add_mul_div_right _ _ (Nat.two_pow_pos _), Nat.div_eq_of_lt hi, Nat.zero_add]
  · rw [Paging.index, Nat.mul_div_cancel _ hpos, Nat.add_comm, Nat.add_mul_mod_self_right,
      Nat.mod_eq_of_lt hi]

/-- A table that is not empty has an address at which something is mapped, or an entry holds a
table. -/
lemma exists_of_not_empty (hspan : q.span = coverage ls) (v : ℕ)
    (h : pageTableEmpty (ops ls : Ops F).entries t ≠ true) :
    ∃ y, y / q.span = v / q.span ∧ (virt2phys ls t y ≠ none ∨
      ∃ p, TableAt ls t p y ∧ (y / p.span = v / p.span → TableAt ls t p v)) := by
  cases ls with
  | nil => exact absurd rfl h
  | cons p ls =>
    obtain ⟨i, hi, hvalid⟩ : ∃ i < 2 ^ p.bits, (t i).valid = true := by
      by_contra hno
      refine h (List.all_eq_true.mpr fun i hi => ?_)
      have hi := List.mem_range.mp hi
      by_contra hvalid
      exact hno ⟨i, hi, by simpa using hvalid⟩
    obtain ⟨y, hy, rfl⟩ := exists_index hspan v hi
    refine ⟨y, hy, ?_⟩
    cases he : t (p.index y) with
    | invalid => simp [he, Entry.valid] at hvalid
    | page phys flags =>
      refine Or.inl ?_
      rw [virt2phys_cons, he]
      exact Option.some_ne_none _
    | table u =>
      refine Or.inr ⟨p, tableAt_cons.mpr ⟨u, he, Or.inl rfl⟩, fun hv => ?_⟩
      exact tableAt_cons.mpr ⟨u, by rw [← index_of_div_eq hv, he], Or.inl rfl⟩

/-- A table on the walk of a pass is left only if it holds a page, or a table that is not on the
walk. -/
lemma left_destroy (hl : Levels ls) (ht : WF ls t) (hn : PagePool.pageSize ≤ n)
    (hadv : ((ops ls).destroy t v n free).advance ≠ none)
    (h : TableAt ls ((ops ls).destroy t v n free).table p v) :
    ∃ y, y / p.span = v / p.span ∧
      (virt2phys ls ((ops ls).destroy t v n free).table y ≠ none ∨
        ∃ q, TableAt ls ((ops ls).destroy t v n free).table q y ∧ y / q.span ≠ v / q.span) := by
  induction ls generalizing t free p with
  | nil => exact h.elim
  | cons q ls ih =>
    change (destroyPass q (ops ls) t v n free).advance ≠ none at hadv
    change TableAt (q :: ls) (destroyPass q (ops ls) t v n free).table p v at h
    change ∃ y, y / p.span = v / p.span ∧
      (virt2phys (q :: ls) (destroyPass q (ops ls) t v n free).table y ≠ none ∨
        ∃ r, TableAt (q :: ls) (destroyPass q (ops ls) t v n free).table r y ∧
          y / r.span ≠ v / r.span)
    rcases destroyPass_cases hl ht hn v free with ⟨e, htable, he⟩ | hnone | ⟨u, free', -, hwf, hr⟩
    · rw [htable, tableAt_update rfl, if_pos rfl] at h
      obtain ⟨u, rfl, -⟩ := h
      exact absurd rfl (he u)
    · exact absurd hnone hadv
    rw [hr] at hadv h ⊢
    unfold destroyBelow at hadv h ⊢
    dsimp only at hadv h ⊢
    split_ifs at hadv h ⊢ with hempty
    · rw [tableAt_update rfl, if_pos rfl] at h
      obtain ⟨w, hw, -⟩ := h
      cases hw
    rw [tableAt_update rfl, if_pos rfl] at h
    obtain ⟨w, hw, hp⟩ := h
    obtain rfl := Entry.table.inj hw
    -- it is enough to look into the table of the next level
    suffices hsub : ∃ y, y / p.span = v / p.span ∧ y / q.span = v / q.span ∧
        (virt2phys ls ((ops ls).destroy u v n free').table y ≠ none ∨
          ∃ r, TableAt ls ((ops ls).destroy u v n free').table r y ∧ y / r.span ≠ v / r.span) by
      obtain ⟨y, hyp, hyq, hheld⟩ := hsub
      have hyc := div_eq_of_dvd (span_dvd_coverage q ls) hyq
      refine ⟨y, hyp, hheld.imp (fun hy => ?_) fun ⟨r, hr, hne⟩ => ⟨r, ?_, hne⟩⟩
      · rw [virt2phys_update hyc, if_pos hyq]
        exact hy
      · rw [tableAt_update hyc, if_pos hyq]
        exact ⟨_, rfl, Or.inr hr⟩
    rcases hp with rfl | hp
    · obtain ⟨y, hy, hheld⟩ := exists_of_not_empty hl.1 v
        fun he => hempty ⟨Option.isSome_iff_ne_none.mpr hadv, he⟩
      rcases hheld with hmapped | ⟨r, hr, hv⟩
      · exact ⟨y, hy, hy, Or.inl hmapped⟩
      by_cases hyr : y / r.span = v / r.span
      · obtain ⟨z, hz, hheld⟩ := ih hl.2.2.2 hwf hadv (hv hyr)
        have hzq := div_eq_of_dvd (span_dvd_span hl hr.mem) hz
        exact ⟨z, hzq, hzq, hheld⟩
      · exact ⟨y, hy, hy, Or.inr ⟨r, hr, hyr⟩⟩
    · obtain ⟨y, hy, hheld⟩ := ih hl.2.2.2 hwf hadv hp
      exact ⟨y, hy, div_eq_of_dvd (span_dvd_span hl hp.mem) hy, hheld⟩

/-! ### Straight sweeps -/

/-- The block of an entry lies outside of the range from `o` to `e`. -/
def Outside (o e : ℕ) (p : Paging) (x : ℕ) : Prop :=
  ∀ z, o ≤ z → z < e → z / p.span ≠ x / p.span

/-- A table holds something else than what is mapped between `o` and `e`: an address is mapped
that is not there, or there is a table that lies outside. -/
def Holds (ls : List Paging) (t : Table F) (o e : ℕ) (p : Paging) (x : ℕ) : Prop :=
  ∃ y, y / p.span = x / p.span ∧
    ((virt2phys ls t y ≠ none ∧ ¬ (o ≤ y ∧ y < e)) ∨ ∃ q, TableAt ls t q y ∧ Outside o e q y)

variable {o w k : ℕ}

lemma Holds.mono (h : Holds ls t o w q y) (hqp : q.span ∣ p.span) (hy : y / p.span = x / p.span) :
    Holds ls t o w p x := by
  obtain ⟨z, hz, hheld⟩ := h
  exact ⟨z, (div_eq_of_dvd hqp hz).trans hy, hheld⟩

/-- What a table holds stays outside of a longer range, if the table has nothing to itself in what
is added. -/
lemma Holds.grow (hl : Levels ls) (hp : p ∈ ls) (h : Holds ls t o v p x)
    (hmeets : ∃ z, o ≤ z ∧ z < v ∧ z / p.span = x / p.span)
    (hfree : ∀ z, v ≤ z → z < w → z / p.span = x / p.span →
      virt2phys ls t z = none ∧ ∀ q, TableAt ls t q z → ¬ Outside o v q z) :
    Holds ls t o w p x := by
  obtain ⟨y, hy, hheld⟩ := h
  refine ⟨y, hy, hheld.imp ?_ ?_⟩
  · rintro ⟨hmapped, hout⟩
    refine ⟨hmapped, fun hin => hmapped (hfree y ?_ hin.2 hy).1⟩
    omega
  · rintro ⟨q, hq, hout⟩
    refine ⟨q, hq, fun z h₁ h₂ hz => ?_⟩
    rcases Nat.lt_or_ge z v with hzv | hzv
    · exact hout z h₁ hzv hz
    by_cases hzp : z / p.span = x / p.span
    · refine (hfree z hzv h₂ hzp).2 q (hq.congr hl hz) fun r h₃ h₄ hr => ?_
      exact hout r h₃ h₄ (hr.trans hz)
    · -- the table is larger than the other one, and reaches where that does
      rcases span_dvd_or_dvd hl hp hq.mem with hpq | hqp
      · obtain ⟨r, h₃, h₄, hr⟩ := hmeets
        exact hout r h₃ h₄ (div_eq_of_dvd hpq (hr.trans hy.symm))
      · exact hzp ((div_eq_of_dvd hqp hz).trans hy)

/-- The tables after the walk has come from `o` straight to `v`. -/
structure Swept (ls : List Paging) (t₀ : Table F) (o v : ℕ) (t : Table F) : Prop where
  wf : WF ls t
  under : ∀ x, Under ls t₀ t x
  kept : Kept (virt2phys ls) (coverage ls) (virt2phys ls t₀) o v t
  gone : ∀ x, o ≤ x → x < v → virt2phys ls t x = none
  stays : ∀ p x, x / coverage ls = o / coverage ls → TableAt ls t₀ p x → Outside o v p x →
    TableAt ls t p x
  holds : ∀ p x, TableAt ls t p x → x / coverage ls = o / coverage ls → ¬ Outside o v p x →
    Holds ls t₀ o v p x

lemma swept_refl (ht : WF ls t) (o : ℕ) : Swept ls t o o t where
  wf := ht
  under := Under.refl ls t
  kept := fun _ _ _ => rfl
  gone := fun _ h₁ h₂ => absurd h₂ (Nat.not_lt.mpr h₁)
  stays := fun _ _ _ h _ => h
  holds := fun _ _ _ _ h => absurd (fun _ h₁ h₂ => absurd h₂ (Nat.not_lt.mpr h₁)) h

variable {t₀ : Table F}

/-- A table that is not on the walk lies outside of what a straight pass clears. -/
lemma outside_of_ne (hl : Levels ls) (ht : WF ls t) (h : TableAt ls t p x)
    (hdvd : stopSize ls t v n ∣ v) (hne : x / p.span ≠ v / p.span) :
    Outside v (v + stopSize ls t v n) p x := by
  intro z h₁ h₂ hz
  have hpos := (size_stop hl ht v n).pos
  have hstop : z / stopSize ls t v n = v / stopSize ls t v n := by
    rw [div_eq_iff hpos, base_of_dvd hdvd]
    exact ⟨h₁, h₂⟩
  have hd := ((h.congr hl hz).stop hl ht hstop).2
  exact hne (hz.symm.trans (div_eq_of_dvd hd hstop))

/-- **A straight pass** keeps what a sweep has brought about. -/
lemma Swept.step (hl : Levels ls) (h : Swept ls t₀ o v t) (hn : PagePool.pageSize ≤ n)
    (hdvd : stopSize ls t v n ∣ v) (ho : o ≤ v) (hk : v + n = o + k)
    (hc : o % coverage ls + k ≤ coverage ls) (hle : stopSize ls t v n ≤ n)
    (hadv : ((ops ls).destroy t v n free).advance ≠ none) :
    Swept ls t₀ o (v + stopSize ls t v n) ((ops ls).destroy t v n free).table := by
  have hpass : Destroys ls t v n ((ops ls).destroy t v n free) (stopSize ls t v n) :=
    destroys hl h.wf hn
  obtain ⟨a, ha⟩ := Option.ne_none_iff_exists'.mp hadv
  have hclears := hpass.clears a ha
  have hpos := hclears.pos
  have hov : v / coverage ls = o / coverage ls := div_eq_of_mem hc ho (by omega)
  obtain ⟨hkept, hgone⟩ := hclears.straight (Or.inl hdvd) h.kept h.gone ho hk hc hle
  have hblock : ∀ {p : Paging} {x y : ℕ}, p ∈ ls → y / p.span = x / p.span →
      x / coverage ls = o / coverage ls → y / coverage ls = o / coverage ls :=
    fun hp hy hx => (div_eq_of_dvd (span_dvd_of_mem hl hp) hy).trans hx
  -- the tables that are not on the walk are those of before
  have hoff : ∀ p x, TableAt ls ((ops ls).destroy t v n free).table p x →
      x / coverage ls = o / coverage ls → x / p.span ≠ v / p.span →
      TableAt ls t p x ∧ Outside v (v + stopSize ls t v n) p x := by
    intro p x hp hx hne
    have hp := (tableAt_destroy hl h.wf hn hadv (hx.trans hov.symm) hp).resolve_right hne
    exact ⟨hp, outside_of_ne hl h.wf hp hdvd hne⟩
  have hholds : ∀ p x, TableAt ls ((ops ls).destroy t v n free).table p x →
      x / coverage ls = o / coverage ls → x / p.span ≠ v / p.span →
      ¬ Outside o (v + stopSize ls t v n) p x → Holds ls t₀ o (v + stopSize ls t v n) p x := by
    intro p x hp hx hne hmeets
    obtain ⟨hp, hout⟩ := hoff p x hp hx hne
    have hmeets' : ¬ Outside o v p x := fun h' => hmeets fun z h₁ h₂ =>
      if hz : z < v then h' z h₁ hz else hout z (Nat.le_of_not_lt hz) h₂
    refine (h.holds p x hp hx hmeets').grow hl hp.mem ?_ fun z h₁ h₂ hz => absurd hz (hout z h₁ h₂)
    by_contra hno
    exact hmeets' fun z h₁ h₂ hz => hno ⟨z, h₁, h₂, hz⟩
  refine ⟨hpass.wf, fun x => (h.under x).trans (under_destroy ls t v n free x), hkept, hgone,
    fun p x hx hp hout => ?_, fun p x hp hx hmeets => ?_⟩
  · refine stays_destroy hl (h.stays p x hx hp fun z h₁ h₂ => hout z h₁ (by omega))
      (hx.trans hov.symm) (fun hxv => hout v ho (by omega) hxv.symm) n free
  · by_cases hxv : x / p.span = v / p.span
    · obtain ⟨y, hy, hheld⟩ := left_destroy hl h.wf hn hadv (hp.congr hl hxv.symm)
      have hyc := hblock hp.mem (hy.trans hxv.symm) hx
      have hstill : virt2phys ls ((ops ls).destroy t v n free).table y ≠ none →
          Holds ls t₀ o (v + stopSize ls t v n) p x := by
        intro hmapped
        have hout : ¬ (o ≤ y ∧ y < v + stopSize ls t v n) :=
          fun hin => hmapped (hgone y hin.1 hin.2)
        refine ⟨y, hy.trans hxv.symm, Or.inl ⟨?_, hout⟩⟩
        rwa [← hkept y hyc (by omega)]
      rcases hheld with hmapped | ⟨q, hq, hne⟩
      · exact hstill hmapped
      · have hqp : q.span ∣ p.span := by
          refine (span_dvd_or_dvd hl hq.mem hp.mem).resolve_right fun hpq => hne ?_
          exact div_eq_of_dvd hpq hy
        by_cases hout : Outside o (v + stopSize ls t v n) q y
        · by_cases hmapped : virt2phys ls t₀ y = none
          · obtain ⟨hqt, -⟩ := hoff q y hq hyc hne
            exact ⟨y, hy.trans hxv.symm, Or.inr ⟨q, hqt.of_under (h.under y) hmapped, hout⟩⟩
          · refine ⟨y, hy.trans hxv.symm, Or.inl ⟨hmapped, fun hin => ?_⟩⟩
            exact hout y hin.1 hin.2 rfl
        · exact (hholds q y hq hyc hne hout).mono hqp (hy.trans hxv.symm)
    · exact hholds p x hp hx hxv hmeets

end FpMemSched.TableReleases
