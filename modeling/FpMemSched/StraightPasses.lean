import FpMemSched.TableReleases

/-!
Where the passes of `paging_destroy` do not go astray.

A pass goes on by the size of the page or of the hole around the address where it stands, which
need not begin there. Once the first one stands at the beginning, only the hole in the place of a
table that has been released in front of its end makes a later one stand elsewhere.
-/

namespace FpMemSched.StraightPasses

open FpMemSched FpMemSched.Lib.Blocks FpMemSched.PageTables FpMemSched.PageWalks
  FpMemSched.TableReleases

variable {F : Type} {ls : List Paging} {t : Table F} {size k : ℕ}

/-! ### The passes -/

/-- Each pass takes a page off at least, so that the loop gets to its end. -/
lemma left_le {a : ℕ} (hk : size ≤ (k + 1) * PagePool.pageSize) (ha : PagePool.pageSize ∣ a)
    (hpos : 0 < a) : size - a ≤ k * PagePool.pageSize := by
  have := Nat.le_of_dvd hpos ha
  rw [Nat.succ_mul] at hk
  omega

/-- The passes of the loop of `paging_destroy`: the tables, the address and what is left of the
region before each. -/
def destroyPasses (pass : Table F → ℕ → ℕ → ℕ → Pass F) :
    ℕ → Table F → ℕ → ℕ → ℕ → List (Table F × ℕ × ℕ)
  | 0, _, _, _, _ => []
  | k + 1, t, virt, size, free =>
    if size = 0 then []
    else
      let r := pass t virt size free
      (t, virt, size) ::
        match r.advance with
        | none => []
        | some a =>
          if size < a then [] else destroyPasses pass k r.table (virt + a) (size - a) r.free

lemma destroyPasses_zero (pass : Table F → ℕ → ℕ → ℕ → Pass F) (k : ℕ) (t : Table F)
    (virt free : ℕ) : destroyPasses pass k t virt 0 free = [] := by
  cases k with
  | zero => rfl
  | succ k => rw [destroyPasses, if_pos rfl]

/-- After a pass the loop ends, or goes on behind the page or the hole. -/
lemma destroyPasses_succ (pass : Table F → ℕ → ℕ → ℕ → Pass F) (k : ℕ) (t : Table F)
    (virt free : ℕ) (hsize : 0 < size) :
    destroyPasses pass (k + 1) t virt size free = [(t, virt, size)] ∨
      ∃ a, (pass t virt size free).advance = some a ∧ a ≤ size ∧
        destroyPasses pass (k + 1) t virt size free = (t, virt, size) ::
          destroyPasses pass k (pass t virt size free).table (virt + a) (size - a)
            (pass t virt size free).free := by
  rw [destroyPasses, if_neg hsize.ne']
  dsimp only
  cases ha : (pass t virt size free).advance with
  | none => exact Or.inl rfl
  | some a =>
    dsimp only
    split_ifs with hlt
    · exact Or.inl rfl
    · exact Or.inr ⟨a, rfl, Nat.le_of_not_lt hlt, rfl⟩

/-! ### Where unmapping does not go astray -/

/-- What the tables must be like at the call. The page or the hole at the start of the region
begins there, or none of the region is mapped. And no table whose entry could map a page, and which
ends beyond what is cleared first, leaves a hole of its length before the walk comes to its end: it
holds something that is not unmapped before its last address, or a table above it, whose entry could
not map a page, does not, so that the hole is one page long; or none of the region behind is
mapped. -/
structure Unmappable (ls : List Paging) (t : Table F) (virt size : ℕ) : Prop where
  start : stopSize ls t virt size ∣ virt ∨
    ∀ x, virt ≤ x → x < virt + size → virt2phys ls t x = none
  tables : ∀ p v, p.terminal → TableAt ls t p v → virt ≤ v → v < virt + size →
    virt + stopSize ls t virt size < base p.span v + p.span →
    Holds ls t virt (base p.span v + p.span - 1) p v ∨
      (∃ q, ¬ q.terminal ∧ TableAt ls t q v ∧
        ¬ Holds ls t virt (base p.span v + p.span - 1) q v) ∨
      ∀ x, base p.span v + p.span ≤ x → x < virt + size → virt2phys ls t x = none

/-- After a pass over a block that begins where the walk stands, the next one does so too, unless
it is a hole that has taken the place of a table. -/
lemma dvd_next {t' : Table F} {v n a s m : ℕ} (hl : Levels ls) (ht : WF ls t) (ht' : WF ls t')
    (ha : stopSize ls t v n = a) (hs : stopSize ls t' (v + a) m = s)
    (hu : Under ls t t' (v + a)) (hdvd : a ∣ v) (hpage : PagePool.pageSize ∣ v + a)
    (hgone : virt2phys ls t' (v + a - 1) = none)
    (hkept : virt2phys ls t' (v + a) = virt2phys ls t (v + a)) :
    s ∣ v + a ∨ (virt2phys ls t' (v + a) = none ∧
      ∃ p, p.terminal ∧ p.span = s ∧ TableAt ls t p (v + a)) := by
  have hsize : Size ls s := hs ▸ size_stop hl ht' (v + a) m
  have hsize' : Size ls a := ha ▸ size_stop hl ht v n
  have hle := base_le s (v + a)
  have hlt := lt_base_add hsize.pos (v + a)
  have hpos := hsize'.pos
  by_cases hv : virt2phys ls t' (v + a) = none
  · rcases hole_of_under (m := n) (n := m) hu (hkept ▸ hv) hv with hsame | hone | htable
    · -- the hole was there before, and the pass would have gone to its end
      rw [hs] at hsame
      refine Or.inl ?_
      by_contra hno
      rcases Size.dvd_or_dvd hl hsize' hsize with has | hsa
      · have hbase : base s (v + a) ≠ v + a := mt base_eq_iff.mp hno
        have hmul : a ∣ base s (v + a) := has.trans (Nat.dvd_mul_left ..)
        have hgap : a ≤ v + a - base s (v + a) :=
          Nat.le_of_dvd (by omega) (Nat.dvd_sub (Nat.dvd_add hdvd dvd_rfl) hmul)
        have hin : v / s = (v + a) / s := by
          rw [div_eq_iff hsize.pos]
          omega
        have hhole := (stopSize_hole (m := n) hl ht (hkept ▸ hv) (hsame ▸ hin)).1
        rw [ha, ← hsame] at hhole
        exact hno (hhole ▸ Nat.dvd_add hdvd dvd_rfl)
      · exact hno (Nat.dvd_add (hsa.trans hdvd) hsa)
    · rw [hs] at hone
      exact Or.inl (hone ▸ hpage)
    · exact Or.inr ⟨hv, hs ▸ htable⟩
  · -- a page that began before would be mapped there
    refine Or.inl (base_eq_iff.mp ?_)
    by_contra hbase
    refine stopSize_shown (n := m) hl ht' hv ?_ hgone
    rw [hs, div_eq_iff hsize.pos]
    omega

variable {t₀ : Table F} {p q : Paging} {o v n : ℕ}

/-- A table that lies outside of what has been cleared is left, so that no hole reaches it. -/
lemma dvd_of_outside (hl : Levels ls) (h : Swept ls t₀ o v t) (hstop : p.span = stopSize ls t v n)
    {y : ℕ} (hq : TableAt ls t₀ q y) (hyc : y / coverage ls = o / coverage ls)
    (hout : Outside o v q y) (hy : y / p.span = v / p.span) :
    TableAt ls t q v ∧ p.span ∣ q.span := by
  rw [hstop] at hy ⊢
  exact (h.stays q y hyc hq hout).stop hl h.wf hy

/-- Where a table has been emptied too early that could have been a page, nothing is left. -/
lemma none_of_table (hl : Levels ls) (hun : Unmappable ls t₀ o size)
    (hc : o % coverage ls + size ≤ coverage ls) (h : Swept ls t₀ o v t) (ho : o < v)
    (hv : o + stopSize ls t₀ o size ≤ v) (hvn : v < o + size) (hvp : PagePool.pageSize ∣ v)
    (hnone : virt2phys ls t v = none) (hterm : p.terminal) (hstop : p.span = stopSize ls t v n)
    (hp : TableAt ls t₀ p v) (hno : ¬ p.span ∣ v) :
    ∀ x, v ≤ x → x < o + size → virt2phys ls t x = none := by
  have hle := base_le p.span v
  have hlt := lt_base_add (span_pos p) v
  have hov : v / coverage ls = o / coverage ls := div_eq_of_mem hc (by omega) hvn
  have hbase : base p.span v ≠ v := mt base_eq_iff.mp hno
  have hbefore : (v - 1) / p.span = v / p.span := by
    rw [div_eq_iff (span_pos p)]
    omega
  have hhole : ∀ y, y / p.span = v / p.span → virt2phys ls t y = none := fun y hy =>
    (stopSize_hole (m := n) hl h.wf hnone (hstop ▸ hy)).2
  have hblock : ∀ y, y / p.span = v / p.span → y / coverage ls = o / coverage ls :=
    fun y hy => (div_eq_of_dvd (span_dvd_of_mem hl hp.mem) hy).trans hov
  rcases hun.tables p v hterm hp (by omega) hvn (by omega) with hheld | ⟨q, hqt, hq, hqno⟩ | hrest
  · obtain ⟨y, hy, ⟨hmapped, hout⟩ | ⟨q, hq, hout⟩⟩ := hheld
    · -- what the walk has not come to is still mapped
      have hin := (div_eq_iff (span_pos p) y v).mp hy
      refine absurd ((h.kept y (hblock y hy) ?_).symm.trans (hhole y hy)) hmapped
      omega
    · obtain ⟨-, hdvd⟩ := dvd_of_outside hl h hstop hq (hblock y hy)
        (fun z h₁ h₂ => hout z h₁ (by omega)) hy
      exact absurd (div_eq_of_dvd hdvd (hbefore.trans hy.symm)) (hout (v - 1) (by omega) (by omega))
  · by_cases hleft : TableAt ls t q v
    · have hpq := span_dvd_of_terminal hl hp.mem hq.mem hterm hqt
      have hmeets : (v - 1) / q.span = v / q.span := div_eq_of_dvd hpq hbefore
      have hheld := h.holds q v hleft hov fun hout => hout (v - 1) (by omega) (by omega) hmeets
      refine absurd (hheld.grow hl hq.mem ⟨v - 1, by omega, by omega, hmeets⟩ ?_) hqno
      intro z h₁ h₂ _
      have hz : z / p.span = v / p.span := by
        rw [div_eq_iff (span_pos p)]
        omega
      refine ⟨(h.kept z (hblock z hz) (Or.inr h₁)).symm.trans (hhole z hz), fun r hr hout => ?_⟩
      obtain ⟨-, hdvd⟩ := dvd_of_outside hl h hstop hr (hblock z hz) hout hz
      exact hout (v - 1) (by omega) (by omega) (div_eq_of_dvd hdvd (hbefore.trans hz.symm))
    · -- the hole is that of a table above, which cannot be a page
      obtain ⟨r, -, hrq, -, hr, -⟩ := hole_of_released hl (h.under v) hq hleft n
      rcases advance_cases r with hone | ⟨hrt, -⟩
      · exact absurd ((hstop.trans (hr.trans hone)) ▸ hvp) hno
      · exact absurd (hrq hrt) hqt
  · intro x h₁ h₂
    rcases Nat.lt_or_ge x (base p.span v + p.span) with hx | hx
    · refine hhole x ?_
      rw [div_eq_iff (span_pos p)]
      omega
    · rw [h.kept x (div_eq_of_mem hc (by omega) h₂) (Or.inr h₁)]
      exact hrest x hx h₂

/-- Once nothing is left to unmap, all passes are straight. -/
lemma idle_passes (hl : Levels ls) (t : Table F) (v n free : ℕ) (ht : WF ls t)
    (hpage : PagePool.pageSize ∣ n) (hc : v % coverage ls + n ≤ coverage ls)
    (hidle : ∀ x, v ≤ x → x < v + n → virt2phys ls t x = none) :
    ∀ e ∈ destroyPasses (ops ls).destroy k t v n free,
      Straight (virt2phys ls) (stopSize ls) e.1 e.2.1 e.2.2 := by
  induction k generalizing t v n free with
  | zero => exact fun e he => absurd he List.not_mem_nil
  | succ k ih =>
    rcases Nat.eq_zero_or_pos n with rfl | hpos
    · rw [destroyPasses_zero]
      exact fun e he => absurd he List.not_mem_nil
    have hpass : Destroys ls t v n ((ops ls).destroy t v n free) (stopSize ls t v n) :=
      destroys hl ht (Nat.le_of_dvd hpos hpage)
    rcases destroyPasses_succ (ops ls).destroy k t v free hpos with hlast | ⟨a, ha, hle, hnext⟩
    · rw [hlast, List.forall_mem_singleton]
      exact Or.inr hidle
    rw [hnext, List.forall_mem_cons]
    refine ⟨Or.inr hidle, ?_⟩
    obtain ⟨rfl, hpa⟩ := hpass.dvd a ha
    have hclears := hpass.clears _ ha
    have hapos := hclears.pos
    rcases Nat.eq_zero_or_pos (n - stopSize ls t v n) with hdone | hmore
    · rw [hdone, destroyPasses_zero]
      exact fun e he => absurd he List.not_mem_nil
    refine ih _ _ _ _ hpass.wf (Nat.dvd_sub hpage hpa) ?_ fun x h₁ h₂ => ?_
    · rw [mod_add_eq (by omega)]
      omega
    · rw [hclears.eq_of_none (hidle v le_rfl (by omega)) (div_eq_of_mem hc (by omega) (by omega))]
      exact hidle x (by omega) (by omega)

/-- **The passes are straight** where the tables are as they must be. -/
lemma straight_passes (hl : Levels ls) (hun : Unmappable ls t₀ o size)
    (hc : o % coverage ls + size ≤ coverage ls) (t : Table F) (v n free : ℕ)
    (h : Swept ls t₀ o v t) (hn : v + n = o + size) (hpage : PagePool.pageSize ∣ n)
    (hvp : PagePool.pageSize ∣ v) (hov : (v = o ∧ t = t₀) ∨ o + stopSize ls t₀ o size ≤ v)
    (hle : o ≤ v) (hfirst : 0 < n → Straight (virt2phys ls) (stopSize ls) t v n) :
    ∀ e ∈ destroyPasses (ops ls).destroy k t v n free,
      Straight (virt2phys ls) (stopSize ls) e.1 e.2.1 e.2.2 := by
  induction k generalizing t v n free with
  | zero => exact fun e he => absurd he List.not_mem_nil
  | succ k ih =>
    rcases Nat.eq_zero_or_pos n with rfl | hpos
    · rw [destroyPasses_zero]
      exact fun e he => absurd he List.not_mem_nil
    rcases hfirst hpos with hdvd | hidle
    swap
    · refine idle_passes hl t v n free h.wf hpage ?_ hidle
      obtain ⟨d, rfl⟩ := Nat.exists_eq_add_of_le hle
      rw [mod_add_eq (by omega)]
      omega
    have hpass : Destroys ls t v n ((ops ls).destroy t v n free) (stopSize ls t v n) :=
      destroys hl h.wf (Nat.le_of_dvd hpos hpage)
    rcases destroyPasses_succ (ops ls).destroy k t v free hpos with hlast | ⟨a, ha, hfits, hnext⟩
    · rw [hlast, List.forall_mem_singleton]
      exact Or.inl hdvd
    rw [hnext, List.forall_mem_cons]
    refine ⟨Or.inl hdvd, ?_⟩
    obtain ⟨rfl, hpa⟩ := hpass.dvd a ha
    have hapos := (hpass.clears _ ha).pos
    have hov' : o + stopSize ls t₀ o size ≤ v + stopSize ls t v n := by
      rcases hov with ⟨rfl, rfl⟩ | hov
      · rw [show n = size by omega]
      · omega
    have hstep := h.step hl (Nat.le_of_dvd hpos hpage) hdvd hle hn hc hfits
      (ha ▸ Option.some_ne_none _)
    refine ih _ (v + stopSize ls t v n) (n - stopSize ls t v n) _ hstep (by omega)
      (Nat.dvd_sub hpage hpa) (Nat.dvd_add hvp hpa) (Or.inr hov') (by omega) fun hmore => ?_
    have hvc : (v + stopSize ls t v n) / coverage ls = o / coverage ls :=
      div_eq_of_mem hc (by omega) (by omega)
    have hsame := hstep.kept _ hvc (Or.inr le_rfl)
    have hbefore := h.kept _ hvc (Or.inr (by omega))
    by_cases hs : stopSize ls ((ops ls).destroy t v n free).table (v + stopSize ls t v n)
        (n - stopSize ls t v n) ∣ v + stopSize ls t v n
    · exact Or.inl hs
    obtain ⟨hnone, p, hterm, hspan, hp⟩ := (dvd_next (m := n - stopSize ls t v n) hl h.wf hpass.wf
      rfl rfl (under_destroy ls t v n free _) hdvd (Nat.dvd_add hvp hpa)
      (hstep.gone _ (by omega) (by omega)) (hsame.trans hbefore.symm)).resolve_left hs
    refine Or.inr fun x h₁ h₂ => ?_
    exact none_of_table hl hun hc hstep (by omega) hov' (by omega) (Nat.dvd_add hvp hpa) hnone
      hterm hspan (hp.of_under (h.under _) (hsame.symm.trans hnone)) (hspan ▸ hs) x h₁ (by omega)

/-- A pass in a table that holds nothing which has not been cleared before its last address is not
the last one there. -/
lemma lt_end_of_table (hl : Levels ls) (hb : ∀ p ∈ ls, 0 < p.bits) (h : Swept ls t₀ o v t)
    (hov : v / coverage ls = o / coverage ls) (ho : o < v) (hdvd : stopSize ls t v n ∣ v)
    (hp : TableAt ls t p v) (hno : ¬ Holds ls t₀ o (base p.span v + p.span - 1) p v) :
    v + stopSize ls t v n < base p.span v + p.span := by
  have hle := base_le p.span v
  have hlt := lt_base_add (span_pos p) v
  have hless := hp.stop_lt hl hb h.wf n
  have hpos := (size_stop hl h.wf v n).pos
  have hsp := (hp.stop (n := n) hl h.wf rfl).2
  refine Nat.lt_of_le_of_ne (add_le_base_add (span_pos p) hsp hdvd) fun hlast => ?_
  have hin : ∀ z, z / p.span = v / p.span ↔
      base p.span v ≤ z ∧ z < base p.span v + p.span := fun z => div_eq_iff (span_pos p) z v
  have hblock : ∀ z, z / p.span = v / p.span → z / coverage ls = o / coverage ls :=
    fun z hz => (div_eq_of_dvd (span_dvd_of_mem hl hp.mem) hz).trans hov
  have hstop : ∀ z, v ≤ z → z / p.span = v / p.span →
      z / stopSize ls t v n = v / stopSize ls t v n := by
    intro z h₁ hz
    rw [div_eq_iff hpos, base_of_dvd hdvd]
    exact ⟨h₁, by have := (hin z).mp hz; omega⟩
  have hbefore : (v - 1) / p.span = v / p.span := (hin _).mpr (by omega)
  have hmeets : ∃ z, o ≤ z ∧ z < v ∧ z / p.span = v / p.span :=
    ⟨v - 1, by omega, by omega, hbefore⟩
  have hheld := h.holds p v hp hov fun hout => hout (v - 1) (by omega) (by omega) hbefore
  -- the pass is in a hole, for the last address is not mapped
  have hend : (base p.span v + p.span - 1) / p.span = v / p.span := (hin _).mpr (by omega)
  have hnone : virt2phys ls t (base p.span v + p.span - 1) = none := by
    rw [h.kept _ (hblock _ hend) (by omega)]
    by_contra hmapped
    exact hno ⟨_, hend, Or.inl ⟨hmapped, by omega⟩⟩
  have hhole : virt2phys ls t v = none := by
    by_contra hv
    exact stopSize_shown (n := n) hl h.wf hv (hstop _ (by omega) hend) hnone
  refine hno (hheld.grow hl hp.mem hmeets fun z h₁ _ hz => ?_)
  have hzs := hstop z h₁ hz
  refine ⟨(h.kept z (hblock z hz) (Or.inr h₁)).symm.trans
    (stopSize_hole (m := n) hl h.wf hhole hzs).2, fun q hq hout => ?_⟩
  -- no other table begins with this hole, for it would be longer
  obtain ⟨hqv, hsq⟩ := (h.stays q z (hblock z hz) hq hout).stop hl h.wf hzs
  have hzq := div_eq_of_dvd hsq hzs
  have hqless := hqv.stop_lt hl hb h.wf n
  refine hout (v - 1) (by omega) (by omega) (Eq.trans ?_ hzq.symm)
  rcases span_dvd_or_dvd hl hp.mem hq.mem with hpq | hqp
  · exact div_eq_of_dvd hpq hbefore
  · have hq0 : base q.span v ≠ v := by
      intro hbase
      have := add_le_base_add (span_pos p) hqp (base_eq_iff.mp hbase)
      omega
    have := base_le q.span v
    have := lt_base_add (span_pos q) v
    rw [div_eq_iff (span_pos q)]
    omega

/-- A table is not released before the walk has come into it, nor while a table above it holds
something that has not been cleared. -/
lemma tableAt_of_held (hl : Levels ls) (h : Swept ls t₀ o v t)
    (hov : v / coverage ls = o / coverage ls) (ho : o ≤ v) (hvp : PagePool.pageSize ∣ v)
    (hdvd : stopSize ls t v n ∣ v) (hp : TableAt ls t₀ p v)
    (habove : ∀ q, ¬ q.terminal → TableAt ls t₀ q v →
      Holds ls t₀ o (base p.span v + p.span - 1) q v) : TableAt ls t p v := by
  have hle := base_le p.span v
  have hlt := lt_base_add (span_pos p) v
  by_contra hleft
  obtain ⟨q, hq, -, hpq, hadv, hhole⟩ := hole_of_released hl (h.under v) hp hleft n
  by_cases hqt : q.terminal
  · have hpv : p.span ∣ v := hpq.trans (advance_of_terminal hqt ▸ hadv ▸ hdvd)
    refine hleft (h.stays p v hov hp fun z _ h₂ hz => ?_)
    have := ((div_eq_iff (span_pos p) z v).mp hz).1
    rw [base_of_dvd hpv] at this
    omega
  · have hpage := add_le_base_add (span_pos p) (pageSize_dvd_of_mem hl hp.mem) hvp
    have hpos : 1 < PagePool.pageSize := by decide
    obtain ⟨y, hy, hheld⟩ := habove q hqt hq
    have hyc := (div_eq_of_dvd (span_dvd_of_mem hl hq.mem) hy).trans hov
    obtain ⟨hnone, htables⟩ := hhole y hy
    rcases hheld with ⟨hmapped, hout⟩ | ⟨r, hr, hout⟩
    · exact hmapped ((h.kept y hyc (by omega)).symm.trans hnone)
    · have hry := h.stays r y hyc hr fun z h₁ h₂ => hout z h₁ (by omega)
      exact hout v ho (by omega) (div_eq_of_dvd (htables r hry) hy.symm)

/-- A straight pass stays in front of the end of a table that is emptied before it is walked to its
end. -/
lemma lt_end_of_straight {w : ℕ} (hl : Levels ls) (hb : ∀ p ∈ ls, 0 < p.bits)
    (h : Swept ls t₀ o v t) (hov : v / coverage ls = o / coverage ls)
    (how : w / coverage ls = o / coverage ls) (ho : o < v) (hvp : PagePool.pageSize ∣ v)
    (hdvd : stopSize ls t v n ∣ v) (hterm : p.terminal) (hp : TableAt ls t₀ p w)
    (hno : ¬ Holds ls t₀ o (base p.span w + p.span - 1) p w)
    (habove : ∀ q, ¬ q.terminal → TableAt ls t₀ q w →
      Holds ls t₀ o (base p.span w + p.span - 1) q w) (hlt : v < base p.span w + p.span) :
    v + stopSize ls t v n < base p.span w + p.span := by
  have hle := base_le p.span w
  have hwlt := lt_base_add (span_pos p) w
  rcases Nat.lt_or_ge v (base p.span w) with hvb | hvb
  · by_contra hend
    have hout : Outside o v p w := fun z _ h₂ hz => by
      have := (div_eq_iff (span_pos p) z w).mp hz
      omega
    have hstop : w / stopSize ls t v n = v / stopSize ls t v n := by
      rw [div_eq_iff (size_stop hl h.wf v n).pos, base_of_dvd hdvd]
      omega
    have hsp := ((h.stays p w how hp hout).stop hl h.wf hstop).2
    have := (div_eq_iff (span_pos p) v w).mp (div_eq_of_dvd hsp hstop).symm
    omega
  · have hvw : v / p.span = w / p.span := (div_eq_iff (span_pos p) v w).mpr ⟨hvb, hlt⟩
    have hbase : base p.span v = base p.span w := congrArg (· * p.span) hvw
    rw [← hbase] at hno habove ⊢
    have habove' : ∀ q, ¬ q.terminal → TableAt ls t₀ q v →
        Holds ls t₀ o (base p.span v + p.span - 1) q v := by
      intro q hq hqv
      have hwq : w / q.span = v / q.span :=
        div_eq_of_dvd (span_dvd_of_terminal hl hp.mem hqv.mem hterm hq) hvw.symm
      exact (habove q hq (hqv.congr hl hwq)).mono dvd_rfl hwq
    have hleft := tableAt_of_held hl h hov ho.le hvp hdvd (hp.congr hl hvw) habove'
    exact lt_end_of_table hl hb h hov ho hdvd hleft
      fun hheld => hno (hheld.mono dvd_rfl hvw)

/-- **Straight passes** that find something behind such a table do not come to its end. -/
lemma end_le_of_straight {w x : ℕ} (hl : Levels ls) (hb : ∀ p ∈ ls, 0 < p.bits)
    (hc : o % coverage ls + size ≤ coverage ls) (hterm : p.terminal) (hp : TableAt ls t₀ p w)
    (how : w / coverage ls = o / coverage ls)
    (hbegin : o + stopSize ls t₀ o size < base p.span w + p.span)
    (hno : ¬ Holds ls t₀ o (base p.span w + p.span - 1) p w)
    (habove : ∀ q, ¬ q.terminal → TableAt ls t₀ q w →
      Holds ls t₀ o (base p.span w + p.span - 1) q w)
    (hx : base p.span w + p.span ≤ x) (hxo : x < o + size) (hmapped : virt2phys ls t₀ x ≠ none)
    (t : Table F) (v n free : ℕ) (h : Swept ls t₀ o v t) (hn : v + n = o + size)
    (hpage : PagePool.pageSize ∣ n) (hk : n ≤ k * PagePool.pageSize) (hvp : PagePool.pageSize ∣ v)
    (hov : (v = o ∧ t = t₀) ∨ (o < v ∧ o + stopSize ls t₀ o size ≤ v)) (hle : o ≤ v)
    (hok : (destroyLoop (ops ls).destroy k t v n free).ok = true)
    (hall : ∀ e ∈ destroyPasses (ops ls).destroy k t v n free,
      Straight (virt2phys ls) (stopSize ls) e.1 e.2.1 e.2.2) :
    base p.span w + p.span ≤ v := by
  induction k generalizing t v n free with
  | zero => omega
  | succ k ih =>
    by_contra hlt
    have hpos : 0 < n := by omega
    have hvc : v / coverage ls = o / coverage ls := div_eq_of_mem hc hle (by omega)
    have hpass : Destroys ls t v n ((ops ls).destroy t v n free) (stopSize ls t v n) :=
      destroys hl h.wf (Nat.le_of_dvd hpos hpage)
    have hxc : x / coverage ls = o / coverage ls := div_eq_of_mem hc (by omega) hxo
    have hstill : virt2phys ls t x ≠ none := by
      rw [h.kept x hxc (Or.inr (by omega))]
      exact hmapped
    rw [destroyLoop, if_neg hpos.ne'] at hok
    rw [destroyPasses, if_neg hpos.ne', List.forall_mem_cons] at hall
    have hdvd : stopSize ls t v n ∣ v :=
      hall.1.resolve_right fun hidle =>
        hstill (hidle x (show v ≤ x by omega) (show x < v + n by omega))
    cases ha : ((ops ls).destroy t v n free).advance with
    | none =>
      dsimp only at hok
      rw [ha] at hok
      cases hok
    | some a =>
      dsimp only at hok hall
      rw [ha] at hok hall
      obtain ⟨rfl, hpa⟩ := hpass.dvd a ha
      have hclears := hpass.clears _ ha
      have hapos := hclears.pos
      have hfits : stopSize ls t v n ≤ n := by
        by_contra hlong
        have hxv : x / stopSize ls t v n = v / stopSize ls t v n := by
          rw [div_eq_iff hapos, base_of_dvd hdvd]
          omega
        refine hlong (hclears.shown fun hv => ?_).1
        exact hstill (hclears.hole hv x hxv)
      have hless : v + stopSize ls t v n < base p.span w + p.span := by
        rcases hov with ⟨rfl, rfl⟩ | ⟨ho, -⟩
        · rwa [show size = n by omega] at hbegin
        · exact lt_end_of_straight hl hb h hvc how ho hvp hdvd hterm hp hno habove (by omega)
      have hstep := h.step hl (Nat.le_of_dvd hpos hpage) hdvd hle hn hc hfits
        (ha ▸ Option.some_ne_none _)
      dsimp only at hok hall
      rw [if_neg (by omega)] at hok hall
      refine absurd hless (Nat.not_lt.mpr (ih _ (v + stopSize ls t v n) (n - stopSize ls t v n) _
        hstep (by omega) (Nat.dvd_sub hpage hpa)
        (left_le hk hpa hapos) (Nat.dvd_add hvp hpa) (Or.inr ⟨by omega, ?_⟩) (by omega) hok hall.2))
      rcases hov with ⟨rfl, rfl⟩ | ⟨-, hov⟩
      · rw [show n = size by omega]
      · omega

end FpMemSched.StraightPasses
