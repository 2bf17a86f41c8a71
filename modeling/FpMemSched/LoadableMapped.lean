import FpMemSched.CellOwned

/-!
What a successful `cell_set_loadable` means when mappings may fail.

The flag of the cell is set before its regions are mapped, and a call that finds the flag set
does nothing and succeeds. So the first of two calls may fail and the second succeed with regions
missing. A `cell_start` in between clears the flag, and then a call maps everything again.
-/

namespace FpMemSched.LoadableMapped

open FpMemSched.Coloring FpMemSched.CellMemory FpMemSched.CellOwned
open FpMemSched.Lib.Spaces FpMemSched.Lib.Runs

/-! ### Mapping with failures -/

/-- The root cell stays identity-mapped and loses nothing; if the operation succeeds, it has the
addresses of `Q`. -/
def Opens (s : Maps) (o : Maps × ℤ) (Q : ℕ → Prop) : Prop :=
  ∀ P, IdOn P s.root → ∃ P', IdOn P' o.1.root ∧ (∀ x, P x → P' x) ∧ (o.2 = 0 → ∀ x, Q x → P' x)

variable {k : Context} {s : Maps}

lemma mapRoot_opens {m : Memory} (hback : m.flags.commRegion = false)
    (hid : m.virtStart = m.physStart) : Opens s (mapRoot k m s) (Lies m) := by
  intro P h
  cases hf : k.faults.map s.calls with
  | none =>
    have hmap : mapRoot k m s = ({ s with
        root := s.root.map m.physStart m.physStart m.size, calls := s.calls + 1 }, 0) := by
      simp [mapRoot, archMapMemoryRegion, hf, hback, hid]
    rw [hmap]
    exact ⟨_, h.map _ _, fun x hx => Or.inl hx, fun _ x hx => Or.inr hx⟩
  | some n =>
    have hmap : mapRoot k m s = ({ s with
        root := s.root.map m.physStart m.physStart (min n m.size), calls := s.calls + 1 },
        eNomem) := by
      simp [mapRoot, archMapMemoryRegion, hf, hback, hid]
    rw [hmap]
    exact ⟨_, h.map _ _, fun x hx => Or.inl hx, fun h0 => by simp [eNomem] at h0⟩

lemma remapLoop_opens {m : Memory} (hm : Range m) {rs : List Memory}
    (hrs : ∀ r ∈ rs, RootRange r) :
    Opens s (remapLoop k .abortOnError m rs 0 s) fun x => Lies m x ∧ ∃ r ∈ rs, Lies r x := by
  induction rs generalizing s with
  | nil => exact fun P h => ⟨P, h, fun _ hx => hx, fun _ x hx => by simp at hx⟩
  | cons r rs ih =>
    intro P h
    have hr := hrs r List.mem_cons_self
    have hrest := fun r hr => hrs r (List.mem_cons_of_mem _ hr)
    rw [remapLoop]
    cases hover : overlap m r with
    | none =>
      obtain ⟨P', hP', hsub, hall⟩ := ih hrest P h
      refine ⟨P', hP', hsub, fun hok x hx => ?_⟩
      obtain ⟨hmx, r', hr', hrx⟩ := hx
      rcases List.mem_cons.mp hr' with rfl | hr'
      · exact absurd ⟨hmx, hrx⟩ (overlap_none hm hr hover x)
      · exact hall hok x ⟨hmx, r', hr', hrx⟩
    | some part =>
      obtain ⟨hpage, hback, hid, hlies⟩ := overlap_some hm hr hover
      obtain ⟨P₁, hP₁, hsub₁, hall₁⟩ := mapRoot_opens (k := k) (s := s) hback hid P h
      simp only [hpage, Bool.false_eq_true, if_false]
      by_cases hok : (mapRoot k part s).2 = 0
      · simp only [hok, ne_eq, not_true_eq_false, false_and, if_false]
        obtain ⟨P', hP', hsub, hall⟩ := ih hrest P₁ hP₁
        refine ⟨P', hP', fun x hx => hsub x (hsub₁ x hx), fun hok' x hx => ?_⟩
        obtain ⟨hmx, r', hr', hrx⟩ := hx
        rcases List.mem_cons.mp hr' with rfl | hr'
        · exact hsub x (hall₁ hok x ((hlies x).mpr ⟨hmx, hrx⟩))
        · exact hall hok' x ⟨hmx, r', hr', hrx⟩
      · simp only [ne_eq, hok, not_false_eq_true, and_self, if_true]
        exact ⟨P₁, hP₁, hsub₁, fun h0 => h0.elim⟩

variable {p : Platform} {commPage : ℕ} {faults : Faults}

lemma visit_opens (hplat : ∀ r ∈ p.rootRegions, RootRange r) {m : Memory}
    (hm : m.flags.loadable = true → Range m) :
    Opens s (visit (manageFunctions (p.context commPage faults) .abortOnError) .loadable m s)
      fun x => m.flags.loadable = true ∧ Lies m x ∧ InRoot p x := by
  intro P h
  by_cases hl : m.flags.loadable = true
  · simp only [visit, hl, if_true, true_and]
    exact remapLoop_opens (hm hl) hplat P h
  · have ho : visit (manageFunctions (p.context commPage faults) .abortOnError) .loadable m s =
        (s, 0) := by
      simp [visit, hl]
    rw [ho]
    exact ⟨P, h, fun _ hx => hx, fun _ x hx => absurd hx.1 hl⟩

/-- A loop that ends with the first error opens all or fails. -/
lemma untilError_opens {α : Type*} {body : α → Maps → Maps × ℤ} {Q : α → ℕ → Prop} {l : List α}
    (hbody : ∀ a ∈ l, ∀ s, Opens s (body a s) (Q a)) :
    Opens s (untilError body l s) fun x => ∃ a ∈ l, Q a x := by
  induction l generalizing s with
  | nil => exact fun P h => ⟨P, h, fun _ hx => hx, fun _ x hx => by simp at hx⟩
  | cons a l ih =>
    intro P h
    obtain ⟨P₁, hP₁, hsub₁, hall₁⟩ := hbody a List.mem_cons_self s P h
    rw [untilError]
    by_cases hok : (body a s).2 = 0
    · simp only [hok, ne_eq, not_true_eq_false, if_false]
      obtain ⟨P', hP', hsub, hall⟩ := ih (fun b hb => hbody b (List.mem_cons_of_mem _ hb)) P₁ hP₁
      refine ⟨P', hP', fun x hx => hsub x (hsub₁ x hx), fun hok' x hx => ?_⟩
      obtain ⟨b, hb, hbx⟩ := hx
      rcases List.mem_cons.mp hb with rfl | hb
      · exact hsub x (hall₁ hok x hbx)
      · exact hall hok' x ⟨b, hb, hbx⟩
    · simp only [ne_eq, hok, not_false_eq_true, if_true]
      exact ⟨P₁, hP₁, hsub₁, fun h0 => h0.elim⟩

lemma loadable_opens (hplat : ∀ r ∈ p.rootRegions, RootRange r) {cfg : CellConfig}
    (hcfg : ∀ m ∈ regions p cfg, m.flags.loadable = true → Range m) :
    Opens s (eachRegion (p.context commPage faults) p cfg .abortOnError .loadable s)
      fun x => ∃ m ∈ regions p cfg, m.flags.loadable = true ∧ Lies m x ∧ InRoot p x := by
  rw [eachRegion_eq]
  exact untilError_opens fun m hm s => visit_opens hplat (hcfg m hm)

/-! ### Calls on one cell -/

/-- All that is loadable and the root cell's is mapped in the root cell. -/
def Mapped (p : Platform) (t : Sys) (c : LiveCell) : Prop :=
  ∀ m ∈ regions p c.config, m.flags.loadable = true → ∀ x, Lies m x → InRoot p x →
    t.root.Reaches x

/-- The commands, and whether the last `cell_set_loadable` that found the cell failed and no
`cell_start` has succeeded since. -/
def tracked (p : Platform) (t : Sys × Bool) (a : Command) : Option (Sys × Bool) :=
  let o := perform p t.1 a
  some (o.1, match a with
    | .setLoadable _ early _ => if early = 0 then decide (o.2 ≠ 0) else t.2
    | .start _ _ _ => if o.2 = 0 then false else t.2
    | _ => t.2)

/-- A call of `cell_set_loadable` or `cell_start` on the cell in which only mappings fail, and
which does not try again what has failed. -/
def NoRetry (id : ℕ) (t : Sys × Bool) : Command → Prop
  | .setLoadable i early _ => i = id ∧ (early = 0 → t.2 = false)
  | .start i _ faults => i = id ∧ ∀ n, faults.unmap n = false
  | _ => False

/-- The cell before and after the calls. -/
structure Ready (p : Platform) (id : ℕ) (t : Sys) : Prop where
  identity : ∃ P, IdOn P t.root
  ids : (t.cells.map fun c => c.config.id).Nodup
  ranges : ∀ c ∈ t.cells, c.config.id = id → ∀ m ∈ regions p c.config, Range m

/-- The flag means that all is mapped, unless the last call failed. -/
structure Inv (p : Platform) (id : ℕ) (t : Sys × Bool) : Prop where
  ready : Ready p id t.1
  mapped : t.2 = false → ∀ c ∈ t.1.cells, c.config.id = id → c.loadable = true → Mapped p t.1 c

variable {t : Sys} {id : ℕ}

lemma Ready.cell_eq (h : Ready p id t) {c c' : LiveCell} (hc : c ∈ t.cells) (hc' : c' ∈ t.cells)
    (hid : c.config.id = c'.config.id) : c = c' :=
  List.inj_on_of_nodup_map h.ids hc hc' hid

lemma Ready.setLoadable (h : Ready p id t) {sp : Space} {b : Bool} {P : ℕ → Prop}
    (hP : IdOn P sp) : Ready p id (t.setLoadable id sp b) := by
  refine ⟨⟨P, hP⟩, ?_, fun c hc hid => ?_⟩
  · rw [map_setLoadable id sp b CellConfig.id]
    exact h.ids
  · obtain ⟨c', hc', ⟨hid', rfl⟩ | ⟨hid', rfl⟩⟩ := mem_setLoadable hc
    · exact h.ranges c' hc' hid'
    · exact h.ranges c hc' hid

/-- What a call of `cell_set_loadable` may do to the cell it finds. -/
lemma setLoadable_cases (hplat : ∀ r ∈ p.rootRegions, RootRange r) (h : Ready p id t) (early : ℤ)
    (faults : Faults) :
    (cellSetLoadable p id early faults t).1 = t ∧
      ((cellSetLoadable p id early faults t).2 = 0 → ∃ c ∈ t.cells, c.config.id = id ∧
        c.loadable = true ∧ early = 0) ∨
    ∃ sp P, IdOn P sp ∧ (cellSetLoadable p id early faults t).1 = t.setLoadable id sp true ∧
      early = 0 ∧ ((cellSetLoadable p id early faults t).2 = 0 → ∀ c ∈ t.cells, c.config.id = id →
        ∀ m ∈ regions p c.config, m.flags.loadable = true → ∀ x, Lies m x → InRoot p x → P x) := by
  unfold cellSetLoadable
  cases hpro : cellManagementPrologue id early t with
  | error err =>
    refine Or.inl ⟨rfl, fun h0 => ?_⟩
    exact absurd h0 (prologue_error hpro)
  | ok c =>
    obtain ⟨hc, hid⟩ := prologue_ok hpro
    have hearly : early = 0 := by
      by_contra hne
      simp [cellManagementPrologue, hne] at hpro
    by_cases hl : c.loadable = true
    · simp only [hl, if_true]
      exact Or.inl ⟨trivial, fun _ => ⟨c, hc, hid, hl, hearly⟩⟩
    · simp only [hl]
      obtain ⟨P, hP⟩ := h.identity
      obtain ⟨P', hP', -, hall⟩ := loadable_opens (s := ⟨t.root, c.space, 0⟩) hplat
        (fun m hm _ => h.ranges c hc hid m hm) P hP
      refine Or.inr ⟨_, P', hP', rfl, hearly, fun hok c' hc' hid' m hm hml x hx hin => ?_⟩
      obtain rfl := h.cell_eq hc hc' (hid.trans hid'.symm)
      exact hall hok x ⟨m, hm, hml, hx, hin⟩

/-- A call that succeeds leaves all mapped, if the flag meant so before. -/
lemma setLoadable_mapped (hplat : ∀ r ∈ p.rootRegions, RootRange r) (h : Ready p id t) {early : ℤ}
    {faults : Faults}
    (hflag : early = 0 → ∀ c ∈ t.cells, c.config.id = id → c.loadable = true → Mapped p t c)
    (hok : (cellSetLoadable p id early faults t).2 = 0) {c : LiveCell}
    (hc : c ∈ (cellSetLoadable p id early faults t).1.cells) (hid : c.config.id = id) :
    Mapped p (cellSetLoadable p id early faults t).1 c := by
  rcases setLoadable_cases hplat h early faults with
    ⟨hsame, hfound⟩ | ⟨sp, P, hP, hset, -, hall⟩
  · obtain ⟨c', hc', hid', hl, hearly⟩ := hfound hok
    rw [hsame] at hc ⊢
    obtain rfl := h.cell_eq hc hc' (hid.trans hid'.symm)
    exact hflag hearly c hc hid hl
  · rw [hset] at hc ⊢
    obtain ⟨c', hc', ⟨hid', rfl⟩ | ⟨hid', rfl⟩⟩ := mem_setLoadable hc
    · exact fun m hm hml x hx hin =>
        (hP.reaches_iff x).mpr (hall hok c' hc' hid' m hm hml x hx hin)
    · exact absurd hid hid'

lemma inv_setLoadable (hplat : ∀ r ∈ p.rootRegions, RootRange r) {failed : Bool} {early : ℤ}
    {faults : Faults} (h : Inv p id (t, failed)) (hn : early = 0 → failed = false) :
    Inv p id ((cellSetLoadable p id early faults t).1,
      if early = 0 then decide ((cellSetLoadable p id early faults t).2 ≠ 0) else failed) := by
  have hready := h.ready
  rcases setLoadable_cases hplat hready early faults with
    ⟨hsame, -⟩ | ⟨sp, P, hP, hset, hearly, -⟩
  · rw [hsame]
    refine ⟨hready, fun hfalse => ?_⟩
    by_cases hearly : early = 0
    · exact h.mapped (hn hearly)
    · rw [if_neg hearly] at hfalse
      exact h.mapped hfalse
  · refine ⟨by rw [hset]; exact hready.setLoadable hP, fun hfalse c hc hid _ => ?_⟩
    rw [if_pos hearly] at hfalse
    have hok : (cellSetLoadable p id early faults t).2 = 0 := by simpa using hfalse
    exact setLoadable_mapped hplat hready (fun he => h.mapped (hn he)) hok hc hid

lemma inv_start {failed : Bool} {early : ℤ} {faults : Faults} (h : Inv p id (t, failed))
    (hf : ∀ n, faults.unmap n = false) :
    Inv p id ((cellStart p id early faults t).1,
      if (cellStart p id early faults t).2 = 0 then false else failed) := by
  have hready := h.ready
  unfold cellStart
  cases hpro : cellManagementPrologue id early t with
  | error err =>
    simp only [prologue_error hpro, if_false]
    exact h
  | ok c =>
    obtain ⟨hc, hid⟩ := prologue_ok hpro
    by_cases hl : c.loadable = true
    · obtain ⟨P, hP⟩ := hready.identity
      obtain ⟨hok, hroot⟩ := start_moves (s := ⟨t.root, c.space, 0⟩) c.config c.commPage
        .abortOnError hf (hready.ranges c hc hid) hP
      simp only [hl, if_true, hok, ne_eq, not_true_eq_false, if_false]
      refine ⟨hready.setLoadable hroot, fun _ c' hc' hid' hl' => ?_⟩
      obtain ⟨c'', -, ⟨-, rfl⟩ | ⟨hne, rfl⟩⟩ := mem_setLoadable hc'
      · simp at hl'
      · exact absurd hid' hne
    · simp only [hl]
      refine ⟨hready, fun _ c' hc' hid' hl' => ?_⟩
      obtain rfl := hready.cell_eq hc hc' (hid.trans hid'.symm)
      exact absurd hl' hl

lemma inv_step (hplat : ∀ r ∈ p.rootRegions, RootRange r) {u u' : Sys × Bool} {a : Command}
    (h : Inv p id u) (ha : NoRetry id u a) (hu : tracked p u a = some u') : Inv p id u' := by
  obtain rfl := Option.some.inj hu
  cases a with
  | create cfg commPage early faults => exact ha.elim
  | destroy i early faults => exact ha.elim
  | setLoadable i early faults =>
    obtain ⟨rfl, hn⟩ := ha
    exact inv_setLoadable hplat h hn
  | start i early faults =>
    obtain ⟨rfl, hf⟩ := ha
    exact inv_start h hf

/-- **Loadable means mapped.** In every sequence of `cell_set_loadable` and `cell_start` on a cell
in which no call tries again what has failed, a `cell_set_loadable` that succeeds leaves all
loadable memory of the cell mapped in the root cell. -/
theorem loadable_mapped (p : Platform) (hplat : ∀ r ∈ p.rootRegions, RootRange r) (id : ℕ)
    (s₀ : Sys) (hready : Ready p id s₀)
    (hstart : ∀ c ∈ s₀.cells, c.config.id = id → c.loadable = false)
    (as : List Command) (early : ℤ) (faults : Faults) (u : Sys × Bool)
    (ha : Along (tracked p) (NoRetry id) (s₀, false) (as ++ [.setLoadable id early faults]))
    (he : exec (tracked p) (s₀, false) as = some u)
    (hok : (cellSetLoadable p id early faults u.1).2 = 0) :
    ∀ c ∈ (cellSetLoadable p id early faults u.1).1.cells, c.config.id = id →
      Mapped p (cellSetLoadable p id early faults u.1).1 c := by
  have hinit : Inv p id (s₀, false) := by
    refine ⟨hready, fun _ c hc hid hl => ?_⟩
    rw [hstart c hc hid] at hl
    simp at hl
  have h : Inv p id u := exec_inv_along (fun _ _ _ h ha hu => inv_step hplat h ha hu) hinit
    (along_take ha) he
  have hlast := (along_append ha he).1
  intro c hc hid
  exact setLoadable_mapped hplat h.ready (fun hearly => h.mapped (hlast.2 hearly)) hok hc hid

/-- States that the commands reach without failures are ready. -/
lemma ready_of_inv (h : CellOwned.Inv p t) (id : ℕ) : Ready p id t :=
  ⟨⟨_, h.root⟩, h.ids, fun c hc _ m hm => (h.ranges c hc m hm).toRange⟩

/-- A cell has just been created. -/
def created : Sys := (cellCreate board twoColors 0x21000 0 noFaults (init board)).1

lemma created_ready : Ready board 1 created :=
  ready_of_inv (inv_create 0x21000 (inv_init board_root) fun _ _ => twoColors_fresh) 1

/-- The first mapping fails at once. -/
def failFirst : Faults := ⟨fun n => if n = 0 then some 0 else none, fun _ => false⟩

/-- A call fails, the cell is started, and the next call succeeds. -/
theorem loadable_mapped_restarted :
    ∃ u, exec (tracked board) (created, false)
        [.setLoadable 1 0 failFirst, .start 1 0 noFaults] = some u ∧
      (cellSetLoadable board 1 0 noFaults u.1).2 = 0 ∧
      ∀ c ∈ (cellSetLoadable board 1 0 noFaults u.1).1.cells, c.config.id = 1 →
        Mapped board (cellSetLoadable board 1 0 noFaults u.1).1 c := by
  refine ⟨_, rfl, rfl, loadable_mapped board board_root 1 created created_ready (fun c hc _ => ?_)
    [.setLoadable 1 0 failFirst, .start 1 0 noFaults] 0 noFaults _ ?_ rfl rfl⟩
  · obtain rfl := List.mem_singleton.mp hc
    rfl
  · refine ⟨⟨rfl, fun _ => rfl⟩, fun u hu => ⟨⟨rfl, noFaults_unmap⟩, fun v hv => ?_⟩⟩
    obtain rfl := Option.some.inj hu
    obtain rfl := Option.some.inj hv
    exact ⟨⟨rfl, fun _ => rfl⟩, fun _ _ => trivial⟩

/-- A call fails, and the next succeeds without having mapped anything. -/
theorem loadable_unmapped :
    ∃ s c, exec (step board) created [.setLoadable 1 0 failFirst] = some s ∧
      (cellSetLoadable board 1 0 noFaults s).2 = 0 ∧
      c ∈ (cellSetLoadable board 1 0 noFaults s).1.cells ∧ c.config.id = 1 ∧
      ¬ Mapped board (cellSetLoadable board 1 0 noFaults s).1 c := by
  refine ⟨_, _, rfl, rfl, List.mem_cons_self, rfl, fun hmapped => ?_⟩
  have hregion : ⟨0x4000, 0, 0x1000, ⟨true, false, true, false⟩⟩ ∈ regions board twoColors := by
    decide
  obtain ⟨g, hg⟩ := hmapped _ hregion rfl 0x4000 ⟨by decide, by decide⟩
    ⟨_, List.mem_singleton.mpr rfl, by decide, by decide⟩
  change Space.map (Space.unmap (Space.unmap (Space.unmap (Space.map (fun _ => none) 0 0 0x10000)
    0x4000 0x1000) 0x9000 0x1000) 0xb000 0x1000) 0x4000 0x4000 0 g = some 0x4000 at hg
  simp only [Space.map, Space.unmap] at hg
  split_ifs at hg with h₁ h₂ h₃ h₄
  · unfold In at h₁
    omega
  · have := Option.some.inj hg
    unfold In at h₄
    omega

end FpMemSched.LoadableMapped
