import FpMemSched.Ivshmem

/-!
Where the doorbells of the shared memory devices lead.

The interrupt at an end of a link stays when the device goes: `ivshmem_reset` clears the registers,
not `arch.irq_id`. So it is checked for the cell it was set by, and raised for whichever has the end
later.
-/

namespace FpMemSched.Ivshmem

open FpMemSched.Lib.Runs

/-! ### Interrupts -/

/-- The interrupt belongs to the cell of the device: the one its pin is wired to, or an SPI that
the cell has. -/
def Legit (M : Machine) (d : Dev) (irq : ℕ) : Prop :=
  if M.numMsixVectors d = 0 then irq = intxIrq M d else 32 ≤ irq ∧ M.irqInCell d.1 irq = true

/-- An end without a device raises nothing, one with a device an interrupt of its cell. -/
def EndOk (M : Machine) (e : Endpoint) : Prop :=
  match e.device with
  | none => e.irqId = 0
  | some d => e.irqId ≠ 0 → Legit M d e.irqId

structure Sound (M : Machine) (s : Sys) : Prop where
  ends : ∀ a ∈ s.ivshmemList, ∀ i, EndOk M (s.ep a i)
  leaves : ∀ d a i, s.task = .detaching d a i → (s.ep a i).irqId = 0

/-- A device that is detached has its interrupt turned off. -/
def LeavesOff (s : Sys) : Act → Prop
  | .ivshmemExit d => ∀ a i, (s.dev d).endpoint = some (a, i) → (s.ep a i).irqId = 0
  | _ => True

section

variable {M : Machine} {s : Sys} {d : Dev} {a : ℕ} {i : Bool}

lemma access_legit {x : Device} {e : Endpoint} (h : e.irqId ≠ 0 → Legit M d e.irqId) (b : Access) :
    (access M d x e b).1.irqId ≠ 0 → Legit M d (access M d x e b).1.irqId := by
  have hm : ∀ (x : Device) (e : Endpoint), (e.irqId ≠ 0 → Legit M d e.irqId) →
      (archIvshmemUpdateMsix M d x e).irqId ≠ 0 →
      Legit M d (archIvshmemUpdateMsix M d x e).irqId := by
    intro x e h
    unfold archIvshmemUpdateMsix
    split_ifs with h0 hmask hbad
    · exact h
    · exact fun hne => absurd rfl hne
    · exact h
    · intro _
      rw [not_or, Nat.not_lt, Bool.not_eq_false] at hbad
      rw [Legit, if_neg h0]
      exact hbad
  cases b with
  | intxCtrl b =>
    simp only [access, archIvshmemUpdateIntx]
    by_cases hv : M.numMsixVectors d ≠ 0
    · rw [if_pos hv]
      exact h
    · rw [if_neg hv]
      cases b
      · exact fun hne => absurd rfl hne
      · intro _
        rw [Legit, if_pos (not_not.mp hv)]
        rfl
  | dbell | rstate | lstate v => exact h
  | vectorData v => exact hm _ e h
  | vectorCtrl m => exact hm _ e h
  | command m =>
    simp only [access]
    split_ifs
    · exact hm x _ h
    · exact h
  | msixControl m n =>
    simp only [access]
    split_ifs
    · exact hm x _ h
    · exact h

lemma ends_setEp (h : ∀ a ∈ s.ivshmemList, ∀ i, EndOk M (s.ep a i)) {e : Endpoint}
    (he : a ∈ s.ivshmemList → EndOk M e) :
    ∀ b ∈ s.ivshmemList, ∀ j, EndOk M ((s.setEp a i e).ep b j) := by
  intro b hb j
  rw [ep_setEp]
  split_ifs with hbj
  · exact he (hbj.1 ▸ hb)
  · exact h b hb j

lemma sound_attach (h : ∀ b ∈ s.ivshmemList, ∀ j, EndOk M (s.ep b j))
    (hi : (s.ep a i).device = none) (ha : a ∈ s.ivshmemList) : Sound M (attach s d a i) := by
  refine ⟨ends_setEp h fun _ => ?_, fun d' b j hc => ?_⟩
  · have hz := h a ha i
    rw [EndOk, hi] at hz
    exact fun hne => absurd hz hne
  · have ht : (attach s d a i).task = .linking d a i ∨ (attach s d a i).task = .resetting d a i := by
      simp only [attach]
      split_ifs
      · exact Or.inl rfl
      · exact Or.inr rfl
    rcases ht with ht | ht <;> exact absurd (ht.symm.trans hc) Task.noConfusion

lemma sound_ivshmemInit {s' : Sys} {page : Option ℕ} (h : Sound M s)
    (hs : ivshmemInit M s d page = some s') : Sound M s' := by
  unfold ivshmemInit at hs
  rcases hm : M.shmem d with _ | mem
  · simp only [hm, Option.some.injEq] at hs
    exact hs ▸ h
  simp only [hm] at hs
  rcases hf : s.ivshmemList.find? fun a => decide ((s.page a).bdf = M.bdf d) with _ | a
  · simp only [hf] at hs
    rcases page with _ | a
    · exact Option.some.inj hs ▸ h
    simp only at hs
    split_ifs at hs with ha
    obtain rfl := Option.some.inj hs
    refine sound_attach (fun b hb j => ?_) (by rw [ep_push_self]; rfl) List.mem_cons_self
    rcases push_cases ha hb j with ⟨rfl, -⟩ | ⟨hb, hne⟩
    · rw [ep_push_self]
      rfl
    · rw [ep_push_of_ne hne]
      exact h.ends b hb j
  · simp only [hf] at hs
    split_ifs at hs with hbusy
    · exact Option.some.inj hs ▸ h
    rcases hp : (s.ep a !(s.ep a false).device.isSome).device with _ | peer
    · simp only [hp, reduceCtorEq] at hs
    simp only [hp] at hs
    split_ifs at hs with hmis
    · exact Option.some.inj hs ▸ h
    obtain rfl := Option.some.inj hs
    exact sound_attach h.ends (by simpa using hbusy) (List.mem_of_find?_eq_some hf)

lemma sound_reset (h : Sound M s) : Sound M (reset M s d a i) := by
  have hset : ∀ {e : Endpoint}, e.device = (s.ep a i).device → e.irqId = (s.ep a i).irqId →
      Sound M (s.setEp a i e) := by
    intro e hd hi
    refine ⟨ends_setEp h.ends fun ha => ?_, fun d' b j ht => ?_⟩
    · have := h.ends a ha i
      rw [EndOk] at this ⊢
      rwa [hd, hi]
    · rw [ep_setEp]
      split_ifs with hbj
      · rw [hi, ← hbj.1, ← hbj.2]
        exact h.leaves d' b j ht
      · exact h.leaves d' b j ht
  unfold reset
  split_ifs
  · exact hset rfl rfl
  · obtain ⟨h₁, h₂⟩ := hset (e := { s.ep a i with
      state := 0, busMaster := false, msixEnable := false, msixMask := false }) rfl rfl
    exact ⟨h₁, h₂⟩

lemma sound_step {s' : Sys} {act : Act} (hi : Inv M s) (h : Sound M s) (hc : LeavesOff s act)
    (hs : step M s act = some s') : Sound M s' := by
  cases act with
  | ivshmemInit d page =>
    simp only [step, Option.ite_none_right_eq_some] at hs
    exact sound_ivshmemInit h hs.2
  | ivshmemExit d =>
    simp only [step, Option.ite_none_right_eq_some, Option.map_eq_some_iff] at hs
    obtain ⟨ht, ⟨a, i⟩, hend, rfl⟩ := hs
    unfold ivshmemExit
    split_ifs with hr
    · refine ⟨ends_setEp h.ends fun ha => h.ends a ha !i, fun d' b j hd => ?_⟩
      obtain ⟨-, rfl, rfl⟩ := Task.detaching.inj hd
      change ((s.setEp a (!i) _).ep a i).irqId = 0
      rw [ep_setEp, if_neg (by simp)]
      exact hc a i hend
    · refine ⟨fun b hb j => h.ends b (List.mem_of_mem_erase hb) j, fun d' b j hd => ?_⟩
      exact absurd (ht.symm.trans hd) Task.noConfusion
  | pciReset d =>
    simp only [step, Option.ite_none_right_eq_some, Option.map_eq_some_iff] at hs
    obtain ⟨-, p, -, rfl⟩ := hs
    exact sound_reset h
  | advance =>
    rcases ht : s.task with _ | ⟨d, a, i⟩ | ⟨d, a, i⟩ | ⟨d, a, i⟩ <;>
      simp only [step, advance, ht, reduceCtorEq, Option.some.injEq] at hs <;> subst hs
    · exact ⟨ends_setEp h.ends fun ha => h.ends a ha !i, fun _ _ _ hd => Task.noConfusion hd⟩
    · exact ⟨(sound_reset h).ends, fun _ _ _ hd => Task.noConfusion hd⟩
    · exact ⟨ends_setEp h.ends fun _ => h.leaves d a i ht, fun _ _ _ hd => Task.noConfusion hd⟩
  | access d x =>
    simp only [step, Option.ite_none_left_eq_some, Option.map_eq_some_iff] at hs
    obtain ⟨hno, ⟨a, i⟩, hend, rfl⟩ := hs
    obtain ⟨ha, hd⟩ := (hi.links.at_iff d a i).mp hend
    refine ⟨ends_setEp h.ends fun _ => ?_, fun d' b j ht => ?_⟩
    · have hok := h.ends a ha i
      rw [EndOk, hd] at hok
      rw [EndOk, (access_still (s.dev d) (s.ep a i) x).1, hd]
      exact access_legit hok x
    · change ((s.setEp a i _).ep b j).irqId = 0
      rw [ep_setEp]
      split_ifs with hbj
      · -- the cell of a device that is detached stands still
        obtain ⟨rfl, rfl⟩ := hbj
        have htask := hi.task
        rw [show s.task = _ from ht] at htask hno
        have hd' := ((hi.links.at_iff d' b j).mp htask.1).2
        exact absurd (congrArg some (Option.some.inj (hd'.symm.trans hd))) hno
      · exact h.leaves d' b j ht

lemma Links.same_page (h : Links M s) {d' : Dev} {b : ℕ} {j : Bool}
    (hd : (s.dev d).endpoint = some (a, i)) (hd' : (s.dev d').endpoint = some (b, j))
    (hbdf : M.bdf d = M.bdf d') : a = b := by
  obtain ⟨ha, hi⟩ := (h.at_iff d a i).mp hd
  obtain ⟨hb, hj⟩ := (h.at_iff d' b j).mp hd'
  exact h.bdf a ha b hb ((h.own a ha i d hi).symm.trans (hbdf.trans (h.own b hb j d' hj)))

lemma Links.same_device (h : Links M s) {d' : Dev} (hd : (s.dev d).endpoint = some (a, i))
    (hd' : (s.dev d').endpoint = some (a, i)) : d = d' :=
  Option.some.inj
    (((h.at_iff d a i).mp hd).2.symm.trans ((h.at_iff d' a i).mp hd').2)

/-- A link has two ends. -/
lemma Links.two_ends (h : Links M s) {d₁ d₂ d₃ : Dev} (h₁ : (s.dev d₁).endpoint ≠ none)
    (h₂ : (s.dev d₂).endpoint ≠ none) (h₃ : (s.dev d₃).endpoint ≠ none)
    (h₁₂ : M.bdf d₁ = M.bdf d₂) (h₁₃ : M.bdf d₁ = M.bdf d₃) : d₁ = d₂ ∨ d₁ = d₃ ∨ d₂ = d₃ := by
  obtain ⟨⟨a, i⟩, h₁⟩ := Option.ne_none_iff_exists'.mp h₁
  obtain ⟨⟨b, j⟩, h₂⟩ := Option.ne_none_iff_exists'.mp h₂
  obtain ⟨⟨c, k⟩, h₃⟩ := Option.ne_none_iff_exists'.mp h₃
  obtain rfl := h.same_page h₁ h₂ h₁₂
  obtain rfl := h.same_page h₁ h₃ h₁₃
  rcases side_cases j i with rfl | rfl
  · exact Or.inl (h.same_device h₁ h₂)
  · rcases side_cases k i with rfl | rfl
    · exact Or.inr (Or.inl (h.same_device h₁ h₃))
    · exact Or.inr (Or.inr (h.same_device h₂ h₃))

/-- The two devices are the ends of one link, and know of each other. -/
def Connected (s : Sys) (d d' : Dev) : Prop :=
  ∃ a i, (s.dev d).endpoint = some (a, i) ∧ (s.dev d').endpoint = some (a, !i) ∧
    (s.ep a i).remote = true ∧ (s.ep a !i).remote = true

lemma Links.connected (h : Links M s) (ht : s.task = .idle) {d' : Dev}
    (hd : (s.dev d).endpoint ≠ none) (hd' : (s.dev d').endpoint ≠ none)
    (hbdf : M.bdf d = M.bdf d') (hne : d ≠ d') : Connected s d d' := by
  obtain ⟨⟨a, i⟩, hd⟩ := Option.ne_none_iff_exists'.mp hd
  obtain ⟨⟨b, j⟩, hd'⟩ := Option.ne_none_iff_exists'.mp hd'
  obtain rfl := h.same_page hd hd' hbdf
  have hidle : ∀ {k : Bool} {d₁ d₂ : Dev}, (s.ep a k).device = some d₁ →
      (s.ep a !k).device = some d₂ → (s.ep a k).remote = true := by
    intro k d₁ d₂ h₁ h₂
    rcases h.linked a ((h.at_iff d a i).mp hd).1 k d₁ d₂ h₁ h₂ with hr | hr | hr
    · exact hr
    · exact absurd (ht.symm.trans hr) Task.noConfusion
    · exact absurd (ht.symm.trans hr) Task.noConfusion
  rcases side_cases j i with rfl | rfl
  · exact absurd (h.same_device hd hd') hne
  · have h₁ := ((h.at_iff d a i).mp hd).2
    have h₂ := ((h.at_iff d' a _).mp hd').2
    exact ⟨a, i, hd, hd', hidle h₁ h₂, hidle h₂ (by rw [Bool.not_not]; exact h₁)⟩

/-- Where a doorbell leads. -/
lemma Inv.doorbell (h : Inv M s) (hd : (s.dev d).endpoint = some (a, i)) {irq : ℕ}
    (hirq : ivshmemRemoteInterrupt s a i = some irq) :
    ∃ d', d' ≠ d ∧ (s.dev d').endpoint = some (a, !i) ∧ M.bdf d' = M.bdf d ∧
      M.shmem d' = M.shmem d ∧ M.shmemProtocol d' = M.shmemProtocol d ∧
      (Sound M s → Legit M d' irq) := by
  have hl := h.links
  simp only [ivshmemRemoteInterrupt, Option.ite_none_right_eq_some, Option.some.injEq] at hirq
  obtain ⟨⟨hrem, hne⟩, rfl⟩ := hirq
  obtain ⟨ha, hdev⟩ := (hl.at_iff d a i).mp hd
  obtain ⟨d', hd'⟩ := hl.live a ha i d hdev hrem
  have hend' := (hl.at_iff d' a !i).mpr ⟨ha, hd'⟩
  obtain ⟨hs, hp⟩ := hl.fit a ha i d d' hdev hd'
  refine ⟨d', ?_, hend', ?_, hs.symm, hp.symm, fun hsound => ?_⟩
  · rintro rfl
    exact absurd (Prod.mk.inj (Option.some.inj (hend'.symm.trans hd))).2 (by simp)
  · exact (hl.own a ha _ d' hd').trans (hl.own a ha i d hdev).symm
  · have hok := hsound.ends a ha !i
    rw [EndOk, hd'] at hok
    exact hok hne

end

/-! ### Runs -/

/-- Cells with one device each, all with the same BDF and without MSI-X. -/
def trio : Machine :=
  ⟨fun _ => 8, fun _ => some (4096, 4096), fun _ => 0, fun _ => 0, fun c => 10 * c, fun _ _ => true⟩

/-- Cell 2 attaches to cell 1 and turns on its interrupt. -/
def trioRun : List Act :=
  [.ivshmemInit (1, 0) (some 100), .advance, .ivshmemInit (2, 0) none, .advance, .advance,
    .access (2, 0) (.intxCtrl true)]

/-- Cell 2 is destroyed with its interrupt on, and cell 3 takes its end of the link: a doorbell of
cell 1 still raises the interrupt of cell 2. -/
theorem interrupt_inherited : ∃ s,
    exec (step trio) init (trioRun ++ [.ivshmemExit (2, 0), .advance, .ivshmemInit (3, 0) none,
      .advance, .advance]) = some s ∧
    (s.dev (3, 0)).endpoint = some (100, true) ∧ ivshmemRemoteInterrupt s 100 false = some 53 ∧
    ¬ Legit trio (3, 0) 53 := by
  have hrun : (exec (step trio) init (trioRun ++ [.ivshmemExit (2, 0), .advance,
      .ivshmemInit (3, 0) none, .advance, .advance])).any (fun s =>
        decide ((s.dev (3, 0)).endpoint = some (100, true)) &&
          decide (ivshmemRemoteInterrupt s 100 false = some 53)) = true := by decide +kernel
  obtain ⟨s, hs, h⟩ := (Option.any_eq_true _ _).mp hrun
  obtain ⟨hend, hirq⟩ := (Bool.and_eq_true _ _).mp h
  have hpin : intxIrq trio (3, 0) = 63 := by decide
  refine ⟨s, hs, of_decide_eq_true hend, of_decide_eq_true hirq, ?_⟩
  rw [Legit, if_pos (by decide), hpin]
  decide

end FpMemSched.Ivshmem
