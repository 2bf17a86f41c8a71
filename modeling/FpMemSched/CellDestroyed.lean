import FpMemSched.CellOwned

/-!
What becomes of the memory of a cell that is destroyed while mappings fail.

Here the failures are given by what is mapped, and the calls are recorded as they are made. For a
plain region all calls are made, whatever they return. In a coloured region a fragment whose last
mapping fails ends the walk, so its calls are all made exactly when nothing is to be done for the
fragments after such a one.
-/

namespace FpMemSched.CellDestroyed

open FpMemSched.Coloring FpMemSched.CellMemory FpMemSched.CellOwned FpMemSched.Lib.Spaces

/-- The changes of mappings that the end of a cell asks for. -/
inductive Call
  | unmap (mem : Memory)
  /-- A part of a region goes back to the root cell. -/
  | remap (mem part : Memory)
  deriving DecidableEq

/-- The address spaces, and the calls made so far. -/
structure Trace where
  maps : Maps
  calls : List Call

/-- The outcome of mapping a part of a region to the root cell, in some state. -/
abbrev Oracle := Maps → Memory → Memory → Option ℕ

variable (k : Context) (fault : Oracle)

/-! ### The functions with recording -/

def tracedUnmap (mem : Memory) (t : Trace) : Trace × ℤ :=
  let o := archUnmapMemoryRegion false mem t.maps.cell
  (⟨{ t.maps with cell := o.1, calls := t.maps.calls + 1 }, t.calls ++ [.unmap mem]⟩, o.2)

/-- One turn of the loop over the regions of the root cell. -/
def tracedPart (mem part : Memory) (t : Trace) : Trace × ℤ :=
  let calls := t.calls ++ [.remap mem part]
  if part.isSubpage then
    (⟨t.maps, calls⟩, if (fault t.maps mem part).isNone then 0 else eNomem)
  else
    let o := archMapMemoryRegion (fault t.maps mem part) k.rootCommPage part t.maps.root
    (⟨{ t.maps with root := o.1, calls := t.maps.calls + 1 }, calls⟩, o.2)

def tracedRemap (mem : Memory) : List Memory → ℤ → Trace → Trace × ℤ
  | [], err, t => (t, err)
  | rootMem :: rootMems, err, t =>
    match overlap mem rootMem with
    | none => tracedRemap mem rootMems err t
    | some part => let o := tracedPart k fault mem part t; tracedRemap mem rootMems o.2 o.1

def destroyFunctions : ManageFunctions Trace where
  map := fun _ t => (t, 0)
  subpage := fun _ t => (t, 0)
  unmap := tracedUnmap
  unmapRoot := fun _ t => (t, 0)
  remapRoot := fun mem t => tracedRemap k fault mem k.rootRegions 0 t
  flush := fun _ _ t => t

section Generic

variable {σ : Type*} (f : ManageFunctions σ)

/-- What `cell_destroy_internal` does with a plain region. -/
def destroyPlain (s : σ) (mem : Memory) : σ :=
  let s := if mem.isSubpage then s else (f.unmap mem s).1
  if mem.flags.commRegion || mem.flags.rootshared then s else (f.remapRoot mem s).1

/-- The memory part of `cell_destroy_internal`, with the functions it calls. -/
def destroyWith (p : Platform) (cfg : CellConfig) (s : σ) : σ :=
  cfg.memoryRegionsColored.foldl (fun s colMem =>
    (manageColoredRegions f p.colorDesc p.stack colMem .destroy s).1)
    (cfg.memoryRegions.foldl (destroyPlain f) s)

end Generic

/-! ### The recorded run is the run -/

section Refines

variable {α σ τ : Type*} {body : α → σ → σ × ℤ} {body' : α → τ → τ × ℤ} {π : τ → σ}

lemma untilError_hom (h : ∀ a t, body a (π t) = (π (body' a t).1, (body' a t).2)) (l : List α)
    (t : τ) : untilError body l (π t) = (π (untilError body' l t).1, (untilError body' l t).2) := by
  induction l generalizing t with
  | nil => rfl
  | cons a l ih =>
    rw [untilError, untilError, h]
    by_cases he : (body' a t).2 = 0
    · simp only [he, ne_eq, not_true_eq_false, if_false]
      exact ih _
    · simp only [he, ne_eq, not_false_eq_true, if_true]

/-- The failures of a command, which go by the number of the mapping. -/
def stream (k : Context) : Oracle :=
  fun s _ part => if part.isSubpage then none else k.faults.map s.calls

lemma tracedRemap_maps (mem : Memory) (rootMems : List Memory) (err : ℤ) (t : Trace) :
    remapLoop k .warnOnError mem rootMems err t.maps =
      ((tracedRemap k (stream k) mem rootMems err t).1.maps,
        (tracedRemap k (stream k) mem rootMems err t).2) := by
  induction rootMems generalizing err t with
  | nil => rfl
  | cons rootMem rootMems ih =>
    rw [remapLoop, tracedRemap]
    cases overlap mem rootMem with
    | none => exact ih err t
    | some part =>
      have hpart : (if part.isSubpage then mmioSubpage part t.maps else mapRoot k part t.maps) =
          ((tracedPart k (stream k) mem part t).1.maps,
            (tracedPart k (stream k) mem part t).2) := by
        cases hs : part.isSubpage <;> simp [tracedPart, stream, hs, mmioSubpage, mapRoot]
      simp only [hpart, reduceCtorEq, and_false, if_false]
      exact ih _ _

variable {k}

lemma visit_maps (hu : ∀ n, k.faults.unmap n = false) (mem : Memory) (t : Trace) :
    visit (manageFunctions k .warnOnError) .destroy mem t.maps =
      ((visit (destroyFunctions k (stream k)) .destroy mem t).1.maps,
        (visit (destroyFunctions k (stream k)) .destroy mem t).2) := by
  have hun : ∀ t : Trace, unmapCell k mem t.maps =
      ((tracedUnmap mem t).1.maps, (tracedUnmap mem t).2) := by
    intro t
    simp [unmapCell, tracedUnmap, hu]
  have hok : ∀ t : Trace, (tracedUnmap mem t).2 = 0 := fun _ => rfl
  have hre : ∀ t : Trace, remapToRootCell k .warnOnError mem t.maps = _ :=
    fun t => tracedRemap_maps k mem k.rootRegions 0 t
  cases hs : mem.isSubpage <;> cases hf : mem.flags.commRegion || mem.flags.rootshared <;>
    simp [visit, manageFunctions, destroyFunctions, hs, hf, hun, hok, hre]

lemma destroyPlain_maps (hu : ∀ n, k.faults.unmap n = false) (mem : Memory) (t : Trace) :
    destroyRegion k t.maps mem = (destroyPlain (destroyFunctions k (stream k)) t mem).maps := by
  have hun : ∀ t : Trace, (unmapCell k mem t.maps).1 = (tracedUnmap mem t).1.maps := by
    intro t
    simp [unmapCell, tracedUnmap, hu]
  have hre : ∀ t : Trace, (remapToRootCell k .warnOnError mem t.maps).1 = _ :=
    fun t => congrArg Prod.fst (tracedRemap_maps k mem k.rootRegions 0 t)
  cases hs : mem.isSubpage <;> cases hf : mem.flags.commRegion || mem.flags.rootshared <;>
    simp [destroyRegion, destroyPlain, destroyFunctions, hs, hf, hun, hre]

/-- **The recorded run changes the address spaces as `cell_destroy_internal` does.** -/
theorem destroyWith_maps (p : Platform) (cfg : CellConfig) (hu : ∀ n, k.faults.unmap n = false)
    (t : Trace) :
    (destroyWith (destroyFunctions k (stream k)) p cfg t).maps =
      cellDestroyInternal k p cfg t.maps := by
  have hplain : ∀ l : List Memory, l.foldl (destroyRegion k) t.maps =
      (l.foldl (destroyPlain (destroyFunctions k (stream k))) t).maps := by
    intro l
    exact List.foldl_hom Trace.maps fun t mem => destroyPlain_maps hu mem t
  unfold destroyWith cellDestroyInternal
  rw [hplain]
  refine (List.foldl_hom Trace.maps fun t colMem => ?_).symm
  rw [manageColoredRegions_eq, manageColoredRegions_eq, visitAll_eq, visitAll_eq,
    untilError_hom (π := Trace.maps) (visit_maps hu)]

end Refines

/-! ### Which calls are made -/

/-- The parts of a region that lie in regions of the root cell. -/
def pieces (mem : Memory) : List Memory := k.rootRegions.filterMap (overlap mem)

/-- All that is to be done for a region. -/
def callsFor (mem : Memory) : List Call :=
  (if mem.isSubpage then [] else [.unmap mem]) ++
    if Exclusive mem then (pieces k mem).map (.remap mem) else []

variable (fails : Memory → Memory → Option ℕ)

/-- The mapping of the last part of the region fails; the results of the others are lost. -/
def LastFails (mem : Memory) : Prop :=
  Exclusive mem ∧ ∃ part, (pieces k mem).getLast? = some part ∧ fails mem part ≠ none

section Calls

variable {k fails} {mem : Memory} {t : Trace}

lemma tracedPart_calls (fault : Oracle) (part : Memory) :
    (tracedPart k fault mem part t).1.calls = t.calls ++ [.remap mem part] := by
  unfold tracedPart
  split <;> rfl

lemma tracedPart_err (part : Memory) :
    (tracedPart k (fun _ => fails) mem part t).2 ≠ 0 ↔ fails mem part ≠ none := by
  unfold tracedPart
  cases part.isSubpage <;> cases h : fails mem part <;> simp [archMapMemoryRegion, eNomem, h]

lemma tracedRemap_calls (fault : Oracle) (rootMems : List Memory) (err : ℤ) :
    (tracedRemap k fault mem rootMems err t).1.calls =
      t.calls ++ (rootMems.filterMap (overlap mem)).map (.remap mem) := by
  induction rootMems generalizing err t with
  | nil => simp [tracedRemap]
  | cons rootMem rootMems ih =>
    rw [tracedRemap, List.filterMap_cons]
    cases overlap mem rootMem with
    | none => exact ih err
    | some part => rw [ih, tracedPart_calls, List.map_cons, List.append_assoc]; rfl

/-- Only the last part counts. -/
lemma tracedRemap_err (rootMems : List Memory) (err : ℤ) :
    (tracedRemap k (fun _ => fails) mem rootMems err t).2 ≠ 0 ↔
      (rootMems.filterMap (overlap mem) = [] ∧ err ≠ 0) ∨
        ∃ part, (rootMems.filterMap (overlap mem)).getLast? = some part ∧
          fails mem part ≠ none := by
  induction rootMems generalizing err t with
  | nil => simp [tracedRemap]
  | cons rootMem rootMems ih =>
    rw [tracedRemap, List.filterMap_cons]
    cases overlap mem rootMem with
    | none => exact ih err
    | some part =>
      rw [ih, tracedPart_err]
      cases hl : rootMems.filterMap (overlap mem) with
      | nil => simp
      | cons part' parts => simp [List.getLast?_cons_cons]

lemma destroyPlain_calls (fault : Oracle) :
    (destroyPlain (destroyFunctions k fault) t mem).calls = t.calls ++ callsFor k mem := by
  have hun : (tracedUnmap mem t).1.calls = t.calls ++ [.unmap mem] := rfl
  by_cases he : Exclusive mem
  · cases hs : mem.isSubpage <;>
      simp [destroyPlain, callsFor, he, he.1, he.2, hs, destroyFunctions, tracedRemap_calls, hun,
        pieces]
  · have hsh := shared_of_not_exclusive he
    cases hs : mem.isSubpage <;>
      simp [destroyPlain, callsFor, he, hsh, hs, destroyFunctions, hun]

/-- A fragment is treated as a plain region is, and its error is that of its last part. -/
lemma visit_eq (m : Memory) (t : Trace) :
    (visit (destroyFunctions k fun _ => fails) .destroy m t).1 =
        destroyPlain (destroyFunctions k fun _ => fails) t m ∧
      ((visit (destroyFunctions k fun _ => fails) .destroy m t).2 ≠ 0 ↔
        LastFails k fails m) := by
  have hok : ∀ t : Trace, (tracedUnmap m t).2 = 0 := fun _ => rfl
  by_cases he : Exclusive m
  · have herr : ∀ t : Trace, (tracedRemap k (fun _ => fails) m k.rootRegions 0 t).2 ≠ 0 ↔
        LastFails k fails m := by
      intro t
      rw [tracedRemap_err, LastFails, pieces]
      simp [he]
    cases hs : m.isSubpage with
    | false =>
      simp only [visit, destroyPlain, destroyFunctions, he.1, he.2, hs, hok, Bool.or_false,
        Bool.false_eq_true, if_false, ne_eq, not_true_eq_false, true_and]
      exact herr _
    | true =>
      simp only [visit, destroyPlain, destroyFunctions, he.1, he.2, hs, Bool.or_false,
        Bool.false_eq_true, if_false, if_true, ne_eq, not_true_eq_false, true_and]
      exact herr _
  · have hsh := shared_of_not_exclusive he
    have hno : ¬ LastFails k fails m := fun h => he h.1
    cases hs : m.isSubpage <;> simp [visit, destroyPlain, destroyFunctions, hsh, hs, hok, hno]

/-- What needs no call changes nothing. -/
lemma destroyPlain_idle {fault : Oracle} (h : callsFor k mem = []) :
    destroyPlain (destroyFunctions k fault) t mem = t := by
  obtain ⟨hu, hr⟩ := List.append_eq_nil_iff.mp h
  have hs : mem.isSubpage = true := by
    by_contra hc
    simp [hc] at hu
  by_cases he : Exclusive mem
  · have hp : pieces k mem = [] := by simpa [he] using hr
    have hloop : ∀ (rootMems : List Memory), rootMems.filterMap (overlap mem) = [] →
        tracedRemap k fault mem rootMems 0 t = (t, 0) := by
      intro rootMems
      induction rootMems with
      | nil => exact fun _ => rfl
      | cons rootMem rootMems ih =>
        intro hn
        rw [tracedRemap]
        rw [List.filterMap_cons] at hn
        cases ho : overlap mem rootMem with
        | none =>
          rw [ho] at hn
          exact ih hn
        | some part =>
          rw [ho] at hn
          cases hn
    simp [destroyPlain, destroyFunctions, hs, he.1, he.2, hloop k.rootRegions hp]
  · simp [destroyPlain, hs, shared_of_not_exclusive he]

end Calls

/-! ### Walks that end early -/

section Walks

variable {α σ κ : Type*} {body : α → σ → σ × ℤ} {g : σ → α → σ} {E : α → Prop} {n : α → List κ}
  {calls : σ → List κ}

/-- After an error nothing is left to do. -/
def NothingLeft (E : α → Prop) (n : α → List κ) (l : List α) : Prop :=
  ∀ l₁ a l₂, l = l₁ ++ a :: l₂ → E a → ∀ b ∈ l₂, n b = []

lemma nothingLeft_cons {a : α} {l : List α} : NothingLeft E n (a :: l) ↔
    (E a → ∀ b ∈ l, n b = []) ∧ NothingLeft E n l := by
  constructor
  · intro h
    refine ⟨fun ha b hb => h [] a l rfl ha b hb, fun l₁ c l₂ hl hc b hb => ?_⟩
    exact h (a :: l₁) c l₂ (by rw [hl]; rfl) hc b hb
  · rintro ⟨ha, h⟩ l₁ c l₂ hl hc b hb
    cases l₁ with
    | nil =>
      obtain ⟨rfl, rfl⟩ := List.cons_eq_cons.mp hl
      exact ha hc b hb
    | cons d l₁ =>
      obtain ⟨-, rfl⟩ := List.cons_eq_cons.mp hl
      exact h l₁ c l₂ rfl hc b hb

variable (hbody : ∀ a s, (body a s).1 = g s a ∧ ((body a s).2 ≠ 0 ↔ E a))

include hbody

lemma untilError_eq_foldl (hidle : ∀ s a, n a = [] → g s a = s) {l : List α}
    (h : NothingLeft E n l) (s : σ) : (untilError body l s).1 = l.foldl g s := by
  induction l generalizing s with
  | nil => rfl
  | cons a l ih =>
    obtain ⟨ha, hl⟩ := nothingLeft_cons.mp h
    rw [untilError, List.foldl_cons]
    by_cases he : E a
    · have hstay : ∀ s, l.foldl g s = s := by
        intro s
        have hnil := ha he
        clear ih h hl ha
        induction l generalizing s with
        | nil => rfl
        | cons b l ih =>
          rw [List.foldl_cons, hidle s b (hnil b List.mem_cons_self)]
          exact ih s fun c hc => hnil c (List.mem_cons_of_mem _ hc)
      simp only [(hbody a s).2.mpr he, if_true, ne_eq, not_false_eq_true]
      rw [hstay, (hbody a s).1]
    · have h0 : (body a s).2 = 0 := not_not.mp fun hc => he ((hbody a s).2.mp hc)
      simp only [h0, ne_eq, not_true_eq_false, if_false]
      rw [ih hl, (hbody a s).1]

/-- The walk makes no more calls than there are, and all of them only if nothing is left. -/
lemma untilError_length (hcalls : ∀ s a, calls (g s a) = calls s ++ n a) (l : List α) (s : σ) :
    (calls (untilError body l s).1).length ≤ (calls s).length + (l.flatMap n).length ∧
      ((calls (untilError body l s).1).length = (calls s).length + (l.flatMap n).length →
        NothingLeft E n l) := by
  induction l generalizing s with
  | nil => exact ⟨by simp [untilError], fun _ l₁ a l₂ hl => by simp at hl⟩
  | cons a l ih =>
    rw [untilError, List.flatMap_cons, List.length_append]
    have hlen : (calls (body a s).1).length = (calls s).length + (n a).length := by
      rw [(hbody a s).1, hcalls, List.length_append]
    by_cases he : E a
    · simp only [(hbody a s).2.mpr he, if_true, ne_eq, not_false_eq_true]
      refine ⟨by omega, fun heq => ?_⟩
      have hnil : l.flatMap n = [] := List.length_eq_zero_iff.mp (by omega)
      have hall : ∀ b ∈ l, n b = [] := List.flatMap_eq_nil_iff.mp hnil
      refine nothingLeft_cons.mpr ⟨fun _ => hall, fun l₁ c l₂ hl _ b hb => hall b ?_⟩
      rw [hl]
      exact List.mem_append_right _ (List.mem_cons_of_mem _ hb)
    · have h0 : (body a s).2 = 0 := not_not.mp fun hc => he ((hbody a s).2.mp hc)
      simp only [h0, ne_eq, not_true_eq_false, if_false]
      obtain ⟨hle, hnl⟩ := ih (body a s).1
      refine ⟨by omega, fun heq => ?_⟩
      exact nothingLeft_cons.mpr ⟨fun hc => absurd hc he, hnl (by omega)⟩

end Walks

/-! ### The address spaces -/

section Spaces

variable {k fails} {mem : Memory} {t : Trace} {x : ℕ}

lemma unmap_none {sp : Space} {a n : ℕ} (h : sp x = none ∨ In a n x) : sp.unmap a n x = none := by
  unfold Space.unmap
  split_ifs with hin
  · rfl
  · exact h.resolve_right hin

lemma map_isSome {sp : Space} {a b n : ℕ} (h : (sp x).isSome ∨ In a n x) :
    (sp.map a b n x).isSome := by
  unfold Space.map
  split_ifs with hin
  · rfl
  · exact h.resolve_right hin

lemma archMap_isSome {f : Option ℕ} {part : Memory} {sp : Space} (c : ℕ)
    (h : (sp x).isSome ∨ f = none ∧ In part.virtStart part.size x) :
    ((archMapMemoryRegion f c part sp).1 x).isSome := by
  unfold archMapMemoryRegion
  cases f with
  | none => exact map_isSome (h.imp_right And.right)
  | some n => exact map_isSome (.inl (h.resolve_right fun hc => by cases hc.1))

lemma tracedPart_spaces (fault : Oracle) (mem part : Memory) (t : Trace) (x : ℕ) :
    (tracedPart k fault mem part t).1.maps.cell = t.maps.cell ∧
      (((t.maps.root x).isSome ∨ part.isSubpage = false ∧ fault t.maps mem part = none ∧
          In part.virtStart part.size x) →
        ((tracedPart k fault mem part t).1.maps.root x).isSome) := by
  unfold tracedPart
  cases hs : part.isSubpage with
  | true => exact ⟨rfl, fun h => by simpa using h⟩
  | false =>
    exact ⟨rfl, fun h => archMap_isSome _ (h.imp_right fun h => ⟨h.2.1, h.2.2⟩)⟩

lemma tracedRemap_spaces (rootMems : List Memory) (err : ℤ) (t : Trace) :
    (tracedRemap k (fun _ => fails) mem rootMems err t).1.maps.cell = t.maps.cell ∧
      (((t.maps.root x).isSome ∨ ∃ part ∈ rootMems.filterMap (overlap mem),
          part.isSubpage = false ∧ fails mem part = none ∧ In part.virtStart part.size x) →
        ((tracedRemap k (fun _ => fails) mem rootMems err t).1.maps.root x).isSome) := by
  induction rootMems generalizing err t with
  | nil => exact ⟨rfl, fun h => by simpa [tracedRemap] using h⟩
  | cons rootMem rootMems ih =>
    rw [tracedRemap, List.filterMap_cons]
    cases overlap mem rootMem with
    | none => exact ih err t
    | some part =>
      obtain ⟨hc, hr⟩ := tracedPart_spaces (k := k) (fun _ => fails) mem part t x
      obtain ⟨hc', hr'⟩ := ih (tracedPart k (fun _ => fails) mem part t).2
        (tracedPart k (fun _ => fails) mem part t).1
      refine ⟨hc'.trans hc, fun h => hr' ?_⟩
      rcases h with h | ⟨q, hq, h⟩
      · exact .inl (hr (.inl h))
      · rcases List.mem_cons.mp hq with rfl | hq
        · exact .inl (hr (.inr h))
        · exact .inr ⟨q, hq, h⟩

lemma destroyPlain_cell (h : t.maps.cell x = none ∨
      mem.isSubpage = false ∧ In mem.virtStart mem.size x) :
    (destroyPlain (destroyFunctions k fun _ => fails) t mem).maps.cell x = none := by
  have hun : (if mem.isSubpage then t else (tracedUnmap mem t).1).maps.cell x = none := by
    cases hs : mem.isSubpage with
    | true => simpa [hs] using h
    | false => exact unmap_none (h.imp_right And.right)
  simp only [destroyPlain, destroyFunctions]
  split
  · exact hun
  · rw [(tracedRemap_spaces (x := x) _ _ _).1]
    exact hun

lemma destroyPlain_root (h : (t.maps.root x).isSome ∨ Exclusive mem ∧ ∃ part ∈ pieces k mem,
      part.isSubpage = false ∧ fails mem part = none ∧ In part.virtStart part.size x) :
    ((destroyPlain (destroyFunctions k fun _ => fails) t mem).maps.root x).isSome := by
  have hun : (if mem.isSubpage then t else (tracedUnmap mem t).1).maps.root = t.maps.root := by
    split <;> rfl
  simp only [destroyPlain, destroyFunctions]
  by_cases he : Exclusive mem
  · rw [if_neg (by simp [he.1, he.2])]
    refine (tracedRemap_spaces _ _ _).2 ?_
    rw [hun]
    exact h.imp_right And.right
  · rw [if_pos (shared_of_not_exclusive he), hun]
    exact h.resolve_right fun hc => he hc.1

lemma foldl_reaches {α σ : Type*} {g : σ → α → σ} {Q : σ → Prop} {A : α → Prop}
    (h : ∀ s a, Q s ∨ A a → Q (g s a)) {l : List α} {s : σ} (hs : Q s ∨ ∃ a ∈ l, A a) :
    Q (l.foldl g s) := by
  induction l generalizing s with
  | nil => exact hs.resolve_right (by simp)
  | cons a l ih =>
    rw [List.foldl_cons]
    apply ih
    rcases hs with hs | ⟨b, hb, hA⟩
    · exact .inl (h s a (.inl hs))
    · rcases List.mem_cons.mp hb with rfl | hb
      · exact .inl (h s b (.inr hA))
      · exact .inr ⟨b, hb, hA⟩

end Spaces

/-! ### The destruction of a cell -/

/-- All calls for all regions and fragments are made: the fragments are unmapped from the cell,
and whatever could be mapped is back in the root cell. -/
structure BestEffort (p : Platform) (cfg : CellConfig) (t t' : Trace) : Prop where
  calls : t'.calls = t.calls ++ (regions p cfg).flatMap (callsFor k)
  unmapped : ∀ colMem ∈ cfg.memoryRegionsColored, ∀ frag ∈ fragments p.colorDesc colMem,
    frag.isSubpage = false → ∀ x, In frag.virtStart frag.size x → t'.maps.cell x = none
  remapped : ∀ mem ∈ regions p cfg, Exclusive mem → ∀ part ∈ pieces k mem,
    part.isSubpage = false → fails mem part = none →
    ∀ x, In part.virtStart part.size x → (t'.maps.root x).isSome

/-- In no coloured region is there anything to do after a fragment whose last mapping fails. -/
def Unhindered (p : Platform) (cfg : CellConfig) : Prop :=
  ∀ colMem ∈ cfg.memoryRegionsColored, ∀ l₁ frag l₂,
    fragments p.colorDesc colMem = l₁ ++ frag :: l₂ → LastFails k fails frag →
    ∀ later ∈ l₂, callsFor k later = []

lemma destroyWith_eq (p : Platform) (cfg : CellConfig) (t : Trace) :
    destroyWith (destroyFunctions k fun _ => fails) p cfg t =
      cfg.memoryRegionsColored.foldl (fun t colMem =>
        (untilError (visit (destroyFunctions k fun _ => fails) .destroy)
          (fragments p.colorDesc colMem) t).1)
        (cfg.memoryRegions.foldl (destroyPlain (destroyFunctions k fun _ => fails)) t) := by
  unfold destroyWith
  simp only [manageColoredRegions_eq, visitAll_eq]

lemma foldl_calls (fault : Oracle) (l : List Memory) (t : Trace) :
    (l.foldl (destroyPlain (destroyFunctions k fault)) t).calls =
      t.calls ++ l.flatMap (callsFor k) := by
  induction l generalizing t with
  | nil => simp
  | cons m l ih => rw [List.foldl_cons, ih, destroyPlain_calls, List.flatMap_cons, List.append_assoc]

/-- Where nothing is left after errors, coloured regions are treated as plain ones. -/
lemma destroyWith_plain {p : Platform} {cfg : CellConfig} (h : Unhindered k fails p cfg)
    (t : Trace) :
    destroyWith (destroyFunctions k fun _ => fails) p cfg t =
      (regions p cfg).foldl (destroyPlain (destroyFunctions k fun _ => fails)) t := by
  rw [destroyWith_eq, regions, List.foldl_append, List.foldl_flatMap]
  generalize cfg.memoryRegions.foldl (destroyPlain (destroyFunctions k fun _ => fails)) t = t
  refine List.foldl_ext _ _ _ fun t colMem hc => ?_
  exact untilError_eq_foldl visit_eq (fun _ _ hn => destroyPlain_idle hn)
    (h colMem hc) t

/-- The walks over all coloured regions make no more calls than there are, and all of them only
if nothing is left in any region. -/
lemma colored_length (d : ColorDesc) (l : List MemoryColored) (t : Trace) :
    let r := l.foldl (fun t colMem => (untilError
      (visit (destroyFunctions k fun _ => fails) .destroy) (fragments d colMem) t).1) t
    r.calls.length ≤ t.calls.length + ((l.flatMap (fragments d)).flatMap (callsFor k)).length ∧
      (r.calls.length = t.calls.length +
          ((l.flatMap (fragments d)).flatMap (callsFor k)).length →
        ∀ colMem ∈ l, NothingLeft (LastFails k fails) (callsFor k) (fragments d colMem)) := by
  induction l generalizing t with
  | nil => exact ⟨Nat.le_refl _, fun _ => by simp⟩
  | cons colMem l ih =>
    obtain ⟨hle, hleft⟩ := untilError_length (E := LastFails k fails) visit_eq
      (fun t m => destroyPlain_calls _) (fragments d colMem) t
    obtain ⟨hle', hleft'⟩ := ih (untilError (visit (destroyFunctions k fun _ => fails) .destroy)
      (fragments d colMem) t).1
    rw [List.foldl_cons, List.flatMap_cons, List.flatMap_append, List.length_append]
    refine ⟨by omega, fun heq => List.forall_mem_cons.mpr ⟨hleft ?_, hleft' ?_⟩⟩
    · omega
    · omega

/-- All calls are made only if no error keeps one from being made. -/
lemma BestEffort.unhindered {p : Platform} {cfg : CellConfig} {t : Trace}
    (h : BestEffort k fails p cfg t (destroyWith (destroyFunctions k fun _ => fails) p cfg t)) :
    Unhindered k fails p cfg := by
  have hc := congrArg List.length h.calls
  rw [destroyWith_eq] at hc
  refine (colored_length k fails p.colorDesc cfg.memoryRegionsColored
    (cfg.memoryRegions.foldl (destroyPlain (destroyFunctions k fun _ => fails)) t)).2 ?_
  rw [hc, foldl_calls, regions, List.flatMap_append]
  simp only [List.length_append]
  omega

lemma Unhindered.bestEffort {p : Platform} {cfg : CellConfig} (h : Unhindered k fails p cfg)
    (t : Trace) :
    BestEffort k fails p cfg t (destroyWith (destroyFunctions k fun _ => fails) p cfg t) := by
  rw [destroyWith_plain k fails h]
  refine ⟨foldl_calls k _ _ t, fun colMem hc frag hf hs x hx => ?_,
    fun mem hm he part hp hs hn x hx => ?_⟩
  · refine foldl_reaches (Q := fun t : Trace => t.maps.cell x = none) (A := fun m =>
      m.isSubpage = false ∧ In m.virtStart m.size x) (fun t m => destroyPlain_cell)
      (.inr ⟨frag, ?_, hs, hx⟩)
    exact List.mem_append_right _ (List.mem_flatMap.mpr ⟨colMem, hc, hf⟩)
  · exact foldl_reaches (Q := fun t : Trace => (t.maps.root x).isSome) (A := fun m =>
      Exclusive m ∧ ∃ part ∈ pieces k m, part.isSubpage = false ∧ fails m part = none ∧
        In part.virtStart part.size x) (fun t m => destroyPlain_root)
      (.inr ⟨mem, hm, he, part, hp, hs, hn, hx⟩)

/-- **Coloured memory is given back with best effort** exactly where no fragment whose last
mapping fails comes before one that needs something. -/
theorem bestEffort_iff (p : Platform) (cfg : CellConfig) (t : Trace) :
    BestEffort k fails p cfg t (destroyWith (destroyFunctions k fun _ => fails) p cfg t) ↔
      Unhindered k fails p cfg :=
  ⟨fun h => h.unhindered k fails, fun h => h.bestEffort k fails t⟩

/-- The root cell does not get the first page of a coloured region back, and the second page
stays with the cell. -/
theorem fragment_left_behind :
    ¬ BestEffort (board.context 0x21000 noFaults)
      (fun mem _ => if mem.physStart = 0x9000 then some 0 else none) board twoColors
      ⟨⟨fun _ => none, some, 0⟩, []⟩
      (destroyWith (destroyFunctions (board.context 0x21000 noFaults)
        fun _ mem _ => if mem.physStart = 0x9000 then some 0 else none) board twoColors
        ⟨⟨fun _ => none, some, 0⟩, []⟩) := by
  intro h
  have hcell := h.unmapped _ List.mem_cons_self
    ⟨0xb000, 0x2000, 0x1000, ⟨true, false, false, false⟩⟩ (by decide +kernel) (by decide) 0x2000
    (by decide)
  exact absurd hcell (by decide +kernel)

/-! ### The command -/

/-- The number of the next call; the subpages are not counted. -/
def Call.next (n : ℕ) : Call → ℕ
  | .unmap _ => n + 1
  | .remap _ part => if part.isSubpage then n else n + 1

/-- The call number `n` of the command has the outcome that `fails` tells. -/
def Call.Meets (n : ℕ) : Call → Prop
  | .unmap _ => True
  | .remap mem part => (if part.isSubpage then none else k.faults.map n) = fails mem part

/-- The calls from number `n` on have the outcomes that `fails` tells. -/
def Meets (n : ℕ) : List Call → Prop
  | [] => True
  | c :: cs => c.Meets k fails n ∧ Meets (c.next n) cs

/-- From `t` to `t'` calls were made, and `P` holds if `fails` tells their outcomes. -/
def Made (t t' : Trace) (P : Prop) : Prop :=
  ∃ cs, t'.calls = t.calls ++ cs ∧ t'.maps.calls = cs.foldl Call.next t.maps.calls ∧
    (Meets k fails t.maps.calls cs → P)

section Command

variable {k fails} {t t' t'' : Trace} {P Q : Prop}

lemma meets_append {n : ℕ} {cs ds : List Call} : Meets k fails n (cs ++ ds) ↔
    Meets k fails n cs ∧ Meets k fails (cs.foldl Call.next n) ds := by
  induction cs generalizing n with
  | nil => simp [Meets]
  | cons c cs ih => rw [List.cons_append, Meets, Meets, ih, List.foldl_cons, and_assoc]

lemma Made.refl (h : P) : Made k fails t t P := ⟨[], (List.append_nil _).symm, rfl, fun _ => h⟩

lemma Made.imp (h : Made k fails t t' P) (himp : P → Q) : Made k fails t t' Q := by
  obtain ⟨cs, hcalls, hn, hP⟩ := h
  exact ⟨cs, hcalls, hn, fun hm => himp (hP hm)⟩

lemma Made.trans (h : Made k fails t t' P) (h' : Made k fails t' t'' Q) :
    Made k fails t t'' (P ∧ Q) := by
  obtain ⟨cs, hcalls, hn, hP⟩ := h
  obtain ⟨ds, hcalls', hn', hQ⟩ := h'
  refine ⟨cs ++ ds, by rw [hcalls', hcalls, List.append_assoc], ?_, fun hm => ?_⟩
  · rw [hn', hn, List.foldl_append]
  · obtain ⟨hcs, hds⟩ := meets_append.mp hm
    exact ⟨hP hcs, hQ (hn ▸ hds)⟩

lemma made_unmap (mem : Memory) : Made k fails t (tracedUnmap mem t).1 True :=
  ⟨[.unmap mem], rfl, rfl, fun _ => trivial⟩

lemma made_part (mem part : Memory) : Made k fails t (tracedPart k (stream k) mem part t).1
    (tracedPart k (fun _ => fails) mem part t = tracedPart k (stream k) mem part t) := by
  refine ⟨[.remap mem part], tracedPart_calls _ _, ?_, fun hm => ?_⟩
  · unfold tracedPart
    cases hs : part.isSubpage <;> simp [Call.next, hs]
  · have hfail : fails mem part = stream k t.maps mem part := hm.1.symm
    simp only [tracedPart, hfail]

lemma made_remap (mem : Memory) (rootMems : List Memory) (err : ℤ) :
    Made k fails t (tracedRemap k (stream k) mem rootMems err t).1
      (tracedRemap k (fun _ => fails) mem rootMems err t =
        tracedRemap k (stream k) mem rootMems err t) := by
  induction rootMems generalizing err t with
  | nil => exact Made.refl rfl
  | cons rootMem rootMems ih =>
    rw [tracedRemap, tracedRemap]
    cases overlap mem rootMem with
    | none => exact ih err
    | some part =>
      refine ((made_part mem part).trans (ih _)).imp ?_
      rintro ⟨hpart, hrest⟩
      simp only [hpart, hrest]

lemma made_plain (mem : Memory) :
    Made k fails t (destroyPlain (destroyFunctions k (stream k)) t mem)
      (destroyPlain (destroyFunctions k fun _ => fails) t mem =
        destroyPlain (destroyFunctions k (stream k)) t mem) := by
  have hun : Made k fails t (if mem.isSubpage then t else (tracedUnmap mem t).1) True := by
    split
    · exact Made.refl trivial
    · exact made_unmap mem
  simp only [destroyPlain, destroyFunctions]
  cases mem.flags.commRegion || mem.flags.rootshared with
  | true => exact hun.imp fun _ => rfl
  | false =>
    exact (hun.trans (made_remap mem k.rootRegions 0)).imp fun h => congrArg Prod.fst h.2

lemma made_visit (mem : Memory) :
    Made k fails t (visit (destroyFunctions k (stream k)) .destroy mem t).1
      (visit (destroyFunctions k fun _ => fails) .destroy mem t =
        visit (destroyFunctions k (stream k)) .destroy mem t) := by
  have hok : ∀ t : Trace, (tracedUnmap mem t).2 = 0 := fun _ => rfl
  have hre : ∀ t : Trace, Made k fails t (tracedRemap k (stream k) mem k.rootRegions 0 t).1 _ :=
    fun t => made_remap mem k.rootRegions 0
  cases hs : mem.isSubpage with
  | true =>
    cases hf : mem.flags.commRegion || mem.flags.rootshared with
    | true => simpa [visit, destroyFunctions, hs, hf] using Made.refl trivial
    | false => simpa [visit, destroyFunctions, hs, hf] using hre t
  | false =>
    cases hf : mem.flags.commRegion || mem.flags.rootshared with
    | true => simpa [visit, destroyFunctions, hs, hf, hok] using made_unmap mem
    | false =>
      simpa [visit, destroyFunctions, hs, hf, hok] using (made_unmap mem).trans (hre _)

lemma made_foldl {α : Type*} {g h : Trace → α → Trace}
    (hgh : ∀ t a, Made k fails t (h t a) (g t a = h t a)) (l : List α) (t : Trace) :
    Made k fails t (l.foldl h t) (l.foldl g t = l.foldl h t) := by
  induction l generalizing t with
  | nil => exact Made.refl rfl
  | cons a l ih =>
    refine ((hgh t a).trans (ih _)).imp ?_
    rintro ⟨ha, hl⟩
    rw [List.foldl_cons, List.foldl_cons, ha, hl]

lemma made_untilError {α : Type*} {g h : α → Trace → Trace × ℤ}
    (hgh : ∀ a t, Made k fails t (h a t).1 (g a t = h a t)) (l : List α) (t : Trace) :
    Made k fails t (untilError h l t).1 (untilError g l t = untilError h l t) := by
  induction l generalizing t with
  | nil => exact Made.refl rfl
  | cons a l ih =>
    rw [untilError, untilError]
    by_cases he : (h a t).2 = 0
    · simp only [he, ne_eq, not_true_eq_false, if_false]
      refine ((hgh a t).trans (ih _)).imp ?_
      rintro ⟨ha, hl⟩
      simp [ha, he, hl]
    · simp only [he, ne_eq, not_false_eq_true, if_true]
      refine (hgh a t).imp fun ha => ?_
      simp [ha, he]

lemma made_destroyWith (p : Platform) (cfg : CellConfig) (t : Trace) :
    Made k fails t (destroyWith (destroyFunctions k (stream k)) p cfg t)
      (destroyWith (destroyFunctions k fun _ => fails) p cfg t =
        destroyWith (destroyFunctions k (stream k)) p cfg t) := by
  unfold destroyWith
  simp only [manageColoredRegions_eq, visitAll_eq]
  refine ((made_foldl (fun t mem => made_plain mem) cfg.memoryRegions t).trans
    (made_foldl (fun t colMem => (made_untilError (fun mem t => made_visit mem)
      (fragments p.colorDesc colMem) t).imp (congrArg Prod.fst))
      cfg.memoryRegionsColored _)).imp ?_
  rintro ⟨hplain, hcolored⟩
  rw [hplain, hcolored]

end Command

/-- **`cell_destroy_internal` gives the memory back with best effort** exactly under the same
condition, if what is mapped tells which of the mappings it makes fail. -/
theorem cellDestroyInternal_bestEffort (p : Platform) (cfg : CellConfig)
    (hu : ∀ n, k.faults.unmap n = false) (s : Maps) :
    ∃ calls, ⟨cellDestroyInternal k p cfg s, calls⟩ =
        destroyWith (destroyFunctions k (stream k)) p cfg ⟨s, []⟩ ∧
      (Meets k fails s.calls calls →
        (BestEffort k fails p cfg ⟨s, []⟩ ⟨cellDestroyInternal k p cfg s, calls⟩ ↔
          Unhindered k fails p cfg)) := by
  have hmade : Made k fails ⟨s, []⟩ (destroyWith (destroyFunctions k (stream k)) p cfg ⟨s, []⟩) _ :=
    made_destroyWith p cfg ⟨s, []⟩
  obtain ⟨cs, hcalls, -, heq⟩ := hmade
  have hrun : ⟨cellDestroyInternal k p cfg s, cs⟩ =
      destroyWith (destroyFunctions k (stream k)) p cfg ⟨s, []⟩ := by
    rw [← destroyWith_maps p cfg hu ⟨s, []⟩, ← (hcalls.trans (List.nil_append cs) :)]
  refine ⟨cs, hrun, fun hm => ?_⟩
  rw [hrun, ← heq hm]
  exact ⟨fun h => h.unhindered k fails, fun h => h.bestEffort k fails _⟩

end FpMemSched.CellDestroyed
