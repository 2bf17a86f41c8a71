import FpMemSched.CellLoad

/-!
The pieces in which an image is copied to a coloured region.

Without failures the loading loops copy one piece to the fragment of the target address and one
to each fragment after it until the image ends. A failure of `ioremap` cuts the list of pieces
short, a failure of a copy does not. The hypervisor maps whole pages, from the start of a region
rounded down to a page, or from the page of the cell where the region is for communication; it
makes accesses to a region with parts of pages itself. Each piece lies where the cell finds its
part of the image if the fragments start at pages.
-/

namespace FpMemSched.LoadPieces

open FpMemSched.Coloring FpMemSched.ColoringExact FpMemSched.CellLoad

/-- `len` bytes from position `pos` of the image on go to offset `off` of the fragment. -/
structure Piece where
  frag : Memory
  off : ℕ
  len : ℕ
  pos : ℕ

/-- The pieces after the first. -/
def piecesFrom (size : ℕ) : ℕ → List Memory → List Piece
  | _, [] => []
  | pos, m :: ms =>
    if size ≤ pos then []
    else ⟨m, 0, min m.size (size - pos), pos⟩ :: piecesFrom size (pos + min m.size (size - pos)) ms

def pieces (image : PreloadImage) : List Memory → List Piece
  | [] => []
  | m :: ms =>
    if hasTarget image m then
      ⟨m, image.targetAddress - m.virtStart,
        min (m.size - (image.targetAddress - m.virtStart)) image.size, 0⟩ ::
        piecesFrom image.size (min (m.size - (image.targetAddress - m.virtStart)) image.size) ms
    else pieces image ms

lemma piecesFrom_of_le {size pos : ℕ} (h : size ≤ pos) (l : List Memory) :
    piecesFrom size pos l = [] := by
  cases l with
  | nil => rfl
  | cons m l => rw [piecesFrom, if_pos h]

/-- Where the driver copies a piece to. -/
def Piece.addr (p : Piece) : ℕ :=
  u64 (p.frag.physStart + p.off) / pageSize * pageSize + p.off % pageSize

/-- Copy pieces, the first of them being number `i`. -/
def issue (env : Env) : ℕ → ℤ → List Write → List Piece → ℤ × List Write
  | _, err, ws, [] => (err, ws)
  | i, err, ws, p :: ps =>
    if env.ioremap i = false then (eBusy, ws)
    else issue env (i + 1) (if 0 < min (env.uncopied i) p.len then eFault else err)
      (ws ++ copyFromUser p.pos p.addr p.len (env.uncopied i)) ps

lemma sub64_eq {x y : ℕ} (hx : x < 2 ^ 64) (hy : y ≤ x) : sub64 x y = x - y := by
  unfold sub64
  omega

/-- What the loops know of a fragment. -/
structure Fragment (m : Memory) : Prop where
  pos : 0 < m.size
  size : m.size < 2 ^ 64
  virt : m.virtStart < 2 ^ 64

variable {env : Env} {image : PreloadImage}

lemma hasTarget_off {m : Memory} (hm : Fragment m) (h : hasTarget image m = true) :
    m.virtStart ≤ image.targetAddress ∧ image.targetAddress - m.virtStart < m.size := by
  have hv := hm.virt
  have hs := hm.size
  obtain ⟨hlo, hhi⟩ := of_decide_eq_true h
  unfold u64 at hhi
  omega

/-- Loading a piece is issuing it. -/
lemma loadPiece_eq {m : Memory} {off : ℕ} {s : LoadState} (hm : Fragment m) (hoff : off < m.size)
    (hsize : image.size < 2 ^ 64) (hpos : s.mapOffset < image.size) :
    loadPiece env image m off s =
      let p : Piece := ⟨m, off, min (m.size - off) (image.size - s.mapOffset), s.mapOffset⟩
      if env.ioremap s.piece = false then .error (eBusy, s.writes)
      else
        let t : LoadState := ⟨true, true, p.pos + p.len,
          if 0 < min (env.uncopied s.piece) p.len then eFault else s.err, s.piece + 1,
          s.writes ++ copyFromUser p.pos p.addr p.len (env.uncopied s.piece)⟩
        if image.size ≤ p.pos + p.len then .error (t.err, t.writes) else .ok t := by
  have hs := hm.size
  have hend : u64 (s.mapOffset + min (m.size - off) (image.size - s.mapOffset)) =
      s.mapOffset + min (m.size - off) (image.size - s.mapOffset) := by
    unfold u64
    omega
  simp only [loadPiece, sub64_eq hs hoff.le, sub64_eq hsize hpos.le, hend, Piece.addr]

/-- The pieces after the first. -/
lemma foldlM_loadFragment {l : List Memory} (hl : ∀ m ∈ l, Fragment m)
    (hsize : image.size < 2 ^ 64) {s : LoadState} (hfrag : s.fragToLoad = true)
    (hfirst : s.firstMemFound = true) (hpos : s.mapOffset < image.size) :
    loadResult (l.foldlM (fun s m => loadFragment env image m s) s) =
      issue env s.piece s.err s.writes (piecesFrom image.size s.mapOffset l) := by
  induction l generalizing s with
  | nil => rfl
  | cons m l ih =>
    have hm := hl m List.mem_cons_self
    rw [List.foldlM_cons, piecesFrom, if_neg (by omega), issue]
    have hload : loadFragment env image m s = loadPiece env image m 0 s := by
      simp [loadFragment, hfrag, hfirst]
    rw [hload, loadPiece_eq hm hm.pos hsize hpos]
    simp only [Nat.sub_zero]
    by_cases hmap : env.ioremap s.piece = false
    · simp only [hmap, if_true]
      rfl
    simp only [hmap]
    by_cases hend : image.size ≤ s.mapOffset + min m.size (image.size - s.mapOffset)
    · -- the image ends with this piece
      simp only [hend, if_true]
      rw [piecesFrom_of_le hend l]
      rfl
    · simp only [hend, if_false]
      exact ih (fun m hm => hl m (List.mem_cons_of_mem _ hm)) rfl rfl (by simp only; omega)

/-- **The loading loops issue the pieces.** -/
theorem loadLoops_eq {l : List Memory} (hl : ∀ m ∈ l, Fragment m) (hsize : image.size < 2 ^ 64)
    (hpos : 0 < image.size) (htarget : image.targetAddress < 2 ^ 64) :
    loadResult (l.foldlM (fun s m => loadFragment env image m s) LoadState.init) =
      issue env 0 0 [] (pieces image l) := by
  induction l with
  | nil => rfl
  | cons m l ih =>
    have hl' := fun m hm => hl m (List.mem_cons_of_mem _ hm)
    rw [List.foldlM_cons, pieces]
    by_cases ht : hasTarget image m = true
    · -- the fragment of the target address
      have hm := hl m List.mem_cons_self
      obtain ⟨hlo, hoff⟩ := hasTarget_off hm ht
      have hload : loadFragment env image m LoadState.init =
          loadPiece env image m (image.targetAddress - m.virtStart) LoadState.init := by
        simp [loadFragment, LoadState.init, ht, sub64_eq htarget hlo, Nat.not_lt.mpr hlo]
      rw [if_pos ht, issue, hload, loadPiece_eq hm hoff hsize hpos]
      simp only [LoadState.init, Nat.sub_zero, Nat.zero_add]
      by_cases hmap : env.ioremap 0 = false
      · simp only [hmap, if_true]
        rfl
      simp only [hmap]
      by_cases hend : image.size ≤ min (m.size - (image.targetAddress - m.virtStart)) image.size
      · simp only [hend, if_true]
        rw [piecesFrom_of_le hend l]
        rfl
      · simp only [hend, if_false]
        exact foldlM_loadFragment hl' hsize rfl rfl (by simp only; omega)
    · have hload : loadFragment env image m LoadState.init = .ok LoadState.init := by
        simp [loadFragment, LoadState.init, ht]
      rw [if_neg ht, hload]
      exact ih hl'

/-! ### The fragments of a region -/

/-- The fragments follow one another in the guest, in 64-bit arithmetic. -/
def Chained : ℕ → List Memory → Prop
  | _, [] => True
  | v, m :: ms => m.virtStart = v ∧ Chained (u64 (v + m.size)) ms

lemma chained_place (d : ColorDesc) (mem : Memory) (v : ℕ) (l : List (ℕ × ℤ × ℤ)) :
    Chained v (place d mem v l) := by
  induction l generalizing v with
  | nil => trivial
  | cons c l ih => exact ⟨rfl, ih _⟩

lemma Chained.virt_lt {v : ℕ} {l : List Memory} (h : Chained v l) (hv : v < 2 ^ 64) :
    ∀ m ∈ l, m.virtStart < 2 ^ 64 := by
  induction l generalizing v with
  | nil => simp
  | cons m l ih =>
    intro m' hm'
    rcases List.mem_cons.mp hm' with rfl | hm'
    · rw [h.1]
      exact hv
    · exact ih h.2 (Nat.mod_lt _ (by decide)) m' hm'

/-- The values of the types of the source. -/
structure Typed (d : ColorDesc) (colMem : MemoryColored) : Prop where
  offset : d.fragmentUnitOffset < 2 ^ 64
  size : colMem.memory.size < 2 ^ 64
  virt : colMem.memory.virtStart < 2 ^ 64

variable {d : ColorDesc} {colMem : MemoryColored}

/-- A fragment is what a block of the mask makes of a row. -/
lemma mem_fragments {m : Memory} (hm : m ∈ fragments d colMem) :
    ∃ r i j : ℕ, i ≤ j ∧ j < d.maxColors ∧
      (m.physStart, m.size) = physOf d colMem.memory (r, (i : ℤ), (j : ℤ)) := by
  obtain ⟨bs, hbs, hcuts⟩ := cuts_spec d colMem
  have hmap : (m.physStart, m.size) ∈
      (fragments d colMem).map fun m => (m.physStart, m.size) := List.mem_map.mpr ⟨m, hm, rfl⟩
  rw [fragments, map_place, hcuts, List.mem_map] at hmap
  obtain ⟨c, hc, he⟩ := hmap
  obtain ⟨r, -, b, hb, rfl⟩ := mem_natCuts.mp hc
  obtain ⟨-, hij, hj⟩ := hbs.bounds b hb
  exact ⟨r, b.1, b.2, hij, hj, he.symm⟩

lemma Typed.fragment (h : Typed d colMem) {m : Memory} (hm : m ∈ fragments d colMem) :
    Fragment m := by
  obtain ⟨r, i, j, hij, hj, he⟩ := mem_fragments hm
  have hsize : m.size = (j - i + 1) * d.fragmentUnitSize := by
    rw [← size_physOf h.offset colMem.memory hij hj (r := r), ← he]
  have hunit : 0 < d.fragmentUnitSize := by
    rcases Nat.eq_zero_or_pos d.fragmentUnitSize with hz | hpos
    · simp [ColorDesc.maxColors, hz] at hj
    · exact hpos
  refine ⟨?_, ?_, ?_⟩
  · rw [hsize]
    exact Nat.mul_pos (by omega) hunit
  · have : m.size = (physOf d colMem.memory (r, (i : ℤ), (j : ℤ))).2 := by rw [← he]
    rw [this]
    exact Nat.mod_lt _ (by decide)
  · exact (chained_place d colMem.memory _ _).virt_lt h.virt m hm

lemma fragments_flags {m : Memory} (hm : m ∈ fragments d colMem) :
    m.flags = colMem.memory.flags := by
  have hplace : ∀ (v : ℕ) (l : List (ℕ × ℤ × ℤ)), ∀ m ∈ place d colMem.memory v l,
      m.flags = colMem.memory.flags := by
    intro v l
    induction l generalizing v with
    | nil => simp [place]
    | cons c l ih =>
      intro m hm
      rcases List.mem_cons.mp hm with rfl | hm
      · rfl
      · exact ih _ m hm
  exact hplace _ _ m hm

/-- Fragments start at pages if the region, the units and the rows do. -/
lemma physStart_aligned (hphys : colMem.memory.physStart % pageSize = 0)
    (hunit : d.fragmentUnitSize % pageSize = 0) (hoffset : d.fragmentUnitOffset % pageSize = 0)
    {m : Memory} (hm : m ∈ fragments d colMem) : m.physStart % pageSize = 0 := by
  obtain ⟨r, i, j, -, -, he⟩ := mem_fragments hm
  have hstart : m.physStart = u64 (colMem.memory.physStart + i * d.fragmentUnitSize +
      r * d.fragmentUnitOffset) := congrArg Prod.fst he
  have hsum : pageSize ∣ colMem.memory.physStart + i * d.fragmentUnitSize +
      r * d.fragmentUnitOffset :=
    Nat.dvd_add (Nat.dvd_add (Nat.dvd_of_mod_eq_zero hphys)
      (Nat.dvd_mul_left_of_dvd (Nat.dvd_of_mod_eq_zero hunit) i))
      (Nat.dvd_mul_left_of_dvd (Nat.dvd_of_mod_eq_zero hoffset) r)
  rw [hstart, u64]
  exact Nat.mod_eq_zero_of_dvd ((Nat.dvd_mod_iff (by decide)).mpr hsum)

/-! ### Where the pieces lie -/

/-- The physical address of byte `o` of a region; `comm` is the communication page of the cell.
`mmio_handle_subpage` adds up the offsets within a page, and cannot reach behind the page that it
maps. -/
def physAddr (comm : ℕ) (m : Memory) (o : ℕ) : Option ℕ :=
  if m.isSubpage then
    if m.physStart % pageSize + o % pageSize < pageSize then
      some (u64 (m.physStart + o) / pageSize * pageSize + (m.physStart % pageSize + o % pageSize))
    else none
  else some (u64 ((if m.flags.commRegion then comm else m.physStart) / pageSize * pageSize + o))

/-- What a region that has the guest address `g` gives for it. -/
def Translates (comm : ℕ) (l : List Memory) (g : ℕ) (a : Option ℕ) : Prop :=
  ∃ m ∈ l, ∃ o < m.size, g = u64 (m.virtStart + o) ∧ a = physAddr comm m o

/-- From offset `off` of the region on, what the driver adds to `phys_start` stays within the page
that is mapped. -/
def Hits (comm : ℕ) (m : Memory) (off : ℕ) : Prop :=
  if m.isSubpage then m.physStart % pageSize = 0
  else if m.flags.commRegion then
    u64 (m.physStart + off % pageSize) / pageSize = u64 comm / pageSize
  else m.physStart % pageSize + off % pageSize < pageSize

instance (comm : ℕ) (m : Memory) (off : ℕ) : Decidable (Hits comm m off) :=
  inferInstanceAs (Decidable (ite _ _ _))

variable {comm : ℕ}

lemma hits_of_aligned {m : Memory} (hphys : m.physStart % pageSize = 0)
    (hcomm : m.flags.commRegion = false) (off : ℕ) : Hits comm m off := by
  have hlt : off % pageSize < pageSize := Nat.mod_lt _ (by decide)
  by_cases hsub : m.isSubpage = true <;> simp [Hits, hsub, hcomm, hphys, hlt]

/-- The driver finds a byte of a piece where the cell does exactly if it finds the first one. -/
lemma Piece.addr_iff {p : Piece} (t : ℕ) :
    physAddr comm p.frag (p.off + t) = some (u64 (p.addr + t)) ↔ Hits comm p.frag p.off := by
  by_cases hsub : p.frag.isSubpage = true
  · rw [physAddr, if_pos hsub, Hits, if_pos hsub]
    by_cases hfit : p.frag.physStart % pageSize + (p.off + t) % pageSize < pageSize
    · rw [if_pos hfit, Option.some_inj]
      unfold Piece.addr pageSize u64 at *
      omega
    · rw [if_neg hfit]
      refine iff_of_false (Option.some_ne_none _).symm fun h => hfit ?_
      rw [h, Nat.zero_add]
      exact Nat.mod_lt _ (by decide)
  · rw [physAddr, if_neg hsub, Hits, if_neg hsub, Option.some_inj]
    by_cases hcomm : p.frag.flags.commRegion = true
    · rw [if_pos hcomm, if_pos hcomm]
      unfold Piece.addr pageSize u64
      omega
    · rw [if_neg hcomm, if_neg hcomm]
      unfold Piece.addr pageSize u64
      omega

/-- Guest addresses of chained fragments are counted from the first. -/
lemma Chained.translates {v : ℕ} {l : List Memory} (h : Chained v l) {g : ℕ} {a : Option ℕ}
    (ht : Translates comm l g a) : ∃ q < (l.map Memory.size).sum, g = u64 (v + q) := by
  induction l generalizing v with
  | nil =>
    obtain ⟨m, hm, -⟩ := ht
    simp at hm
  | cons m l ih =>
    obtain ⟨m', hm', o, ho, hg, ha⟩ := ht
    rw [List.map_cons, List.sum_cons]
    rcases List.mem_cons.mp hm' with rfl | hm'
    · exact ⟨o, by omega, by rw [hg, h.1]⟩
    · obtain ⟨q, hq, hg⟩ := ih h.2 ⟨m', hm', o, ho, hg, ha⟩
      refine ⟨m.size + q, by omega, ?_⟩
      rw [hg]
      unfold u64
      omega

/-- Chained fragments that do not go around the address space map a guest address once. -/
lemma Chained.unique {v : ℕ} {l : List Memory} (h : Chained v l)
    (hl : (l.map Memory.size).sum < 2 ^ 64) {g : ℕ} {a b : Option ℕ} (ha : Translates comm l g a)
    (hb : Translates comm l g b) : a = b := by
  induction l generalizing v with
  | nil =>
    obtain ⟨m, hm, -⟩ := ha
    simp at hm
  | cons m l ih =>
    rw [List.map_cons, List.sum_cons] at hl
    -- a guest address of the head is none of the tail
    have hne : ∀ o < m.size, ∀ a, ¬ Translates comm l (u64 (m.virtStart + o)) a := by
      intro o ho a ht
      obtain ⟨q, hq, hg⟩ := h.2.translates ht
      rw [h.1] at hg
      unfold u64 at hg
      omega
    obtain ⟨m₁, hm₁, o₁, ho₁, hg₁, rfl⟩ := ha
    obtain ⟨m₂, hm₂, o₂, ho₂, hg₂, rfl⟩ := hb
    rcases List.mem_cons.mp hm₁ with rfl | h₁ <;> rcases List.mem_cons.mp hm₂ with rfl | h₂
    · have : o₁ = o₂ := by
        rw [hg₁] at hg₂
        unfold u64 at hg₂
        omega
      rw [this]
    · exact absurd ⟨m₂, h₂, o₂, ho₂, hg₁ ▸ hg₂, rfl⟩ (hne o₁ ho₁ _)
    · exact absurd ⟨m₁, h₁, o₁, ho₁, hg₂ ▸ hg₁, rfl⟩ (hne o₂ ho₂ _)
    · exact ih h.2 (by omega) ⟨m₁, h₁, o₁, ho₁, hg₁, rfl⟩ ⟨m₂, h₂, o₂, ho₂, hg₂, rfl⟩

/-- A fragment translates each address once. -/
lemma Typed.unique (h : Typed d colMem) {g : ℕ} {a b : Option ℕ}
    (ha : Translates comm (fragments d colMem) g a)
    (hb : Translates comm (fragments d colMem) g b) : a = b := by
  refine (chained_place d colMem.memory _ _).unique ?_ ha hb
  have hsum : ((place d colMem.memory colMem.memory.virtStart
      (cuts d (fun _ => false) colMem)).map Memory.size).sum =
      span d colMem.memory (cuts d (fun _ => false) colMem) := by
    have hmap := congrArg (List.map Prod.snd) (map_place d colMem.memory colMem.memory.virtStart
      (cuts d (fun _ => false) colMem))
    simp only [List.map_map, Function.comp_def] at hmap
    rw [span, ← hmap]
  rw [hsum]
  exact Nat.lt_of_le_of_lt (span_cuts_le colMem h.offset) h.size

/-- A piece is a part of a fragment, and of the image, and both belong together. -/
structure Lies (image : PreloadImage) (l : List Memory) (p : Piece) : Prop where
  mem : p.frag ∈ l
  pos : 0 < p.len
  len : p.off + p.len ≤ p.frag.size
  size : p.pos + p.len ≤ image.size
  guest : u64 (image.targetAddress + p.pos) = u64 (p.frag.virtStart + p.off)

lemma Lies.cons {l : List Memory} {p : Piece} (h : Lies image l p) (m : Memory) :
    Lies image (m :: l) p :=
  ⟨List.mem_cons_of_mem _ h.mem, h.pos, h.len, h.size, h.guest⟩

/-- The pieces follow one another in the image. -/
def Consecutive : ℕ → List Piece → Prop
  | _, [] => True
  | k, p :: ps => p.pos = k ∧ Consecutive (k + p.len) ps

lemma piecesFrom_spec {v pos : ℕ} {l : List Memory} (hl : ∀ m ∈ l, Fragment m)
    (h : Chained v l) (hg : u64 (image.targetAddress + pos) = v) :
    (∀ p ∈ piecesFrom image.size pos l, Lies image l p) ∧
      Consecutive pos (piecesFrom image.size pos l) := by
  induction l generalizing v pos with
  | nil => exact ⟨by simp [piecesFrom], trivial⟩
  | cons m l ih =>
    by_cases hpos : image.size ≤ pos
    · rw [piecesFrom_of_le hpos]
      exact ⟨by simp, trivial⟩
    have hm := hl m List.mem_cons_self
    rw [piecesFrom, if_neg hpos]
    have hhead : Lies image (m :: l) ⟨m, 0, min m.size (image.size - pos), pos⟩ := by
      have := hm.pos
      refine ⟨List.mem_cons_self, by simp only; omega, by simp only; omega, by simp only; omega, ?_⟩
      rw [Nat.add_zero, hg, ← h.1]
      exact (Nat.mod_eq_of_lt hm.virt).symm
    by_cases hend : image.size ≤ pos + min m.size (image.size - pos)
    · rw [piecesFrom_of_le hend]
      exact ⟨by simpa using hhead, rfl, trivial⟩
    · have hnext : u64 (image.targetAddress + (pos + min m.size (image.size - pos))) =
          u64 (v + m.size) := by
        rw [← hg]
        unfold u64
        omega
      obtain ⟨hlies, hcons⟩ := ih (fun m hm => hl m (List.mem_cons_of_mem _ hm)) h.2 hnext
      refine ⟨fun p hp => ?_, rfl, hcons⟩
      rcases List.mem_cons.mp hp with rfl | hp
      · exact hhead
      · exact (hlies p hp).cons m

lemma pieces_spec {v : ℕ} {l : List Memory} (hl : ∀ m ∈ l, Fragment m) (h : Chained v l)
    (hpos : 0 < image.size) :
    (∀ p ∈ pieces image l, Lies image l p) ∧ Consecutive 0 (pieces image l) := by
  induction l generalizing v with
  | nil => exact ⟨by simp [pieces], trivial⟩
  | cons m l ih =>
    have hl' := fun m hm => hl m (List.mem_cons_of_mem _ hm)
    by_cases ht : hasTarget image m = true
    · have hm := hl m List.mem_cons_self
      obtain ⟨hlo, hoff⟩ := hasTarget_off hm ht
      rw [pieces, if_pos ht]
      have hhead : Lies image (m :: l) ⟨m, image.targetAddress - m.virtStart,
          min (m.size - (image.targetAddress - m.virtStart)) image.size, 0⟩ := by
        refine ⟨List.mem_cons_self, by simp only; omega, by simp only; omega, by simp only; omega, ?_⟩
        simp only [Nat.add_zero]
        congr 1
        omega
      by_cases hend : image.size ≤ min (m.size - (image.targetAddress - m.virtStart)) image.size
      · rw [piecesFrom_of_le hend]
        exact ⟨by simpa using hhead, rfl, trivial⟩
      · have hnext : u64 (image.targetAddress +
            min (m.size - (image.targetAddress - m.virtStart)) image.size) =
            u64 (v + m.size) := by
          rw [← h.1]
          congr 1
          omega
        obtain ⟨hlies, hcons⟩ := piecesFrom_spec hl' h.2 hnext
        refine ⟨fun p hp => ?_, rfl, by simpa using hcons⟩
        rcases List.mem_cons.mp hp with rfl | hp
        · exact hhead
        · exact (hlies p hp).cons m
    · rw [pieces, if_neg ht]
      obtain ⟨hlies, hcons⟩ := ih hl' h.2
      exact ⟨fun p hp => (hlies p hp).cons m, hcons⟩

/-! ### What is written -/

lemma mem_copyFromUser {pos addr len u : ℕ} {w : Write} (hw : w ∈ copyFromUser pos addr len u) :
    ∃ t < len, w.pos = pos + t ∧ w.addr = u64 (addr + t) := by
  obtain ⟨t, ht, rfl⟩ := List.mem_map.mp hw
  exact ⟨t, List.mem_range.mp ht, rfl, rfl⟩

/-- Pieces are written in the order of the image. -/
lemma issue_pos {i : ℕ} {err : ℤ} {ws : List Write} {ps : List Piece}
    (hws : ws.map Write.pos = List.range ws.length) (hps : Consecutive ws.length ps) :
    (issue env i err ws ps).2.map Write.pos = List.range (issue env i err ws ps).2.length := by
  induction ps generalizing i err ws with
  | nil => exact hws
  | cons p ps ih =>
    rw [issue]
    by_cases hmap : env.ioremap i = false
    · rw [if_pos hmap]
      exact hws
    · rw [if_neg hmap]
      have hlen : (ws ++ copyFromUser p.pos p.addr p.len (env.uncopied i)).length =
          ws.length + p.len := by
        simp [copyFromUser]
      apply ih
      · rw [hlen, List.map_append, hws, List.range_add, copyFromUser, List.map_map, hps.1]
        rfl
      · rw [hlen]
        exact hps.2

lemma mem_issue {i : ℕ} {err : ℤ} {ws : List Write} {ps : List Piece} {w : Write}
    (hw : w ∈ (issue env i err ws ps).2) :
    w ∈ ws ∨ ∃ p ∈ ps, ∃ t < p.len, w.pos = p.pos + t ∧ w.addr = u64 (p.addr + t) := by
  induction ps generalizing i err ws with
  | nil => exact Or.inl hw
  | cons p ps ih =>
    rw [issue] at hw
    by_cases hmap : env.ioremap i = false
    · rw [if_pos hmap] at hw
      exact Or.inl hw
    · rw [if_neg hmap] at hw
      rcases ih hw with hw | ⟨q, hq, h⟩
      · rcases List.mem_append.mp hw with hw | hw
        · exact Or.inl hw
        · exact Or.inr ⟨p, List.mem_cons_self, mem_copyFromUser hw⟩
      · exact Or.inr ⟨q, List.mem_cons_of_mem _ hq, h⟩

/-- A byte of a piece has its place in the fragment. -/
lemma Lies.place {l : List Memory} {p : Piece} (h : Lies image l p) {t : ℕ} (ht : t < p.len) :
    Translates comm l (u64 (image.targetAddress + (p.pos + t)))
      (physAddr comm p.frag (p.off + t)) := by
  have hlen := h.len
  have hguest := h.guest
  refine ⟨p.frag, h.mem, p.off + t, by omega, ?_, rfl⟩
  unfold u64 at *
  omega

/-- The address of byte `t` of a piece, in the fragment. -/
lemma Lies.translates {l : List Memory} {p : Piece} (h : Lies image l p)
    (hhit : Hits comm p.frag p.off) {t : ℕ} (ht : t < p.len) :
    Translates comm l (u64 (image.targetAddress + (p.pos + t))) (some (u64 (p.addr + t))) := by
  rw [← (Piece.addr_iff t).mpr hhit]
  exact h.place ht

/-- Nothing fails. -/
def calm : Env := ⟨true, fun _ => true, fun _ => 0⟩

/-- Two colours of a page each, and a region with the second of them. -/
def halfRegion : MemoryColored := ⟨⟨0x100000, 0, 0x4000, ⟨true, false, true, false⟩⟩, 1⟩

/-- Rows of a page and a hundred bytes, with one colour. -/
def oddRegion : MemoryColored := ⟨⟨0x100000, 0, 8392, ⟨true, false, true, false⟩⟩, 1⟩

/-- A page of one colour for communication that images may be loaded to. -/
def commRegion : MemoryColored := ⟨⟨0x100000, 0, 0x1000, ⟨true, true, true, false⟩⟩, 1⟩

end FpMemSched.LoadPieces
