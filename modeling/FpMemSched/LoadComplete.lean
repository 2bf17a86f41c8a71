import FpMemSched.LoadPieces
import Mathlib.Data.List.Forall2
import Mathlib.Data.List.Nodup

/-!
When `jailhouse_cmd_cell_load` may be believed.

A coloured region is chosen by its span in memory and by the size of all its fragments. If the
target address lies behind its fragments, or too close to their end, the loops run out of
fragments and report success. Otherwise the command returns 0 only when all bytes have been
copied, and they are where the cell finds them if the driver hits the pages that are mapped.
-/

namespace FpMemSched.LoadComplete

open FpMemSched.Coloring FpMemSched.ColoringExact FpMemSched.CellLoad FpMemSched.LoadPieces

/-- The bytes of the fragments from the target address on. -/
def room (image : PreloadImage) : List Memory → ℕ
  | [] => 0
  | m :: ms =>
    if hasTarget image m then
      m.size - (image.targetAddress - m.virtStart) + (ms.map Memory.size).sum
    else room image ms

variable {env : Env} {image : PreloadImage}

/-- The total length of the pieces. -/
def total (ps : List Piece) : ℕ := (ps.map Piece.len).sum

lemma total_cons (p : Piece) (ps : List Piece) : total (p :: ps) = p.len + total ps := by
  simp [total]

lemma total_piecesFrom (size pos : ℕ) (l : List Memory) :
    total (piecesFrom size pos l) = min (size - pos) (l.map Memory.size).sum := by
  induction l generalizing pos with
  | nil => simp [piecesFrom, total]
  | cons m l ih =>
    by_cases hpos : size ≤ pos
    · rw [piecesFrom_of_le hpos]
      simp only [total, List.map_nil, List.sum_nil]
      omega
    · rw [piecesFrom, if_neg hpos]
      rw [total_cons, ih, List.map_cons, List.sum_cons]
      simp only
      omega

/-- The pieces take what there is room for. -/
lemma total_pieces (l : List Memory) : total (pieces image l) = min image.size (room image l) := by
  induction l with
  | nil => simp [pieces, total, room]
  | cons m l ih =>
    by_cases ht : hasTarget image m = true
    · rw [pieces, room, if_pos ht, if_pos ht, total_cons, total_piecesFrom]
      simp only
      omega
    · rw [pieces, room, if_neg ht, if_neg ht, ih]

/-! ### Success and failure of the copies -/

/-- No piece fails. -/
def Calm (env : Env) (i : ℕ) (ps : List Piece) : Prop :=
  ∀ k < ps.length, env.ioremap (i + k) = true ∧ env.uncopied (i + k) = 0

lemma calm_cons {i : ℕ} {p : Piece} {ps : List Piece} :
    Calm env i (p :: ps) ↔
      (env.ioremap i = true ∧ env.uncopied i = 0) ∧ Calm env (i + 1) ps := by
  constructor
  · intro h
    refine ⟨h 0 (by simp), fun k hk => ?_⟩
    have := h (k + 1) (by simpa using hk)
    rwa [show i + (k + 1) = i + 1 + k by omega] at this
  · rintro ⟨h₀, h⟩ k hk
    cases k with
    | zero => exact h₀
    | succ k =>
      have := h k (by simpa using hk)
      rwa [show i + 1 + k = i + (k + 1) by omega] at this

/-- All that a calm run writes comes from the image. -/
lemma issue_calm {i : ℕ} {err : ℤ} {ws : List Write} {ps : List Piece} (h : Calm env i ps) :
    issue env i err ws ps = (err, ws ++ ps.flatMap fun p => copyFromUser p.pos p.addr p.len 0) := by
  induction ps generalizing i ws with
  | nil => simp [issue]
  | cons p ps ih =>
    obtain ⟨⟨hmap, hcopy⟩, hrest⟩ := calm_cons.mp h
    rw [issue, if_neg (by simp [hmap]), hcopy, Nat.zero_min, if_neg (Nat.lt_irrefl 0), ih hrest]
    simp

/-- A failed copy is remembered. -/
lemma issue_ne_zero {i : ℕ} {err : ℤ} {ws : List Write} {ps : List Piece} (h : err ≠ 0) :
    (issue env i err ws ps).1 ≠ 0 := by
  induction ps generalizing i err ws with
  | nil => exact h
  | cons p ps ih =>
    rw [issue]
    by_cases hmap : env.ioremap i = false
    · rw [if_pos hmap]
      simp [eBusy]
    rw [if_neg hmap]
    apply ih
    split_ifs
    · simp [eFault]
    · exact h

/-- The copies report success only without failures. -/
lemma calm_of_issue {i : ℕ} {err : ℤ} {ws : List Write} {ps : List Piece}
    (hps : ∀ p ∈ ps, 0 < p.len) (h : (issue env i err ws ps).1 = 0) : Calm env i ps := by
  induction ps generalizing i err ws with
  | nil =>
    intro k hk
    simp at hk
  | cons p ps ih =>
    rw [issue] at h
    by_cases hmap : env.ioremap i = false
    · rw [if_pos hmap] at h
      simp [eBusy] at h
    rw [if_neg hmap] at h
    by_cases hcopy : env.uncopied i = 0
    · exact calm_cons.mpr ⟨⟨by simpa using hmap, hcopy⟩,
        ih (fun p hp => hps p (List.mem_cons_of_mem _ hp)) h⟩
    · have hlen := hps p List.mem_cons_self
      rw [if_pos (by omega)] at h
      exact absurd h (issue_ne_zero (by simp [eFault]))

/-- Byte `k` has been copied. -/
def Copied (ws : List Write) (k : ℕ) : Prop := ∃ w ∈ ws, w.pos = k ∧ w.fromImage = true

lemma copied_append {ws ws' : List Write} {k : ℕ} :
    Copied (ws ++ ws') k ↔ Copied ws k ∨ Copied ws' k := by
  simp only [Copied, List.mem_append, or_and_right, exists_or]

lemma copied_copyFromUser {pos addr len u k : ℕ} :
    Copied (copyFromUser pos addr len u) k ↔ ∃ t < len, k = pos + t ∧ t < len - u := by
  constructor
  · rintro ⟨w, hw, rfl, himg⟩
    obtain ⟨t, ht, rfl⟩ := List.mem_map.mp hw
    exact ⟨t, List.mem_range.mp ht, rfl, of_decide_eq_true himg⟩
  · rintro ⟨t, ht, rfl, himg⟩
    exact ⟨_, List.mem_map.mpr ⟨t, List.mem_range.mpr ht, rfl⟩, rfl, decide_eq_true himg⟩

/-- No later piece writes to an earlier position. -/
lemma issue_low {i k n : ℕ} {err : ℤ} {ws : List Write} {ps : List Piece}
    (hps : Consecutive n ps) (hk : k < n) (h : Copied (issue env i err ws ps).2 k) :
    Copied ws k := by
  induction ps generalizing i err ws n with
  | nil => exact h
  | cons p ps ih =>
    rw [issue] at h
    by_cases hmap : env.ioremap i = false
    · rw [if_pos hmap] at h
      exact h
    rw [if_neg hmap] at h
    rcases copied_append.mp (ih hps.2 (by omega) h) with h | h
    · exact h
    · obtain ⟨t, -, hpos, -⟩ := copied_copyFromUser.mp h
      have := hps.1
      omega

/-- A failure leaves a byte of the pieces out. -/
lemma issue_lost {i n : ℕ} {err : ℤ} {ws : List Write} {ps : List Piece}
    (hps : ∀ p ∈ ps, 0 < p.len) (hcons : Consecutive n ps) (hws : ∀ w ∈ ws, w.pos < n)
    (h : ¬ Calm env i ps) :
    ∃ k, n ≤ k ∧ k < n + total ps ∧ ¬ Copied (issue env i err ws ps).2 k := by
  induction ps generalizing i err ws n with
  | nil => exact absurd (fun k hk => by simp at hk) h
  | cons p ps ih =>
    have hlen := hps p List.mem_cons_self
    have hpos := hcons.1
    have htotal := total_cons p ps
    have hlow : ∀ k, n ≤ k → ¬ Copied ws k := by
      rintro k hk ⟨w, hw, rfl, -⟩
      exact absurd (hws w hw) (by omega)
    rw [issue]
    by_cases hmap : env.ioremap i = false
    · rw [if_pos hmap]
      exact ⟨n, le_rfl, by omega, hlow n le_rfl⟩
    rw [if_neg hmap]
    by_cases hcopy : env.uncopied i = 0
    · -- the failure comes later
      have hrest : ¬ Calm env (i + 1) ps :=
        fun hc => h (calm_cons.mpr ⟨⟨by simpa using hmap, hcopy⟩, hc⟩)
      have hws' : ∀ w ∈ ws ++ copyFromUser p.pos p.addr p.len (env.uncopied i),
          w.pos < n + p.len := by
        intro w hw
        rcases List.mem_append.mp hw with hw | hw
        · have := hws w hw
          omega
        · obtain ⟨t, ht, hw, -⟩ := mem_copyFromUser hw
          omega
      obtain ⟨k, hlo, hhi, hk⟩ := ih (fun p hp => hps p (List.mem_cons_of_mem _ hp)) hcons.2 hws'
        hrest
      exact ⟨k, by omega, by omega, hk⟩
    · -- the last byte of the piece is filled with zeros
      refine ⟨n + p.len - 1, by omega, by omega, fun hk => ?_⟩
      rcases copied_append.mp (issue_low hcons.2 (by omega) hk) with hk | hk
      · exact hlow _ (by omega) hk
      · obtain ⟨t, ht, hkt, hlt⟩ := copied_copyFromUser.mp hk
        omega

/-- Each position of consecutive pieces is in one of them. -/
lemma exists_piece {n k : ℕ} {ps : List Piece} (h : Consecutive n ps) (hlo : n ≤ k)
    (hhi : k < n + total ps) : ∃ p ∈ ps, ∃ t < p.len, k = p.pos + t := by
  induction ps generalizing n with
  | nil =>
    simp only [total, List.map_nil, List.sum_nil] at hhi
    omega
  | cons p ps ih =>
    have htotal := total_cons p ps
    by_cases hk : k < n + p.len
    · exact ⟨p, List.mem_cons_self, k - n, by omega, by rw [h.1]; omega⟩
    · obtain ⟨q, hq, hk⟩ := ih h.2 (by omega) (by omega)
      exact ⟨q, List.mem_cons_of_mem _ hq, hk⟩

lemma piece_pos_lt {n : ℕ} {ps : List Piece} (h : Consecutive n ps) {p : Piece}
    (hp : p ∈ ps) {t : ℕ} (ht : t < p.len) : p.pos + t < n + total ps := by
  induction ps generalizing n with
  | nil => simp at hp
  | cons q ps ih =>
    have htotal := total_cons q ps
    rcases List.mem_cons.mp hp with rfl | hp
    · have := h.1
      omega
    · have := ih h.2 hp
      omega

/-! ### Images where the cell finds them -/

variable {d : ColorDesc} {stack stack' : ℕ → Bool} {comm : ℕ} {cell : Cell} {a : Attempt}

/-- The cell's mapping, by plain regions and by the fragments of coloured ones. -/
def CellMaps (d : ColorDesc) (stack' : ℕ → Bool) (comm : ℕ) (cell : Cell) (g : ℕ) (x : Option ℕ) :
    Prop :=
  Translates comm cell.memoryRegions g x ∨
    ∃ colMem ∈ cell.memoryRegionsColored, Translates comm (created d stack' colMem) g x

/-- All bytes of the image have been copied to their places. -/
def Loaded (d : ColorDesc) (stack' : ℕ → Bool) (comm : ℕ) (cell : Cell) (image : PreloadImage)
    (ws : List Write) : Prop :=
  ∀ k < image.size, ∃ w ∈ ws, w.pos = k ∧ w.fromImage = true ∧
    CellMaps d stack' comm cell (u64 (image.targetAddress + k)) (some w.addr)

/-- The image goes to the coloured region `colMem`, and nothing fails. -/
def Undisturbed (d : ColorDesc) (stack : ℕ → Bool) (cell : Cell) (a : Attempt)
    (colMem : MemoryColored) : Prop :=
  a.colored.fetch = true ∧
    cell.memoryRegionsColored.find? (mayTake d stack a.image) = some colMem ∧
    Calm a.colored 0 (pieces a.image (fragments d colMem))

/-- The memory that is found for the image suits it: the fragments of the coloured region have
room from the target address on, and the driver hits the pages that are mapped. -/
def Suitable (d : ColorDesc) (stack : ℕ → Bool) (comm : ℕ) (cell : Cell) (a : Attempt) : Prop :=
  a.image.size ≠ 0 →
    (∀ colMem, Undisturbed d stack cell a colMem →
      a.image.size ≤ room a.image (fragments d colMem) ∧
        ∀ p ∈ pieces a.image (fragments d colMem), Hits comm p.frag p.off) ∧
    ((∀ colMem, ¬ Undisturbed d stack cell a colMem) →
      ∀ mem, cell.memoryRegions.find? (Memory.hasTarget · a.image) = some mem →
        Hits comm mem (a.image.targetAddress - mem.virtStart))

/-- The values of the types of the source. -/
structure TypedCell (d : ColorDesc) (cell : Cell) : Prop where
  colored : ∀ colMem ∈ cell.memoryRegionsColored, Typed d colMem
  size : ∀ mem ∈ cell.memoryRegions, mem.size < 2 ^ 64

structure TypedImage (image : PreloadImage) : Prop where
  size : image.size < 2 ^ 64
  target : image.targetAddress < 2 ^ 64

/-- What a try at coloured memory comes to. -/
lemma loadImageColored_cases (hcell : TypedCell d cell) (himage : TypedImage a.image)
    (hsize : a.image.size ≠ 0) :
    (∃ colMem, a.colored.fetch = true ∧
      cell.memoryRegionsColored.find? (mayTake d stack a.image) = some colMem ∧
      loadImageColored d stack a.colored cell a.image =
        issue a.colored 0 0 [] (pieces a.image (fragments d colMem))) ∨
    (∀ colMem, ¬ Undisturbed d stack cell a colMem) ∧
      (loadImageColored d stack a.colored cell a.image).1 ≠ 0 ∧
      (loadImageColored d stack a.colored cell a.image).2 = [] := by
  by_cases hfetch : a.colored.fetch = false
  · right
    refine ⟨fun colMem h => ?_, ?_, ?_⟩
    · exact absurd (hfetch ▸ h.1) (by simp)
    · simp [loadImageColored, hfetch, eFault]
    · simp [loadImageColored, hfetch]
  rcases hfind : cell.memoryRegionsColored.find? (mayTake d stack a.image) with _ | colMem
  · right
    refine ⟨fun colMem h => ?_, ?_, ?_⟩
    · exact absurd (hfind ▸ h.2.1) (by simp)
    · simp [loadImageColored, hfetch, hfind, hsize]
    · simp [loadImageColored, hfetch, hfind, hsize]
  · left
    have htyped := hcell.colored colMem (List.mem_of_find?_eq_some hfind)
    refine ⟨colMem, by simpa using hfetch, rfl, ?_⟩
    rw [← loadLoops_eq (fun m hm => htyped.fragment hm) himage.size (Nat.pos_of_ne_zero hsize)
      himage.target, ← walkFragments_eq (loadFragment a.colored a.image) d stack colMem]
    simp [loadImageColored, hfetch, hfind, hsize]

/-- What a try at plain memory comes to when it succeeds. -/
lemma loadImage_zero (hcell : TypedCell d cell) (himage : TypedImage a.image)
    (hsize : a.image.size ≠ 0) (h : (loadImage a.plain cell a.image).1 = 0) :
    ∃ p : Piece, cell.memoryRegions.find? (Memory.hasTarget · a.image) = some p.frag ∧
      Lies a.image cell.memoryRegions p ∧ p.off = a.image.targetAddress - p.frag.virtStart ∧
      p.pos = 0 ∧ p.len = a.image.size ∧
      (loadImage a.plain cell a.image).2 = copyFromUser p.pos p.addr p.len 0 := by
  by_cases hfetch : a.plain.fetch = false
  · simp [loadImage, hfetch, eFault] at h
  rcases hfind : cell.memoryRegions.find? (Memory.hasTarget · a.image) with _ | mem
  · simp [loadImage, hfetch, hfind, hsize, eInval] at h
  have hmem := List.mem_of_find?_eq_some hfind
  have hms := hcell.size mem hmem
  have htarget : Memory.hasTarget mem a.image = true := by simpa using List.find?_some hfind
  obtain ⟨hlo, hoff⟩ := of_decide_eq_true htarget
  rw [sub64_eq himage.target hlo] at hoff
  simp only [loadImage, if_neg hfetch, if_neg hsize, hfind, sub64_eq himage.target hlo,
    sub64_eq hms hoff.le] at h ⊢
  split_ifs at h ⊢ with hbad hmap hcopy
  · simp [eInval] at h
  · simp [eBusy] at h
  · simp [eFault] at h
  · refine ⟨⟨mem, a.image.targetAddress - mem.virtStart, a.image.size, 0⟩, rfl,
      ⟨hmem, Nat.pos_of_ne_zero hsize, by simp only; omega, by simp only; omega, ?_⟩,
      rfl, rfl, rfl, ?_⟩
    · simp only [Nat.add_zero]
      congr 1
      omega
    · simp only [copyFromUser, Nat.sub_zero, Piece.addr]
      refine List.map_congr_left fun t ht => ?_
      have ht := List.mem_range.mp ht
      have hall : t < a.image.size - a.plain.uncopied 0 := by omega
      simp [ht, hall]

/-- What loading an image comes to when it succeeds: all pieces are copied to the coloured region,
or the coloured region, if there is one, misses a byte and the plain region gets all of them. -/
lemma loadOne_cases (hcell : TypedCell d cell) (himage : TypedImage a.image)
    (hsize : a.image.size ≠ 0) (h : (loadOne d stack cell a).1 = 0) :
    (∃ colMem ∈ cell.memoryRegionsColored, Undisturbed d stack cell a colMem ∧
      (loadOne d stack cell a).2 = (pieces a.image (fragments d colMem)).flatMap
        fun p => copyFromUser p.pos p.addr p.len 0) ∨
    (∀ colMem, ¬ Undisturbed d stack cell a colMem) ∧
      ∃ ws, (∃ k < a.image.size, ¬ Copied ws k) ∧
      ∃ p : Piece, cell.memoryRegions.find? (Memory.hasTarget · a.image) = some p.frag ∧
        Lies a.image cell.memoryRegions p ∧ p.off = a.image.targetAddress - p.frag.virtStart ∧
        p.pos = 0 ∧ p.len = a.image.size ∧
        (loadOne d stack cell a).2 = ws ++ copyFromUser p.pos p.addr p.len 0 := by
  -- the second try, after the first wrote `o.2`
  have hplain : ∀ o : ℤ × List Write, o.1 ≠ 0 → (∃ k < a.image.size, ¬ Copied o.2 k) →
      loadOne d stack cell a = ((loadImage a.plain cell a.image).1,
        o.2 ++ (loadImage a.plain cell a.image).2) →
      ∃ ws, (∃ k < a.image.size, ¬ Copied ws k) ∧
      ∃ p : Piece, cell.memoryRegions.find? (Memory.hasTarget · a.image) = some p.frag ∧
        Lies a.image cell.memoryRegions p ∧ p.off = a.image.targetAddress - p.frag.virtStart ∧
        p.pos = 0 ∧ p.len = a.image.size ∧
        (loadOne d stack cell a).2 = ws ++ copyFromUser p.pos p.addr p.len 0 := by
    intro o ho hk hone
    rw [hone] at h
    obtain ⟨p, hfind, hlies, hoff, hpos, hlen, hws⟩ := loadImage_zero hcell himage hsize h
    exact ⟨o.2, hk, p, hfind, hlies, hoff, hpos, hlen, by rw [hone, hws]⟩
  have hnone : ∃ k < a.image.size, ¬ Copied [] k :=
    ⟨0, Nat.pos_of_ne_zero hsize, by simp [Copied]⟩
  by_cases hempty : cell.memoryRegionsColored = []
  · refine Or.inr ⟨fun colMem hu => ?_, hplain (1, []) (by simp) hnone (by simp [loadOne, hempty])⟩
    have := hu.2.1
    simp [hempty] at this
  have hone : loadOne d stack cell a =
      if (loadImageColored d stack a.colored cell a.image).1 ≠ 0 then
        ((loadImage a.plain cell a.image).1,
          (loadImageColored d stack a.colored cell a.image).2 ++
            (loadImage a.plain cell a.image).2)
      else loadImageColored d stack a.colored cell a.image := by
    simp only [loadOne, hempty, if_false]
  rcases @loadImageColored_cases d stack cell a hcell himage hsize with
    ⟨colMem, hfetch, hfind, hissue⟩ | ⟨hnot, hne, hws⟩
  · have hmem := List.mem_of_find?_eq_some hfind
    have htyped := hcell.colored colMem hmem
    obtain ⟨hlies, hcons⟩ := pieces_spec (fun m hm => htyped.fragment hm)
      (chained_place d colMem.memory _ _) (Nat.pos_of_ne_zero hsize)
    have hlen : ∀ p ∈ pieces a.image (fragments d colMem), 0 < p.len := fun p hp => (hlies p hp).pos
    by_cases hcalm : Calm a.colored 0 (pieces a.image (fragments d colMem))
    · refine Or.inl ⟨colMem, hmem, ⟨hfetch, hfind, hcalm⟩, ?_⟩
      rw [hone, hissue, issue_calm hcalm]
      simp
    · right
      have hne : (issue a.colored 0 0 [] (pieces a.image (fragments d colMem))).1 ≠ 0 :=
        fun h0 => hcalm (calm_of_issue hlen h0)
      refine ⟨fun colMem' hu => ?_, hplain _ hne ?_ (by rw [hone, hissue, if_pos hne])⟩
      · obtain rfl : colMem = colMem' := Option.some.inj (hfind.symm.trans hu.2.1)
        exact hcalm hu.2.2
      · have hstart : ∀ w ∈ ([] : List Write), w.pos < 0 := by simp
        obtain ⟨k, -, hk, hnk⟩ := issue_lost hlen hcons hstart hcalm
        rw [total_pieces] at hk
        exact ⟨k, by omega, hnk⟩
  · exact Or.inr ⟨hnot, hplain _ hne (by rw [hws]; exact hnone) (by rw [hone, if_pos hne])⟩

/-- A byte of a copy without failure. -/
lemma mem_copy {p : Piece} {t : ℕ} (ht : t < p.len) :
    ⟨p.pos + t, u64 (p.addr + t), true⟩ ∈ copyFromUser p.pos p.addr p.len 0 := by
  refine List.mem_map.mpr ⟨t, List.mem_range.mpr ht, ?_⟩
  simp [ht]

lemma mem_copies {ps : List Piece} {p : Piece} (hp : p ∈ ps) {t : ℕ} (ht : t < p.len) :
    ⟨p.pos + t, u64 (p.addr + t), true⟩ ∈
      ps.flatMap fun p => copyFromUser p.pos p.addr p.len 0 :=
  List.mem_flatMap.mpr ⟨p, hp, mem_copy ht⟩

/-- An image in memory that suits it is loaded. -/
lemma loaded_of_suitable (hcell : TypedCell d cell) (himage : TypedImage a.image)
    (h : (loadOne d stack cell a).1 = 0) (hsuit : Suitable d stack comm cell a) :
    Loaded d stack' comm cell a.image (loadOne d stack cell a).2 := by
  intro k hk
  have hsize : a.image.size ≠ 0 := by omega
  obtain ⟨hcolored, hplain⟩ := hsuit hsize
  rcases loadOne_cases hcell himage hsize h with
    ⟨colMem, hmem, hu, hws⟩ | ⟨hnot, ws, -, p, hfind, hlies, hoff, hpos, hlen, hws⟩
  · obtain ⟨hroom, hhits⟩ := hcolored colMem hu
    have htyped := hcell.colored colMem hmem
    obtain ⟨hlies, hcons⟩ := pieces_spec (fun m hm => htyped.fragment hm)
      (chained_place d colMem.memory _ _) (Nat.pos_of_ne_zero hsize)
    have htotal : k < 0 + total (pieces a.image (fragments d colMem)) := by
      rw [total_pieces]
      omega
    obtain ⟨p, hp, t, ht, rfl⟩ := exists_piece hcons (Nat.zero_le k) htotal
    refine ⟨_, hws ▸ mem_copies hp ht, rfl, rfl, Or.inr ⟨colMem, hmem, ?_⟩⟩
    rw [created_eq]
    exact (hlies p hp).translates (hhits p hp) ht
  · have ht : k < p.len := by omega
    refine ⟨⟨p.pos + k, u64 (p.addr + k), true⟩, ?_, by simp only; omega, rfl, Or.inl ?_⟩
    · rw [hws]
      exact List.mem_append_right _ (mem_copy ht)
    · have := hlies.translates (hoff ▸ hplain hnot p.frag hfind) ht
      rwa [hpos, Nat.zero_add] at this

/-- An image is loaded only to memory that suits it, if the cell finds each address once. -/
lemma suitable_of_loaded (hcell : TypedCell d cell) (himage : TypedImage a.image)
    (hfun : ∀ g x y, CellMaps d stack' comm cell g x → CellMaps d stack' comm cell g y → x = y)
    (h : (loadOne d stack cell a).1 = 0)
    (hload : Loaded d stack' comm cell a.image (loadOne d stack cell a).2) :
    Suitable d stack comm cell a := by
  intro hsize
  rcases loadOne_cases hcell himage hsize h with
    ⟨colMem, hmem, hu, hws⟩ | ⟨hnot, ws, ⟨k, hk, hmiss⟩, p, hfind, hlies, hoff, hpos, hlen, hws⟩
  · refine ⟨fun colMem' hu' => ?_, fun hnot => absurd hu (hnot colMem)⟩
    obtain rfl : colMem = colMem' := Option.some.inj (hu.2.1.symm.trans hu'.2.1)
    have htyped := hcell.colored colMem hmem
    obtain ⟨hlies, hcons⟩ := pieces_spec (fun m hm => htyped.fragment hm)
      (chained_place d colMem.memory _ _) (Nat.pos_of_ne_zero hsize)
    rw [hws] at hload
    constructor
    · -- the last byte is in a piece
      obtain ⟨w, hw, hpos, -, -⟩ := hload (a.image.size - 1) (by omega)
      obtain ⟨p, hp, hw⟩ := List.mem_flatMap.mp hw
      obtain ⟨t, ht, hwt, -⟩ := mem_copyFromUser hw
      have hlast := piece_pos_lt hcons hp ht
      rw [total_pieces] at hlast
      omega
    · intro p hp
      have hlp := hlies p hp
      have hin := hlp.size
      obtain ⟨w, hw, hpos, -, hmaps⟩ := hload p.pos (by have := hlp.pos; omega)
      -- positions are written once
      have hw' := mem_copies hp hlp.pos
      have hnodup : (((pieces a.image (fragments d colMem)).flatMap
          fun p => copyFromUser p.pos p.addr p.len 0).map Write.pos).Nodup := by
        have hissue := @issue_calm a.colored 0 0 [] _ hu.2.2
        have hrange := @issue_pos a.colored 0 0 [] _ rfl hcons
        rw [hissue] at hrange
        simp only [List.nil_append] at hrange
        rw [hrange]
        exact List.nodup_range
      have heq := List.inj_on_of_nodup_map hnodup hw hw' (by simpa using hpos)
      have hplace : Translates comm _ _ _ := hlp.place hlp.pos
      rw [heq] at hmaps
      refine (Piece.addr_iff 0).mp (hfun _ _ _ (Or.inr ⟨colMem, hmem, ?_⟩) hmaps)
      rw [created_eq]
      exact hplace
  · refine ⟨fun colMem hu => absurd hu (hnot colMem), fun _ mem hfind' => ?_⟩
    obtain rfl : p.frag = mem := Option.some.inj (hfind.symm.trans hfind')
    obtain ⟨w, hw, hwpos, himg, hmaps⟩ := hload k hk
    rw [hws] at hw
    rcases List.mem_append.mp hw with hw | hw
    · exact absurd ⟨w, hw, hwpos, himg⟩ hmiss
    · obtain ⟨t, ht, hwt, haddr⟩ := mem_copyFromUser hw
      rw [haddr, ← hwpos, hwt] at hmaps
      rw [← hoff]
      exact (Piece.addr_iff t).mp (hfun _ _ _ (Or.inl (hlies.place ht)) hmaps)

/-! ### The command -/

/-- The loop goes through all images only if each of them succeeds. -/
lemma loadAll_zero {as : List Attempt} {err : ℤ} (h : (loadAll d stack cell as err).1 = 0) :
    (∀ a ∈ as, (loadOne d stack cell a).1 = 0) ∧
      (loadAll d stack cell as err).2 = as.map fun a => (loadOne d stack cell a).2 := by
  induction as generalizing err with
  | nil => simp [loadAll]
  | cons a as ih =>
    rw [loadAll] at h ⊢
    by_cases hone : (loadOne d stack cell a).1 = 0
    · simp only [hone, ne_eq, not_true, if_false] at h ⊢
      obtain ⟨hall, hws⟩ := ih h
      refine ⟨fun b hb => ?_, by rw [hws, List.map_cons]⟩
      rcases List.mem_cons.mp hb with rfl | hb
      · exact hone
      · exact hall b hb
    · simp only [ne_eq, hone, not_false_eq_true, if_true] at h

lemma typed_halfRegion : TypedCell ⟨0x1000, 0x2000⟩ ⟨[], [halfRegion]⟩ := by
  refine ⟨fun colMem hc => ?_, by simp⟩
  obtain rfl : colMem = halfRegion := by simpa using hc
  exact ⟨by decide, by decide, by decide⟩

/-- Four bytes across the border of two fragments. -/
def fourBytes : Attempt := ⟨⟨0xffe, 4⟩, calm, calm⟩

/-- Two bytes at the last byte of the last fragment. -/
def twoBytes : Attempt := ⟨⟨0x1fff, 2⟩, calm, calm⟩

end FpMemSched.LoadComplete
