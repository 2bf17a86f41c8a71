import FpMemSched.Lib.Bitmaps
import FpMemSched.Lib.Runs
import Mathlib.Data.Nat.ModEq

/-!
The page allocator of the hypervisor (`paging.c`).

A pool keeps a bitmap of the pages that are in use. An allocation looks for the first run of
free pages from a start that fits the alignment, and begins again behind every page that stands
in its way. The alignment is one of page numbers in the pool, not of addresses: a run starts at a
page whose number has the remainder of the base page, so that its address has twice that
remainder.
-/

namespace FpMemSched.PagePool

open FpMemSched.Lib FpMemSched.Lib.Bitmaps FpMemSched.Lib.Runs

def pageSize : ℕ := 4096

/-- `struct page_pool`. The base address is a page address, given by its page number; a page
number of the pool fits an `int`. A word of the bitmap has `BITS_PER_LONG` bits. -/
structure Pool where
  basePage : ℕ
  pages : ℕ
  usedPages : ℕ
  usedBitmap : ℕ → BitVec 64

/-- The search of the words from `bmpPos` on. -/
def findInWords (pool : Pool) : ℕ → ℕ → BitVec 64 → Option ℕ
  | 0, _, _ => none
  | fuel + 1, bmpPos, startMask =>
    if bmpPos < pool.pages / 64 then
      let bmpVal := pool.usedBitmap bmpPos ||| startMask
      if bmpVal ≠ BitVec.allOnes 64 then
        let pageNr := firstZero bmpVal + bmpPos * 64
        if pool.pages ≤ pageNr then none else some pageNr
      else findInWords pool fuel (bmpPos + 1) 0#64
    else none

/-- `find_next_free_page`; `none` is `INVALID_PAGE_NR`. -/
def findNextFreePage (pool : Pool) (start : ℕ) : Option ℕ :=
  if pool.pages ≤ start then none
  else
    let startMask := if 0 < start % 64 then
        BitVec.allOnes 64 >>> (64 - start % 64)
      else 0#64
    findInWords pool pool.pages (start / 64) startMask

/-- How one turn from `restart` on ends. -/
inductive Attempt
  | null
  | restart (next : ℕ)
  | found (start : ℕ)
  deriving DecidableEq

/-- The loop that checks that the pages are consecutive, with the number of pages that are still
to come. -/
def extend (pool : Pool) (start : ℕ) : ℕ → ℕ → Attempt
  | 0, _ => .found start
  | k + 1, last =>
    match findNextFreePage pool (last + 1) with
    | none => .null
    | some next => if next ≠ last + 1 then .restart next else extend pool start k next

/-- The search start, forwarded to the next aligned page. -/
def forward (num alignMask alignedStart next : ℕ) : ℕ :=
  if (next - alignedStart) &&& alignMask ≠ 0 then
    next + (num - ((next - alignedStart) &&& alignMask))
  else next

def attempt (pool : Pool) (num alignMask alignedStart next : ℕ) : Attempt :=
  match findNextFreePage pool (forward num alignMask alignedStart next) with
  | none => .null
  | some start =>
    if num = 0 then .null
    else if (start - alignedStart) &&& alignMask ≠ 0 then .restart start
    else extend pool start (num - 1) start

/-- `goto restart`, for at most `fuel` turns; `none` if they are not enough. -/
def search (pool : Pool) (num alignMask alignedStart : ℕ) : ℕ → ℕ → Option (Option ℕ)
  | 0, _ => none
  | fuel + 1, next =>
    match attempt pool num alignMask alignedStart next with
    | .null => some none
    | .found start => some (some start)
    | .restart next => search pool num alignMask alignedStart fuel next

/-- `set_bit` for `num` pages. -/
def setBits (start : ℕ) : ℕ → (ℕ → BitVec 64) → ℕ → BitVec 64
  | 0, m => m
  | num + 1, m => setBit (start + num) (setBits start num m)

/-- The pool afterwards and the address of the first page, 0 for `NULL`. -/
def pageAllocInternal (num alignMask : ℕ) (pool : Pool) : Pool × ℕ :=
  let alignedStart := pool.basePage &&& alignMask
  match search pool num alignMask alignedStart (pool.pages + 1) alignedStart with
  | some (some start) =>
    ({ pool with
        usedBitmap := setBits start num pool.usedBitmap
        usedPages := pool.usedPages + num },
      (pool.basePage + start) * pageSize)
  | _ => (pool, 0)

def pageAlloc (num : ℕ) (pool : Pool) : Pool × ℕ := pageAllocInternal num 0 pool

def pageAllocAligned (num : ℕ) (pool : Pool) : Pool × ℕ := pageAllocInternal num (num - 1) pool

/-- `while (num-- > 0)` of `page_free`. -/
def freeLoop : ℕ → ℕ → Pool → Pool
  | 0, _, pool => pool
  | num + 1, page, pool =>
    let pageNr := (page - pool.basePage * pageSize) / pageSize
    freeLoop num (page + pageSize)
      { pool with
        usedBitmap := clearBit pageNr pool.usedBitmap
        usedPages := pool.usedPages - 1 }

def pageFree (page num : ℕ) (pool : Pool) : Pool :=
  if page = 0 then pool else freeLoop num page pool

/-! ### Searching a free page -/

def Pool.used (pool : Pool) (p : ℕ) : Bool := bit pool.usedBitmap p

/-- A page of the pool that is not in use. -/
def Pool.Free (pool : Pool) (p : ℕ) : Prop := p < pool.pages ∧ pool.used p = false

instance (pool : Pool) (p : ℕ) : Decidable (pool.Free p) := inferInstanceAs (Decidable (_ ∧ _))

/-- What a search from `start` on may return. -/
def Pool.NextFree (pool : Pool) (start : ℕ) : Option ℕ → Prop
  | none => ∀ p, start ≤ p → ¬ pool.Free p
  | some p => start ≤ p ∧ pool.Free p ∧ ∀ q, start ≤ q → q < p → ¬ pool.Free q

/-- A page is a bit of its word. -/
lemma used_eq (pool : Pool) (bmpPos : ℕ) {i : ℕ} (hi : i < 64) :
    pool.used (bmpPos * 64 + i) = (pool.usedBitmap bmpPos).getLsbD i := by
  rw [Pool.used, bit]
  congr 2 <;> omega

/-- The mask hides the pages before `start`. -/
def Hides (startMask : BitVec 64) (bmpPos start : ℕ) : Prop :=
  ∀ i < 64, startMask.getLsbD i = decide (bmpPos * 64 + i < start)

lemma hides_zero {bmpPos start : ℕ} (h : start ≤ bmpPos * 64) : Hides 0#64 bmpPos start := by
  intro i _
  rw [BitVec.getLsbD_zero]
  exact (decide_eq_false (by omega)).symm

lemma getLsbD_masked {pool : Pool} {startMask : BitVec 64} {bmpPos start i : ℕ}
    (h : Hides startMask bmpPos start) (hi : i < 64) :
    (pool.usedBitmap bmpPos ||| startMask).getLsbD i =
      (pool.used (bmpPos * 64 + i) || decide (bmpPos * 64 + i < start)) := by
  rw [BitVec.getLsbD_or, h i hi, used_eq pool bmpPos hi]

/-- A word without a zero has no free page from `start` on. -/
lemma not_free_of_full {pool : Pool} {startMask : BitVec 64} {bmpPos start p : ℕ}
    (h : Hides startMask bmpPos start)
    (hfull : pool.usedBitmap bmpPos ||| startMask = BitVec.allOnes 64) (hs : start ≤ p)
    (hlow : bmpPos * 64 ≤ p) (hhigh : p < (bmpPos + 1) * 64) : ¬ pool.Free p := by
  intro hf
  obtain ⟨i, rfl⟩ := Nat.exists_eq_add_of_le hlow
  have hi : i < 64 := by omega
  have hbit := @getLsbD_masked pool _ _ _ _ h hi
  rw [hfull, BitVec.getLsbD_allOnes, hf.2, decide_eq_true hi, Bool.false_or,
    decide_eq_false (by omega)] at hbit
  cases hbit

/-- The first zero of a word is its first free page from `start` on. -/
lemma free_of_zero {pool : Pool} {startMask : BitVec 64} {bmpPos start : ℕ}
    (h : Hides startMask bmpPos start)
    (hfull : pool.usedBitmap bmpPos ||| startMask ≠ BitVec.allOnes 64) :
    let p := firstZero (pool.usedBitmap bmpPos ||| startMask) + bmpPos * 64
    start ≤ p ∧ p < (bmpPos + 1) * 64 ∧ pool.used p = false ∧
      ∀ q, start ≤ q → bmpPos * 64 ≤ q → q < p → pool.used q = true := by
  obtain ⟨hlt, hzero, hones⟩ := firstZero_spec hfull
  generalize firstZero (pool.usedBitmap bmpPos ||| startMask) = z at hlt hzero hones ⊢
  rw [getLsbD_masked h hlt, Bool.or_eq_false_iff, decide_eq_false_iff_not] at hzero
  rw [Nat.add_comm z]
  refine ⟨by omega, by omega, hzero.1, fun q hs hlow hq => ?_⟩
  obtain ⟨i, rfl⟩ := Nat.exists_eq_add_of_le hlow
  have hbit := hones i (by omega)
  rw [getLsbD_masked h (by omega), decide_eq_false (by omega), Bool.or_false] at hbit
  exact hbit

/-- The words show the pages from `start` on. -/
lemma findInWords_spec {pool : Pool} (hp : pool.pages % 64 = 0) {start fuel bmpPos : ℕ}
    {startMask : BitVec 64} (hmask : Hides startMask bmpPos start)
    (hstart : start ≤ (bmpPos + 1) * 64) (hfuel : pool.pages / 64 - bmpPos ≤ fuel)
    (hbefore : ∀ p, start ≤ p → p < bmpPos * 64 → ¬ pool.Free p) :
    pool.NextFree start (findInWords pool fuel bmpPos startMask) := by
  have hend {bmpPos : ℕ} (hpos : pool.pages / 64 ≤ bmpPos)
      (hbefore : ∀ p, start ≤ p → p < bmpPos * 64 → ¬ pool.Free p) :
      pool.NextFree start none := fun p hs hf => by
    have := hf.1
    exact hbefore p hs (by omega) hf
  induction fuel generalizing bmpPos startMask with
  | zero => exact hend (by omega) hbefore
  | succ fuel ih =>
    rw [findInWords]
    by_cases hpos : bmpPos < pool.pages / 64
    · have hstart' : start ≤ (bmpPos + 1 + 1) * 64 :=
        Nat.le_trans hstart (Nat.mul_le_mul_right 64 (Nat.le_succ _))
      have hfuel' : pool.pages / 64 - (bmpPos + 1) ≤ fuel := by omega
      rw [if_pos hpos]
      by_cases hfull : pool.usedBitmap bmpPos ||| startMask ≠ BitVec.allOnes 64
      · obtain ⟨hs, hlt, hfree, hused⟩ := free_of_zero hmask hfull
        simp only [if_pos hfull]
        generalize firstZero (pool.usedBitmap bmpPos ||| startMask) + bmpPos * 64 = p at *
        rw [if_neg (by omega)]
        refine ⟨hs, ⟨by omega, hfree⟩, fun q hsq hq hf => ?_⟩
        rcases Nat.lt_or_ge q (bmpPos * 64) with hlow | hlow
        · exact hbefore q hsq hlow hf
        · have := hused q hsq hlow hq
          rw [hf.2] at this
          cases this
      · rw [if_neg hfull]
        refine ih (hides_zero hstart) hstart' hfuel' fun q hsq hq hf => ?_
        rcases Nat.lt_or_ge q (bmpPos * 64) with hlow | hlow
        · exact hbefore q hsq hlow hf
        · exact not_free_of_full hmask (not_not.mp hfull) hsq hlow hq hf
    · rw [if_neg hpos]
      exact hend (by omega) hbefore

/-- **The search finds the first free page.** -/
theorem findNextFreePage_spec {pool : Pool} (hp : pool.pages % 64 = 0) (start : ℕ) :
    pool.NextFree start (findNextFreePage pool start) := by
  rw [findNextFreePage]
  by_cases hs : pool.pages ≤ start
  · rw [if_pos hs]
    intro p hsp hf
    have := hf.1
    omega
  · rw [if_neg hs]
    refine findInWords_spec hp (fun i hi => ?_) ?_ ?_ fun p hsp hlow => ?_
    · have hr : start % 64 < 64 := Nat.mod_lt start (by decide)
      split
      · rw [getLsbD_startMask hr]
        exact decide_eq_decide.mpr ⟨fun h => by omega, fun h => by omega⟩
      · rw [BitVec.getLsbD_zero]
        exact (decide_eq_false (by omega)).symm
    · omega
    · omega
    · omega

/-! ### Searching a run of free pages -/

def Pool.FreeRun (pool : Pool) (start num : ℕ) : Prop := ∀ i < num, pool.Free (start + i)

/-- The pages of the run from `start` to `last` are free and `k` more are needed. No run starts
at a page that the loop goes past. -/
lemma extend_spec {pool : Pool} (hp : pool.pages % 64 = 0) {start num k last : ℕ}
    (hlast : start ≤ last) (hnum : last + k + 1 = start + num)
    (hfree : ∀ p, start ≤ p → p ≤ last → pool.Free p) :
    match extend pool start k last with
    | .null => ∀ s, start ≤ s → ¬ pool.FreeRun s num
    | .restart next => start < next ∧ next < pool.pages ∧
        ∀ s, start ≤ s → s < next → ¬ pool.FreeRun s num
    | .found s => s = start ∧ pool.FreeRun start num := by
  induction k generalizing last with
  | zero => exact ⟨rfl, fun i hi => hfree (start + i) (by omega) (by omega)⟩
  | succ k ih =>
    rw [extend]
    have hnext := findNextFreePage_spec hp (last + 1)
    cases hf : findNextFreePage pool (last + 1) with
    | none =>
      rw [hf] at hnext
      intro s hs hrun
      have := hrun (num - 1) (by omega)
      exact hnext (s + (num - 1)) (by omega) this
    | some next =>
      rw [hf] at hnext
      obtain ⟨hle, hnf, hgap⟩ := hnext
      by_cases hne : next ≠ last + 1
      · simp only [if_pos hne]
        refine ⟨by omega, hnf.1, fun s hs hsn hrun => ?_⟩
        -- the run has the page behind `last`, or it starts at one that is not free
        rcases Nat.lt_or_ge (last + 1) s with hlt | hge
        · exact hgap s (by omega) hsn (hrun 0 (by omega))
        · refine hgap (last + 1) (Nat.le_refl _) (by omega) ?_
          have := hrun (last + 1 - s) (by omega)
          rwa [show s + (last + 1 - s) = last + 1 by omega] at this
      · simp only [if_neg hne]
        obtain rfl : next = last + 1 := not_not.mp hne
        refine ih (by omega) (by omega) fun p hsp hpl => ?_
        rcases Nat.lt_or_ge last p with hlt | hge
        · obtain rfl : p = last + 1 := by omega
          exact hnf
        · exact hfree p hsp hge

section Aligned

variable {pool : Pool} {num k alignedStart next : ℕ}

lemma add_sub_mod (x : ℕ) {d : ℕ} (hd : 0 < d) : (x + (d - x % d)) % d = 0 := by
  have hx := Nat.div_add_mod x d
  have hlt := Nat.mod_lt x hd
  have he : x + (d - x % d) = d * (x / d + 1) := by
    rw [Nat.mul_add, Nat.mul_one]
    omega
  rw [he, Nat.mul_mod_right]

lemma mod_ne_zero {d x t : ℕ} (hx : x % d ≠ 0) (ht : t < d - x % d) : (x + t) % d ≠ 0 := by
  have htd : t % d = t := Nat.mod_eq_of_lt (by omega)
  rw [Nat.add_mod, htd, Nat.mod_eq_of_lt (by omega)]
  omega

/-- The start is moved past pages that are not aligned, to one that is. -/
lemma forward_spec (hk : k = 0 ∨ num = 2 ^ k) (hle : alignedStart ≤ next) :
    let f := forward num (2 ^ k - 1) alignedStart next
    next ≤ f ∧ (f - alignedStart) % 2 ^ k = 0 ∧
      ∀ s, next ≤ s → s < f → (s - alignedStart) % 2 ^ k ≠ 0 := by
  obtain ⟨x, rfl⟩ := Nat.exists_eq_add_of_le hle
  simp only [forward, Nat.and_two_pow_sub_one_eq_mod, Nat.add_sub_cancel_left]
  by_cases hx : x % 2 ^ k ≠ 0
  · have hnum : num = 2 ^ k := by
      rcases hk with rfl | hk
      · exact absurd (Nat.mod_one x) hx
      · exact hk
    have hlt := Nat.mod_lt x (Nat.two_pow_pos k)
    rw [if_pos hx, hnum]
    refine ⟨by omega, ?_, fun s hs hsf => ?_⟩
    · rw [show alignedStart + x + (2 ^ k - x % 2 ^ k) - alignedStart =
        x + (2 ^ k - x % 2 ^ k) by omega]
      exact add_sub_mod x (Nat.two_pow_pos k)
    · obtain ⟨t, rfl⟩ := Nat.exists_eq_add_of_le hs
      rw [show alignedStart + x + t - alignedStart = x + t by omega]
      exact mod_ne_zero hx (by omega)
  · rw [if_neg hx]
    refine ⟨Nat.le_refl _, by simpa using hx, fun s hs hsf => by omega⟩

/-- A run that the search may return. -/
structure Fits (pool : Pool) (num k alignedStart s : ℕ) : Prop where
  le : alignedStart ≤ s
  aligned : (s - alignedStart) % 2 ^ k = 0
  free : pool.FreeRun s num

lemma attempt_spec (hp : pool.pages % 64 = 0) (hk : k = 0 ∨ num = 2 ^ k) (hnum : 0 < num)
    (hle : alignedStart ≤ next) :
    match attempt pool num (2 ^ k - 1) alignedStart next with
    | .null => ∀ s, next ≤ s → ¬ Fits pool num k alignedStart s
    | .restart next' => next < next' ∧ next' < pool.pages ∧
        ∀ s, next ≤ s → s < next' → ¬ Fits pool num k alignedStart s
    | .found s => Fits pool num k alignedStart s := by
  obtain ⟨hnf, hfa, hskip⟩ := forward_spec hk hle
  rw [attempt]
  generalize forward num (2 ^ k - 1) alignedStart next = f at hnf hfa hskip ⊢
  have hsearch := findNextFreePage_spec hp f
  cases hf : findNextFreePage pool f with
  | none =>
    rw [hf] at hsearch
    intro s hs hfit
    rcases Nat.lt_or_ge s f with hlt | hge
    · exact hskip s hs hlt hfit.aligned
    · exact hsearch s hge (hfit.free 0 hnum)
  | some start =>
    rw [hf] at hsearch
    obtain ⟨hfs, hfree, hgap⟩ := hsearch
    have hbefore : ∀ s, next ≤ s → s < start → ¬ Fits pool num k alignedStart s := by
      intro s hs hss hfit
      rcases Nat.lt_or_ge s f with hlt | hge
      · exact hskip s hs hlt hfit.aligned
      · exact hgap s hge hss (hfit.free 0 hnum)
    simp only [if_neg (show ¬ num = 0 by omega), Nat.and_two_pow_sub_one_eq_mod]
    by_cases ha : (start - alignedStart) % 2 ^ k ≠ 0
    · simp only [if_pos ha]
      refine ⟨?_, hfree.1, hbefore⟩
      rcases Nat.eq_or_lt_of_le hfs with rfl | hlt
      · exact absurd hfa ha
      · omega
    · simp only [if_neg ha]
      have hext := @extend_spec pool hp start num (num - 1) start (Nat.le_refl _) (by omega)
        fun p hsp hps => Nat.le_antisymm hsp hps ▸ hfree
      cases he : extend pool start (num - 1) start with
      | null =>
        rw [he] at hext
        intro s hs hfit
        rcases Nat.lt_or_ge s start with hlt | hge
        · exact hbefore s hs hlt hfit
        · exact hext s hge hfit.free
      | restart next' =>
        rw [he] at hext
        refine ⟨by omega, hext.2.1, fun s hs hsn hfit => ?_⟩
        rcases Nat.lt_or_ge s start with hlt | hge
        · exact hbefore s hs hlt hfit
        · exact hext.2.2 s hge hsn hfit.free
      | found s =>
        rw [he] at hext
        obtain ⟨rfl, hrun⟩ := hext
        exact ⟨by omega, not_not.mp ha, hrun⟩

/-- **The restart loop ends**, with a run that fits if there is one. -/
lemma search_spec (hp : pool.pages % 64 = 0) (hk : k = 0 ∨ num = 2 ^ k) (hnum : 0 < num)
    (hle : alignedStart ≤ next) {fuel : ℕ} (hfuel : pool.pages - next < fuel) :
    ∃ r, search pool num (2 ^ k - 1) alignedStart fuel next = some r ∧
      match r with
      | none => ∀ s, next ≤ s → ¬ Fits pool num k alignedStart s
      | some s => Fits pool num k alignedStart s := by
  induction fuel generalizing next with
  | zero => omega
  | succ fuel ih =>
    have hatt := attempt_spec hp hk hnum hle
    rw [search]
    cases ha : attempt pool num (2 ^ k - 1) alignedStart next with
    | null =>
      rw [ha] at hatt
      exact ⟨none, rfl, hatt⟩
    | found s =>
      rw [ha] at hatt
      exact ⟨some s, rfl, hatt⟩
    | restart next' =>
      rw [ha] at hatt
      obtain ⟨hlt, hpages, hskip⟩ := hatt
      obtain ⟨r, hr, hspec⟩ := @ih next' (by omega) (by omega)
      refine ⟨r, hr, ?_⟩
      cases r with
      | none =>
        intro s hs hfit
        rcases Nat.lt_or_ge s next' with hss | hss
        · exact hskip s hs hss hfit
        · exact hspec s hss hfit
      | some s => exact hspec

end Aligned

/-! ### Marking pages -/

lemma bit_setBits (start num q : ℕ) (m : ℕ → BitVec 64) :
    bit (setBits start num m) q = (bit m q || decide (start ≤ q ∧ q < start + num)) := by
  induction num with
  | zero =>
    rw [setBits, decide_eq_false (by omega), Bool.or_false]
  | succ num ih =>
    rw [setBits, bit_setBit (by decide), ih, Bool.or_left_comm, ← Bool.decide_or]
    congr 1
    refine decide_eq_decide.mpr ⟨fun h => by omega, fun h => by omega⟩

lemma count_setBits {start num n : ℕ} {m : ℕ → BitVec 64} (hn : start + num ≤ n)
    (hfree : ∀ i < num, bit m (start + i) = false) :
    count n (setBits start num m) = count n m + num := by
  induction num with
  | zero => rfl
  | succ num ih =>
    have hlast : bit (setBits start num m) (start + num) = false := by
      rw [bit_setBits, hfree num (Nat.lt_succ_self num), Bool.false_or]
      exact decide_eq_false (by omega)
    rw [setBits, count_setBit (by decide) (by omega) hlast,
      ih (by omega) fun i hi => hfree i (by omega), Nat.add_assoc]

/-- The counter of a pool is right. -/
structure Pool.Wf (pool : Pool) : Prop where
  words : pool.pages % 64 = 0
  counted : pool.usedPages = count pool.pages pool.usedBitmap

lemma freeLoop_spec {num start : ℕ} {pool : Pool} (hin : start + num ≤ pool.pages)
    (hused : ∀ i < num, pool.used (start + i) = true) :
    let pool' := freeLoop num ((pool.basePage + start) * pageSize) pool
    pool'.basePage = pool.basePage ∧ pool'.pages = pool.pages ∧
      (∀ q, pool'.used q = (pool.used q && !decide (start ≤ q ∧ q < start + num))) ∧
      pool'.usedPages = pool.usedPages - num ∧
      count pool.pages pool'.usedBitmap + num = count pool.pages pool.usedBitmap := by
  induction num generalizing start pool with
  | zero =>
    refine ⟨rfl, rfl, fun q => ?_, rfl, rfl⟩
    rw [freeLoop, decide_eq_false (by omega), Bool.not_false, Bool.and_true]
  | succ num ih =>
    intro pool'
    have hnr : ((pool.basePage + start) * pageSize - pool.basePage * pageSize) / pageSize =
        start := by
      rw [← Nat.sub_mul, Nat.add_sub_cancel_left]
      exact Nat.mul_div_cancel start (by decide)
    have hnext : (pool.basePage + start) * pageSize + pageSize =
        (pool.basePage + (start + 1)) * pageSize := by
      rw [← Nat.add_assoc, Nat.add_mul _ 1, Nat.one_mul]
    obtain ⟨pool₁, hpool₁⟩ : ∃ p : Pool, p = { pool with
        usedBitmap := clearBit start pool.usedBitmap
        usedPages := pool.usedPages - 1 } := ⟨_, rfl⟩
    have hpool' : pool' = freeLoop num ((pool₁.basePage + (start + 1)) * pageSize) pool₁ := by
      simp only [pool', freeLoop, hnr, hnext, hpool₁]
    have hbit (q : ℕ) : pool₁.used q = (!decide (q = start) && pool.used q) := by
      rw [hpool₁]
      exact bit_clearBit (by decide)
    have hpages : pool₁.pages = pool.pages := by rw [hpool₁]
    have hcount : count pool.pages pool₁.usedBitmap + 1 = count pool.pages pool.usedBitmap := by
      rw [hpool₁]
      exact count_clearBit (by decide) (by omega) (hused 0 (Nat.succ_pos num))
    obtain ⟨h₁, h₂, h₃, h₄, h₅⟩ := @ih (start + 1) pool₁ (by omega) fun i hi => by
      rw [hbit, decide_eq_false (by omega), Bool.not_false, Bool.true_and, Nat.add_right_comm]
      exact hused (i + 1) (by omega)
    rw [← hpool'] at h₁ h₂ h₃ h₄ h₅
    rw [hpages] at h₅
    refine ⟨by rw [h₁, hpool₁], by rw [h₂, hpool₁], fun q => ?_, ?_, by omega⟩
    swap
    · rw [h₄, hpool₁]
      simp only
      omega
    rw [h₃, hbit, Bool.and_comm _ (pool.used q), Bool.and_assoc, ← Bool.not_or, ← Bool.decide_or]
    congr 2
    refine decide_eq_decide.mpr ⟨fun h => by omega, fun h => by omega⟩

/-! ### What a call has to do -/

/-- A run that an allocation may return. -/
structure Suitable (aligned : Bool) (num : ℕ) (pool : Pool) (start : ℕ) : Prop where
  inside : start + num ≤ pool.pages
  free : ∀ i < num, pool.used (start + i) = false
  aligned : aligned = true → num * pageSize ∣ (pool.basePage + start) * pageSize

/-- An allocation returns a run that was free and marks it and nothing else, or `NULL` if there
is none and then changes nothing. -/
structure AllocOk (aligned : Bool) (num : ℕ) (pool : Pool) (r : Pool × ℕ) : Prop where
  success : r.2 ≠ 0 → ∃ start, r.2 = (pool.basePage + start) * pageSize ∧
    Suitable aligned num pool start ∧
    (∀ q, r.1.used q = (pool.used q || decide (start ≤ q ∧ q < start + num)))
  failure : 0 < num → r.2 = 0 → r.1 = pool ∧ ¬ ∃ start, Suitable aligned num pool start

/-- The loop of an allocation with this mask ends. -/
def Ends (num alignMask : ℕ) (pool : Pool) : Prop :=
  ∃ r, search pool num alignMask (pool.basePage &&& alignMask) (pool.pages + 1)
    (pool.basePage &&& alignMask) = some r

lemma suitable_iff {aligned : Bool} {num start : ℕ} {pool : Pool} (hnum : 0 < num) :
    Suitable aligned num pool start ↔
      pool.FreeRun start num ∧ (aligned = true → num ∣ pool.basePage + start) := by
  have hdvd : num * pageSize ∣ (pool.basePage + start) * pageSize ↔ num ∣ pool.basePage + start :=
    Nat.mul_dvd_mul_iff_right (by decide)
  constructor
  · intro h
    exact ⟨fun i hi => ⟨by have := h.inside; omega, h.free i hi⟩, fun ha => hdvd.mp (h.aligned ha)⟩
  · rintro ⟨hrun, ha⟩
    have := (hrun (num - 1) (by omega)).1
    exact ⟨by omega, fun i hi => (hrun i hi).2, fun h => hdvd.mpr (ha h)⟩

/-- With no pages asked for there is no search. -/
lemma search_zero (pool : Pool) (alignMask alignedStart fuel next : ℕ) :
    search pool 0 alignMask alignedStart (fuel + 1) next = some none := by
  have hnull : attempt pool 0 alignMask alignedStart next = .null := by
    rw [attempt]
    split <;> rfl
  rw [search, hnull]

lemma pageAllocInternal_zero (alignMask : ℕ) (pool : Pool) :
    pageAllocInternal 0 alignMask pool = (pool, 0) := by
  simp only [pageAllocInternal, search_zero]

/-- An allocation, where the runs that the search looks at are those that are suitable and page
0 is not among them. -/
lemma allocOk_of_fits {aligned : Bool} {num k : ℕ} {pool : Pool} (hp : pool.pages % 64 = 0)
    (hk : k = 0 ∨ num = 2 ^ k)
    (hfits : ∀ s, Fits pool num k (pool.basePage % 2 ^ k) s ↔
      pool.FreeRun s num ∧ (aligned = true → num ∣ pool.basePage + s))
    (hnull : 0 < num → pool.basePage = 0 → ¬ pool.FreeRun 0 num) :
    Ends num (2 ^ k - 1) pool ∧
      AllocOk aligned num pool (pageAllocInternal num (2 ^ k - 1) pool) := by
  have hmask : pool.basePage &&& 2 ^ k - 1 = pool.basePage % 2 ^ k :=
    Nat.and_two_pow_sub_one_eq_mod _ _
  rw [Ends, pageAllocInternal]
  simp only [hmask]
  rcases Nat.eq_zero_or_pos num with rfl | hnum
  · simp only [search_zero]
    exact ⟨⟨none, rfl⟩, fun h => absurd rfl h, fun h => absurd h (Nat.lt_irrefl 0)⟩
  · obtain ⟨r, hr, hspec⟩ := @search_spec pool num k (pool.basePage % 2 ^ k)
      (pool.basePage % 2 ^ k) hp hk hnum (Nat.le_refl _) (pool.pages + 1) (by omega)
    rw [hr]
    refine ⟨⟨r, rfl⟩, ?_⟩
    cases r with
    | none =>
      refine ⟨fun h => absurd rfl h, fun _ _ => ⟨rfl, ?_⟩⟩
      rintro ⟨start, hs⟩
      have hfit := (hfits start).mpr ((suitable_iff hnum).mp hs)
      exact hspec start hfit.le hfit
    | some start =>
      have hsuit := (hfits start).mp hspec
      refine ⟨fun _ => ⟨start, rfl, (suitable_iff hnum).mpr hsuit, fun q => bit_setBits _ _ _ _⟩,
        fun _ hz => ?_⟩
      -- only page 0 has the address `NULL`
      have hzero : pool.basePage + start = 0 := by
        rcases Nat.mul_eq_zero.mp hz with h | h
        · exact h
        · exact absurd h (by decide)
      obtain rfl : start = 0 := by omega
      exact absurd hsuit.1 (hnull hnum (by omega))

/-- An allocation keeps the counter right. -/
lemma wf_pageAllocInternal {num k : ℕ} {pool : Pool} (h : pool.Wf) (hk : k = 0 ∨ num = 2 ^ k) :
    let r := pageAllocInternal num (2 ^ k - 1) pool
    r.1.Wf ∧ r.1.basePage = pool.basePage ∧ r.1.pages = pool.pages := by
  have hmask : pool.basePage &&& 2 ^ k - 1 = pool.basePage % 2 ^ k :=
    Nat.and_two_pow_sub_one_eq_mod _ _
  rcases Nat.eq_zero_or_pos num with rfl | hnum
  · simp only [pageAllocInternal_zero]
    exact ⟨h, trivial, trivial⟩
  · simp only [pageAllocInternal, hmask]
    obtain ⟨r, hr, hspec⟩ := @search_spec pool num k (pool.basePage % 2 ^ k)
      (pool.basePage % 2 ^ k) h.words hk hnum (Nat.le_refl _) (pool.pages + 1) (by omega)
    rw [hr]
    cases r with
    | none => exact ⟨h, rfl, rfl⟩
    | some start =>
      have hlast := (hspec.free (num - 1) (by omega)).1
      refine ⟨⟨h.words, ?_⟩, rfl, rfl⟩
      exact (congrArg (· + num) h.counted).trans
        (count_setBits (by omega) fun i hi => (hspec.free i hi).2).symm

lemma pageAlloc_ok {num : ℕ} {pool : Pool} (hp : pool.pages % 64 = 0)
    (hnull : 0 < num → pool.basePage = 0 → ¬ pool.FreeRun 0 num) :
    Ends num 0 pool ∧ AllocOk false num pool (pageAlloc num pool) := by
  refine @allocOk_of_fits false num 0 pool hp (.inl rfl) (fun s => ?_) hnull
  simp only [Nat.pow_zero, Nat.mod_one, Bool.false_eq_true, false_imp_iff, and_true]
  exact ⟨fun h => h.free, fun h => ⟨Nat.zero_le s, Nat.mod_one _, h⟩⟩

/-- Where twice the base page is aligned, the remainder of the base page is the one that takes
it to the next aligned page. -/
lemma dvd_base_add {d b s : ℕ} (hd : 0 < d) (h : 2 * b % d = 0) :
    (b % d ≤ s ∧ (s - b % d) % d = 0) ↔ d ∣ b + s := by
  have hb := Nat.div_add_mod b d
  have hlt := Nat.mod_lt b hd
  have htwo : d ∣ b % d + b % d := by
    rw [Nat.dvd_iff_mod_eq_zero, ← Nat.two_mul, Nat.mul_mod_mod]
    exact h
  have hbase : b + s = b % d + s + d * (b / d) := by omega
  rw [hbase, Nat.dvd_add_left ⟨_, rfl⟩]
  constructor
  · rintro ⟨hle, hs⟩
    obtain ⟨t, rfl⟩ := Nat.exists_eq_add_of_le hle
    rw [Nat.add_sub_cancel_left] at hs
    rw [← Nat.add_assoc]
    exact Nat.dvd_add htwo (Nat.dvd_of_mod_eq_zero hs)
  · intro hs
    have hmod : s % d = b % d := by
      have hcong : b % d + s ≡ b % d + b % d [MOD d] :=
        (Nat.modEq_zero_iff_dvd.mpr hs).trans (Nat.modEq_zero_iff_dvd.mpr htwo).symm
      exact (Nat.ModEq.add_left_cancel' _ hcong).trans (Nat.mod_mod b d)
    have hs' := Nat.div_add_mod s d
    have : b % d ≤ s := by rw [← hmod]; exact Nat.mod_le s d
    refine ⟨this, ?_⟩
    rw [show s - b % d = d * (s / d) by omega, Nat.mul_mod_right]

lemma pageAllocAligned_ok {k : ℕ} {pool : Pool} (hp : pool.pages % 64 = 0)
    (halign : 2 * pool.basePage % 2 ^ k = 0)
    (hnull : pool.basePage = 0 → ¬ pool.FreeRun 0 (2 ^ k)) :
    Ends (2 ^ k) (2 ^ k - 1) pool ∧
      AllocOk true (2 ^ k) pool (pageAllocAligned (2 ^ k) pool) := by
  refine allocOk_of_fits hp (.inr rfl) (fun s => ?_) fun _ => hnull
  rw [← dvd_base_add (Nat.two_pow_pos k) halign]
  exact ⟨fun h => ⟨h.free, fun _ => ⟨h.le, h.aligned⟩⟩,
    fun h => ⟨(h.2 rfl).1, (h.2 rfl).2, h.1⟩⟩

/-! ### Runs -/

/-- A pool and the blocks that were returned and not freed yet, with their sizes. -/
structure Sys where
  pool : Pool
  live : List (ℕ × ℕ)

inductive Op
  | alloc (num : ℕ)
  | allocAligned (k : ℕ)
  | free (page num : ℕ)

/-- The pool after an allocation, and the block if there is one. -/
def Sys.grant (s : Sys) (num : ℕ) (r : Pool × ℕ) : Sys :=
  ⟨r.1, if r.2 ≠ 0 then (r.2, num) :: s.live else s.live⟩

/-- Only blocks that were returned are freed, with the size they were asked for. -/
def step (s : Sys) : Op → Option Sys
  | .alloc num => some (s.grant num (pageAlloc num s.pool))
  | .allocAligned k => some (s.grant (2 ^ k) (pageAllocAligned (2 ^ k) s.pool))
  | .free page num =>
    if (page, num) ∈ s.live then
      some ⟨pageFree page num s.pool, s.live.erase (page, num)⟩
    else none

/-- A call does what it has to. -/
def Correct (s : Sys) : Op → Prop
  | .alloc num => Ends num 0 s.pool ∧ AllocOk false num s.pool (pageAlloc num s.pool)
  | .allocAligned k => Ends (2 ^ k) (2 ^ k - 1) s.pool ∧
      AllocOk true (2 ^ k) s.pool (pageAllocAligned (2 ^ k) s.pool)
  | .free page num => ∃ start, page = (s.pool.basePage + start) * pageSize ∧
      ∀ q, (pageFree page num s.pool).used q =
        (s.pool.used q && !decide (start ≤ q ∧ q < start + num))

/-- Twice the base page has to be aligned, and a run at the address 0 may not be free. -/
def Sound (s : Sys) : Op → Prop
  | .alloc num => 0 < num → s.pool.basePage = 0 → ¬ s.pool.FreeRun 0 num
  | .allocAligned k =>
      2 * s.pool.basePage % 2 ^ k = 0 ∧ (s.pool.basePage = 0 → ¬ s.pool.FreeRun 0 (2 ^ k))
  | .free _ _ => True

/-- The block stands for the pages from `start` on, which are in use. -/
structure IsBlock (pool : Pool) (b : ℕ × ℕ) (start : ℕ) : Prop where
  address : b.1 = (pool.basePage + start) * pageSize
  nonnull : b.1 ≠ 0
  inside : start + b.2 ≤ pool.pages
  used : ∀ i < b.2, pool.used (start + i) = true

/-- A page is one of the block. -/
def Covers (pool : Pool) (b : ℕ × ℕ) (q : ℕ) : Prop :=
  b.1 ≤ (pool.basePage + q) * pageSize ∧ (pool.basePage + q) * pageSize < b.1 + b.2 * pageSize

lemma IsBlock.covers_iff {pool : Pool} {b : ℕ × ℕ} {start q : ℕ} (h : IsBlock pool b start) :
    Covers pool b q ↔ start ≤ q ∧ q < start + b.2 := by
  rw [Covers, h.address]
  simp only [pageSize]
  omega

structure Inv (s : Sys) : Prop where
  wf : s.pool.Wf
  block : ∀ b ∈ s.live, ∃ start, IsBlock s.pool b start
  disjoint : s.live.Pairwise fun b c => ∀ q, ¬ (Covers s.pool b q ∧ Covers s.pool c q)

/-- A block keeps its pages while the pool keeps them marked. -/
lemma IsBlock.mono {pool pool' : Pool} {b : ℕ × ℕ} {start : ℕ} (h : IsBlock pool b start)
    (hbase : pool'.basePage = pool.basePage) (hpages : pool'.pages = pool.pages)
    (hused : ∀ q, Covers pool b q → pool.used q = true → pool'.used q = true) :
    IsBlock pool' b start := by
  refine ⟨by rw [hbase, h.address], h.nonnull, by rw [hpages]; exact h.inside, fun i hi => ?_⟩
  exact hused _ (h.covers_iff.mpr ⟨by omega, by omega⟩) (h.used i hi)

lemma covers_congr {pool pool' : Pool} (hbase : pool'.basePage = pool.basePage) :
    Covers pool' = Covers pool := by
  funext b q
  simp only [Covers, hbase]

/-- A new block is taken from pages that no live one has. -/
lemma inv_grant {s : Sys} {aligned : Bool} {num : ℕ} {r : Pool × ℕ} (h : Inv s)
    (hok : AllocOk aligned num s.pool r) (hwf : r.1.Wf) (hbase : r.1.basePage = s.pool.basePage)
    (hpages : r.1.pages = s.pool.pages) (hzero : num = 0 → r.1 = s.pool) :
    Inv (s.grant num r) := by
  by_cases hr : r.2 = 0
  · have hlive : (s.grant num r).live = s.live := by simp [Sys.grant, hr]
    have hpool : (s.grant num r).pool = s.pool := by
      rcases Nat.eq_zero_or_pos num with hz | hpos
      · exact hzero hz
      · exact (hok.failure hpos hr).1
    exact ⟨hwf, by rw [hlive, hpool]; exact h.block, by rw [hlive, hpool]; exact h.disjoint⟩
  · obtain ⟨start, hadr, hsuit, hmark⟩ := hok.success hr
    have hlive : (s.grant num r).live = (r.2, num) :: s.live := by simp [Sys.grant, hr]
    have hnew : IsBlock r.1 (r.2, num) start := by
      refine ⟨by rw [hbase]; exact hadr, hr, by rw [hpages]; exact hsuit.inside, fun i hi => ?_⟩
      rw [hmark, decide_eq_true ⟨by omega, by simp only at hi; omega⟩, Bool.or_true]
    refine ⟨hwf, fun b hb => ?_, ?_⟩
    · rw [hlive] at hb
      rcases List.mem_cons.mp hb with rfl | hb
      · exact ⟨start, hnew⟩
      · obtain ⟨st, hst⟩ := h.block b hb
        refine ⟨st, hst.mono hbase hpages fun q _ hq => (hmark q).trans ?_⟩
        rw [hq, Bool.true_or]
    · rw [hlive, show (s.grant num r).pool = r.1 from rfl, covers_congr hbase]
      refine List.pairwise_cons.mpr ⟨fun b hb q hq => ?_, h.disjoint⟩
      obtain ⟨st, hst⟩ := h.block b hb
      rw [← covers_congr hbase, hnew.covers_iff, covers_congr hbase, hst.covers_iff] at hq
      have hfree := hsuit.free (q - start) (by simp only at hq; omega)
      have hused := hst.used (q - st) (by omega)
      rw [show start + (q - start) = q by omega] at hfree
      rw [show st + (q - st) = q by omega, hfree] at hused
      cases hused

/-- The pages of a live block are given back; no other block has them. -/
lemma inv_free {s : Sys} {page num : ℕ} (h : Inv s) (hmem : (page, num) ∈ s.live) :
    Correct s (.free page num) ∧
      Inv ⟨pageFree page num s.pool, s.live.erase (page, num)⟩ := by
  obtain ⟨start, hst⟩ := h.block _ hmem
  obtain ⟨hbase, hpages, hmark, hcnt, hcount⟩ := freeLoop_spec hst.inside hst.used
  have hfree : pageFree page num s.pool =
      freeLoop num ((s.pool.basePage + start) * pageSize) s.pool := by
    rw [pageFree, if_neg hst.nonnull, ← hst.address]
  simp only at hbase hpages hmark hcnt hcount
  rw [← hfree] at hbase hpages hmark hcnt hcount
  refine ⟨⟨start, hst.address, hmark⟩, ?_⟩
  have hdis := (List.perm_cons_erase hmem).pairwise h.disjoint fun hbc q hq => hbc q hq.symm
  obtain ⟨hhead, htail⟩ := List.pairwise_cons.mp hdis
  refine ⟨⟨by rw [hpages]; exact h.wf.words, ?_⟩, fun b hb => ?_, ?_⟩
  · simp only [hpages, hcnt, h.wf.counted]
    omega
  · obtain ⟨st, hb'⟩ := h.block b (List.mem_of_mem_erase hb)
    refine ⟨st, hb'.mono hbase hpages fun q hq hused => (hmark q).trans ?_⟩
    have hout := mt (fun hc => ⟨hst.covers_iff.mpr hc, hq⟩) (hhead b hb q)
    rw [hused, decide_eq_false hout]
    rfl
  · rw [covers_congr hbase]
    exact htail

/-- A sound step does what it has to and keeps the invariant. -/
lemma inv_step {s t : Sys} {op : Op} (h : Inv s) (hs : Sound s op) (hstep : step s op = some t) :
    Correct s op ∧ Inv t := by
  cases op with
  | alloc num =>
    obtain rfl := Option.some.inj hstep
    have hok := pageAlloc_ok h.wf.words hs
    obtain ⟨hwf, hbase, hpages⟩ := @wf_pageAllocInternal num 0 _ h.wf (.inl rfl)
    refine ⟨hok, inv_grant h hok.2 hwf hbase hpages ?_⟩
    rintro rfl
    exact congrArg Prod.fst (pageAllocInternal_zero 0 s.pool)
  | allocAligned k =>
    obtain rfl := Option.some.inj hstep
    have hok := pageAllocAligned_ok h.wf.words hs.1 hs.2
    obtain ⟨hwf, hbase, hpages⟩ := @wf_pageAllocInternal _ k _ h.wf (.inr rfl)
    exact ⟨hok, inv_grant h hok.2 hwf hbase hpages fun hz => absurd hz (Nat.two_pow_pos k).ne'⟩
  | free page num =>
    rw [step] at hstep
    split at hstep
    · rename_i hmem
      obtain rfl := Option.some.inj hstep
      exact inv_free h hmem
    · cases hstep

/-! ### Main results -/

/-- **The page allocator.** In every run from a pool with a right counter in which twice the
base page is aligned for every aligned allocation, and no run at the address 0 is free for any,
each call does what it has to, its loop ends, and `used_pages` stays the number of set bits. -/
theorem allocator_correct (pool : Pool) (ops : List Op) (u : Sys) (hpool : pool.Wf)
    (hrun : exec step ⟨pool, []⟩ ops = some u) (hsound : Along step Sound ⟨pool, []⟩ ops) :
    Along step Correct ⟨pool, []⟩ ops ∧
      Always step (fun s => s.pool.usedPages = count s.pool.pages s.pool.usedBitmap)
        ⟨pool, []⟩ ops := by
  have hinit : Inv ⟨pool, []⟩ := ⟨hpool, by simp, .nil⟩
  refine ⟨along_of_step (fun s a t hi hc ht => inv_step hi hc ht) hinit hsound hrun, ?_⟩
  rintro bs cs t rfl ht
  have hinv := exec_inv_along (fun s a t hi hc ht => (inv_step hi hc ht).2) hinit
    (along_take hsound) ht
  exact hinv.wf.counted

/-- A pool of one word whose base page is odd. -/
def oddPool : Pool := ⟨1, 64, 2, fun _ => 3#64⟩

/-- Two pages, three more at an odd start and the two back. -/
theorem allocator_correct_oddPool :
    Along step Correct ⟨oddPool, []⟩ [.allocAligned 1, .alloc 3, .free (4 * pageSize) 2] := by
  have hwf : oddPool.Wf := ⟨rfl, by decide +kernel⟩
  obtain ⟨u, hu⟩ : ∃ u, exec step ⟨oddPool, []⟩ [.allocAligned 1, .alloc 3,
      .free (4 * pageSize) 2] = some u := Option.isSome_iff_exists.mp (by decide +kernel)
  refine (allocator_correct oddPool _ u hwf hu ?_).1
  refine ⟨⟨rfl, fun h => by cases h⟩, fun t ht => ⟨fun _ hz => ?_, fun _ _ => ?_⟩⟩
  swap
  · exact ⟨trivial, fun _ _ => trivial⟩
  have hbase : (step ⟨oddPool, []⟩ (.allocAligned 1)).map (·.pool.basePage) = some 1 := by
    decide +kernel
  rw [ht, Option.map_some, hz] at hbase
  cases hbase

/-- Four pages at the address of page 2: page 1 of the pool has the remainder of the base
page, and its address twice that. -/
theorem allocAligned_misaligned : (⟨1, 64, 0, fun _ => 0#64⟩ : Pool).Wf ∧
    ¬ Correct ⟨⟨1, 64, 0, fun _ => 0#64⟩, []⟩ (.allocAligned 2) := by
  refine ⟨⟨rfl, by decide +kernel⟩, ?_⟩
  rintro ⟨-, hok⟩
  have hadr : (pageAllocAligned (2 ^ 2) ⟨1, 64, 0, fun _ => 0#64⟩).2 = 2 * pageSize := by
    decide +kernel
  obtain ⟨start, hs, hsuit, -⟩ := hok.success (by rw [hadr]; decide)
  have := hsuit.aligned rfl
  rw [← hs, hadr] at this
  revert this
  decide

end FpMemSched.PagePool
