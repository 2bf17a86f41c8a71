import Mathlib.Data.List.Sort
import Mathlib.Data.List.Chain

/-!
Priority queues as buckets.

A list that is ordered by a key, the largest first and equal keys in their order of arrival,
can be kept as one queue for each key together with a bit mask of the keys whose queue is not
empty: the front of the list is the front of the queue of the highest bit. The queues are
threaded through one `next` field; what that field holds in the last node of a queue does not
matter.
-/

namespace FpMemSched.Lib.Buckets

/-! ### Threaded queues -/

variable {ν : Type*} {next : ν → Option ν} {h t x : ν} {l : List ν}

/-- A queue with its first and its last node, if it has any. -/
def Fifo (next : ν → Option ν) : Option (ν × ν) → List ν → Prop
  | none, l => l = []
  | some (h, t), l =>
    l.head? = some h ∧ l.getLast? = some t ∧ l.IsChain fun a b => next a = some b

lemma Fifo.isSome {q : Option (ν × ν)} (hq : Fifo next q l) : q.isSome = !l.isEmpty := by
  rcases q with _ | ⟨h, t⟩
  · rw [show l = [] from hq]
    rfl
  · have hne : l ≠ [] := by
      rintro rfl
      exact absurd hq.1 (by simp)
    simp [hne]

/-- The links of the queue may be written where they are, and elsewhere at will. -/
lemma Fifo.frame {q : Option (ν × ν)} {next' : ν → Option ν} (hq : Fifo next q l)
    (hn : ∀ a ∈ l, next' a = next a) : Fifo next' q l := by
  rcases q with _ | ⟨h, t⟩
  · exact hq
  · refine ⟨hq.1, hq.2.1, hq.2.2.imp_of_mem_imp fun a b ha _ hab => ?_⟩
    rw [hn a ha]
    exact hab

lemma Fifo.single (next : ν → Option ν) (x : ν) : Fifo next (some (x, x)) [x] :=
  ⟨rfl, rfl, List.isChain_singleton x⟩

variable [DecidableEq ν]

/-- A node is linked to the last one and becomes the last one. -/
lemma Fifo.append (hq : Fifo next (some (h, t)) l) (hl : l.Nodup) :
    Fifo (Function.update next t (some x)) (some (h, x)) (l ++ [x]) := by
  obtain ⟨hh, ht, hc⟩ := hq
  obtain ⟨a, rfl⟩ := List.getLast?_eq_some_iff.mp ht
  refine ⟨?_, by simp, ?_⟩
  · rw [List.head?_append, hh, Option.some_or]
  have hta : ∀ b ∈ a, b ≠ t := by
    rintro b hb rfl
    exact (List.nodup_append.mp hl).2.2 b hb b (by simp) rfl
  rw [List.isChain_append] at hc ⊢
  refine ⟨?_, List.isChain_singleton x, fun b hb c hcx => ?_⟩
  · rw [List.isChain_append]
    refine ⟨hc.1.imp_of_mem_imp fun b c hb _ hbc => ?_, List.isChain_singleton t,
      fun b hb c hct => ?_⟩
    · rw [Function.update_of_ne (hta b hb)]
      exact hbc
    · rw [Function.update_of_ne (hta b (List.mem_of_mem_getLast? hb))]
      exact hc.2.2 b hb c hct
  · obtain rfl : t = b := by simpa using hb
    obtain rfl : x = c := by simpa using hcx
    exact Function.update_self ..

omit [DecidableEq ν] in
/-- A queue whose first node is its last one has no other. -/
lemma Fifo.only (hq : Fifo next (some (h, h)) (x :: l)) (hl : (x :: l).Nodup) :
    h = x ∧ l = [] := by
  obtain ⟨hh, ht, -⟩ := hq
  obtain rfl : x = h := by simpa using hh
  refine ⟨rfl, ?_⟩
  rcases l with _ | ⟨y, l⟩
  · rfl
  · refine absurd (List.mem_of_getLast? ?_) (List.nodup_cons.mp hl).1
    rwa [List.getLast?_cons_cons] at ht

omit [DecidableEq ν] in
/-- The first node, which is not the last one, is taken off by following its link. -/
lemma Fifo.pop (hq : Fifo next (some (h, t)) (x :: l)) (hne : h ≠ t) :
    ∃ y, next h = some y ∧ Fifo next (some (y, t)) l := by
  obtain ⟨hh, ht, hc⟩ := hq
  obtain rfl : x = h := by simpa using hh
  rcases l with _ | ⟨y, l⟩
  · exact absurd (by simpa using ht) hne
  · rw [List.isChain_cons_cons] at hc
    rw [List.getLast?_cons_cons] at ht
    exact ⟨y, hc.1, rfl, ht, hc.2⟩

/-! ### The highest bit -/

variable {w : ℕ} {mask : BitVec w}

/-- The position of the highest bit that is set. -/
def topBit (mask : BitVec w) : Option ℕ :=
  if mask = 0 then none else some (Nat.log2 mask.toNat)

lemma topBit_eq_none : topBit mask = none ↔ ∀ i, mask.getLsbD i = false := by
  unfold topBit
  constructor
  · intro h i
    split_ifs at h with h0
    rw [h0]
    simp
  · intro h
    rw [if_pos]
    exact BitVec.eq_of_getLsbD_eq fun i _ => by simp [h i]

lemma topBit_eq_some {i : ℕ} (hi : mask.getLsbD i = true)
    (hmax : ∀ j, mask.getLsbD j = true → j ≤ i) : topBit mask = some i := by
  have h0 : mask ≠ 0 := by
    rintro rfl
    simp at hi
  have hn : mask.toNat ≠ 0 := by
    intro hn
    exact h0 (BitVec.eq_of_toNat_eq (by simpa using hn))
  have hlog : mask.getLsbD mask.toNat.log2 = true := Nat.testBit_log2 hn
  have hle : 2 ^ i ≤ mask.toNat := Nat.ge_two_pow_of_testBit hi
  unfold topBit
  rw [if_neg h0]
  have h₁ := hmax _ hlog
  have h₂ := (Nat.le_log2 hn).mpr hle
  rw [le_antisymm h₁ h₂]

lemma getLsbD_setBit {i : ℕ} (hi : i < w) (j : ℕ) :
    (mask ||| BitVec.twoPow w i).getLsbD j = (mask.getLsbD j || decide (i = j)) := by
  rw [BitVec.getLsbD_or, BitVec.getLsbD_twoPow, decide_eq_true hi, Bool.true_and]

lemma getLsbD_clearBit {i : ℕ} (hi : i < w) (j : ℕ) :
    (mask &&& ~~~BitVec.twoPow w i).getLsbD j = (mask.getLsbD j && !decide (i = j)) := by
  rw [BitVec.getLsbD_and, BitVec.getLsbD_not, BitVec.getLsbD_twoPow, decide_eq_true hi,
    Bool.true_and]
  by_cases hj : j < w
  · rw [decide_eq_true hj, Bool.true_and]
  · rw [BitVec.getLsbD_of_ge _ _ (by omega), Bool.false_and, Bool.false_and]

/-! ### Lists ordered by a key -/

variable {α : Type*} {key : α → ℕ} {a n : α} {q : List α}

/-- The elements of one key. -/
def bucket (key : α → ℕ) (k : ℕ) (q : List α) : List α := q.filter fun a => key a = k

/-- Largest key first. -/
def Descending (key : α → ℕ) (q : List α) : Prop := q.Pairwise fun a b => key b ≤ key a

lemma bucket_cons (k : ℕ) : bucket key k (a :: q) =
    if key a = k then a :: bucket key k q else bucket key k q := by
  by_cases h : key a = k <;> simp [bucket, h]

/-- Only the keys of the elements of the list matter. -/
lemma bucket_congr {key' : α → ℕ} (h : ∀ a ∈ q, key' a = key a) (k : ℕ) :
    bucket key' k q = bucket key k q := List.filter_congr fun a ha => by rw [h a ha]

lemma bucket_append (k : ℕ) (p : List α) :
    bucket key k (q ++ p) = bucket key k q ++ bucket key k p := List.filter_append ..

lemma bucket_filter (k : ℕ) (P : α → Bool) :
    bucket key k (q.filter P) = (bucket key k q).filter P := by
  unfold bucket
  rw [List.filter_filter, List.filter_filter]
  exact List.filter_congr fun a _ => Bool.and_comm ..

lemma Descending.congr {key' : α → ℕ} (hq : Descending key q) (h : ∀ a ∈ q, key' a = key a) :
    Descending key' q := by
  refine List.Pairwise.imp_of_mem (fun {a b} ha hb hab => ?_) hq
  rw [h a ha, h b hb]
  exact hab

lemma Descending.insert (hq : Descending key q) :
    Descending key (q.orderedInsert (fun a b => key b < key a) n) := by
  unfold Descending at *
  induction q with
  | nil => exact List.pairwise_singleton _ _
  | cons m q ih =>
    obtain ⟨hm, hrest⟩ := List.pairwise_cons.mp hq
    rw [List.orderedInsert_cons]
    split_ifs with hlt
    · refine List.pairwise_cons.mpr ⟨fun b hb => ?_, hq⟩
      rcases List.mem_cons.mp hb with rfl | hb
      · exact hlt.le
      · exact (hm b hb).trans hlt.le
    · refine List.pairwise_cons.mpr ⟨fun b hb => ?_, ih hrest⟩
      rcases (List.mem_orderedInsert _).mp hb with rfl | hb
      · exact Nat.not_lt.mp hlt
      · exact hm b hb

lemma mem_bucket {k : ℕ} : a ∈ bucket key k q ↔ a ∈ q ∧ key a = k := by simp [bucket]

variable (key) in
/-- An element is inserted behind all those of its key. -/
lemma bucket_insert (hq : Descending key q) (k : ℕ) :
    bucket key k (q.orderedInsert (fun a b => key b < key a) n) =
      if key n = k then bucket key k q ++ [n] else bucket key k q := by
  induction q with
  | nil => by_cases h : key n = k <;> simp [bucket, h]
  | cons a q ih =>
    obtain ⟨ha, hq⟩ := List.pairwise_cons.mp hq
    rw [List.orderedInsert_cons]
    by_cases hlt : key a < key n
    · -- nothing from here on has the key of the new element
      rw [if_pos hlt, bucket_cons]
      by_cases hn : key n = k
      · have hnone : bucket key k (a :: q) = [] := by
          rw [bucket, List.filter_eq_nil_iff]
          intro b hb
          have : key b ≤ key a := by
            rcases List.mem_cons.mp hb with rfl | hb
            · exact le_rfl
            · exact ha b hb
          simp only [decide_eq_true_eq]
          omega
        rw [if_pos hn, if_pos hn, hnone, List.nil_append]
      · rw [if_neg hn, if_neg hn]
    · rw [if_neg hlt, bucket_cons, ih hq, bucket_cons]
      by_cases hn : key n = k <;> by_cases hak : key a = k <;> simp [hn, hak]

/-- The first element is the first one of its key. -/
lemma bucket_head : bucket key (key a) (a :: q) = a :: bucket key (key a) q := by
  rw [bucket_cons, if_pos rfl]

end FpMemSched.Lib.Buckets
