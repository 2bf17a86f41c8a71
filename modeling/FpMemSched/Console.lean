import FpMemSched.Lib.Logs
import FpMemSched.Lib.Runs
import Mathlib.Data.BitVec

/-!
The virtual console (`console_write`, `copy_console_page`, `jailhouse_console_read`).

The hypervisor writes its messages to a ring in a page that the driver copies without a lock: it
waits until the page is not busy, copies it and checks that neither the tail has moved nor the page
is busy. Each access to the page is one step, and the bytes of the page are copied in any order.
The hypervisor is enabled all along and prints under its lock; the text of the driver for missed
bytes is here, the waiting of the reader and `panic_printk` are not.
-/

namespace FpMemSched.Console

open FpMemSched.Lib.Logs FpMemSched.Lib.Runs

/-- The size of `content`. -/
def contentSize : ℕ := 2048

abbrev Byte := BitVec 8

structure Page where
  busy : Bool
  tail : BitVec 32
  content : ℕ → Byte

/-- Where `console_write` is: before the next byte of the message, or between its store and the
increment of the tail. -/
inductive Writer
  | idle
  | writing (msg : List Byte)
  | stored (msg : List Byte)
  deriving DecidableEq

/-- A copy of the page, as far as it is made, with the number of bytes printed at its start and
whether the next byte was copied between its store and the increment of the tail. -/
structure Copied where
  tail : Option (BitVec 32)
  content : ℕ → Option Byte
  start : ℕ
  torn : Bool

/-- Where `copy_console_page` is; `tail` is what it has read first. -/
inductive Reader
  | spin
  | readTail
  | copy (tail : BitVec 32) (dst : Copied)
  | checkBusy (dst : Copied)
  | taken (dst : Copied)

/-- What a call of `jailhouse_console_read` gives: bytes, or a text about missed ones. `ret` is
how many bytes there were, and `torn` that of the copy. -/
inductive Output
  | bytes (content : List Byte) (ret : ℕ) (torn : Bool)
  | missed (miss : ℕ) (text : String)

/-- The page, the hypervisor and a reader; `printed` is all that was printed so far. -/
structure Sys where
  page : Page
  writer : Writer
  printed : List Byte
  reader : Reader
  head : BitVec 32
  outputs : List Output

def init : Sys := ⟨⟨false, 0, fun _ => 0⟩, .idle, [], .spin, 0, []⟩

/-! ### The hypervisor -/

/-- `console_write` up to its loop. -/
def writeBegin (s : Sys) (msg : List Byte) : Option Sys :=
  match s.writer with
  | .idle => some { s with page := { s.page with busy := true }, writer := .writing msg }
  | _ => none

def writeNext (s : Sys) : Option Sys :=
  match s.writer with
  | .idle => none
  | .writing [] => some { s with page := { s.page with busy := false }, writer := .idle }
  | .writing (c :: msg) => some { s with
      page := { s.page with
        content := Function.update s.page.content (s.page.tail.toNat % contentSize) c }
      writer := .stored (c :: msg) }
  | .stored [] => none
  | .stored (c :: msg) => some { s with
      page := { s.page with tail := s.page.tail + 1 }
      writer := .writing msg
      printed := s.printed ++ [c] }

/-! ### The driver -/

def Copied.complete (dst : Copied) : Prop :=
  dst.tail.isSome = true ∧ ∀ i < contentSize, (dst.content i).isSome = true

instance (dst : Copied) : Decidable dst.complete := inferInstanceAs (Decidable (_ ∧ _))

/-- The steps of `copy_console_page` other than the copying. -/
def copyStep (s : Sys) : Option Sys :=
  match s.reader with
  | .spin => some { s with reader := if s.page.busy then .spin else .readTail }
  | .readTail => some { s with
      reader := .copy s.page.tail ⟨none, fun _ => none, s.printed.length, false⟩ }
  | .copy tail dst =>
    if ¬ dst.complete then none
    else some { s with reader := if s.page.tail ≠ tail then .spin else .checkBusy dst }
  | .checkBusy dst => some { s with reader := if s.page.busy then .spin else .taken dst }
  | .taken _ => none

/-- A byte is stored over the oldest one. -/
def Writer.spoils : Writer → Bool
  | .stored _ => true
  | _ => false

/-- `memcpy` copies the tail, or a byte of the content; only the one in the slot of the next byte
can be wrong. -/
def Copied.put (dst : Copied) (page : Page) (writer : Writer) : Option ℕ → Copied
  | none => { dst with tail := some page.tail }
  | some i => { dst with
      content := Function.update dst.content i (some (page.content i))
      torn := dst.torn || (writer.spoils && decide (i = page.tail.toNat % contentSize)) }

def copyWord (s : Sys) (i : Option ℕ) : Option Sys :=
  match s.reader with
  | .copy tail dst => some { s with reader := .copy tail (dst.put s.page s.writer i) }
  | _ => none

/-- What is put to `dst`, and how much was missed. -/
def consoleDumpDelta (content : ℕ → Byte) (tail head : BitVec 32) : List Byte × ℕ :=
  -- we might underflow here intentionally
  let delta := (tail - head).toNat
  if contentSize < delta then
    (cut contentSize content (tail - BitVec.ofNat 32 contentSize).toNat contentSize,
      delta - contentSize)
  else (cut contentSize content head.toNat delta, 0)

def missedText (miss : ℕ) : String := "<missed " ++ toString miss ++ " bytes of console log>\n"

/-- The rest of `jailhouse_console_read` with a buffer of the size, after a copy. -/
def consoleRead (s : Sys) (size : ℕ) : Option Sys :=
  match s.reader with
  | .taken dst =>
    let tail := dst.tail.getD 0
    -- no new data, so the reader waits and makes another copy
    if tail = s.head then some { s with reader := .spin }
    else
      let r := consoleDumpDelta (fun i => (dst.content i).getD 0) tail s.head
      if r.2 ≠ 0 then some { s with
        reader := .spin
        head := s.head + BitVec.ofNat 32 r.2
        outputs := s.outputs ++ [.missed r.2 (String.ofList ((missedText r.2).toList.take size))] }
      else
        let out := r.1.take size
        some { s with
          reader := .spin
          head := s.head + BitVec.ofNat 32 out.length
          outputs := s.outputs ++ [.bytes out r.1.length dst.torn] }
  | _ => none

inductive Act
  | write (msg : List Byte)
  | next
  | step
  | word (i : Option ℕ)
  | read (size : ℕ)

def step (s : Sys) : Act → Option Sys
  | .write msg => writeBegin s msg
  | .next => writeNext s
  | .step => copyStep s
  | .word i => copyWord s i
  | .read size => consoleRead s size

/-! ### What the reader is told -/

variable {s t : Sys} {dst : Copied}

/-- The first byte is not certain where the whole ring was copied and the copy is torn. -/
def Output.report : Output → Report Byte
  | .bytes content ret torn => .entries content (decide (ret = contentSize) && torn)
  | .missed miss _ => .missed miss

def reports (s : Sys) : List (Report Byte) := s.outputs.map Output.report

/-- The reader is less than `2 ^ 32` bytes behind. -/
def Near (s : Sys) (_ : Act) : Prop := s.printed.length < position (reports s) + 2 ^ 32

instance (s : Sys) (a : Act) : Decidable (Near s a) := inferInstanceAs (Decidable (_ < _))

def Copied.lost (dst : Copied) : ℕ := if dst.torn then 1 else 0

def Writer.lost (w : Writer) : ℕ := if w.spoils then 1 else 0

/-- What is copied is right for the bytes printed before, but perhaps for the oldest one. -/
structure CopyOk (s : Sys) (dst : Copied) : Prop where
  tail : ∀ t, dst.tail = some t → t = BitVec.ofNat 32 dst.start
  content : ∀ q x b, q < dst.start → dst.start + dst.lost ≤ q + contentSize →
    s.printed[q]? = some x → dst.content (q % contentSize) = some b → b = x

/-- The copy was started at a time that is not before the position of the reader. -/
def ReaderOk (s : Sys) : Reader → Prop
  | .spin | .readTail => True
  | .copy tail dst => dst.start ≤ s.printed.length ∧ position (reports s) ≤ dst.start ∧
    tail = BitVec.ofNat 32 dst.start ∧ (s.printed.length = dst.start → CopyOk s dst)
  | .checkBusy dst | .taken dst => dst.start ≤ s.printed.length ∧
    position (reports s) ≤ dst.start ∧ dst.complete ∧ CopyOk s dst

structure Inv (s : Sys) : Prop where
  tail : s.page.tail = BitVec.ofNat 32 s.printed.length
  kept : Keeps contentSize s.writer.lost s.page.content s.printed
  stored : ∀ c msg, s.writer = .stored (c :: msg) →
    s.page.content (s.printed.length % contentSize) = c
  reader : ReaderOk s s.reader
  told : Tells s.printed (reports s)
  head : s.head = BitVec.ofNat 32 (position (reports s))

lemma inv_init : Inv init :=
  ⟨rfl, keeps_nil, nofun, trivial, tells_nil _, rfl⟩

/-! ### The hypervisor keeps what was copied -/

lemma CopyOk.congr (h : CopyOk s dst) (hp : t.printed = s.printed) : CopyOk t dst :=
  ⟨h.tail, fun q x b hq hl hx => h.content q x b hq hl (hp ▸ hx)⟩

/-- The copy is of what was printed before. -/
lemma CopyOk.grow {c : Byte} (h : CopyOk s dst) (hs : dst.start ≤ s.printed.length)
    (hp : t.printed = s.printed ++ [c]) : CopyOk t dst := by
  refine ⟨h.tail, fun q x b hq hlt hx hb => h.content q x b hq hlt ?_ hb⟩
  rwa [hp, List.getElem?_append_left (by omega)] at hx

lemma ReaderOk.congr {r : Reader} (h : ReaderOk s r) (hp : t.printed = s.printed)
    (ho : t.outputs = s.outputs) : ReaderOk t r := by
  have hr : reports t = reports s := by rw [reports, reports, ho]
  cases r with
  | spin => trivial
  | readTail => trivial
  | copy tail dst =>
    obtain ⟨h1, h2, h3, h4⟩ := h
    exact ⟨hp ▸ h1, hr ▸ h2, h3, fun he => (h4 (hp ▸ he)).congr hp⟩
  | checkBusy dst =>
    obtain ⟨h1, h2, h3, h4⟩ := h
    exact ⟨hp ▸ h1, hr ▸ h2, h3, h4.congr hp⟩
  | taken dst =>
    obtain ⟨h1, h2, h3, h4⟩ := h
    exact ⟨hp ▸ h1, hr ▸ h2, h3, h4.congr hp⟩

lemma ReaderOk.grow {r : Reader} {c : Byte} (h : ReaderOk s r)
    (hp : t.printed = s.printed ++ [c]) (ho : t.outputs = s.outputs) : ReaderOk t r := by
  have hr : reports t = reports s := by rw [reports, reports, ho]
  have hl : t.printed.length = s.printed.length + 1 := by rw [hp]; simp
  cases r with
  | spin => trivial
  | readTail => trivial
  | copy tail dst =>
    obtain ⟨h1, h2, h3, -⟩ := h
    exact ⟨by omega, hr ▸ h2, h3, fun he => by omega⟩
  | checkBusy dst =>
    obtain ⟨h1, h2, h3, h4⟩ := h
    exact ⟨by omega, hr ▸ h2, h3, h4.grow h1 hp⟩
  | taken dst =>
    obtain ⟨h1, h2, h3, h4⟩ := h
    exact ⟨by omega, hr ▸ h2, h3, h4.grow h1 hp⟩

/-- The tail counts the printed bytes, so that it tells the slot of the next one. -/
lemma Inv.slot (h : Inv s) :
    s.page.tail.toNat % contentSize = s.printed.length % contentSize := by
  rw [h.tail, BitVec.toNat_ofNat]
  exact Nat.mod_mod_of_dvd _ (by decide)

lemma inv_write {msg : List Byte} (h : Inv s) (hst : writeBegin s msg = some t) : Inv t := by
  unfold writeBegin at hst
  split at hst
  · rename_i hw
    obtain rfl := Option.some.inj hst
    have hk := h.kept
    rw [hw] at hk
    exact ⟨h.tail, hk, nofun, h.reader.congr rfl rfl, h.told, h.head⟩
  · cases hst

lemma inv_next (h : Inv s) (hst : writeNext s = some t) : Inv t := by
  have hk := h.kept
  unfold writeNext at hst
  split at hst
  · cases hst
  · rename_i hw
    obtain rfl := Option.some.inj hst
    rw [hw] at hk
    exact ⟨h.tail, hk, nofun, h.reader.congr rfl rfl, h.told, h.head⟩
  · rename_i c msg hw
    obtain rfl := Option.some.inj hst
    rw [hw] at hk
    rw [h.slot]
    refine ⟨h.tail, (hk.mono (Nat.zero_le 1)).store c, fun c' msg' he => ?_,
      h.reader.congr rfl rfl, h.told, h.head⟩
    obtain ⟨rfl, -⟩ := List.cons.inj (Writer.stored.inj he)
    exact Function.update_self ..
  · cases hst
  · rename_i c msg hw
    obtain rfl := Option.some.inj hst
    rw [hw] at hk
    refine ⟨?_, hk.push (h.stored c msg hw), nofun, h.reader.grow rfl rfl, h.told.grow c, h.head⟩
    change s.page.tail + 1 = BitVec.ofNat 32 (s.printed ++ [c]).length
    rw [h.tail, List.length_append, List.length_singleton, BitVec.ofNat_add]
    rfl

/-! ### The driver -/

/-- Numbers that are less than `2 ^ 32` apart are told apart. -/
lemma ofNat_inj {a b : ℕ} (hab : a ≤ b) (hb : b < a + 2 ^ 32)
    (h : BitVec.ofNat 32 b = BitVec.ofNat 32 a) : b = a := by
  have hmod := congrArg BitVec.toNat h
  rw [BitVec.toNat_ofNat, BitVec.toNat_ofNat] at hmod
  omega

lemma toNat_sub_ofNat {a b : ℕ} (hab : a ≤ b) (hb : b < a + 2 ^ 32) :
    (BitVec.ofNat 32 b - BitVec.ofNat 32 a).toNat = b - a := by
  rw [BitVec.toNat_sub, BitVec.toNat_ofNat, BitVec.toNat_ofNat]
  omega

lemma inv_copy (h : Inv s) (hn : s.printed.length < position (reports s) + 2 ^ 32)
    (hst : copyStep s = some t) : Inv t := by
  have hr := h.reader
  unfold copyStep at hst
  split at hst
  · obtain rfl := Option.some.inj hst
    refine ⟨h.tail, h.kept, h.stored, ?_, h.told, h.head⟩
    dsimp only
    split <;> trivial
  · obtain rfl := Option.some.inj hst
    exact ⟨h.tail, h.kept, h.stored, ⟨Nat.le_refl _, h.told.position_le, h.tail, fun _ =>
      ⟨nofun, nofun⟩⟩, h.told, h.head⟩
  · rename_i tail dst he
    split at hst
    · cases hst
    rename_i hcomp
    obtain rfl := Option.some.inj hst
    refine ⟨h.tail, h.kept, h.stored, ?_, h.told, h.head⟩
    dsimp only
    split
    · trivial
    · rename_i ht
      rw [he] at hr
      obtain ⟨h1, h2, h3, h4⟩ := hr
      -- the tail is the one read first, so nothing was printed in between
      have hlen : s.printed.length = dst.start := by
        refine ofNat_inj h1 (by omega) ?_
        rw [← h.tail, ← h3]
        exact not_not.mp ht
      exact ⟨h1, h2, not_not.mp hcomp, (h4 hlen).congr rfl⟩
  · rename_i dst he
    obtain rfl := Option.some.inj hst
    refine ⟨h.tail, h.kept, h.stored, ?_, h.told, h.head⟩
    dsimp only
    split
    · trivial
    · rw [he] at hr
      exact ReaderOk.congr (r := .taken dst) hr rfl rfl
  · cases hst

lemma CopyOk.put (h : Inv s) (hok : CopyOk s dst) (hlen : s.printed.length = dst.start)
    (i : Option ℕ) : CopyOk s (dst.put s.page s.writer i) := by
  cases i with
  | none =>
    refine ⟨fun t ht => ?_, hok.content⟩
    rw [← Option.some.inj ht, h.tail, hlen]
    rfl
  | some i =>
    refine ⟨hok.tail, fun q x b hq hlt hx hb => ?_⟩
    have hle : dst.lost ≤ (dst.put s.page s.writer (some i)).lost := by
      unfold Copied.lost Copied.put
      dsimp only
      cases dst.torn <;> simp
    have hq' : q < dst.start := hq
    have hlt' : dst.start + (dst.put s.page s.writer (some i)).lost ≤ q + contentSize := hlt
    change Function.update dst.content i (some (s.page.content i)) _ = _ at hb
    by_cases hi : q % contentSize = i
    · rw [hi, Function.update_self] at hb
      rw [← Option.some.inj hb, ← hi]
      refine h.kept q x ?_ hx
      by_cases hslot : i = s.page.tail.toNat % contentSize
      · have hlost : s.writer.lost ≤ (dst.put s.page s.writer (some i)).lost := by
          unfold Copied.lost Writer.lost Copied.put
          dsimp only
          cases dst.torn <;> cases s.writer.spoils <;> simp [hslot]
        omega
      · -- the oldest byte stands in another slot, so this one is not stored over
        have hne : q + contentSize ≠ s.printed.length := by
          rintro he
          refine hslot (hi.symm.trans ?_)
          rw [h.slot, ← he, Nat.add_mod_right]
        have hlost : s.writer.lost ≤ 1 := by
          unfold Writer.lost
          split <;> omega
        omega
    · rw [Function.update_of_ne hi] at hb
      exact hok.content q x b hq' (by omega) hx hb

lemma inv_word {i : Option ℕ} (h : Inv s) (hst : copyWord s i = some t) : Inv t := by
  have hr := h.reader
  unfold copyWord at hst
  split at hst
  · rename_i tail dst he
    obtain rfl := Option.some.inj hst
    rw [he] at hr
    obtain ⟨h1, h2, h3, h4⟩ := hr
    have hstart : (dst.put s.page s.writer i).start = dst.start := by cases i <;> rfl
    refine ⟨h.tail, h.kept, h.stored, ?_, h.told, h.head⟩
    change _ ≤ _ ∧ _ ≤ _ ∧ tail = _ ∧ (_ = _ → CopyOk _ _)
    rw [hstart]
    exact ⟨h1, h2, h3, fun hlen => ((h4 hlen).put h hlen i).congr rfl⟩
  · cases hst

/-- The copied content is that of the log up to the start. -/
lemma CopyOk.keeps (h : CopyOk s dst) (hc : dst.complete) (hs : dst.start ≤ s.printed.length) :
    Keeps contentSize dst.lost (fun i => (dst.content i).getD 0) (s.printed.take dst.start) := by
  intro q x hq hx
  have hlt := (List.getElem?_eq_some_iff.mp hx).1
  rw [List.length_take, Nat.min_eq_left hs] at hq hlt
  rw [List.getElem?_take_of_lt hlt] at hx
  have hi : q % contentSize < contentSize := Nat.mod_lt _ (by decide)
  obtain ⟨b, hb⟩ := Option.isSome_iff_exists.mp (hc.2 _ hi)
  change (dst.content (q % contentSize)).getD 0 = x
  rw [hb]
  exact h.content q x b hlt hq hx hb

lemma dumpDelta_eq (content : ℕ → Byte) {p n : ℕ} (hp : p ≤ n) (hn : n < p + 2 ^ 32) :
    consoleDumpDelta content (BitVec.ofNat 32 n) (BitVec.ofNat 32 p) =
      if contentSize < n - p then
        (cut contentSize content (BitVec.ofNat 32 n - BitVec.ofNat 32 contentSize).toNat contentSize,
          n - p - contentSize)
      else (cut contentSize content p (n - p), 0) := by
  unfold consoleDumpDelta
  dsimp only
  rw [toNat_sub_ofNat hp hn]
  -- the position of the reader only counts modulo the size
  have hmod : (BitVec.ofNat 32 p).toNat % contentSize = p % contentSize := by
    rw [BitVec.toNat_ofNat]
    exact Nat.mod_mod_of_dvd _ (by decide)
  have hcut : cut contentSize content (BitVec.ofNat 32 p).toNat (n - p) =
      cut contentSize content p (n - p) := by
    unfold cut
    rw [hmod]
  rw [hcut]

/-- The reader goes on from where it is told. -/
lemma Inv.tell {o : Output} (h : Inv s) (hf : o.report.fits s.printed (position (reports s))) :
    Inv { s with
      reader := .spin
      head := s.head + BitVec.ofNat 32 o.report.length
      outputs := s.outputs ++ [o] } := by
  refine ⟨h.tail, h.kept, h.stored, trivial, ?_, ?_⟩
  · simp only [reports, List.map_append, List.map_singleton]
    exact h.told.concat hf
  · simp only [reports, List.map_append, List.map_singleton]
    rw [position_concat, BitVec.ofNat_add, h.head]
    rfl

/-- What a call gives fits the log at the position of the reader. -/
lemma inv_read {size : ℕ} (h : Inv s) (hn : s.printed.length < position (reports s) + 2 ^ 32)
    (hst : consoleRead s size = some t) : Inv t := by
  have hr := h.reader
  unfold consoleRead at hst
  split at hst
  · rename_i dst he
    rw [he] at hr
    obtain ⟨hstart, hpos, hcomp, hok⟩ := hr
    obtain ⟨tail, htail⟩ := Option.isSome_iff_exists.mp hcomp.1
    obtain rfl := hok.tail tail htail
    have hkeep := hok.keeps hcomp hstart
    have hdump := dumpDelta_eq (fun i => (dst.content i).getD 0) hpos (by omega : dst.start < _)
    rw [← h.head] at hdump
    have hN : 0 < contentSize := by decide
    rw [htail] at hst
    dsimp only [Option.getD_some] at hst
    rw [hdump] at hst
    split at hst
    · obtain rfl := Option.some.inj hst
      exact ⟨h.tail, h.kept, h.stored, trivial, h.told, h.head⟩
    by_cases hover : contentSize < dst.start - position (reports s)
    · simp only [if_pos hover] at hst
      rw [if_pos (by omega)] at hst
      obtain rfl := Option.some.inj hst
      exact h.tell (o := .missed _ _) (show _ + _ ≤ _ by omega)
    · simp only [if_neg hover] at hst
      rw [if_neg (by omega)] at hst
      obtain rfl := Option.some.inj hst
      refine h.tell (o := .bytes _ _ _) ⟨?_, fun i hi hfull => ?_⟩
      · rw [List.length_take, length_cut hN]
        omega
      · rw [List.length_take, length_cut hN] at hi
        rw [length_cut hN, Bool.and_eq_false_iff, decide_eq_false_iff_not] at hfull
        have hlen : (s.printed.take dst.start).length = dst.start := by
          rw [List.length_take, Nat.min_eq_left hstart]
        have hlost : dst.lost ≤ 1 ∧ (dst.torn = false → dst.lost = 0) := by
          unfold Copied.lost
          cases dst.torn <;> decide
        have hold : dst.start + dst.lost ≤ position (reports s) + i + contentSize := by
          rcases hfull with hi0 | hne | ht
          · omega
          · omega
          · have := hlost.2 ht
            omega
        have hcut := cut_eq hN hkeep (p := position (reports s))
          (n := dst.start - position (reports s)) (i := i) (by omega) (by omega) (by omega)
          (by omega)
        rw [List.getElem?_take_of_lt (by omega), hcut, List.getElem?_take_of_lt (by omega)]
  · cases hst

lemma inv_step (s : Sys) (a : Act) (t : Sys) (h : Inv s) (hn : Near s a)
    (hst : step s a = some t) : Inv t := by
  cases a with
  | write msg => exact inv_write h hst
  | next => exact inv_next h hst
  | step => exact inv_copy h hn hst
  | word i => exact inv_word h hst
  | read size => exact inv_read h hn hst

/-! ### Runs -/

/-- A step prints one byte at most. -/
lemma step_printed {a : Act} (hst : step s a = some t) :
    t.printed.length ≤ s.printed.length + 1 := by
  cases a with
  | write msg =>
    simp only [step, writeBegin] at hst
    split at hst <;> cases hst
    exact Nat.le_succ _
  | next =>
    simp only [step, writeNext] at hst
    split at hst <;> cases hst
    all_goals first
      | exact Nat.le_succ _
      | exact (List.length_append ..).le
  | step =>
    simp only [step, copyStep] at hst
    repeat' split at hst
    all_goals cases hst
    all_goals exact Nat.le_succ _
  | word i =>
    simp only [step, copyWord] at hst
    split at hst <;> cases hst
    exact Nat.le_succ _
  | read size =>
    simp only [step, consoleRead] at hst
    repeat' split at hst
    all_goals cases hst
    all_goals exact Nat.le_succ _

/-- A run that is not too long leaves nobody behind. -/
lemma near_of_short {as : List Act} (h : s.printed.length + as.length < 2 ^ 32) :
    Along step Near s as := by
  induction as generalizing s with
  | nil => trivial
  | cons a as ih =>
    rw [List.length_cons] at h
    have hn : Near s a := by
      unfold Near
      omega
    refine ⟨hn, fun t ht => ih ?_⟩
    have := step_printed ht
    omega

/-- **A reader of the console gets what was printed**: in every interleaving of the hypervisor and
the driver, what the calls give are consecutive parts of all that was printed, with gaps of as many
bytes as the reader is told. Only the first byte of a whole ring is not certain, where its slot was
copied while the next byte was stored there and not counted yet. -/
theorem console_told (as : List Act) (s : Sys) (hn : Along step Near init as)
    (he : exec step init as = some s) :
    Tells s.printed (reports s) ∧ s.head = BitVec.ofNat 32 (position (reports s)) := by
  have h : Inv s := exec_inv_along inv_step inv_init hn he
  exact ⟨h.told, h.head⟩

/-- A copy without anything in between. -/
def wholeCopy : List Act :=
  [.step, .step, .word none] ++ ((List.range contentSize).map fun i => .word (some i)) ++
    [.step, .step]

lemma copy_words {tail : BitVec 32} (l : List ℕ) (hr : s.reader = .copy tail dst)
    (hw : s.writer = .idle) :
    exec step s (l.map fun i => .word (some i)) = some { s with
      reader := .copy tail { dst with
        content := fun i => if i ∈ l then some (s.page.content i) else dst.content i } } := by
  induction l generalizing s dst with
  | nil => simp [← hr]
  | cons i l ih =>
    rw [List.map_cons, exec_cons]
    let u : Sys := { s with reader := .copy tail (dst.put s.page s.writer (some i)) }
    have hu : step s (.word (some i)) = some u := by simp only [step, copyWord, hr, u]
    have hrest := ih (s := u) rfl hw
    refine ⟨u, hu, hrest.trans ?_⟩
    have htorn : (dst.torn ||
        (s.writer.spoils && decide (i = s.page.tail.toNat % contentSize))) = dst.torn := by
      rw [hw]
      exact Bool.or_false _
    simp only [u, Copied.put, htorn]
    congr 4
    funext j
    by_cases hj : j ∈ l
    · simp [hj]
    · by_cases hji : j = i
      · subst hji
        simp [hj]
      · simp [hj, hji]

/-- While nothing is printed the page is copied at the first try, and whole. -/
lemma copy_whole (hr : s.reader = .spin) (hb : s.page.busy = false) (hw : s.writer = .idle) :
    exec step s wholeCopy = some { s with
      reader := .taken ⟨some s.page.tail,
        fun i => if i < contentSize then some (s.page.content i) else none, s.printed.length,
        false⟩ } := by
  have hcomp : Copied.complete ⟨some s.page.tail,
      fun i => if i < contentSize then some (s.page.content i) else none, s.printed.length,
      false⟩ := ⟨rfl, fun i hi => by simp [hi]⟩
  unfold wholeCopy
  rw [List.append_assoc, exec_append]
  refine ⟨{ s with
    reader := .copy s.page.tail ⟨some s.page.tail, fun _ => none, s.printed.length, false⟩ },
    ?_, ?_⟩
  · simp [exec, step, copyStep, copyWord, Copied.put, hr, hb]
  · rw [exec_append]
    refine ⟨_, copy_words _ rfl hw, ?_⟩
    simp only [List.mem_range]
    simp [exec, step, copyStep, hcomp, hb]

/-- The hypervisor prints two bytes, and the reader asks for ten. -/
def hello : List Act :=
  [.write [72, 105], .next, .next, .next, .next, .next] ++ (wholeCopy ++ [.read 10])

theorem console_told_hello :
    ∃ s, exec step init hello = some s ∧ s.printed = [72, 105] ∧
      reports s = [.entries [72, 105] false] ∧ Tells s.printed (reports s) ∧
      s.head = BitVec.ofNat 32 (position (reports s)) := by
  have hrun : ∃ s, exec step init hello = some s ∧ s.printed = [72, 105] ∧
      reports s = [.entries [72, 105] false] := by
    unfold hello
    refine ⟨_, (exec_append _).mpr ⟨_, rfl, (exec_append _).mpr ⟨_, copy_whole rfl rfl rfl, rfl⟩⟩,
      ?_, ?_⟩
    · rfl
    · rfl
  obtain ⟨s, he, hp, hr⟩ := hrun
  have hn : Along step Near init hello := by
    apply near_of_short
    simp [hello, wholeCopy, init, contentSize]
  obtain ⟨ht, hh⟩ := console_told hello s hn he
  exact ⟨s, he, hp, hr, ht, hh⟩

end FpMemSched.Console
