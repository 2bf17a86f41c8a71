import Mathlib.Logic.Function.Basic
import FpMemSched.PagePool

/-!
The generic paging code (`paging.c`): `paging_create`, `paging_destroy`, `split_hugepage` and
`paging_virt2phys`, over the levels that a `struct paging` array describes.

Page tables are trees. An entry is invalid, maps a page of the size of its level, or points to a
table of the next level; tables that are taken from the pool are empty. The pool is the number of
its free pages, and an operation that finds it empty stops with what it has done so far.
-/

namespace FpMemSched.PageTables

open FpMemSched

/-- A level: an entry covers `2 ^ shift` addresses, a table has `2 ^ bits` entries, and entries
may map pages or not. -/
structure Paging where
  shift : ℕ
  bits : ℕ
  terminal : Bool
  deriving DecidableEq

def Paging.span (p : Paging) : ℕ := 2 ^ p.shift

/-- The page size of terminal entries, `0` if none are supported. -/
def Paging.pageSize (p : Paging) : ℕ := if p.terminal then p.span else 0

def Paging.index (p : Paging) (virt : ℕ) : ℕ := virt / p.span % 2 ^ p.bits

/-- Access flags are those of a page that is present. -/
inductive Entry (F : Type) where
  | invalid
  | page (phys : ℕ) (flags : F)
  | table (t : ℕ → Entry F)

abbrev Table (F : Type) := ℕ → Entry F

variable {F : Type}

def Entry.valid : Entry F → Bool
  | .invalid => false
  | .page _ _ | .table _ => true

def emptyTable : Table F := fun _ => .invalid

def pageTableEmpty (entries : ℕ) (t : Table F) : Bool :=
  (List.range entries).all fun i => !(t i).valid

/-- The physical address, with the flags of the page. -/
def virt2phys : List Paging → Table F → ℕ → Option (ℕ × F)
  | [], _, _ => none
  | p :: ls, t, virt =>
    match t (p.index virt) with
    | .invalid => none
    | .page phys flags => some (phys + virt % p.span, flags)
    | .table u => virt2phys ls u virt

/-! ### Passes

Each pass of the two loops walks down from the root, changes one entry and tells by how much to
advance, or that a table could not be allocated. -/

structure Pass (F : Type) where
  table : Table F
  free : ℕ
  advance : Option ℕ

/-- What the levels below provide. -/
structure Ops (F : Type) where
  entries : ℕ
  create : Table F → ℕ → ℕ → ℕ → F → ℕ → Pass F
  destroy : Table F → ℕ → ℕ → ℕ → Pass F

structure Result (F : Type) where
  table : Table F
  free : ℕ
  ok : Bool

def createLoop (pass : Table F → ℕ → ℕ → ℕ → F → ℕ → Pass F) (flags : F) :
    ℕ → Table F → ℕ → ℕ → ℕ → ℕ → Result F
  | 0, t, _, _, _, free => ⟨t, free, true⟩
  | k + 1, t, phys, size, virt, free =>
    if size = 0 then ⟨t, free, true⟩
    else
      let r := pass t phys size virt flags free
      match r.advance with
      | none => ⟨r.table, r.free, false⟩
      | some a => createLoop pass flags k r.table (phys + a) (size - a) (virt + a) r.free

def destroyLoop (pass : Table F → ℕ → ℕ → ℕ → Pass F) :
    ℕ → Table F → ℕ → ℕ → ℕ → Result F
  | 0, t, _, _, free => ⟨t, free, true⟩
  | k + 1, t, virt, size, free =>
    if size = 0 then ⟨t, free, true⟩
    else
      let r := pass t virt size free
      match r.advance with
      | none => ⟨r.table, r.free, false⟩
      | some a =>
        if size < a then ⟨r.table, r.free, true⟩
        else destroyLoop pass k r.table (virt + a) (size - a) r.free

/-- The table for a page that is split, if one can be allocated. -/
def splitHugepage (p : Paging) (sub : Ops F) (phys : ℕ) (flags : F) (virt free : ℕ) :
    Option (Result F) :=
  if free = 0 then none
  else some (createLoop sub.create flags (p.span / PagePool.pageSize) emptyTable phys
    p.pageSize (virt - virt % p.span) (free - 1))

/-- The walk goes down to the table of the next level, and up again after the change. -/
def destroyBelow (p : Paging) (sub : Ops F) (t u : Table F) (virt size free : ℕ) : Pass F :=
  let r := sub.destroy u virt size free
  if r.advance.isSome ∧ pageTableEmpty sub.entries r.table then
    ⟨Function.update t (p.index virt) .invalid, r.free + 1, r.advance⟩
  else ⟨Function.update t (p.index virt) (.table r.table), r.free, r.advance⟩

/-- By how much `paging_destroy` advances from an entry of this level. -/
def Paging.advance (p : Paging) : ℕ :=
  if p.pageSize = 0 then PagePool.pageSize else p.pageSize

def destroyPass (p : Paging) (sub : Ops F) (t : Table F) (virt size free : ℕ) : Pass F :=
  match t (p.index virt) with
  | .invalid => ⟨Function.update t (p.index virt) .invalid, free, some p.advance⟩
  | .page phys flags =>
    if size < p.pageSize then
      match splitHugepage p sub phys flags virt free with
      | none => ⟨t, free, none⟩
      | some r =>
        if r.ok then destroyBelow p sub t r.table virt size r.free
        else ⟨Function.update t (p.index virt) (.table r.table), r.free, none⟩
    else ⟨Function.update t (p.index virt) .invalid, free, some p.advance⟩
  | .table u => destroyBelow p sub t u virt size free

def createBelow (p : Paging) (sub : Ops F) (t u : Table F) (phys size virt : ℕ) (flags : F)
    (free : ℕ) : Pass F :=
  let r := sub.create u phys size virt flags free
  ⟨Function.update t (p.index virt) (.table r.table), r.free, r.advance⟩

/-- The entry can map the whole of the page at this level. -/
def Paging.Fits (p : Paging) (phys size virt : ℕ) : Prop :=
  0 < p.pageSize ∧ p.pageSize ≤ size ∧ phys % p.pageSize = 0 ∧ virt % p.pageSize = 0

instance (p : Paging) (phys size virt : ℕ) : Decidable (p.Fits phys size virt) :=
  inferInstanceAs (Decidable (_ ∧ _ ∧ _ ∧ _))

/-- A finer mapping of the page is released first; that it has failed is not looked at. -/
def releaseFiner (p : Paging) (destroy : Table F → ℕ → ℕ → ℕ → Pass F) (t : Table F)
    (virt free : ℕ) : Result F :=
  if PagePool.pageSize < p.pageSize then
    destroyLoop destroy (p.pageSize / PagePool.pageSize) t virt p.pageSize free
  else ⟨t, free, true⟩

def createPass (p : Paging) (sub : Ops F) (destroy : Table F → ℕ → ℕ → ℕ → Pass F)
    (t : Table F) (phys size virt : ℕ) (flags : F) (free : ℕ) : Pass F :=
  if p.Fits phys size virt then
    let r := releaseFiner p destroy t virt free
    ⟨Function.update r.table (p.index virt) (.page phys flags), r.free, some p.pageSize⟩
  else
    match t (p.index virt) with
    | .page phys' flags' =>
      match splitHugepage p sub phys' flags' virt free with
      | none => ⟨t, free, none⟩
      | some r =>
        if r.ok then createBelow p sub t r.table phys size virt flags r.free
        else ⟨Function.update t (p.index virt) (.table r.table), r.free, none⟩
    | .table u => createBelow p sub t u phys size virt flags free
    | .invalid =>
      if free = 0 then ⟨t, free, none⟩
      else createBelow p sub t emptyTable phys size virt flags (free - 1)

/-- A pass of each loop over these levels. There is no walk below the last of them. -/
def ops : List Paging → Ops F
  | [] => ⟨0, fun t _ _ _ _ free => ⟨t, free, none⟩, fun t _ _ free => ⟨t, free, none⟩⟩
  | p :: ls =>
    let destroy := destroyPass p (ops ls)
    ⟨2 ^ p.bits, createPass p (ops ls) destroy, destroy⟩

/-! ### The operations -/

def pageAlign (size : ℕ) : ℕ :=
  (size + PagePool.pageSize - 1) / PagePool.pageSize *
    PagePool.pageSize

def pageMask (addr : ℕ) : ℕ := addr - addr % PagePool.pageSize

def pagingCreate (ls : List Paging) (t : Table F) (phys size virt : ℕ) (flags : F) (free : ℕ) :
    Result F :=
  createLoop (ops ls).create flags (pageAlign size / PagePool.pageSize) t
    (pageMask phys) (pageAlign size) (pageMask virt) free

def pagingDestroy (ls : List Paging) (t : Table F) (virt size free : ℕ) : Result F :=
  destroyLoop (ops ls).destroy (pageAlign size / PagePool.pageSize) t virt
    (pageAlign size) free

end FpMemSched.PageTables
