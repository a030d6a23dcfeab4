import MiniDb.Pager.Interface

/-!
# Tree nodes in a page

The parts of `bptree.c` that work inside one page buffer: capacities, binary
search, and the loops that shift entries.  An access outside the buffer gives
`none`.
-/

namespace MiniDb

open Bytes

instance : Inhabited LeafEntry := ⟨⟨0, ⟨0, 0⟩⟩⟩
instance : Inhabited InternalEntry := ⟨⟨0, 0⟩⟩

/-! ## Capacities -/

/-- `max_leaf_keys`, computed in `size_t` -/
def maxLeafKeys (pageSize : UInt32) : UInt32 := ((pageSize.toUInt64 - 20) / 14).toUInt32

/-- `max_internal_keys` -/
def maxInternalKeys (pageSize : UInt32) : UInt32 := ((pageSize.toUInt64 - 16) / 12).toUInt32

/-- `min_leaf_keys` -/
def minLeafKeys (pageSize : UInt32) : UInt32 := maxLeafKeys pageSize / 2

/-- `min_internal_keys` -/
def minInternalKeys (pageSize : UInt32) : UInt32 := maxInternalKeys pageSize / 2

/-! ## Entry arrays -/

/-- Offset of `leaf_entries(page)` -/
def leafBase : Nat := 20

/-- Offset of `internal_entries(page)` -/
def internalBase : Nat := 16

/-- The first `n` records of an array, or nothing when they do not fit the page -/
def readEntries {α : Type} (c : Codec α) (base : Nat) (pg : Page) (n : Nat) :
    Option (List α) :=
  if base + n * c.size ≤ pg.length then some (c.listAt base pg n) else none

/-- Write records from index `i` on. -/
def writeEntries {α : Type} (c : Codec α) (base : Nat) : Page → Nat → List α → Option Page
  | pg, _, [] => some pg
  | pg, i, a :: l => do writeEntries c base (← c.putAt? base pg i a) (i + 1) l

/-- `memset(page + off, 0, n)` -/
def zeroRange (pg : Page) (off n : Nat) : Option Page :=
  if off + n ≤ pg.length then some (splice pg off (List.replicate n 0)) else none

/-- `for (i = count; i > idx; i--) entries[i] = entries[i - 1];` -/
def shiftRight {α : Type} (c : Codec α) (base idx : Nat) : Nat → Page → Option Page
  | 0, pg => some pg
  | i + 1, pg =>
    if idx < i + 1 then do
      let e ← c.getAt? base pg i
      shiftRight c base idx i (← c.putAt? base pg (i + 1) e)
    else some pg

/-- `for (; i < end; i++) entries[i] = entries[i + 1];` with `n = end - i` rounds -/
def shiftLeft {α : Type} (c : Codec α) (base : Nat) : Nat → Nat → Page → Option Page
  | 0, _, pg => some pg
  | n + 1, i, pg => do
    let e ← c.getAt? base pg (i + 1)
    shiftLeft c base n (i + 1) (← c.putAt? base pg i e)

/-! ## Binary search -/

/-- The search loop of `leaf_find` and `internal_find`: `before mid` tells whether the
    position looked for lies after `mid`.  The interval shrinks in every round, so
    `n = hi - lo` rounds are enough. -/
def searchLoop (before : Nat → Bool) : Nat → UInt32 → UInt32 → UInt32
  | 0, lo, _ => lo
  | n + 1, lo, hi =>
    if lo < hi then
      let mid := (lo + hi) / 2
      if before mid.toNat then searchLoop before n (mid + 1) hi
      else searchLoop before n lo mid
    else lo

/-- `leaf_find` -/
def leafFind (entries : List LeafEntry) (count : UInt32) (key : Key) : UInt32 :=
  searchLoop (fun mid => decide ((entries.getD mid default).key < key)) count.toNat 0 count

/-- `internal_find` -/
def internalFind (entries : List InternalEntry) (count : UInt32) (key : Key) : UInt32 :=
  searchLoop (fun mid => decide ((entries.getD mid default).key ≤ key)) count.toNat 0 count

/-! ## Entry insertion and removal -/

/-- `leaf_insert_entry` -/
def leafInsertEntry (page : Page) (lph : LeafPageHeader) (key : Key) (ref : RowRef) :
    Option Page := do
  let entries ← readEntries leafEntryC leafBase page lph.keyCount.toNat
  let idx := leafFind entries lph.keyCount key
  let page ← shiftRight leafEntryC leafBase idx.toNat lph.keyCount.toNat page
  let page ← leafEntryC.putAt? leafBase page idx.toNat ⟨key, ref⟩
  leafPageHeaderC.put? page 0 { lph with keyCount := lph.keyCount + 1 }

/-- `delete_entry_from_leaf` -/
def deleteEntryFromLeaf (page : Page) (lph : LeafPageHeader) (idx : UInt32) : Option Page := do
  let last := lph.keyCount - 1
  let page ← shiftLeft leafEntryC leafBase (last.toNat - idx.toNat) idx.toNat page
  leafPageHeaderC.put? page 0 { lph with keyCount := last }

/-- `delete_entry_from_internal`; with no entries the bound `key_count - 1` wraps. -/
def deleteEntryFromInternal (page : Page) (iph : InternalPageHeader) (idx : UInt32) :
    Option Page := do
  let last := iph.keyCount - 1
  let page ← shiftLeft internalEntryC internalBase (last.toNat - idx.toNat) idx.toNat page
  internalPageHeaderC.put? page 0 { iph with keyCount := last }

/-- The insertion loop of `insert_into_parent` -/
def internalInsertEntry (page : Page) (iph : InternalPageHeader) (key : Key)
    (rightPid : PageId) : Option Page := do
  let entries ← readEntries internalEntryC internalBase page iph.keyCount.toNat
  let idx := internalFind entries iph.keyCount key
  let page ← shiftRight internalEntryC internalBase idx.toNat iph.keyCount.toNat page
  let page ← internalEntryC.putAt? internalBase page idx.toNat ⟨key, rightPid⟩
  internalPageHeaderC.put? page 0 { iph with keyCount := iph.keyCount + 1 }

end MiniDb
