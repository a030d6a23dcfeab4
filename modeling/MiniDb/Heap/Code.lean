import MiniDb.Pager.Interface

/-!
# The heap

The functions of `table.c`.  A heap page has a slot directory that grows forward from its
header and rows that grow backward from its end; deleted rows leave their slots in a
chain through `next_free`.
-/

namespace MiniDb

open Bytes

/-! ## Inside one page -/

/-- Offset of slot 0 -/
def slotBase : Nat := 16

/-- `slots_end`, cut to 16 bits -/
def slotsEnd (slotCount : UInt16) : UInt16 := UInt16.ofNat (slotBase + slotCount.toNat * slotC.size)

/-- `available_space` -/
def availableSpace (pageSize : UInt32) (hph : HeapPageHeader) : UInt16 :=
  let front := slotsEnd hph.slotCount
  let back := (pageSize - hph.freeSpaceOffset.toUInt32).toUInt16
  if back ≤ front then 0 else back - front

/-- `memcpy(page + off, row, n)` with the `n` bytes of `row` -/
def copyIn (page : Page) (off : Nat) (row : List UInt8) : Option Page := splice? page off row

/-- The `n` bytes at `page + off` -/
def readRow (page : Page) (off n : Nat) : Option (List UInt8) := slice? page off n

/-- The branch of `heap_insert` that takes the first free slot -/
def reuseSlot (page : Page) (hph : HeapPageHeader) (row : List UInt8) : Option Page := do
  let slot ← slotC.getAt? slotBase page hph.freeSlotHead.toNat
  let page ← copyIn page slot.offset.toNat row
  let page ← slotC.putAt? slotBase page hph.freeSlotHead.toNat
    { slot with status := slotAlive, nextFree := slotNone }
  heapPageHeaderC.put? page 0 { hph with freeSlotHead := slot.nextFree }

/-- The branch of `heap_insert` that adds a slot -/
def addSlot (pageSize : UInt32) (page : Page) (hph : HeapPageHeader) (row : List UInt8)
    (rowSize : UInt16) : Option Page := do
  let rowOffset :=
    (pageSize - hph.freeSpaceOffset.toUInt32 - rowSize.toUInt32).toUInt16
  let page ← slotC.putAt? slotBase page hph.slotCount.toNat ⟨rowOffset, slotAlive, slotNone, 0⟩
  let page ← copyIn page rowOffset.toNat row
  heapPageHeaderC.put? page 0
    { hph with
      slotCount := hph.slotCount + 1, freeSpaceOffset := hph.freeSpaceOffset + rowSize }

/-! ## Insertion -/

/-- The loop of `find_heap_page` over the chain -/
def findHeapPageLoop : Nat → PageId → Routine PageId
  | 0, _ => .throw .nonTermination
  | n + 1, pid =>
    if pid = 0 then return 0
    else do
      pagerGetPage pid
      let page ← load pid
      let hph := heapPageHeaderC.get page 0
      pagerUnpin pid
      if hph.freeSlotHead ≠ slotNone then return pid
      else findHeapPageLoop n hph.nextHeapPageId

/-- Whether the last page takes another row -/
def tailFits (pageSize : UInt32) (hph : HeapPageHeader) (rowSize : UInt16) : Bool :=
  hph.freeSlotHead ≠ slotNone ||
    UInt16.ofNat (slotC.size + rowSize.toNat) ≤ availableSpace pageSize hph

/-- `find_heap_page`; 0 when no page takes another row -/
def findHeapPage (rowSize : UInt16) : Routine PageId := do
  let fields ← getFields
  let tail := fields.lastHeapPageId
  if tail ≠ 0 then
    pagerGetPage tail
    let page ← load tail
    let hph := heapPageHeaderC.get page 0
    pagerUnpin tail
    if tailFits fields.pageSize hph rowSize then return tail
    else findHeapPageLoop maxPages fields.header.firstHeapPageId
  else findHeapPageLoop maxPages fields.header.firstHeapPageId

/-- The new page of `heap_insert`, linked behind the last one -/
def growHeap : Routine PageId := do
  let pid ← pagerAllocPage
  pagerGetPage pid
  let page ← load pid
  store pid (← inBounds (heapPageHeaderC.put? page 0 emptyHeapHeader))
  pagerMarkDirty pid
  pagerUnpin pid
  let prev := (← getFields).lastHeapPageId
  if prev ≠ 0 then
    pagerGetPage prev
    let pp ← load prev
    let ph := heapPageHeaderC.get pp 0
    store prev (← inBounds (heapPageHeaderC.put? pp 0 { ph with nextHeapPageId := pid }))
    pagerMarkDirty prev
    pagerUnpin prev
  let fields ← getFields
  setFields { fields with lastHeapPageId := pid }
  return pid

/-- The part of `heap_insert` that fills a slot of the chosen page -/
def insertRow (pid : PageId) (row : List UInt8) (rowSize : UInt16) : Routine RowRef := do
  let pageSize ← getPageSize
  pagerGetPage pid
  let page ← load pid
  let hph := heapPageHeaderC.get page 0
  if hph.freeSlotHead ≠ slotNone then
    store pid (← inBounds (reuseSlot page hph row))
    pagerMarkDirty pid
    pagerUnpin pid
    return ⟨pid, hph.freeSlotHead⟩
  else
    store pid (← inBounds (addSlot pageSize page hph row rowSize))
    pagerMarkDirty pid
    pagerUnpin pid
    return ⟨pid, hph.slotCount⟩

/-- `heap_insert` of the `rowSize` bytes of `row` -/
def heapInsert (row : List UInt8) (rowSize : UInt16) : Routine RowRef := do
  let pid ← findHeapPage rowSize
  if pid = 0 then
    let pid ← growHeap
    insertRow pid row rowSize
  else insertRow pid row rowSize

/-! ## Fetch and deletion -/

/-- `heap_fetch`: the offset of the row in the buffer of its page, which stays pinned -/
def heapFetch (ref : RowRef) : Routine (Option Nat) := do
  let ok ← pagerGetPage? ref.pageId
  if ok then
    let page ← load ref.pageId
    let slot ← inBounds (slotC.getAt? slotBase page ref.slotId.toNat)
    if slot.status ≠ slotAlive then
      pagerUnpin ref.pageId
      return none
    else return some slot.offset.toNat
  else return none

/-- What callers of `heap_fetch` do: read the row and unpin its page. -/
def fetchRow (ref : RowRef) (rowSize : UInt16) : Routine (Option (List UInt8)) := do
  match ← heapFetch ref with
  | none => return none
  | some off =>
    let page ← load ref.pageId
    let row ← inBounds (readRow page off rowSize.toNat)
    pagerUnpin ref.pageId
    return some row

/-- `heap_delete` -/
def heapDelete (ref : RowRef) : Routine Int := do
  let ok ← pagerGetPage? ref.pageId
  if ok then
    let page ← load ref.pageId
    let hph := heapPageHeaderC.get page 0
    let slot ← inBounds (slotC.getAt? slotBase page ref.slotId.toNat)
    if slot.status ≠ slotAlive then
      pagerUnpin ref.pageId
      return -1
    else
      let page ← inBounds (slotC.putAt? slotBase page ref.slotId.toNat
        { slot with status := slotFree, nextFree := hph.freeSlotHead })
      let page ← inBounds (heapPageHeaderC.put? page 0 { hph with freeSlotHead := ref.slotId })
      store ref.pageId page
      pagerMarkDirty ref.pageId
      pagerUnpin ref.pageId
      return 0
  else return -1

/-! ## Scan -/

section Scan

variable {γ : Type}

/-- The loop of `heap_scan` over the slots of a page, from slot `i` on.  The callback gets the
    bytes of the row; its answer `false` ends the scan. -/
def scanSlots (cb : List UInt8 → RowRef → γ → Bool × γ) (rowSize : UInt16) (pid : PageId)
    (page : Page) : Nat → Nat → γ → Routine (Bool × γ)
  | 0, _, ctx => return (true, ctx)
  | n + 1, i, ctx => do
    let slot ← inBounds (slotC.getAt? slotBase page i)
    if slot.status = slotAlive then
      let row ← inBounds (readRow page slot.offset.toNat rowSize.toNat)
      let r := cb row ⟨pid, UInt16.ofNat i⟩ ctx
      if r.1 then scanSlots cb rowSize pid page n (i + 1) r.2
      else return (false, r.2)
    else scanSlots cb rowSize pid page n (i + 1) ctx

def heapScanLoop (cb : List UInt8 → RowRef → γ → Bool × γ) (rowSize : UInt16) :
    Nat → PageId → γ → Routine γ
  | 0, _, _ => .throw .nonTermination
  | n + 1, pid, ctx =>
    if pid = 0 then return ctx
    else do
      pagerGetPage pid
      let page ← load pid
      let hph := heapPageHeaderC.get page 0
      let r ← scanSlots cb rowSize pid page hph.slotCount.toNat 0 ctx
      pagerUnpin pid
      if r.1 then heapScanLoop cb rowSize n hph.nextHeapPageId r.2
      else return r.2

/-- `heap_scan` -/
def heapScan (cb : List UInt8 → RowRef → γ → Bool × γ) (rowSize : UInt16) (ctx : γ) :
    Routine γ := do
  let header ← getHeader
  heapScanLoop cb rowSize maxPages header.firstHeapPageId ctx

end Scan

end MiniDb
