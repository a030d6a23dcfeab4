import MiniDb.Lib.Free
import MiniDb.PageFormat

/-!
# The pager interface and the flat page store

The tree, the heap and the executor reach pages only through the calls of
`pager.h`, so each of their functions is a routine over `PagerSig`.  A buffer
pointer returned by `pager_get_page` is represented by the id of its page:
`load` and `store` read and write the buffer that caches the page.

`Db.step` implements the interface without a cache: every page simply has its
bytes.  `MiniDb.Pager.Cache` implements it as `pager.c` does, and
`MiniDb.Pager.Transparent` proves that the two agree.
-/

namespace MiniDb

open Bytes Free

/-- Why a routine cannot go on.  Only `idsExhausted` is ever reached from a
    well-formed database; the others mark undefined behaviour of the source. -/
inductive Fault where
  /-- `next_page_id` has wrapped around to 0 -/
  | idsExhausted
  /-- page 0, which holds the header, is requested as a data page -/
  | headerPage
  /-- the result of `pager_get_page` is used although it is `NULL` -/
  | nullPage
  /-- a buffer is used that no longer caches the page -/
  | notResident
  /-- an access outside the page, or outside an array -/
  | outOfBounds
  /-- a loop has made more steps than there are page ids -/
  | nonTermination
  /-- a value is used that was never set -/
  | uninitialised
  deriving DecidableEq, Repr

/-- What the tree code and the executor do, for statements about them; it has no effect. -/
inductive Event where
  /-- `fix_leaf_after_delete` handles a non-root leaf with fewer than `min_leaf_keys`
      entries; `keyCount` is read from its parent -/
  | underflow (leaf parent : PageId) (keyCount : UInt32)
  /-- a child id is taken from entry `idx` of an internal node -/
  | takeChild (node : PageId) (idx keyCount : UInt32)
  /-- `leaf` borrows from or merges with `sib` -/
  | sibling (leaf sib : PageId)
  /-- `pager_free_page` puts a page on the free list -/
  | freePage (pid : PageId)
  /-- `delete_entry_from_internal` is entered -/
  | deleteInternal (keyCount : UInt32)
  /-- the executor begins to remove the row with this id -/
  | removeRow (key : Key)
  /-- the result of `heap_delete` that the executor ignores -/
  | heapDeleted (rc : Int)
  /-- the executor is about to decrement `row_count` -/
  | countDown (rowCount : UInt64)
  deriving DecidableEq

/-- The scalar fields of `pager_t` that its callers use. -/
structure PagerFields where
  pageSize : UInt32
  header : DbHeader
  lastHeapPageId : PageId

/-- The calls of `pager.h` and the accesses through the pointers it hands out. -/
inductive PagerOp where
  | getPage (pid : PageId)
  | load (pid : PageId)
  | store (pid : PageId) (pg : Page)
  | markDirty (pid : PageId)
  | unpin (pid : PageId)
  | getFields
  | setFields (f : PagerFields)
  | setHeaderDirty
  | note (e : Event)

/-- `pager_get_page` answers whether its result is not `NULL`. -/
@[reducible] def PagerOp.Resp : PagerOp → Type
  | .getPage _ => Bool
  | .load _ => Page
  | .getFields => PagerFields
  | _ => Unit

abbrev PagerSig : Sig := ⟨PagerOp, PagerOp.Resp⟩

/-- A function of the program that uses the pager. -/
abbrev Routine (α : Type) := Prog PagerSig Fault α

/-! ## The calls -/

/-- `pager_get_page`, for callers that check its result -/
def pagerGetPage? (pid : PageId) : Routine Bool := Prog.op (S := PagerSig) (.getPage pid)

/-- `pager_get_page`, for callers that use the pointer unchecked -/
def pagerGetPage (pid : PageId) : Routine Unit := do
  let ok ← pagerGetPage? pid
  if ok then pure () else .throw .nullPage

/-- Read the buffer of a page. -/
def load (pid : PageId) : Routine Page := Prog.op (S := PagerSig) (.load pid)

/-- Write the buffer of a page. -/
def store (pid : PageId) (pg : Page) : Routine Unit := Prog.op (S := PagerSig) (.store pid pg)

def pagerMarkDirty (pid : PageId) : Routine Unit := Prog.op (S := PagerSig) (.markDirty pid)

def pagerUnpin (pid : PageId) : Routine Unit := Prog.op (S := PagerSig) (.unpin pid)

def getFields : Routine PagerFields := Prog.op (S := PagerSig) .getFields

def setFields (f : PagerFields) : Routine Unit := Prog.op (S := PagerSig) (.setFields f)

def setHeaderDirty : Routine Unit := Prog.op (S := PagerSig) .setHeaderDirty

def note (e : Event) : Routine Unit := Prog.op (S := PagerSig) (.note e)

/-- `pager->page_size` -/
def getPageSize : Routine UInt32 := do return (← getFields).pageSize

/-- `pager->header` -/
def getHeader : Routine DbHeader := do return (← getFields).header

def modifyHeader (f : DbHeader → DbHeader) : Routine Unit := do
  let fields ← getFields
  setFields { fields with header := f fields.header }

/-- An access that is undefined when it is out of bounds -/
def inBounds {α : Type} (x : Option α) : Routine α := Prog.ofOption .outOfBounds x

/-- The number of page ids.  A loop that follows page ids makes at most so many steps: one
    that makes more has come back to a page and never ends. -/
def maxPages : Nat := 2 ^ 32

/-- `memset(page, 0, pager->page_size)` -/
def zeroPage (pageSize : UInt32) : Page := List.replicate pageSize.toNat 0

/-! ## Page allocation -/

/-- `pager_alloc_page` -/
def pagerAllocPage : Routine PageId := do
  let fields ← getFields
  if fields.header.freePageHead ≠ 0 then
    let pid := fields.header.freePageHead
    pagerGetPage pid
    let page ← load pid
    let fph ← inBounds (freePageHeaderC.get? page 0)
    modifyHeader fun h => { h with freePageHead := fph.nextFreePage }
    store pid (zeroPage fields.pageSize)
    pagerMarkDirty pid
    pagerUnpin pid
    return pid
  else
    let pid := fields.header.nextPageId
    modifyHeader fun h => { h with nextPageId := pid + 1 }
    -- the source goes on with page 0 once the counter has wrapped
    if pid = 0 then .throw .idsExhausted
    pagerGetPage pid
    store pid (zeroPage fields.pageSize)
    pagerMarkDirty pid
    pagerUnpin pid
    return pid

/-- `pager_free_page` -/
def pagerFreePage (pid : PageId) : Routine Unit := do
  note (.freePage pid)
  pagerGetPage pid
  let fields ← getFields
  let fph : FreePageHeader := ⟨PageType.free.code, fields.header.freePageHead⟩
  let page ← inBounds (freePageHeaderC.put? (zeroPage fields.pageSize) 0 fph)
  store pid page
  pagerMarkDirty pid
  pagerUnpin pid
  modifyHeader fun h => { h with freePageHead := pid }

/-! ## The flat page store -/

/-- The database without its cache: the fields and the bytes of every page -/
structure Db where
  fields : PagerFields
  pages : PageId → Page

namespace Db

/-- `db` with the bytes of one page replaced -/
def setPage (db : Db) (pid : PageId) (pg : Page) : Db :=
  { db with pages := Function.update db.pages pid pg }

def header (db : Db) : DbHeader := db.fields.header

/-- `db` with its header replaced -/
def setHeader (db : Db) (h : DbHeader) : Db := { db with fields := { db.fields with header := h } }

/-- `page_size` as a number -/
def ps (db : Db) : Nat := db.fields.pageSize.toNat

theorem ps_lt (db : Db) : db.ps < 2 ^ 32 := db.fields.pageSize.toNat_lt

@[simp] theorem setPage_fields (db : Db) (pid : PageId) (pg : Page) :
    (db.setPage pid pg).fields = db.fields := rfl

@[simp] theorem setPage_header (db : Db) (pid : PageId) (pg : Page) :
    (db.setPage pid pg).header = db.header := rfl

@[simp] theorem setPage_ps (db : Db) (pid : PageId) (pg : Page) :
    (db.setPage pid pg).ps = db.ps := rfl

theorem setPage_pages (db : Db) (pid : PageId) (pg : Page) (q : PageId) :
    (db.setPage pid pg).pages q = if q = pid then pg else db.pages q := by
  simp [setPage, Function.update_apply]

@[simp] theorem setPage_pages_same (db : Db) (pid : PageId) (pg : Page) :
    (db.setPage pid pg).pages pid = pg := by simp [setPage]

theorem setPage_pages_ne (db : Db) {pid q : PageId} (pg : Page) (h : q ≠ pid) :
    (db.setPage pid pg).pages q = db.pages q := by simp [setPage, h]

@[simp] theorem setHeader_pages (db : Db) (h : DbHeader) : (db.setHeader h).pages = db.pages := rfl

@[simp] theorem setHeader_header (db : Db) (h : DbHeader) : (db.setHeader h).header = h := rfl

@[simp] theorem setHeader_ps (db : Db) (h : DbHeader) : (db.setHeader h).ps = db.ps := rfl

@[simp] theorem setHeader_lastHeap (db : Db) (h : DbHeader) :
    (db.setHeader h).fields.lastHeapPageId = db.fields.lastHeapPageId := rfl

@[simp] theorem setHeader_pageSize (db : Db) (h : DbHeader) :
    (db.setHeader h).fields.pageSize = db.fields.pageSize := rfl

/-- The pager interface over the flat store.  Page 0 is not a data page. -/
def step : Handler PagerSig Fault Db
  | .getPage pid, db => if pid = 0 then .error .headerPage else .ok (true, db)
  | .load pid, db => .ok (db.pages pid, db)
  | .store pid pg, db => .ok ((), db.setPage pid pg)
  | .markDirty _, db => .ok ((), db)
  | .unpin _, db => .ok ((), db)
  | .getFields, db => .ok (db.fields, db)
  | .setFields f, db => .ok ((), { db with fields := f })
  | .setHeaderDirty, db => .ok ((), db)
  | .note _, db => .ok ((), db)

/-- Run a routine on the flat store. -/
def exec {α : Type} (p : Routine α) (db : Db) : Except Fault (α × Db) := Free.run step p db

/-- The events of a run, each with the database it happens in -/
def events {α : Type} (p : Routine α) (db : Db) : List (Event × Db) :=
  Free.events step (fun | .note e => some e | _ => none) p db

end Db

/-! ## A new database -/

/-- `heap_page_header_t` of an empty heap page -/
def emptyHeapHeader : HeapPageHeader := ⟨PageType.heap.code, 0, 0, slotNone, 0, 0⟩

/-- `leaf_page_header_t` of the empty root leaf -/
def emptyLeafHeader : LeafPageHeader := ⟨PageType.leaf.code, 0, 0, 0, 0⟩

/-- The header `pager_open` writes when it creates a file -/
def freshHeader (pageSize : UInt32) : DbHeader where
  magic := dbMagic
  version := dbVersion
  pageSize := pageSize
  rootIndexPageId := 2
  firstHeapPageId := 1
  nextPageId := 3
  freePageHead := 0
  nextId := 1
  rowCount := 0
  columnCount := 0
  rowSize := 0
  columns := Vector.replicate 16 ⟨Vector.replicate 32 0, 0, 0, 0, 0⟩

/-- Page `pid` of the file `pager_open` creates: an empty heap page and an empty root
    leaf; what lies after them reads as zero. -/
def freshPage (pageSize : UInt32) (pid : PageId) : Page :=
  if pid = 1 then heapPageHeaderC.put (zeroPage pageSize) 0 emptyHeapHeader
  else if pid = 2 then leafPageHeaderC.put (zeroPage pageSize) 0 emptyLeafHeader
  else zeroPage pageSize

/-- The database `pager_open` creates -/
def Db.fresh (pageSize : UInt32) : Db where
  fields := ⟨pageSize, freshHeader pageSize, 1⟩
  pages := freshPage pageSize

end MiniDb
