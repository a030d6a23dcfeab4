import MiniDb.Lib.Bytes

/-!
# On-disk formats

The packed structures of `page_format.h`, each with its codec.  Offsets are not
written down by hand: a header is the codec of its fields in order, and the lemma
`*_get` next to it says at which offset each field is found.
-/

namespace MiniDb

open Bytes

abbrev PageId := UInt32
abbrev Key := UInt64

/-- The bytes of one page. -/
abbrev Page := List UInt8

/-- `page_type_t` -/
inductive PageType where
  | header
  | heap
  | leaf
  | internal
  | free
  deriving DecidableEq, Repr

/-- The first four bytes of a page of this type. -/
def PageType.code : PageType → UInt32
  | .header => 1
  | .heap => 2
  | .leaf => 3
  | .internal => 4
  | .free => 5

theorem PageType.code_injective {a b : PageType} (h : a.code = b.code) : a = b := by
  cases a <;> cases b <;> first | rfl | exact absurd h (by decide)

/-- `column_type_t` -/
inductive ColumnType where
  | int
  | bigint
  | varchar
  deriving DecidableEq, Repr

def ColumnType.code : ColumnType → UInt8
  | .int => 1
  | .bigint => 2
  | .varchar => 3

/-- `DB_MAGIC`, eight bytes -/
def dbMagic : Vector UInt8 8 := #v[0x4D, 0x49, 0x4E, 0x49, 0x44, 0x42, 0, 0]

/-- `DB_VERSION` -/
def dbVersion : UInt32 := 1

/-- `MAX_COLUMNS` -/
def maxColumns : Nat := 16

/-! ## Database header -/

/-- `column_meta_t` -/
structure ColumnMeta where
  name : Vector UInt8 32
  type : UInt8
  size : UInt16
  offset : UInt16
  isSystem : UInt8
  deriving DecidableEq

/-- `db_header_t` -/
structure DbHeader where
  magic : Vector UInt8 8
  version : UInt32
  pageSize : UInt32
  rootIndexPageId : PageId
  firstHeapPageId : PageId
  nextPageId : PageId
  freePageHead : PageId
  nextId : UInt64
  rowCount : UInt64
  columnCount : UInt16
  rowSize : UInt16
  columns : Vector ColumnMeta 16
  deriving DecidableEq

def columnMetaC : Codec ColumnMeta :=
  ((u8.vector 32).prod (u8.prod (u16.prod (u16.prod u8)))).iso
    (fun ⟨name, type, size, offset, isSystem⟩ => ⟨name, type, size, offset, isSystem⟩)
    (fun c => ⟨c.name, c.type, c.size, c.offset, c.isSystem⟩)
    (fun _ => rfl)

def dbHeaderC : Codec DbHeader :=
  ((u8.vector 8).prod (u32.prod (u32.prod (u32.prod (u32.prod (u32.prod (u32.prod
    (u64.prod (u64.prod (u16.prod (u16.prod (columnMetaC.vector 16)))))))))))).iso
    (fun ⟨magic, version, pageSize, root, firstHeap, nextPage, freeHead, nextId, rowCount,
        columnCount, rowSize, columns⟩ =>
      ⟨magic, version, pageSize, root, firstHeap, nextPage, freeHead, nextId, rowCount,
        columnCount, rowSize, columns⟩)
    (fun h => ⟨h.magic, h.version, h.pageSize, h.rootIndexPageId, h.firstHeapPageId,
      h.nextPageId, h.freePageHead, h.nextId, h.rowCount, h.columnCount, h.rowSize, h.columns⟩)
    (fun _ => rfl)

/-- The fields add up to 38 bytes (the comment in `page_format.h` says 39). -/
theorem columnMetaC_size : columnMetaC.size = 38 := rfl
/-- ... and the header to 660 (the comment says 676). -/
theorem dbHeaderC_size : dbHeaderC.size = 660 := rfl

theorem columnMetaC_exact : columnMetaC.Exact :=
  ((u8_exact.vector 32).prod (u8_exact.prod (u16_exact.prod (u16_exact.prod u8_exact)))).iso
    fun _ => rfl

/-- Any bytes that are read as a header are written back as they were. -/
theorem dbHeaderC_exact : dbHeaderC.Exact :=
  ((u8_exact.vector 8).prod (u32_exact.prod (u32_exact.prod (u32_exact.prod (u32_exact.prod
    (u32_exact.prod (u32_exact.prod (u64_exact.prod (u64_exact.prod (u16_exact.prod (u16_exact.prod
      (columnMetaC_exact.vector 16)))))))))))).iso fun _ => rfl

/-! ## Row references -/

/-- `row_ref_t` -/
structure RowRef where
  pageId : PageId
  slotId : UInt16
  deriving DecidableEq, Repr

def rowRefC : Codec RowRef :=
  (u32.prod u16).iso (fun ⟨pageId, slotId⟩ => ⟨pageId, slotId⟩)
    (fun r => ⟨r.pageId, r.slotId⟩) (fun _ => rfl)

/-! ## Free pages -/

/-- `free_page_header_t` -/
structure FreePageHeader where
  pageType : UInt32
  nextFreePage : PageId
  deriving DecidableEq

def freePageHeaderC : Codec FreePageHeader :=
  (u32.prod u32).iso (fun ⟨pageType, nextFreePage⟩ => ⟨pageType, nextFreePage⟩)
    (fun h => ⟨h.pageType, h.nextFreePage⟩) (fun _ => rfl)

/-! ## Heap pages -/

/-- `SLOT_ALIVE`, `SLOT_FREE`, `SLOT_NONE` -/
def slotAlive : UInt16 := 0x01
def slotFree : UInt16 := 0x03
def slotNone : UInt16 := 0xFFFF

/-- `heap_page_header_t` -/
structure HeapPageHeader where
  pageType : UInt32
  nextHeapPageId : PageId
  slotCount : UInt16
  freeSlotHead : UInt16
  freeSpaceOffset : UInt16
  reserved : UInt16
  deriving DecidableEq

/-- `slot_t` -/
structure Slot where
  offset : UInt16
  status : UInt16
  nextFree : UInt16
  reserved : UInt16
  deriving DecidableEq

def heapPageHeaderC : Codec HeapPageHeader :=
  (u32.prod (u32.prod (u16.prod (u16.prod (u16.prod u16))))).iso
    (fun ⟨pageType, next, slotCount, freeSlotHead, freeSpaceOffset, reserved⟩ =>
      ⟨pageType, next, slotCount, freeSlotHead, freeSpaceOffset, reserved⟩)
    (fun h => ⟨h.pageType, h.nextHeapPageId, h.slotCount, h.freeSlotHead, h.freeSpaceOffset,
      h.reserved⟩)
    (fun _ => rfl)

def slotC : Codec Slot :=
  (u16.prod (u16.prod (u16.prod u16))).iso
    (fun ⟨offset, status, nextFree, reserved⟩ => ⟨offset, status, nextFree, reserved⟩)
    (fun s => ⟨s.offset, s.status, s.nextFree, s.reserved⟩) (fun _ => rfl)

/-! ## B+ tree pages -/

/-- `leaf_page_header_t` -/
structure LeafPageHeader where
  pageType : UInt32
  parentPageId : PageId
  keyCount : UInt32
  nextLeafPageId : PageId
  prevLeafPageId : PageId
  deriving DecidableEq

/-- `leaf_entry_t` -/
structure LeafEntry where
  key : Key
  rowRef : RowRef
  deriving DecidableEq, Repr

/-- `internal_page_header_t` -/
structure InternalPageHeader where
  pageType : UInt32
  parentPageId : PageId
  keyCount : UInt32
  leftmostChildPageId : PageId
  deriving DecidableEq

/-- `internal_entry_t` -/
structure InternalEntry where
  key : Key
  rightChildPageId : PageId
  deriving DecidableEq, Repr

def leafPageHeaderC : Codec LeafPageHeader :=
  (u32.prod (u32.prod (u32.prod (u32.prod u32)))).iso
    (fun ⟨pageType, parent, keyCount, next, prev⟩ => ⟨pageType, parent, keyCount, next, prev⟩)
    (fun h => ⟨h.pageType, h.parentPageId, h.keyCount, h.nextLeafPageId, h.prevLeafPageId⟩)
    (fun _ => rfl)

def leafEntryC : Codec LeafEntry :=
  (u64.prod rowRefC).iso (fun ⟨key, ref⟩ => ⟨key, ref⟩) (fun e => ⟨e.key, e.rowRef⟩)
    (fun _ => rfl)

def internalPageHeaderC : Codec InternalPageHeader :=
  (u32.prod (u32.prod (u32.prod u32))).iso
    (fun ⟨pageType, parent, keyCount, leftmost⟩ => ⟨pageType, parent, keyCount, leftmost⟩)
    (fun h => ⟨h.pageType, h.parentPageId, h.keyCount, h.leftmostChildPageId⟩) (fun _ => rfl)

def internalEntryC : Codec InternalEntry :=
  (u64.prod u32).iso (fun ⟨key, child⟩ => ⟨key, child⟩)
    (fun e => ⟨e.key, e.rightChildPageId⟩) (fun _ => rfl)

@[simp] theorem freePageHeaderC_size : freePageHeaderC.size = 8 := rfl
@[simp] theorem heapPageHeaderC_size : heapPageHeaderC.size = 16 := rfl
@[simp] theorem slotC_size : slotC.size = 8 := rfl
@[simp] theorem leafPageHeaderC_size : leafPageHeaderC.size = 20 := rfl
@[simp] theorem leafEntryC_size : leafEntryC.size = 14 := rfl
@[simp] theorem internalPageHeaderC_size : internalPageHeaderC.size = 16 := rfl
@[simp] theorem internalEntryC_size : internalEntryC.size = 12 := rfl

/-! ## Where the header fields are -/

/-- The page type, the first four bytes of every page -/
def pageType (pg : Page) : UInt32 := u32.get pg 0

theorem leafPageHeaderC_get (pg : Page) :
    leafPageHeaderC.get pg 0 = ⟨u32.get pg 0, u32.get pg 4, u32.get pg 8, u32.get pg 12,
      u32.get pg 16⟩ := by
  simp only [leafPageHeaderC, Codec.get_iso, Codec.get_prod, u32_size, Nat.zero_add,
    Nat.reduceAdd]

theorem internalPageHeaderC_get (pg : Page) :
    internalPageHeaderC.get pg 0 = ⟨u32.get pg 0, u32.get pg 4, u32.get pg 8,
      u32.get pg 12⟩ := by
  simp only [internalPageHeaderC, Codec.get_iso, Codec.get_prod, u32_size, Nat.zero_add,
    Nat.reduceAdd]

theorem freePageHeaderC_get (pg : Page) :
    freePageHeaderC.get pg 0 = ⟨u32.get pg 0, u32.get pg 4⟩ := by
  simp only [freePageHeaderC, Codec.get_iso, Codec.get_prod, u32_size, Nat.zero_add]

theorem heapPageHeaderC_get (pg : Page) :
    heapPageHeaderC.get pg 0 = ⟨u32.get pg 0, u32.get pg 4, u16.get pg 8, u16.get pg 10,
      u16.get pg 12, u16.get pg 14⟩ := by
  simp only [heapPageHeaderC, Codec.get_iso, Codec.get_prod, u32_size, u16_size, Nat.zero_add,
    Nat.reduceAdd]

end MiniDb
