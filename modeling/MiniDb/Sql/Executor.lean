import MiniDb.Bptree.Code
import MiniDb.Heap.Code
import MiniDb.Sql.Schema
import MiniDb.Sql.Statement

/-!
# The executor

The functions of `executor.c`.  What a function prints is part of its result, as a list of
`Line`s.
-/

namespace MiniDb

open Bytes CText

/-! ## Results -/

/-- A value as it is printed -/
inductive Value where
  | int (n : Int32)
  | bigint (n : Int64)
  | varchar (s : List UInt8)
  deriving DecidableEq

/-- What is printed -/
inductive Line where
  /-- `print_header`: the names and a rule below them -/
  | header (names : List (List UInt8))
  /-- `print_row` -/
  | row (cells : List Value)
  /-- the lines of `exec_explain` -/
  | path (path : AccessPath)
  | index
  | target (id : UInt64)
  | delete (id : UInt64)
  | filter (field value : List UInt8)
  | scan
  deriving DecidableEq

/-- The message of an `exec_result_t` -/
inductive Message where
  | tableExists (table : List UInt8)
  | tableCreated (table : List UInt8) (rowSize columnCount : UInt16)
  | noTable
  | duplicateKey
  | rowInserted (id : UInt64)
  | idNotFound (id : UInt64)
  | rowUnreadable
  | rowFound
  | rowsFound (count : UInt32)
  | rowDeleted (id : UInt64)
  | rowsDeleted (count : UInt32)
  | planPrinted
  deriving DecidableEq

/-- `exec_result_t`, with what has been printed -/
structure ExecResult where
  status : Int
  message : Message
  output : List Line
  deriving DecidableEq

/-! ## Texts -/

/-- The bytes of a text of the program -/
def utf8 (s : String) : List UInt8 := s.toUTF8.toList

/-- `%d` -/
def decimal (n : Int) : List UInt8 := utf8 (toString n)

def Value.text : Value → List UInt8
  | .int n => decimal n.toInt
  | .bigint n => decimal n.toInt
  | .varchar s => s

/-- The lines that are printed -/
def Line.text : Line → List (List UInt8)
  | .header names =>
    [(utf8 " | ").intercalate names,
      (utf8 "-+-").intercalate (names.map fun _ => utf8 "----------")]
  | .row cells => [(utf8 " | ").intercalate (cells.map Value.text)]
  | .path ap => [utf8 "Access Path: " ++ utf8 (accessPathName ap)]
  | .index => [utf8 "  Index: B+ Tree (id)"]
  | .target id => [utf8 "  Target: id = " ++ decimal id.toNat]
  | .delete id => [utf8 "  Delete: id = " ++ decimal id.toNat]
  | .filter field value => [utf8 "  Filter: " ++ field ++ utf8 " = '" ++ value ++ utf8 "'"]
  | .scan => [utf8 "  Scan: all heap pages"]

def Message.text : Message → List UInt8
  | .tableExists table => utf8 "오류: '" ++ table ++ utf8 "' 테이블이 이미 존재합니다"
  | .tableCreated table rowSize columnCount =>
    utf8 "'" ++ table ++ utf8 "' 테이블 생성 완료 (row_size=" ++ decimal rowSize.toNat ++
      utf8 ", columns=" ++ decimal columnCount.toNat ++ utf8 ")"
  | .noTable => utf8 "오류: 생성된 테이블이 없습니다"
  | .duplicateKey => utf8 "오류: 중복된 키입니다"
  | .rowInserted id => utf8 "1행 삽입 완료 (id=" ++ decimal id.toNat ++ utf8 ")"
  | .idNotFound id => utf8 "오류: id=" ++ decimal id.toNat ++ utf8 "인 행을 찾을 수 없습니다"
  | .rowUnreadable => utf8 "오류: 행 데이터를 읽지 못했습니다"
  | .rowFound => utf8 "1행 조회 (INDEX_LOOKUP)"
  | .rowsFound count => decimal count.toNat ++ utf8 "행 조회 (TABLE_SCAN)"
  | .rowDeleted id => utf8 "1행 삭제 완료 (id=" ++ decimal id.toNat ++ utf8 ")"
  | .rowsDeleted count => decimal count.toNat ++ utf8 "행 삭제 완료 (TABLE_SCAN)"
  | .planPrinted => utf8 "실행 계획 출력 완료"

/-! ## Printing -/

/-- A value as `print_row` prints it; nothing for an unknown type -/
def printValue (col : ColumnMeta) (v : RowValue) : Value :=
  match ColumnType.ofCode? col.type with
  | some .int => .int v.intVal
  | some .bigint => .bigint v.bigintVal
  | some .varchar => .varchar v.strVal.bytes
  | none => .varchar []

/-- `print_row` -/
def printRow (hdr : DbHeader) (values : List RowValue) : Line :=
  .row ((hdr.inUse.zip values).map fun (col, v) => printValue col v)

/-- `print_header` -/
def printHeader (hdr : DbHeader) : Line := .header (hdr.inUse.map fun col => cString col.name.toList)

/-! ## CREATE TABLE -/

/-- `strncpy(dst, src, 31)` into 32 zero bytes -/
def nameBytes (name : List UInt8) : Vector UInt8 32 :=
  Vector.ofFn fun i => (name.take 31).getD i 0

/-- `"id"` -/
def idName : List UInt8 := [0x69, 0x64]

/-- The system column -/
def idColumn : ColumnMeta := ⟨nameBytes idName, ColumnType.bigint.code, 8, 0, 1⟩

/-- The column of a definition -/
def userColumn (cd : ColumnDef) : ColumnMeta := ⟨nameBytes cd.name.bytes, cd.type.code, cd.size, 0, 0⟩

/-- `hdr->columns[hdr->column_count++] = col` -/
def addColumn (hdr : DbHeader) (col : ColumnMeta) : Option DbHeader :=
  if h : hdr.columnCount.toNat < 16 then
    some { hdr with
      columns := hdr.columns.set hdr.columnCount.toNat col, columnCount := hdr.columnCount + 1 }
  else none

/-- The loop of `exec_create_table`; a user column called `id` is skipped. -/
def addColumns : List ColumnDef → DbHeader → Option DbHeader
  | [], hdr => some hdr
  | cd :: cds, hdr =>
    if cd.name.bytes = idName then addColumns cds hdr
    else do addColumns cds (← addColumn hdr (userColumn cd))

/-- The schema that `exec_create_table` stores -/
def createSchema (hdr : DbHeader) (defs : List ColumnDef) : Option DbHeader := do
  let hdr ← addColumn { hdr with columnCount := 0 } idColumn
  let hdr ← addColumns defs hdr
  schemaComputeLayout hdr

/-- `exec_create_table` -/
def execCreateTable (stmt : Statement) : Routine ExecResult := do
  let hdr ← getHeader
  if 0 < hdr.columnCount then
    return ⟨-1, .tableExists stmt.tableName.bytes, []⟩
  else
    let hdr ← inBounds (createSchema hdr stmt.colDefs)
    modifyHeader fun _ => hdr
    setHeaderDirty
    return ⟨0, .tableCreated stmt.tableName.bytes hdr.rowSize hdr.columnCount, []⟩

/-! ## INSERT -/

section Lib

variable (lib : CLib)

/-- The value of a column from its text.  `strncpy(str_val, sv, 255)` copies all of it. -/
def insertValue (col : ColumnMeta) (sv : CString 256) : RowValue :=
  match ColumnType.ofCode? col.type with
  | some .int => { RowValue.zero with intVal := lib.atoi sv.bytes }
  | some .bigint => { RowValue.zero with bigintVal := lib.atoll sv.bytes }
  | some .varchar => { RowValue.zero with strVal := sv.take 255 }
  | none => RowValue.zero

/-- The loop of `exec_insert` over the user columns; columns without a text stay zero. -/
def insertValues : List ColumnMeta → List (CString 256) → List RowValue
  | [], _ => []
  | _ :: cols, [] => RowValue.zero :: insertValues cols []
  | col :: cols, sv :: svs => insertValue lib col sv :: insertValues cols svs

/-- The values of the new row: its id, then the values of the statement -/
def rowValues (hdr : DbHeader) (stmt : Statement) : List RowValue :=
  { RowValue.zero with bigintVal := hdr.nextId.toInt64 } ::
    insertValues lib hdr.inUse.tail stmt.insertValues

/-- `exec_insert` -/
def execInsert (stmt : Statement) : Routine ExecResult := do
  let hdr ← getHeader
  if hdr.columnCount = 0 then
    return ⟨-1, .noTable, []⟩
  else
    let row ← inBounds
      (rowSerialize hdr (rowValues lib hdr stmt) (List.replicate hdr.rowSize.toNat 0))
    let ref ← heapInsert row hdr.rowSize
    let rc ← bptreeInsert (← getHeader).nextId ref
    if rc ≠ 0 then
      return ⟨-1, .duplicateKey, []⟩
    else
      modifyHeader fun h => { h with nextId := h.nextId + 1, rowCount := h.rowCount + 1 }
      setHeaderDirty
      return ⟨0, .rowInserted ((← getHeader).nextId - 1), []⟩

/-! ## SELECT -/

/-- The loop of `match_predicate` -/
def matchLoop (stmt : Statement) : List (ColumnMeta × RowValue) → Bool
  | [] => false
  | (col, v) :: rest =>
    if cString col.name.toList = stmt.predField.bytes then
      match ColumnType.ofCode? col.type with
      | some .int => v.intVal = lib.atoi stmt.predValue.bytes
      | some .bigint => v.bigintVal = lib.atoll stmt.predValue.bytes
      | some .varchar => v.strVal.bytes = stmt.predValue.bytes
      | none => matchLoop stmt rest
    else matchLoop stmt rest

/-- `match_predicate` -/
def matchPredicate (hdr : DbHeader) (values : List RowValue) (stmt : Statement) : Bool :=
  if stmt.predicateKind ≠ .fieldEq then true else matchLoop lib stmt (hdr.inUse.zip values)

/-- `scan_ctx_t`, with what has been printed -/
structure ScanCtx where
  count : UInt32
  output : List Line

/-- `select_scan_cb`; the context is lost when a row cannot be read. -/
def selectScanCb (hdr : DbHeader) (stmt : Statement) (row : List UInt8) (_ : RowRef) :
    Option ScanCtx → Bool × Option ScanCtx
  | none => (false, none)
  | some sc =>
    match rowDeserialize hdr row with
    | none => (false, none)
    | some values =>
      if matchPredicate lib hdr values stmt then
        let output := if sc.count = 0 then sc.output ++ [printHeader hdr] else sc.output
        (true, some ⟨sc.count + 1, output ++ [printRow hdr values]⟩)
      else (true, some sc)

/-- `exec_index_lookup` -/
def execIndexLookup (stmt : Statement) : Routine ExecResult := do
  match ← bptreeSearch stmt.predId with
  | none => return ⟨0, .idNotFound stmt.predId, []⟩
  | some ref =>
    let hdr ← getHeader
    match ← fetchRow ref hdr.rowSize with
    | none => return ⟨-1, .rowUnreadable, []⟩
    | some row =>
      let values ← inBounds (rowDeserialize hdr row)
      return ⟨0, .rowFound, [printHeader hdr, printRow hdr values]⟩

/-- `exec_table_scan` -/
def execTableScan (stmt : Statement) : Routine ExecResult := do
  let hdr ← getHeader
  let sc ← heapScan (selectScanCb lib hdr stmt) hdr.rowSize (some ⟨0, []⟩)
  let sc ← inBounds sc
  return ⟨0, .rowsFound sc.count, sc.output⟩

/-! ## DELETE -/

/-- `delete_scan_ctx_t`: the array of ids, how many fit it and how many it holds -/
structure DeleteCtx where
  ids : List UInt64
  idsCap : UInt32
  idsLen : UInt32

/-- The part of `delete_scan_cb` that keeps an id.  The capacity doubles, and wraps to 0. -/
def pushId (dc : DeleteCtx) (id : UInt64) : Option DeleteCtx :=
  let cap :=
    if dc.idsCap ≤ dc.idsLen then if dc.idsCap ≠ 0 then dc.idsCap * 2 else 64 else dc.idsCap
  if dc.idsLen < cap then some ⟨dc.ids ++ [id], cap, dc.idsLen + 1⟩ else none

/-- `delete_scan_cb` -/
def deleteScanCb (hdr : DbHeader) (stmt : Statement) (row : List UInt8) (_ : RowRef) :
    Option DeleteCtx → Bool × Option DeleteCtx
  | none => (false, none)
  | some dc =>
    match rowDeserialize hdr row with
    | none => (false, none)
    | some values =>
      if matchPredicate lib hdr values stmt then
        match pushId dc (values.headD RowValue.zero).bigintVal.toUInt64 with
        | none => (false, none)
        | some dc => (true, some dc)
      else (true, some dc)

/-- The removal of a row that both ways of deleting share -/
def removeRow (key : Key) (ref : RowRef) : Routine Unit := do
  note (.removeRow key)
  note (.heapDeleted (← heapDelete ref))
  let _ ← bptreeDelete key
  note (.countDown (← getHeader).rowCount)
  modifyHeader fun h => { h with rowCount := h.rowCount - 1 }

/-- `exec_index_delete` -/
def execIndexDelete (stmt : Statement) : Routine ExecResult := do
  match ← bptreeSearch stmt.predId with
  | none => return ⟨0, .idNotFound stmt.predId, []⟩
  | some ref =>
    removeRow stmt.predId ref
    setHeaderDirty
    return ⟨0, .rowDeleted stmt.predId, []⟩

/-- The second pass of `exec_delete_scan` -/
def deleteLoop : List Key → UInt32 → Routine UInt32
  | [], count => return count
  | key :: keys, count => do
    match ← bptreeSearch key with
    | none => deleteLoop keys count
    | some ref =>
      removeRow key ref
      deleteLoop keys (count + 1)

/-- `exec_delete_scan` -/
def execDeleteScan (stmt : Statement) : Routine ExecResult := do
  let hdr ← getHeader
  let dc ← heapScan (deleteScanCb lib hdr stmt) hdr.rowSize (some ⟨[], 0, 0⟩)
  let dc ← inBounds dc
  let count ← deleteLoop dc.ids 0
  setHeaderDirty
  return ⟨0, .rowsDeleted count, []⟩

/-! ## EXPLAIN -/

/-- The lines `exec_explain` prints -/
def explainLines (stmt : Statement) (path : AccessPath) : List Line :=
  .path path ::
    match path with
    | .indexLookup => [.index, .target stmt.predId]
    | .indexDelete => [.index, .delete stmt.predId]
    | .tableScan =>
      (if stmt.predicateKind = .fieldEq then
        [.filter stmt.predField.bytes stmt.predValue.bytes] else []) ++ [.scan]
    | _ => []

/-- The plan of a statement, used although it may not be set -/
def planOf (stmt : Statement) : Routine AccessPath :=
  Free.Prog.ofOption .uninitialised (plannerCreatePlan stmt)

/-- `exec_explain` -/
def execExplain (stmt : Statement) : Routine ExecResult := do
  let path ← planOf stmt
  return ⟨0, .planPrinted, explainLines stmt path⟩

/-- `execute` -/
def execute (stmt : Statement) : Routine ExecResult := do
  if stmt.type = .explain then execExplain stmt
  else
    match ← planOf stmt with
    | .createTable => execCreateTable stmt
    | .insert => execInsert lib stmt
    | .indexLookup => execIndexLookup stmt
    | .tableScan => if stmt.type = .delete then execDeleteScan lib stmt else execTableScan lib stmt
    | .indexDelete => execIndexDelete stmt

end Lib

end MiniDb
