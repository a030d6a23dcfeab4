import MiniDb.Sql.CreateSpec
import MiniDb.Sql.Parser

/-!
# The table a database stands for

A list of rows.  INSERT adds a row at the end, DELETE keeps the rows its condition does not hold
for, and SELECT prints the others in some order.  Which rows a condition holds for is a parameter:
`Table.selects` is what the access path decides, `Table.satisfies` what the condition says.
-/

namespace MiniDb

open Bytes CText

/-! ## Rows -/

/-- The id of a row, its first value -/
def rowId (vs : List RowValue) : UInt64 := (vs.headD RowValue.zero).bigintVal.toUInt64

/-- What a column of a type shows of a value -/
def ColumnType.shown (v : RowValue) : ColumnType → Value
  | .int => .int v.intVal
  | .bigint => .bigint v.bigintVal
  | .varchar => .varchar v.strVal.bytes

/-- A row as a reader sees it, each value by the type of its column -/
def printedRow : List ColumnMeta → List RowValue → List Value :=
  List.zipWith fun col v => (ColumnType.ofCode? col.type).elim (.varchar []) (ColumnType.shown v)

/-- The cells of a printed row -/
def Line.cells? : Line → Option (List Value)
  | .row cells => some cells
  | _ => none

/-- The rows among the lines of a result -/
def ExecResult.rows (r : ExecResult) : List (List Value) := r.output.filterMap Line.cells?

/-- How many rows a result says have been removed -/
def Message.removed : Message → Nat
  | .rowDeleted _ => 1
  | .rowsDeleted count => count.toNat
  | _ => 0

/-! ## Tables -/

/-- The rows of a table in the order of their insertion.  Without columns there is no table yet. -/
structure Table where
  cols : List ColumnMeta
  rows : List (List RowValue)
  nextId : UInt64

namespace Table

/-- No table yet -/
def none : Table := ⟨[], [], 1⟩

section Lib

variable (lib : CLib)

/-- The value a text gives a column: the number it stands for, or as much of the text as the column
    keeps; without a text it is zero or empty. -/
def valueFrom (col : ColumnMeta) (text : Option (CString 256)) : RowValue :=
  match ColumnType.ofCode? col.type, text with
  | some .int, some text => { RowValue.zero with intVal := lib.atoi text.bytes }
  | some .bigint, some text => { RowValue.zero with bigintVal := lib.atoll text.bytes }
  | some .varchar, some text => { RowValue.zero with strVal := text.take (col.size.toNat - 1) }
  | _, _ => RowValue.zero

/-- The row an INSERT adds: its id, then the user columns with the texts in their order -/
def newRow (tab : Table) (stmt : Statement) : List RowValue :=
  { RowValue.zero with bigintVal := tab.nextId.toInt64 } ::
    tab.cols.tail.mapIdx fun i col => valueFrom lib col stmt.insertValues[i]?

/-- The rows the access path of a statement leads to -/
def selects (stmt : Statement) (cols : List ColumnMeta) (vs : List RowValue) : Bool :=
  match stmt.predicateKind with
  | .none => true
  | .idEq => rowId vs = stmt.predId
  | .fieldEq => matchLoop lib stmt (cols.zip vs)

/-- The value in a column is the one a text stands for. -/
def valueIs (col : ColumnMeta) (v : RowValue) (text : CString 256) : Bool :=
  match ColumnType.ofCode? col.type with
  | some .int => v.intVal = lib.atoi text.bytes
  | some .bigint => v.bigintVal = lib.atoll text.bytes
  | some .varchar => v.strVal.bytes = text.bytes
  | Option.none => false

/-- The row has the value `text` in its first column called `name`. -/
def holdsAt (cols : List ColumnMeta) (vs : List RowValue) (name : List UInt8) (text : CString 256) :
    Bool :=
  match (cols.zip vs).find? fun cv => cString cv.1.name.toList = name with
  | some (col, v) => valueIs lib col v text
  | Option.none => false

/-- The column that a name in a condition means: the one with this very name, or else the id for
    a spelling of `id` -/
def meant (cols : List ColumnMeta) (name : List UInt8) : List UInt8 :=
  if cols.any fun col => cString col.name.toList = name then name
  else if keyword idWord name && name.length = 2 then idName
  else name

/-- The condition of a statement holds for a row. -/
def satisfies (stmt : Statement) (cols : List ColumnMeta) (vs : List RowValue) : Bool :=
  stmt.predicateKind = .none ||
    holdsAt lib cols vs (meant cols stmt.predField.bytes) stmt.predValue

end Lib

/-- What a statement answers, and what it makes of a table; `sel` tells the rows it is about. -/
def Step (lib : CLib) (sel : Statement → List ColumnMeta → List RowValue → Bool) (stmt : Statement)
    (tab : Table) (r : ExecResult) (tab' : Table) : Prop :=
  match stmt.type with
  | .createTable =>
    if tab.cols = [] then
      r.status = 0 ∧ tab' = { tab with cols := layoutFrom 0 (tableColumns stmt.colDefs) }
    else r.status = -1 ∧ tab' = tab
  | .insert =>
    if tab.cols = [] then r = ⟨-1, .noTable, []⟩ ∧ tab' = tab
    else r = ⟨0, .rowInserted tab.nextId, []⟩ ∧
      tab' = { tab with rows := tab.rows ++ [tab.newRow lib stmt], nextId := tab.nextId + 1 }
  | .select => tab' = tab ∧ r.status = 0 ∧ ∃ found : List (List RowValue),
      found.Perm (tab.rows.filter (sel stmt tab.cols)) ∧ r.rows = found.map (printedRow tab.cols)
  | .delete => r.status = 0 ∧ r.message.removed = (tab.rows.filter (sel stmt tab.cols)).length ∧
      tab' = { tab with rows := tab.rows.filter fun vs => !sel stmt tab.cols vs }
  | .explain => tab' = tab

/-- What a statement must find to act on the table: columns of sensible sizes, and an id that
    is new -/
def Accepts (pageSize : UInt32) (stmt : Statement) (tab : Table) : Prop :=
  match stmt.type with
  | .createTable => CreateOk pageSize stmt
  | .insert => ∀ vs ∈ tab.rows, rowId vs ≠ tab.nextId
  | .explain => stmt.innerType ≠ .explain
  | _ => True

/-- A DELETE scans more rows than its array of ids holds. -/
def Overflows (lib : CLib) (stmt : Statement) (tab : Table) : Prop :=
  stmt.type = .delete ∧ stmt.predicateKind ≠ .idEq ∧
    2 ^ 31 < (tab.rows.filter (selects lib stmt tab.cols)).length

/-- The failures of a statement: the page ids run out, or there are too many rows to delete. -/
def Fails (lib : CLib) (stmt : Statement) (tab : Table) (e : Fault) : Prop :=
  e = .idsExhausted ∨ e = .outOfBounds ∧ tab.Overflows lib stmt

end Table

end MiniDb
