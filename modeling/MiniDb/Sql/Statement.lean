import MiniDb.Sql.Schema

/-!
# Statements and plans

`statement_t` as the parser leaves it, and the planner.
-/

namespace MiniDb

open CText

/-- `statement_type_t` -/
inductive StatementType where
  | createTable
  | insert
  | select
  | delete
  | explain
  deriving DecidableEq

/-- `predicate_kind_t` -/
inductive PredicateKind where
  | none
  | idEq
  | fieldEq
  deriving DecidableEq

/-- `column_def_t`; the parser sets no other types -/
structure ColumnDef where
  name : CString 32
  type : ColumnType
  size : UInt16
  deriving DecidableEq

/-- `statement_t`.  The lengths of the lists are `insert_value_count` and `col_count`. -/
structure Statement where
  type : StatementType
  predicateKind : PredicateKind
  tableName : CString 32
  insertValues : List (CString 256)
  predField : CString 32
  predValue : CString 256
  predId : UInt64
  colDefs : List ColumnDef
  selectAll : Bool
  innerType : StatementType
  innerPredicate : PredicateKind
  deriving DecidableEq

/-- `memset(stmt, 0, sizeof(*stmt))` -/
def Statement.zero : Statement where
  type := .createTable
  predicateKind := .none
  tableName := CString.empty 31
  insertValues := []
  predField := CString.empty 31
  predValue := CString.empty 255
  predId := 0
  colDefs := []
  selectAll := false
  innerType := .createTable
  innerPredicate := .none

/-! ## The planner -/

/-- `access_path_t` -/
inductive AccessPath where
  | tableScan
  | indexLookup
  | indexDelete
  | insert
  | createTable
  deriving DecidableEq

/-- The `switch` of `planner_create_plan` without EXPLAIN -/
def planFor : StatementType → PredicateKind → Option AccessPath
  | .createTable, _ => some .createTable
  | .insert, _ => some .insert
  | .select, kind => some (if kind = .idEq then .indexLookup else .tableScan)
  | .delete, kind => some (if kind = .idEq then .indexDelete else .tableScan)
  | .explain, _ => none

/-- `planner_create_plan`.  The inner statement of an EXPLAIN has only its type and predicate
    set, so that an EXPLAIN inside has no plan. -/
def plannerCreatePlan (stmt : Statement) : Option AccessPath :=
  match stmt.type with
  | .explain => planFor stmt.innerType stmt.innerPredicate
  | type => planFor type stmt.predicateKind

/-- `access_path_name` -/
def accessPathName : AccessPath → String
  | .tableScan => "TABLE_SCAN"
  | .indexLookup => "INDEX_LOOKUP"
  | .indexDelete => "INDEX_DELETE"
  | .insert => "INSERT"
  | .createTable => "CREATE_TABLE"

end MiniDb
