import MiniDb.Lib.CText
import MiniDb.PageFormat

/-!
# Rows

The functions of `schema.c`: the layout of a row and its conversion to bytes and back.
-/

namespace MiniDb

open Bytes CText

/-- The column type a type byte stands for -/
def ColumnType.ofCode? (code : UInt8) : Option ColumnType :=
  if code = ColumnType.int.code then some .int
  else if code = ColumnType.bigint.code then some .bigint
  else if code = ColumnType.varchar.code then some .varchar
  else none

theorem ColumnType.ofCode?_code (t : ColumnType) : ColumnType.ofCode? t.code = some t := by
  cases t <;> rfl

/-! ## Values -/

/-- `row_value_t`.  The members of the union are kept apart: a value is read through the member
    of its column type only, and that one has been written or all bytes are zero. -/
structure RowValue where
  intVal : Int32
  bigintVal : Int64
  strVal : CString 256
  deriving DecidableEq

def RowValue.zero : RowValue := ⟨0, 0, CString.empty 255⟩

/-- The columns in use -/
def DbHeader.inUse (hdr : DbHeader) : List ColumnMeta :=
  hdr.columns.toList.take hdr.columnCount.toNat

/-- The columns in use; the code reads past the array when it holds fewer. -/
def DbHeader.inUse? (hdr : DbHeader) : Option (List ColumnMeta) :=
  if hdr.columnCount.toNat ≤ maxColumns then some hdr.inUse else none

/-! ## Layout -/

/-- The loop of `schema_compute_layout`, from column `i` on -/
def layoutLoop : Nat → Nat → UInt16 → Vector ColumnMeta 16 → Option (Vector ColumnMeta 16 × UInt16)
  | 0, _, offset, columns => some (columns, offset)
  | n + 1, i, offset, columns =>
    if h : i < 16 then
      let col := columns[i]
      layoutLoop n (i + 1) (offset + col.size) (columns.set i { col with offset := offset })
    else none

/-- `schema_compute_layout` -/
def schemaComputeLayout (hdr : DbHeader) : Option DbHeader := do
  let (columns, offset) ← layoutLoop hdr.columnCount.toNat 0 0 hdr.columns
  return { hdr with columns := columns, rowSize := offset }

/-! ## Conversion -/

/-- One turn of the loop of `row_serialize` -/
def serializeColumn (buf : List UInt8) (col : ColumnMeta) (v : RowValue) : Option (List UInt8) :=
  match ColumnType.ofCode? col.type with
  | some .int => i32.put? buf col.offset.toNat v.intVal
  | some .bigint => i64.put? buf col.offset.toNat v.bigintVal
  | some .varchar =>
    -- `col->size - 1` is a huge length when the size is 0
    if col.size = 0 then none
    else
      let s := v.strVal.bytes
      let len := if col.size.toNat ≤ s.length then col.size.toNat - 1 else s.length
      splice? buf col.offset.toNat (s.take len)
  | none => some buf

/-- The loop of `row_serialize` -/
def serializeLoop : List (ColumnMeta × RowValue) → List UInt8 → Option (List UInt8)
  | [], buf => some buf
  | (col, v) :: rest, buf => do serializeLoop rest (← serializeColumn buf col v)

/-- `row_serialize` into the buffer `buf` -/
def rowSerialize (hdr : DbHeader) (values : List RowValue) (buf : List UInt8) :
    Option (List UInt8) := do
  let cols ← hdr.inUse?
  let buf ← splice? buf 0 (List.replicate hdr.rowSize.toNat 0)
  serializeLoop (cols.zip values) buf

/-- One turn of the loop of `row_deserialize`.  A string longer than `str_val` is written past
    its end. -/
def deserializeColumn (buf : List UInt8) (col : ColumnMeta) : Option RowValue :=
  match ColumnType.ofCode? col.type with
  | some .int => do return { RowValue.zero with intVal := ← i32.get? buf col.offset.toNat }
  | some .bigint => do return { RowValue.zero with bigintVal := ← i64.get? buf col.offset.toNat }
  | some .varchar => do
    let bytes ← slice? buf col.offset.toNat col.size.toNat
    if h : bytes.length < 256 then
      return { RowValue.zero with strVal := CString.ofArray bytes h }
    else none
  | none => some RowValue.zero

/-- The loop of `row_deserialize` -/
def deserializeLoop (buf : List UInt8) : List ColumnMeta → Option (List RowValue)
  | [] => some []
  | col :: cols => do
    let v ← deserializeColumn buf col
    let vs ← deserializeLoop buf cols
    return v :: vs

/-- `row_deserialize` -/
def rowDeserialize (hdr : DbHeader) (buf : List UInt8) : Option (List RowValue) := do
  let cols ← hdr.inUse?
  deserializeLoop buf cols

end MiniDb
