import MiniDb.Pager.Cache
import MiniDb.Sql.Accepted

/-!
# What CREATE TABLE changes

`exec_create_table` puts its own column before those of the statement.  The array of columns is
as long as the list of a statement can be, so that one more does not always fit.

## Key results

- `execCreateTable_touchesSchema_iff`: when only the schema changes
-/

namespace MiniDb

open Bytes CText

/-! ## Names of columns -/

/-- `strncpy(name, s, 31)` into zeros keeps a name of up to 31 bytes. -/
theorem cString_nameBytes {name : List UInt8} (hnul : 0 ∉ name) (hlen : name.length < 32) :
    cString (nameBytes name).toList = name := by
  have hofFn : (nameBytes name).toList = List.ofFn fun i : Fin 32 => (name.take 31).getD i 0 :=
    Vector.toList_ofFn
  have hbytes : (List.ofFn fun i : Fin 32 => (name.take 31).getD i 0) =
      name ++ List.replicate (32 - name.length) 0 := by
    apply List.ext_getElem
    · rw [List.length_ofFn, List.length_append, List.length_replicate]
      omega
    · intro i hi _
      rw [List.getElem_ofFn, List.take_of_length_le (by omega)]
      by_cases h : i < name.length
      · rw [List.getElem_append_left h, List.getD_eq_getElem _ _ h]
      · have hge : name.length ≤ i := Nat.le_of_not_lt h
        rw [List.getElem_append_right hge, List.getElem_replicate, List.getD_eq_default _ _ hge]
  rw [hofFn, hbytes, cString_zeros hnul (by omega)]

theorem cString_userColumn (cd : ColumnDef) :
    cString (userColumn cd).name.toList = cd.name.bytes :=
  cString_nameBytes cd.name.noNul cd.name.short

/-- The layout keeps the names. -/
theorem map_name_layoutFrom (off : UInt16) (cols : List ColumnMeta) :
    (layoutFrom off cols).map (·.name) = cols.map (·.name) := by
  induction cols generalizing off with
  | nil => rfl
  | cons col cols ih => rw [layoutFrom, List.map_cons, List.map_cons, ih]

/-- The first column is the system column, and no other one has its name. -/
def IdFirst (cols : List ColumnMeta) : Prop :=
  ∃ col rest, cols = col :: rest ∧ cString col.name.toList = idName ∧ col.isSystem = 1 ∧
    ∀ c ∈ rest, cString c.name.toList ≠ idName

theorem idFirst_tableColumns (defs : List ColumnDef) :
    IdFirst (layoutFrom 0 (tableColumns defs)) := by
  refine ⟨_, _, rfl, by decide, rfl, fun c hc => ?_⟩
  have hname := List.mem_map_of_mem (f := (·.name)) hc
  rw [map_name_layoutFrom, List.map_map] at hname
  obtain ⟨cd, hcd, hname⟩ := List.mem_map.mp hname
  rw [← hname]
  show cString (userColumn cd).name.toList ≠ idName
  rw [cString_userColumn]
  simpa using (List.mem_filter.mp hcd).2

/-! ## The frame -/

/-- `exec_create_table` on a pager: it asks for no page. -/
theorem Pager.exec_createTable (p : Pager) (stmt : Statement) :
    p.exec (execCreateTable stmt) =
      if 0 < p.fields.header.columnCount then
        .ok (⟨-1, .tableExists stmt.tableName.bytes, []⟩, p)
      else match createSchema p.fields.header stmt.colDefs with
        | none => .error .outOfBounds
        | some hdr =>
          .ok (⟨0, .tableCreated stmt.tableName.bytes hdr.rowSize hdr.columnCount, []⟩,
            { p with fields := { p.fields with header := hdr }, headerDirty := true }) := by
  show Free.run Pager.step (if 0 < p.fields.header.columnCount then _ else _) p = _
  split
  next => rfl
  next =>
    show Free.run Pager.step (inBounds (createSchema p.fields.header stmt.colDefs) >>= _) p = _
    cases createSchema p.fields.header stmt.colDefs with
    | none => rfl
    | some hdr => rfl

/-- Only the schema and the mark of the header differ. -/
def StoresSchema (p q : Pager) : Prop :=
  ∃ hdr : DbHeader, q = { p with fields := { p.fields with header := hdr }, headerDirty := true } ∧
    hdr.outsideSchema = p.fields.header.outsideSchema ∧ hdr.columnCount.toNat ≤ 16 ∧
    IdFirst hdr.inUse

/-- The statement fails and changes nothing, or changes the schema alone. -/
def TouchesSchemaOnly (p : Pager) (stmt : Statement) : Prop :=
  ∃ r q, p.exec (execCreateTable stmt) = .ok (r, q) ∧
    (r.status = -1 ∧ q = p ∨ r.status = 0 ∧ StoresSchema p q)

/-- The columns of a run that stays inside the array have room in it. -/
theorem TouchesSchemaOnly.room {p : Pager} {stmt : Statement} (h : TouchesSchemaOnly p stmt)
    (hempty : ¬ 0 < p.fields.header.columnCount) : (userDefs stmt.colDefs).length ≤ 15 := by
  obtain ⟨r, q, hexec, -⟩ := h
  rw [Pager.exec_createTable, if_neg hempty] at hexec
  cases hschema : createSchema p.fields.header stmt.colDefs with
  | none =>
    rw [hschema] at hexec
    contradiction
  | some hdr => exact length_userDefs_le hschema

/-- The id column leaves room for 15 columns of a statement. -/
theorem execCreateTable_touchesSchema_iff (p : Pager) (stmt : Statement) :
    TouchesSchemaOnly p stmt ↔
      0 < p.fields.header.columnCount ∨ (userDefs stmt.colDefs).length ≤ 15 := by
  by_cases htable : 0 < p.fields.header.columnCount
  · refine iff_of_true ⟨⟨-1, .tableExists stmt.tableName.bytes, []⟩, p, ?_, Or.inl ⟨rfl, rfl⟩⟩
      (Or.inl htable)
    rw [Pager.exec_createTable, if_pos htable]
  · constructor
    · intro h
      exact Or.inr (h.room htable)
    · intro h
      have hcount := h.resolve_left htable
      obtain ⟨hdr, hschema, hinUse, -, hcolumns, hrest⟩ := createSchema_eq hcount p.fields.header
      refine ⟨⟨0, .tableCreated stmt.tableName.bytes hdr.rowSize hdr.columnCount, []⟩, _, ?_,
        Or.inr ⟨rfl, hdr, rfl, hrest, by omega, ?_⟩⟩
      · rw [Pager.exec_createTable, if_neg htable, hschema]
      · rw [hinUse]
        exact idFirst_tableColumns stmt.colDefs

theorem noNul_letter : 0 ∉ ([0x61] : List UInt8) := by decide

theorem length_letter_lt : ([0x61] : List UInt8).length < 32 := by decide

/-- Sixteen columns, none of them called `id` -/
def sixteenColumns : Statement :=
  { Statement.zero with
    type := .createTable
    colDefs := List.replicate 16 ⟨⟨[0x61], noNul_letter, length_letter_lt⟩, .int, 4⟩ }

/-- The list of a statement can be one column longer than what fits. -/
theorem sixteenColumns_overrun : ¬ ∀ (p : Pager) (stmt : Statement),
    stmt.colDefs.length ≤ 16 → TouchesSchemaOnly p stmt := by
  intro hall
  let p := Pager.initial (Db.fresh 4096).fields fun _ => 0
  have hempty : ¬ 0 < p.fields.header.columnCount := by decide
  have hroom := (hall p sixteenColumns (by decide)).room hempty
  have hcount : (userDefs sixteenColumns.colDefs).length = 16 := by decide
  omega

end MiniDb
