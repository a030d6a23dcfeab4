import MiniDb.Heap.Runs
import MiniDb.Sql.CreateSpec
import MiniDb.Sql.ParserSpec

/-!
# Accepted tables

The parser and `exec_create_table` check neither the widths of the columns nor their sum.  This
file says for which texts the table that they accept can be stored.

## Key results

- `createText_storable_iff`: when a row of the table fits an empty heap page
- `createText_copiesInside_iff`: when its strings stay inside their arrays
-/

namespace MiniDb

open Bytes CText Runs

/-! ## Definitions from a text -/

/-- INT and BIGINT have their sizes. -/
def DefTyped (cd : ColumnDef) : Prop :=
  (cd.type = .int → cd.size.toNat = 4) ∧ (cd.type = .bigint → cd.size.toNat = 8)

section Lib

variable (lib : CLib)

theorem columnDef_typed {p q : List UInt8} {cd : ColumnDef}
    (h : columnDef lib p = .ok (cd, q)) : DefTyped cd := by
  obtain ⟨⟨⟨type, size⟩, r⟩, htype, h⟩ := exists_of_bind h
  obtain ⟨rfl, -⟩ := Prod.mk.inj (Except.ok.inj h)
  unfold columnType at htype
  split at htype
  next =>
    obtain ⟨⟨rfl, rfl⟩, -⟩ := by simpa using Except.ok.inj htype
    exact ⟨fun _ => rfl, nofun⟩
  next =>
    split at htype
    next =>
      obtain ⟨⟨rfl, rfl⟩, -⟩ := by simpa using Except.ok.inj htype
      exact ⟨nofun, fun _ => rfl⟩
    next =>
      split at htype
      next =>
        obtain ⟨⟨rfl, -⟩, -⟩ := by simpa using Except.ok.inj htype
        exact ⟨nofun, nofun⟩
      next => exact nomatch htype

/-- What holds of every item holds of the items of a list. -/
theorem listLoop_forall {α : Type} {item : List UInt8 → Except ParseError (α × List UInt8)}
    {P : α → Prop} (hitem : ∀ p a q, item p = .ok (a, q) → P a) {n : Nat} {p q : List UInt8}
    {items items' : List α} (hitems : ∀ a ∈ items, P a)
    (h : listLoop item n p items = .ok (items', q)) : ∀ a ∈ items', P a := by
  induction n generalizing p items with
  | zero => exact nomatch h
  | succ n ih =>
    rw [listLoop] at h
    split at h
    next => exact (Prod.mk.inj (Except.ok.inj h)).1 ▸ hitems
    next =>
      split at h
      next => exact (Prod.mk.inj (Except.ok.inj h)).1 ▸ hitems
      next =>
        split at h
        next => exact nomatch h
        next =>
          obtain ⟨⟨a, r⟩, ha, h⟩ := exists_of_bind h
          apply ih _ h
          intro b hb
          cases List.mem_append.mp hb with
          | inl hold => exact hitems b hold
          | inr hnew => exact List.mem_singleton.mp hnew ▸ hitem _ _ _ ha

theorem parse_defTyped {text : List UInt8} {stmt : Statement} (h : parse lib text = .ok stmt)
    (htype : stmt.type = .createTable) : ∀ cd ∈ stmt.colDefs, DefTyped cd := by
  rw [parse_eq] at h
  obtain ⟨-, -, h⟩ | ⟨-, h⟩ | ⟨-, h⟩ | ⟨-, h⟩ | ⟨-, s, -, rfl⟩ := parseStatement_cases lib h
  · obtain ⟨-, defs, r, hloop, rfl⟩ := parseCreateTable_cases lib h
    exact listLoop_forall (fun _ _ _ => columnDef_typed lib) (List.forall_mem_nil _) hloop
  · obtain ⟨-, -, -, values, r, -, rfl⟩ := parseInsert_cases h
    exact absurd (show StatementType.insert = .createTable from htype) nofun
  · have hselect : stmt.type = .select := parseSelect_type lib h
    rw [hselect] at htype
    exact nomatch htype
  · have hdelete : stmt.type = .delete := parseFrom_type lib h
    rw [hdelete] at htype
    exact nomatch htype
  · exact nomatch htype

/-! ## Tables that are accepted -/

theorem exec_createTable (stmt : Statement) (db : Db) :
    Db.exec (execCreateTable stmt) db =
      if 0 < db.header.columnCount then .ok (⟨-1, .tableExists stmt.tableName.bytes, []⟩, db)
      else match createSchema db.header stmt.colDefs with
        | none => .error .outOfBounds
        | some hdr =>
          .ok (⟨0, .tableCreated stmt.tableName.bytes hdr.rowSize hdr.columnCount, []⟩,
            db.setHeader hdr) := by
  show Free.run Db.step (if 0 < db.header.columnCount then _ else _) db = _
  split
  next => rfl
  next =>
    show Free.run Db.step (inBounds (createSchema db.header stmt.colDefs) >>= _) db = _
    cases createSchema db.header stmt.colDefs with
    | none => rfl
    | some hdr => rfl

theorem execute_createTable {stmt : Statement} (h : stmt.type = .createTable) :
    execute lib stmt = execCreateTable stmt := by
  unfold execute planOf plannerCreatePlan
  rw [h]
  rfl

/-- The database with the table of a text -/
structure CreatesTable (text : List UInt8) (db : Db) (stmt : Statement) (db' : Db) : Prop where
  parsed : parse lib text = .ok stmt
  type : stmt.type = .createTable
  created : ∃ r, Db.exec (execute lib stmt) db = .ok (r, db') ∧ r.status = 0

theorem CreatesTable.createSchema_eq {text : List UInt8} {db db' : Db} {stmt : Statement}
    (h : CreatesTable lib text db stmt db') :
    ∃ hdr, createSchema db.header stmt.colDefs = some hdr ∧ db' = db.setHeader hdr := by
  obtain ⟨r, hexec, hstatus⟩ := h.created
  rw [execute_createTable lib h.type, exec_createTable] at hexec
  split at hexec
  next =>
    rw [← (Prod.mk.inj (Except.ok.inj hexec)).1] at hstatus
    exact absurd (show (-1 : Int) = 0 from hstatus) (by decide)
  next =>
    cases hschema : createSchema db.header stmt.colDefs with
    | none => rw [hschema] at hexec; exact nomatch hexec
    | some hdr =>
      rw [hschema] at hexec
      exact ⟨hdr, rfl, (Prod.mk.inj (Except.ok.inj hexec)).2.symm⟩

theorem length_userDefs_le_of_addColumns {defs : List ColumnDef} {hdr hdr' : DbHeader}
    (hcount : hdr.columnCount.toNat ≤ 16) (h : addColumns defs hdr = some hdr') :
    hdr.columnCount.toNat + (userDefs defs).length ≤ 16 := by
  induction defs generalizing hdr with
  | nil => exact hcount
  | cons cd defs ih =>
    rw [addColumns] at h
    split at h
    next hid =>
      have hskip : userDefs (cd :: defs) = userDefs defs :=
        List.filter_cons_of_neg (by simpa using hid)
      rw [hskip]
      exact ih hcount h
    next hid =>
      have hkeep : userDefs (cd :: defs) = cd :: userDefs defs :=
        List.filter_cons_of_pos (by simpa using hid)
      obtain ⟨hdr₁, hadd, h⟩ := Option.bind_eq_some_iff.mp h
      have hlt : hdr.columnCount.toNat < 16 := by
        by_contra hge
        rw [addColumn, dif_neg hge] at hadd
        contradiction
      obtain ⟨hdr₂, hadd', -, hcount₂, -⟩ := addColumn_spec hlt (userColumn cd)
      rw [hadd'] at hadd
      obtain rfl := Option.some.inj hadd
      have hrest := ih (by omega) h
      rw [hkeep, List.length_cons]
      omega

/-- A schema has room for the columns. -/
theorem length_userDefs_le {defs : List ColumnDef} {hdr hdr' : DbHeader}
    (h : createSchema hdr defs = some hdr') : (userDefs defs).length ≤ 15 := by
  have hzero : ({ hdr with columnCount := 0 } : DbHeader).columnCount.toNat < 16 := by
    show (0 : UInt16).toNat < 16
    decide
  obtain ⟨hdr₁, hadd, -, hcount₁, -⟩ := addColumn_spec hzero idColumn
  rw [createSchema, hadd] at h
  obtain ⟨hdr₂, hadds, -⟩ := Option.bind_eq_some_iff.mp
    (show (addColumns defs hdr₁).bind schemaComputeLayout = some hdr' from h)
  have hcount : hdr₁.columnCount.toNat = 0 + 1 := hcount₁
  have := length_userDefs_le_of_addColumns (by omega) hadds
  omega

/-- A text with at most 15 user columns makes a table in an empty database. -/
theorem exists_createsTable {text : List UInt8} {db : Db} {stmt : Statement}
    (hparse : parse lib text = .ok stmt) (htype : stmt.type = .createTable)
    (hempty : db.header.columnCount = 0) (hcount : (userDefs stmt.colDefs).length ≤ 15) :
    ∃ db', CreatesTable lib text db stmt db' := by
  obtain ⟨hdr, hschema, -⟩ := createSchema_eq hcount db.header
  refine ⟨db.setHeader hdr, hparse, htype,
    ⟨0, .tableCreated stmt.tableName.bytes hdr.rowSize hdr.columnCount, []⟩, ?_, rfl⟩
  rw [execute_createTable lib htype, exec_createTable, hempty, hschema]
  rfl

end Lib

/-! ## Some tables -/

/-- `CREATE TABLE t (a VARCHAR(N))` with the digits of `N` -/
def varcharText (digits : List UInt8) : List UInt8 :=
  createWord ++ space :: tableWord ++ [space, 0x74, space, lparen, 0x61, space] ++ varcharWord ++
    lparen :: digits ++ [rparen, rparen]

/-- The statement of `varcharText` -/
def varcharStmt (size : UInt16) : Statement :=
  { Statement.zero with
    type := .createTable
    tableName := ⟨[0x74], by decide, by decide⟩
    colDefs := [⟨⟨[0x61], by decide, by decide⟩, .varchar, size⟩] }

theorem exists_varcharTable {digits : List UInt8} {size : UInt16} (pageSize : UInt32)
    (h : parse CLib.wrapping (varcharText digits) = .ok (varcharStmt size)) :
    ∃ db', CreatesTable CLib.wrapping (varcharText digits) (Db.fresh pageSize)
      (varcharStmt size) db' := by
  apply exists_createsTable CLib.wrapping h rfl rfl
  exact (List.length_filter_le ..).trans (show 1 ≤ 15 by decide)

section Lib

variable (lib : CLib)

/-! ## Room for a row -/

/-- The columns of a row lie next to each other inside it, and a row with its slot fits an
    empty heap page, so that the heap keeps its rows apart and inside their pages. -/
structure Storable (db : Db) : Prop where
  rowSize : db.header.rowSize.toNat = columnsSize db.header.inUse
  inside : ∀ col ∈ db.header.inUse, col.offset.toNat + col.size.toNat ≤ db.header.rowSize.toNat
  disjoint : db.header.inUse.Pairwise fun a b => a.offset.toNat + a.size.toNat ≤ b.offset.toNat
  room : 16 + 8 + db.header.rowSize.toNat ≤ db.ps
  need : (UInt16.ofNat (slotC.size + db.header.rowSize.toNat)).toNat =
    slotC.size + db.header.rowSize.toNat
  heap : ∀ ops : List HeapOp,
    (∀ c ∈ calls (HeapOp.step db.header.rowSize) ops ⟨db, []⟩, c.1.Ok db.header.rowSize c.2) →
    (∀ rs s, runAll (HeapOp.step db.header.rowSize) ops ⟨db, []⟩ = .ok (rs, s) →
      RowsApart s.db db.header.rowSize) ∧
    ∀ e, runAll (HeapOp.step db.header.rowSize) ops ⟨db, []⟩ = .error e → e = .idsExhausted

theorem LaidOut.inside {off : Nat} {cols : List ColumnMeta} (h : LaidOut off cols) :
    ∀ col ∈ cols, off ≤ col.offset.toNat ∧
      col.offset.toNat + col.size.toNat ≤ off + columnsSize cols := by
  induction cols generalizing off with
  | nil => exact fun _ h => nomatch h
  | cons c cols ih =>
    have hsum : columnsSize (c :: cols) = c.size.toNat + columnsSize cols := rfl
    intro col hcol
    cases List.mem_cons.mp hcol with
    | inl heq =>
      have := h.1
      rw [heq]
      omega
    | inr hrest =>
      have := ih h.2 col hrest
      omega

theorem LaidOut.disjoint {off : Nat} {cols : List ColumnMeta} (h : LaidOut off cols) :
    cols.Pairwise fun a b => a.offset.toNat + a.size.toNat ≤ b.offset.toNat := by
  induction cols generalizing off with
  | nil => exact List.Pairwise.nil
  | cons c cols ih =>
    refine List.Pairwise.cons (fun b hb => ?_) (ih h.2)
    have := (h.2.inside b hb).1
    have := h.1
    omega

/-- The heap does not read the schema. -/
theorem HeapShape.setSchema {db : Db} {rs : Nat} {hp : List HeapPage} {others : List PageId}
    (h : HeapShape db rs hp others) {hdr : DbHeader}
    (hdr_eq : hdr.outsideSchema = db.header.outsideSchema) :
    HeapShape (db.setHeader hdr) rs hp others := by
  have hfirst : hdr.outsideSchema.firstHeapPageId = db.header.outsideSchema.firstHeapPageId := by
    rw [hdr_eq]
  have hnext : hdr.outsideSchema.nextPageId = db.header.outsideSchema.nextPageId := by rw [hdr_eq]
  have hfree : hdr.outsideSchema.freePageHead = db.header.outsideSchema.freePageHead := by
    rw [hdr_eq]
  exact ⟨h.alloc.setHeader hdr hnext hfree, h.chain, hfirst.trans h.first, h.last⟩

theorem createText_storable {pageSize : UInt32} {defs : List ColumnDef} {hdr : DbHeader}
    (hsmall : pageSize.toNat < 65536)
    (hschema : createSchema (Db.fresh pageSize).header defs = some hdr)
    (hroom : 16 + 8 + (8 + userSize defs) ≤ pageSize.toNat) :
    Storable ((Db.fresh pageSize).setHeader hdr) := by
  obtain ⟨hdr', hcreate, hinUse, hrow, -, hrest⟩ :=
    createSchema_eq (length_userDefs_le hschema) (Db.fresh pageSize).header
  obtain rfl : hdr = hdr' := Option.some.inj (hschema.symm.trans hcreate)
  have hrow' : hdr.rowSize.toNat = 8 + userSize defs := by
    rw [hrow, UInt16.toNat_ofNat_of_lt' (show 8 + userSize defs < 65536 by omega)]
  -- the sum of the widths fits 16 bits, so no offset wraps
  have hlaid : LaidOut 0 hdr.inUse := by
    have hsum : (0 : UInt16).toNat + columnsSize (tableColumns defs) < 65536 := by
      rw [UInt16.toNat_zero, columnsSize_tableColumns]
      omega
    rw [hinUse]
    exact laidOut_layoutFrom hsum
  have hsize : columnsSize hdr.inUse = hdr.rowSize.toNat := by
    rw [hrow', hinUse, columnsSize_layoutFrom, columnsSize_tableColumns]
  have hdims : HeapDims pageSize hdr.rowSize := ⟨hsmall, by omega⟩
  -- the heap is empty, with the schema in the header
  have hstores : StoresRows hdr.rowSize [2] (fun _ => none) ⟨(Db.fresh pageSize).setHeader hdr, []⟩ :=
    ⟨hdims, ⟨_, (fresh_heapShape hdims).setSchema hrest, by
      funext ref
      simp [heapMap], by simp⟩, fun ref hne => absurd rfl hne⟩
  refine ⟨hsize.symm, fun col hcol => ?_, hlaid.disjoint, hdims.room, ?_, fun ops hok => ?_⟩
  · have := (hlaid.inside col hcol).2
    show col.offset.toNat + col.size.toNat ≤ hdr.rowSize.toNat
    omega
  · have h8 : slotC.size = 8 := rfl
    have hroom' := hdims.room
    exact UInt16.toNat_ofNat_of_lt' (show slotC.size + hdr.rowSize.toNat < 65536 by omega)
  · have hrun := runAll_spec (fun op _ _ hrel hok => HeapOp.step_spec op hrel hok) hstores hok
    refine ⟨fun rs s hout => ?_, hrun.2⟩
    obtain ⟨m, -, hstored⟩ := hrun.1 rs s hout
    exact hstored.holds.apart

/-- A table that can be stored fits its pages. -/
theorem CreatesTable.fits {text : List UInt8} {db db' : Db} {stmt : Statement}
    (h : CreatesTable lib text db stmt db') (hstorable : Storable db') :
    16 + 8 + (8 + userSize stmt.colDefs) ≤ db.ps := by
  obtain ⟨hdr, hschema, rfl⟩ := h.createSchema_eq
  obtain ⟨hdr', hcreate, hinUse, -⟩ :=
    MiniDb.createSchema_eq (length_userDefs_le hschema) db.header
  obtain rfl : hdr = hdr' := Option.some.inj (hschema.symm.trans hcreate)
  have hsize := hstorable.rowSize
  rw [Db.setHeader_header, hinUse, columnsSize_layoutFrom, columnsSize_tableColumns] at hsize
  have hroom : 16 + 8 + hdr.rowSize.toNat ≤ db.ps := hstorable.room
  omega

/-- A table can be stored exactly when its columns leave room for the slot and the header of
    a page. -/
theorem createText_storable_iff {text : List UInt8} {pageSize : UInt32} {stmt : Statement}
    {db' : Db} (hsmall : pageSize.toNat < 65536)
    (h : CreatesTable lib text (Db.fresh pageSize) stmt db') :
    Storable db' ↔ 16 + 8 + (8 + userSize stmt.colDefs) ≤ pageSize.toNat := by
  constructor
  · exact h.fits
  · intro hroom
    obtain ⟨hdr, hschema, rfl⟩ := h.createSchema_eq
    exact createText_storable hsmall hschema hroom

theorem createText_storable_iff_50 :
    ∃ stmt db', CreatesTable CLib.wrapping (varcharText [0x35, 0x30]) (Db.fresh 4096) stmt db' ∧
      Storable db' := by
  have hparse : parse CLib.wrapping (varcharText [0x35, 0x30]) = .ok (varcharStmt 50) := by rfl
  obtain ⟨db', h⟩ := exists_varcharTable 4096 hparse
  exact ⟨_, db', h, (createText_storable_iff CLib.wrapping (by decide) h).mpr (by decide)⟩

/-- A row with a VARCHAR(5000) does not fit a page of 4096 bytes. -/
theorem varchar5000_not_storable : ¬ ∀ (lib : CLib) (text : List UInt8) (pageSize : UInt32)
    (stmt : Statement) (db' : Db), pageSize.toNat < 65536 →
    CreatesTable lib text (Db.fresh pageSize) stmt db' → Storable db' := by
  intro hall
  have hparse : parse CLib.wrapping (varcharText [0x35, 0x30, 0x30, 0x30]) =
      .ok (varcharStmt 5000) := by rfl
  obtain ⟨db', h⟩ := exists_varcharTable 4096 hparse
  have hfits := h.fits CLib.wrapping (hall _ _ _ _ db' (by decide) h)
  exact absurd hfits (by decide)

/-! ## Strings in a row -/

/-- The copies of a string column stay inside the slice of the column, but for its last byte,
    and inside the array of the value that is read back. -/
def CopyInside (hdr : DbHeader) (col : ColumnMeta) (v : RowValue) : Prop :=
  ColumnType.ofCode? col.type = some .varchar →
    (∀ buf : List UInt8, buf.length = hdr.rowSize.toNat →
      ∃ buf', serializeColumn buf col v = some buf' ∧ buf'.length = buf.length ∧
        ∀ i, i < col.offset.toNat ∨ col.offset.toNat + col.size.toNat ≤ i + 1 →
          buf'[i]? = buf[i]?) ∧
    ∀ row : List UInt8, row.length = hdr.rowSize.toNat → (deserializeColumn row col).isSome

/-- This holds for the row of every INSERT. -/
def CopiesInside (hdr : DbHeader) : Prop :=
  ∀ ins : Statement, ∀ cv ∈ hdr.inUse.zip (rowValues lib hdr ins), CopyInside hdr cv.1 cv.2

theorem serializeColumn_zero {buf : List UInt8} {col : ColumnMeta} {v : RowValue}
    (htype : ColumnType.ofCode? col.type = some .varchar) (hsize : col.size = 0) :
    serializeColumn buf col v = none := by
  unfold serializeColumn
  rw [htype]
  exact if_pos hsize

theorem deserializeColumn_wide {buf : List UInt8} {col : ColumnMeta}
    (htype : ColumnType.ofCode? col.type = some .varchar) (hsize : 255 < col.size.toNat) :
    deserializeColumn buf col = none := by
  unfold deserializeColumn
  rw [htype]
  dsimp only
  cases hslice : slice? buf col.offset.toNat col.size.toNat with
  | none => rfl
  | some bytes =>
    have hlen : ¬ bytes.length < 256 := by
      have := length_of_slice? hslice
      omega
    show (if h : bytes.length < 256 then _ else none) = _
    rw [dif_neg hlen]

/-- A string column of a sensible size is copied inside its slice. -/
theorem copyInside_of_columnOk {hdr : DbHeader} {col : ColumnMeta} (hok : ColumnOk col)
    (hin : col.offset.toNat + col.size.toNat ≤ hdr.rowSize.toNat) (v : RowValue) :
    CopyInside hdr col v := by
  intro htype
  unfold ColumnOk at hok
  rw [htype] at hok
  have hok : 1 ≤ col.size.toNat ∧ col.size.toNat ≤ 255 := hok
  refine ⟨fun buf hbuf => ?_, fun row hrow => ?_⟩
  · have hsize : col.size ≠ 0 := fun h0 => by
      rw [h0] at hok
      exact absurd hok.1 (by decide)
    -- the length copied is cut to `size - 1`
    let len := if col.size.toNat ≤ v.strVal.bytes.length then col.size.toNat - 1
      else v.strVal.bytes.length
    have hlen : (v.strVal.bytes.take len).length < col.size.toNat := by
      rw [List.length_take]
      show min (if col.size.toNat ≤ v.strVal.bytes.length then col.size.toNat - 1
        else v.strVal.bytes.length) _ < _
      split <;> omega
    have hfit : col.offset.toNat + (v.strVal.bytes.take len).length ≤ buf.length := by omega
    have hcopy : serializeColumn buf col v =
        splice? buf col.offset.toNat (v.strVal.bytes.take len) := by
      unfold serializeColumn
      rw [htype]
      exact if_neg hsize
    refine ⟨splice buf col.offset.toNat (v.strVal.bytes.take len), ?_, length_splice _ _ _ hfit, ?_⟩
    · rw [hcopy, splice?, if_pos hfit]
    · intro i hi
      rw [getElem?_splice _ _ _ _ hfit, if_neg (by omega)]
  · -- the bytes read are at most 255, and the null fits behind them
    unfold deserializeColumn
    rw [htype]
    have hslice : slice? row col.offset.toNat col.size.toNat =
        some (slice row col.offset.toNat col.size.toNat) := if_pos (by omega)
    have hlen : (slice row col.offset.toNat col.size.toNat).length < 256 := by
      rw [slice, List.length_take]
      omega
    dsimp only
    rw [hslice]
    show (if h : (slice row col.offset.toNat col.size.toNat).length < 256 then _ else none).isSome
    rw [dif_pos hlen]
    rfl

theorem mem_layoutFrom {off : UInt16} {cols : List ColumnMeta} {col : ColumnMeta}
    (h : col ∈ cols) : ∃ o, { col with offset := o } ∈ layoutFrom off cols := by
  induction cols generalizing off with
  | nil => exact nomatch h
  | cons c cols ih =>
    cases List.mem_cons.mp h with
    | inl heq => exact ⟨off, heq ▸ List.mem_cons_self ..⟩
    | inr hrest =>
      obtain ⟨o, ho⟩ : ∃ o, { col with offset := o } ∈ layoutFrom (off + c.size) cols := ih hrest
      exact ⟨o, List.mem_cons_of_mem _ ho⟩

theorem length_insertValues (cols : List ColumnMeta) (texts : List (CString 256)) :
    (insertValues lib cols texts).length = cols.length := by
  induction cols generalizing texts with
  | nil => rfl
  | cons col cols ih => cases texts <;> simp [insertValues, ih]

theorem length_rowValues {hdr : DbHeader} (h : hdr.inUse ≠ []) (ins : Statement) :
    (rowValues lib hdr ins).length = hdr.inUse.length := by
  have := List.length_pos_iff.mpr h
  rw [rowValues, List.length_cons, length_insertValues, List.length_tail]
  omega

/-- Every column has a value. -/
theorem exists_zip_rowValues {hdr : DbHeader} {col : ColumnMeta} (h : col ∈ hdr.inUse)
    (ins : Statement) : ∃ v, (col, v) ∈ hdr.inUse.zip (rowValues lib hdr ins) := by
  have hlen := length_rowValues lib (List.ne_nil_of_mem h) ins
  obtain ⟨i, hi, rfl⟩ := List.getElem_of_mem h
  refine ⟨(rowValues lib hdr ins)[i], ?_⟩
  rw [List.mem_iff_getElem]
  exact ⟨i, by rw [List.length_zip]; omega, List.getElem_zip⟩

/-- Where the copies stay inside, the sizes are sensible. -/
theorem CreatesTable.varchar_sizes {text : List UInt8} {db db' : Db} {stmt : Statement}
    (h : CreatesTable lib text db stmt db') (hinside : CopiesInside lib db'.header) :
    ∀ cd ∈ userDefs stmt.colDefs, cd.type = .varchar →
      1 ≤ cd.size.toNat ∧ cd.size.toNat ≤ 255 := by
  obtain ⟨hdr, hschema, rfl⟩ := h.createSchema_eq
  rw [Db.setHeader_header] at hinside
  intro cd hcd hvarchar
  obtain ⟨hdr', hcreate, hinUse, -⟩ :=
    MiniDb.createSchema_eq (length_userDefs_le hschema) db.header
  obtain rfl : hdr = hdr' := Option.some.inj (hschema.symm.trans hcreate)
  have hmem : userColumn cd ∈ tableColumns stmt.colDefs :=
    List.mem_cons_of_mem _ (List.mem_map_of_mem hcd)
  obtain ⟨off, hcol⟩ := mem_layoutFrom hmem
  rw [← hinUse] at hcol
  obtain ⟨v, hv⟩ := exists_zip_rowValues lib hcol Statement.zero
  have htype : ColumnType.ofCode? ({ userColumn cd with offset := off } : ColumnMeta).type =
      some .varchar := by
    rw [← hvarchar]
    exact ColumnType.ofCode?_code cd.type
  obtain ⟨hwrite, hread⟩ := hinside Statement.zero _ hv htype
  -- the size cannot be 0, and not more than 255
  constructor
  · by_contra hzero
    have hsize : cd.size = 0 := UInt16.toNat_inj.mp (by rw [UInt16.toNat_zero]; omega)
    obtain ⟨buf', hser, -⟩ := hwrite (List.replicate hdr.rowSize.toNat 0) List.length_replicate
    rw [serializeColumn_zero htype hsize] at hser
    exact nomatch hser
  · by_contra hwide
    have hsome := hread (List.replicate hdr.rowSize.toNat 0) List.length_replicate
    rw [deserializeColumn_wide htype (show 255 < cd.size.toNat by omega)] at hsome
    exact nomatch hsome

/-- The strings of a table stay inside their arrays exactly when every VARCHAR has between 1
    and 255 bytes. -/
theorem createText_copiesInside_iff {text : List UInt8} {db db' : Db} {stmt : Statement}
    (h : CreatesTable lib text db stmt db') :
    CopiesInside lib db'.header ↔
      ∀ cd ∈ userDefs stmt.colDefs, cd.type = .varchar →
        1 ≤ cd.size.toNat ∧ cd.size.toNat ≤ 255 := by
  constructor
  · exact h.varchar_sizes
  · intro hsizes ins cv hcv
    obtain ⟨hdr, hschema, rfl⟩ := h.createSchema_eq
    rw [Db.setHeader_header] at hcv ⊢
    have hcount := length_userDefs_le hschema
    have hdefs : ∀ cd ∈ userDefs stmt.colDefs, DefOk cd := by
      intro cd hcd
      have htyped := parse_defTyped lib h.parsed h.type cd (List.mem_of_mem_filter hcd)
      unfold DefOk
      cases hcase : cd.type with
      | int => exact htyped.1 hcase
      | bigint => exact htyped.2 hcase
      | varchar => exact hsizes cd hcd hcase
    have hsmall : userSize stmt.colDefs ≤ 15 * 255 := userSize_le hcount hdefs
    obtain ⟨hdr', hcreate, hinUse, hok, -, -⟩ := createSchema_ok hcount hdefs (by omega) db.header
    obtain rfl : hdr = hdr' := Option.some.inj (hschema.symm.trans hcreate)
    have hcol : cv.1 ∈ hdr.inUse := List.of_mem_zip hcv |>.1
    have hin := (hok.laidOut.inside cv.1 hcol).2
    have hrow := hok.rowSize
    exact copyInside_of_columnOk (hok.columns cv.1 hcol) (by omega) cv.2

theorem createText_copiesInside_iff_50 :
    ∃ stmt db', CreatesTable CLib.wrapping (varcharText [0x35, 0x30]) (Db.fresh 4096) stmt db' ∧
      CopiesInside CLib.wrapping db'.header := by
  have hparse : parse CLib.wrapping (varcharText [0x35, 0x30]) = .ok (varcharStmt 50) := by rfl
  obtain ⟨db', h⟩ := exists_varcharTable 4096 hparse
  exact ⟨_, db', h, (createText_copiesInside_iff CLib.wrapping h).mpr (by decide)⟩

/-- The copy into a VARCHAR(0) has a wrapped length. -/
theorem varchar0_not_inside : ¬ ∀ (lib : CLib) (text : List UInt8) (db : Db) (stmt : Statement)
    (db' : Db), CreatesTable lib text db stmt db' → CopiesInside lib db'.header := by
  intro hall
  have hparse : parse CLib.wrapping (varcharText [0x30]) = .ok (varcharStmt 0) := by rfl
  obtain ⟨db', h⟩ := exists_varcharTable 4096 hparse
  have hsizes := h.varchar_sizes CLib.wrapping (hall _ _ _ _ db' h)
  exact absurd (hsizes _ (List.mem_cons_self ..) rfl).1 (by decide)

end Lib

end MiniDb
