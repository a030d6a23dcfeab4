import MiniDb.Sql.SchemaSpec
import MiniDb.Sql.Executor

/-!
# The schema of a CREATE TABLE

## Key results

- `createSchema_eq`: the schema that definitions make
- `createSchema_ok`: definitions of sensible sizes make a sound one
-/

namespace MiniDb

open Bytes CText

/-! ## Columns -/

/-- The definitions that become columns -/
def userDefs (defs : List ColumnDef) : List ColumnDef := defs.filter fun cd => cd.name.bytes ≠ idName

/-- INT and BIGINT have their sizes, and a VARCHAR has at most 255 bytes. -/
def DefOk (cd : ColumnDef) : Prop :=
  match cd.type with
  | .int => cd.size.toNat = 4
  | .bigint => cd.size.toNat = 8
  | .varchar => 1 ≤ cd.size.toNat ∧ cd.size.toNat ≤ 255

instance (cd : ColumnDef) : Decidable (DefOk cd) := by
  unfold DefOk
  split <;> infer_instance

theorem columnOk_userColumn {cd : ColumnDef} (h : DefOk cd) : ColumnOk (userColumn cd) := by
  have htype : ColumnType.ofCode? (userColumn cd).type = some cd.type :=
    ColumnType.ofCode?_code cd.type
  unfold ColumnOk
  rw [htype]
  unfold DefOk at h
  cases hcd : cd.type <;> rw [hcd] at h <;> exact h

theorem addColumn_spec {hdr : DbHeader} (h : hdr.columnCount.toNat < 16) (col : ColumnMeta) :
    ∃ hdr', addColumn hdr col = some hdr' ∧ hdr'.inUse = hdr.inUse ++ [col] ∧
      hdr'.columnCount.toNat = hdr.columnCount.toNat + 1 ∧
      hdr'.outsideSchema = hdr.outsideSchema := by
  have hsucc : (hdr.columnCount + 1).toNat = hdr.columnCount.toNat + 1 := by
    rw [UInt16.toNat_add]
    apply Nat.mod_eq_of_lt
    show hdr.columnCount.toNat + 1 < 65536
    omega
  refine ⟨_, dif_pos h, ?_, hsucc, rfl⟩
  unfold DbHeader.inUse
  dsimp only
  rw [hsucc, Vector.toList_set, List.take_succ_eq_append_getElem (by
      rw [List.length_set, Vector.length_toList]
      exact h), List.take_set_of_le (Nat.le_refl _), List.getElem_set_self]

theorem addColumns_spec {defs : List ColumnDef} {hdr : DbHeader}
    (h : hdr.columnCount.toNat + (userDefs defs).length ≤ 16) :
    ∃ hdr', addColumns defs hdr = some hdr' ∧
      hdr'.inUse = hdr.inUse ++ (userDefs defs).map userColumn ∧
      hdr'.columnCount.toNat = hdr.columnCount.toNat + (userDefs defs).length ∧
      hdr'.outsideSchema = hdr.outsideSchema := by
  induction defs generalizing hdr with
  | nil => exact ⟨hdr, rfl, by simp [userDefs], rfl, rfl⟩
  | cons cd defs ih =>
    rw [addColumns]
    by_cases hid : cd.name.bytes = idName
    · have hskip : userDefs (cd :: defs) = userDefs defs := List.filter_cons_of_neg (by simpa using hid)
      rw [if_pos hid, hskip]
      rw [hskip] at h
      exact ih h
    · have hkeep : userDefs (cd :: defs) = cd :: userDefs defs :=
        List.filter_cons_of_pos (by simpa using hid)
      rw [hkeep, List.length_cons] at h
      have hlt : hdr.columnCount.toNat < 16 := by omega
      obtain ⟨hdr₁, hadd, hinUse₁, hcount₁, hrest₁⟩ := addColumn_spec hlt (userColumn cd)
      have hroom : hdr₁.columnCount.toNat + (userDefs defs).length ≤ 16 := by omega
      obtain ⟨hdr₂, hadds, hinUse₂, hcount₂, hrest₂⟩ := ih hroom
      refine ⟨hdr₂, ?_, ?_, ?_, hrest₂.trans hrest₁⟩
      · rw [if_neg hid, hadd]
        exact hadds
      · rw [hinUse₂, hinUse₁, hkeep, List.map_cons, List.append_assoc, List.singleton_append]
      · rw [hcount₂, hcount₁, hkeep, List.length_cons]
        omega

/-- The columns of the table that definitions make, before they are laid out -/
def tableColumns (defs : List ColumnDef) : List ColumnMeta :=
  idColumn :: (userDefs defs).map userColumn

/-- The sizes of the columns that definitions make together -/
def userSize (defs : List ColumnDef) : Nat := ((userDefs defs).map fun cd => cd.size.toNat).sum

theorem columnsSize_tableColumns (defs : List ColumnDef) :
    columnsSize (tableColumns defs) = 8 + userSize defs := by
  rw [tableColumns, columnsSize, List.map_cons, List.sum_cons, List.map_map]
  rfl

theorem DefOk.size_le {cd : ColumnDef} (h : DefOk cd) : cd.size.toNat ≤ 255 := by
  unfold DefOk at h
  split at h <;> omega

theorem userSize_le {defs : List ColumnDef} (hcount : (userDefs defs).length ≤ 15)
    (hok : ∀ cd ∈ userDefs defs, DefOk cd) : userSize defs ≤ 15 * 255 := by
  have hsum := List.sum_le_card_nsmul ((userDefs defs).map fun cd => cd.size.toNat) 255 (by
    intro x hx
    obtain ⟨cd, hcd, rfl⟩ := List.mem_map.mp hx
    exact (hok cd hcd).size_le)
  rw [List.length_map, smul_eq_mul] at hsum
  exact hsum.trans (Nat.mul_le_mul_right 255 hcount)

/-- The schema that definitions make -/
theorem createSchema_eq {defs : List ColumnDef} (h : (userDefs defs).length ≤ 15)
    (hdr : DbHeader) :
    ∃ hdr', createSchema hdr defs = some hdr' ∧ hdr'.inUse = layoutFrom 0 (tableColumns defs) ∧
      hdr'.rowSize = UInt16.ofNat (8 + userSize defs) ∧
      hdr'.columnCount.toNat = 1 + (userDefs defs).length ∧
      hdr'.outsideSchema = hdr.outsideSchema := by
  have hzero : (0 : UInt16).toNat = 0 := rfl
  obtain ⟨hdr₁, hadd, hinUse₁, hcount₁, hrest₁⟩ := addColumn_spec
    (show ({ hdr with columnCount := 0 } : DbHeader).columnCount.toNat < 16 from by
      rw [hzero]
      omega) idColumn
  rw [hzero, Nat.zero_add] at hcount₁
  have hroom : hdr₁.columnCount.toNat + (userDefs defs).length ≤ 16 := by omega
  obtain ⟨hdr₂, hadds, hinUse₂, hcount₂, hrest₂⟩ := addColumns_spec hroom
  have hcols : hdr₂.inUse = tableColumns defs := by
    rw [hinUse₂, hinUse₁]
    rfl
  have hcount : hdr₂.columnCount.toNat ≤ 16 := by omega
  obtain ⟨hdr₃, hlayout, hinUse₃, hrow₃, hcount₃, hrest₃⟩ := schemaComputeLayout_eq hcount
  refine ⟨hdr₃, ?_, ?_, ?_, ?_, hrest₃.trans (hrest₂.trans hrest₁)⟩
  · rw [createSchema, hadd]
    show (addColumns defs hdr₁).bind _ = _
    rw [hadds]
    exact hlayout
  · rw [hinUse₃, hcols]
  · rw [hrow₃, hcols, columnsSize_tableColumns]
  · rw [hcount₃, hcount₂, hcount₁]

/-- At most 15 user columns of sensible sizes, and a row with its slot fits an empty page. -/
structure CreateOk (pageSize : UInt32) (stmt : Statement) : Prop where
  count : (userDefs stmt.colDefs).length ≤ 15
  sizes : ∀ cd ∈ userDefs stmt.colDefs, DefOk cd
  room : 16 + 8 + (8 + userSize stmt.colDefs) ≤ pageSize.toNat

theorem columnOk_tableColumns {defs : List ColumnDef} (h : ∀ cd ∈ userDefs defs, DefOk cd) :
    ∀ col ∈ tableColumns defs, ColumnOk col := by
  intro col hcol
  cases List.mem_cons.mp hcol with
  | inl hid => exact hid ▸ rfl
  | inr huser =>
    obtain ⟨cd, hcd, rfl⟩ := List.mem_map.mp huser
    exact columnOk_userColumn (h cd hcd)

/-- A schema of sensible columns without gaps -/
theorem createSchema_ok {defs : List ColumnDef} (hcount : (userDefs defs).length ≤ 15)
    (hok : ∀ cd ∈ userDefs defs, DefOk cd) (hsize : 8 + userSize defs < 65536) (hdr : DbHeader) :
    ∃ hdr', createSchema hdr defs = some hdr' ∧ hdr'.inUse = layoutFrom 0 (tableColumns defs) ∧
      SchemaOk hdr' ∧ hdr'.columnCount ≠ 0 ∧ hdr'.rowSize.toNat = 8 + userSize defs ∧
      hdr'.outsideSchema = hdr.outsideSchema := by
  obtain ⟨hdr', hcreate, hinUse, hrow, hcount', hrest⟩ := createSchema_eq hcount hdr
  have hrow' : hdr'.rowSize.toNat = 8 + userSize defs := by
    rw [hrow, UInt16.toNat_ofNat_of_lt' hsize]
  refine ⟨hdr', hcreate, hinUse, ⟨?_, ?_, ?_, ?_⟩, ?_, hrow', hrest⟩
  · show hdr'.columnCount.toNat ≤ 16
    omega
  · rw [hinUse]
    exact columnOk_layoutFrom (columnOk_tableColumns hok)
  · have hsum : (0 : UInt16).toNat + columnsSize (tableColumns defs) < 65536 := by
      rw [UInt16.toNat_zero, columnsSize_tableColumns]
      omega
    rw [hinUse]
    exact laidOut_layoutFrom hsum
  · rw [hrow', hinUse, columnsSize_layoutFrom, columnsSize_tableColumns]
  · intro h0
    rw [h0] at hcount'
    exact absurd hcount' (by rw [show (0 : UInt16).toNat = 0 from rfl]; omega)

end MiniDb
