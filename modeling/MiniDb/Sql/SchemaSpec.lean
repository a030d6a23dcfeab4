import MiniDb.Pager.Interface
import MiniDb.Sql.Schema

/-!
# The row codec

A row is the concatenation of its cells.  Reading the cells back gives the values, strings
cut to the room of their column.

## Key results

- `rowSerialize_eq`: the bytes of a row
- `rowDeserialize_rowBytes`: reading them back
- `schemaComputeLayout_spec`: the layout of a schema that fits a row
-/

namespace MiniDb

open Bytes CText

/-! ## Columns and cells -/

/-- The sizes the types are made for -/
def ColumnOk (col : ColumnMeta) : Prop :=
  match ColumnType.ofCode? col.type with
  | some .int => col.size.toNat = 4
  | some .bigint => col.size.toNat = 8
  | some .varchar => 1 ≤ col.size.toNat ∧ col.size.toNat ≤ 255
  | none => False

instance (col : ColumnMeta) : Decidable (ColumnOk col) := by
  unfold ColumnOk
  split <;> infer_instance

/-- The columns follow each other from offset `off` on. -/
def LaidOut : Nat → List ColumnMeta → Prop
  | _, [] => True
  | off, col :: cols => col.offset.toNat = off ∧ LaidOut (off + col.size.toNat) cols

/-- The bytes of the columns together -/
def columnsSize (cols : List ColumnMeta) : Nat := (cols.map fun col => col.size.toNat).sum

/-- The string a column keeps -/
def cutString (col : ColumnMeta) (s : CString 256) : CString 256 := s.take (col.size.toNat - 1)

/-- The bytes of a value in its column -/
def cellBytes (col : ColumnMeta) (v : RowValue) : List UInt8 :=
  match ColumnType.ofCode? col.type with
  | some .int => i32.enc v.intVal
  | some .bigint => i64.enc v.bigintVal
  | some .varchar =>
    (cutString col v.strVal).bytes ++
      List.replicate (col.size.toNat - (cutString col v.strVal).bytes.length) 0
  | none => []

/-- The value a column keeps -/
def cutValue (col : ColumnMeta) (v : RowValue) : RowValue :=
  match ColumnType.ofCode? col.type with
  | some .int => { RowValue.zero with intVal := v.intVal }
  | some .bigint => { RowValue.zero with bigintVal := v.bigintVal }
  | some .varchar => { RowValue.zero with strVal := cutString col v.strVal }
  | none => RowValue.zero

/-- The bytes of a row -/
def rowBytes (cols : List ColumnMeta) (values : List RowValue) : List UInt8 :=
  (cols.zip values).flatMap fun (col, v) => cellBytes col v

theorem length_cutString {col : ColumnMeta} {s : CString 256} (h : 1 ≤ col.size.toNat) :
    (cutString col s).bytes.length < col.size.toNat := by
  unfold cutString CString.take
  rw [List.length_take]
  omega

theorem length_cellBytes {col : ColumnMeta} (h : ColumnOk col) (v : RowValue) :
    (cellBytes col v).length = col.size.toNat := by
  unfold ColumnOk at h
  unfold cellBytes
  split at h
  next => rw [h, i32.length_enc, i32_size]
  next => rw [h, i64.length_enc, i64_size]
  next =>
    have := length_cutString (s := v.strVal) h.1
    rw [List.length_append, List.length_replicate]
    omega
  next => exact h.elim

/-! ## Writing -/

/-- Overwriting the beginning of a run of zeros -/
theorem splice_zeros {A B xs : List UInt8} {n : Nat} (h : xs.length ≤ n) :
    splice? (A ++ List.replicate n 0 ++ B) A.length xs =
      some (A ++ (xs ++ List.replicate (n - xs.length) 0) ++ B) := by
  have hin : A.length + xs.length ≤ (A ++ List.replicate n (0 : UInt8) ++ B).length := by
    rw [List.length_append, List.length_append, List.length_replicate]
    omega
  have hdrop : (List.replicate n (0 : UInt8) ++ B).drop xs.length =
      List.replicate (n - xs.length) 0 ++ B := by
    rw [List.drop_append_of_le_length (by rw [List.length_replicate]; exact h), List.drop_replicate]
  rw [splice?, if_pos hin, splice, List.append_assoc A, List.take_left' rfl, ← List.drop_drop,
    List.drop_left' rfl, hdrop]
  simp only [List.append_assoc]

/-- Overwriting zeros by the encoding of a value -/
theorem put_zeros {α : Type} (c : Codec α) {A B : List UInt8} (a : α) :
    c.put? (A ++ List.replicate c.size 0 ++ B) A.length a = some (A ++ c.enc a ++ B) := by
  have hlen := c.length_enc a
  have hput : c.put? (A ++ List.replicate c.size 0 ++ B) A.length a =
      splice? (A ++ List.replicate c.size 0 ++ B) A.length (c.enc a) := by
    unfold Codec.put? splice? Codec.put
    rw [hlen]
  rw [hput, splice_zeros (Nat.le_of_eq hlen), hlen, Nat.sub_self, List.replicate_zero,
    List.append_nil]

theorem serializeColumn_spec {A B : List UInt8} {col : ColumnMeta} (hcol : ColumnOk col)
    (hoff : col.offset.toNat = A.length) (v : RowValue) :
    serializeColumn (A ++ List.replicate col.size.toNat 0 ++ B) col v =
      some (A ++ cellBytes col v ++ B) := by
  unfold ColumnOk at hcol
  split at hcol
  next htype =>
    simp only [serializeColumn, cellBytes, htype, hoff, hcol]
    exact put_zeros i32 v.intVal
  next htype =>
    simp only [serializeColumn, cellBytes, htype, hoff, hcol]
    exact put_zeros i64 v.bigintVal
  next htype =>
    have hsize : col.size ≠ 0 := fun h0 => by
      rw [h0] at hcol
      exact absurd hcol.1 (by decide)
    have hcut : v.strVal.bytes.take (if col.size.toNat ≤ v.strVal.bytes.length
        then col.size.toNat - 1 else v.strVal.bytes.length) = (cutString col v.strVal).bytes := by
      show _ = v.strVal.bytes.take (col.size.toNat - 1)
      split
      next => rfl
      next hlt => rw [List.take_of_length_le (Nat.le_refl _), List.take_of_length_le (by omega)]
    have hlen := length_cutString (s := v.strVal) hcol.1
    simp only [serializeColumn, cellBytes, htype, hoff, if_neg hsize, hcut]
    exact splice_zeros (Nat.le_of_lt hlen)
  next => exact hcol.elim

/-- The loop fills the row from left to right. -/
theorem serializeLoop_spec {cols : List ColumnMeta} {values : List RowValue} {A B : List UInt8}
    (hok : ∀ col ∈ cols, ColumnOk col) (h : LaidOut A.length cols) (hlen : values.length = cols.length) :
    serializeLoop (cols.zip values) (A ++ List.replicate (columnsSize cols) 0 ++ B) =
      some (A ++ rowBytes cols values ++ B) := by
  induction cols generalizing values A with
  | nil => simp [serializeLoop, columnsSize, rowBytes]
  | cons col cols ih =>
    cases values with
    | nil => exact nomatch hlen
    | cons v values =>
      obtain ⟨hoff, hrest⟩ := h
      have hcol : ColumnOk col := hok col (List.mem_cons_self ..)
      have hcell := length_cellBytes hcol v
      have hA : LaidOut (A ++ cellBytes col v).length cols := by
        rw [List.length_append, hcell]
        exact hrest
      have hzeros : A ++ List.replicate (columnsSize (col :: cols)) 0 ++ B =
          A ++ List.replicate col.size.toNat 0 ++
            (List.replicate (columnsSize cols) 0 ++ B) := by
        rw [show columnsSize (col :: cols) = col.size.toNat + columnsSize cols from rfl,
          ← List.replicate_append_replicate]
        simp only [List.append_assoc]
      have hloop := ih (fun c hc => hok c (List.mem_cons_of_mem _ hc)) hA (Nat.succ.inj hlen)
      rw [List.append_assoc (A ++ cellBytes col v)] at hloop
      rw [List.zip_cons_cons, serializeLoop, hzeros, serializeColumn_spec hcol hoff]
      show serializeLoop (cols.zip values) _ = _
      rw [hloop, rowBytes, rowBytes, List.zip_cons_cons, List.flatMap_cons]
      simp only [List.append_assoc]

theorem length_rowBytes {cols : List ColumnMeta} {values : List RowValue}
    (hok : ∀ col ∈ cols, ColumnOk col) (hlen : values.length = cols.length) :
    (rowBytes cols values).length = columnsSize cols := by
  induction cols generalizing values with
  | nil => rfl
  | cons col cols ih =>
    cases values with
    | nil => exact nomatch hlen
    | cons v values =>
      have hrest := ih (fun c hc => hok c (List.mem_cons_of_mem _ hc)) (Nat.succ.inj hlen)
      rw [rowBytes] at hrest
      rw [rowBytes, List.zip_cons_cons, List.flatMap_cons, List.length_append,
        length_cellBytes (hok col (List.mem_cons_self ..)) v, hrest]
      rfl

/-! ## Reading -/

/-- The bytes at the place where a list was put -/
theorem slice_append_mid (A X B : List UInt8) : slice (A ++ X ++ B) A.length X.length = X := by
  rw [slice, List.append_assoc, List.drop_left' rfl, List.take_left' rfl]

/-- Reading the encoding of a value in the middle of a buffer -/
theorem get_mid {α : Type} (c : Codec α) (A B : List UInt8) (a : α) :
    c.get? (A ++ c.enc a ++ B) A.length = some a := by
  have hlen := c.length_enc a
  have hin : A.length + c.size ≤ (A ++ c.enc a ++ B).length := by
    rw [List.length_append, List.length_append]
    omega
  have hslice := slice_append_mid A (c.enc a) B
  rw [hlen] at hslice
  rw [c.get?_eq_some _ _ hin, Codec.get, hslice, c.dec_enc]

theorem deserializeColumn_spec {A B : List UInt8} {col : ColumnMeta} {v : RowValue}
    (hcol : ColumnOk col) (hoff : col.offset.toNat = A.length) :
    deserializeColumn (A ++ cellBytes col v ++ B) col = some (cutValue col v) := by
  have hcell := length_cellBytes hcol v
  have hslice := slice_append_mid A (cellBytes col v) B
  rw [hcell] at hslice
  unfold ColumnOk at hcol
  split at hcol
  next htype =>
    simp only [deserializeColumn, cellBytes, cutValue, htype, hoff, get_mid]
    rfl
  next htype =>
    simp only [deserializeColumn, cellBytes, cutValue, htype, hoff, get_mid]
    rfl
  next htype =>
    have hlt := length_cutString (s := v.strVal) hcol.1
    have hin : A.length + col.size.toNat ≤ (A ++ cellBytes col v ++ B).length := by
      rw [List.length_append, List.length_append]
      omega
    have hbytes : cellBytes col v = (cutString col v.strVal).bytes ++
        List.replicate (col.size.toNat - (cutString col v.strVal).bytes.length) 0 := by
      simp only [cellBytes, htype]
    have hstr : cString (cellBytes col v) = (cutString col v.strVal).bytes := by
      rw [hbytes]
      exact cString_zeros (cutString col v.strVal).noNul (by omega)
    have hread : slice? (A ++ cellBytes col v ++ B) A.length col.size.toNat =
        some (cellBytes col v) := by
      rw [slice?, if_pos hin, hslice]
    have hsmall : (cellBytes col v).length < 256 := by omega
    have hofArray : CString.ofArray (cellBytes col v) hsmall = cutString col v.strVal :=
      CString.ext hstr
    simp only [deserializeColumn, cutValue, htype, hoff, hread]
    show (if h : (cellBytes col v).length < 256 then _ else none) = _
    rw [dif_pos hsmall, hofArray]
    rfl
  next => exact hcol.elim

theorem deserializeLoop_spec {cols : List ColumnMeta} {values : List RowValue}
    {A B : List UInt8} (hok : ∀ col ∈ cols, ColumnOk col) (h : LaidOut A.length cols)
    (hlen : values.length = cols.length) :
    deserializeLoop (A ++ rowBytes cols values ++ B) cols =
      some (cols.zipWith cutValue values) := by
  induction cols generalizing values A with
  | nil => rfl
  | cons col cols ih =>
    cases values with
    | nil => exact nomatch hlen
    | cons v values =>
      obtain ⟨hoff, hrest⟩ := h
      have hcol : ColumnOk col := hok col (List.mem_cons_self ..)
      have hcell := length_cellBytes hcol v
      have hA : LaidOut (A ++ cellBytes col v).length cols := by
        rw [List.length_append, hcell]
        exact hrest
      have hbuf : A ++ rowBytes (col :: cols) (v :: values) ++ B =
          A ++ cellBytes col v ++ (rowBytes cols values ++ B) := by
        rw [rowBytes, rowBytes, List.zip_cons_cons, List.flatMap_cons]
        simp only [List.append_assoc]
      have hhead := deserializeColumn_spec (B := rowBytes cols values ++ B) (v := v) hcol hoff
      have htail := ih (fun c hc => hok c (List.mem_cons_of_mem _ hc)) hA (Nat.succ.inj hlen)
      rw [deserializeLoop, hbuf, hhead]
      rw [List.append_assoc (A ++ cellBytes col v)] at htail
      rw [htail]
      rfl

/-! ## Schemas -/

/-- The columns in use follow each other without gaps and fill the row. -/
structure SchemaOk (hdr : DbHeader) : Prop where
  count : hdr.columnCount.toNat ≤ maxColumns
  columns : ∀ col ∈ hdr.inUse, ColumnOk col
  laidOut : LaidOut 0 hdr.inUse
  rowSize : hdr.rowSize.toNat = columnsSize hdr.inUse

section Schema

variable {hdr : DbHeader} {values : List RowValue}

theorem SchemaOk.inUse? (h : SchemaOk hdr) : hdr.inUse? = some hdr.inUse := if_pos h.count

/-- The row is written over the first bytes of the buffer. -/
theorem rowSerialize_eq (h : SchemaOk hdr) (hlen : values.length = hdr.inUse.length)
    {buf : List UInt8} (hbuf : hdr.rowSize.toNat ≤ buf.length) :
    rowSerialize hdr values buf = some (rowBytes hdr.inUse values ++ buf.drop hdr.rowSize.toNat) := by
  have hloop := serializeLoop_spec (A := []) (B := buf.drop hdr.rowSize.toNat) h.columns
    h.laidOut hlen
  rw [List.nil_append, List.nil_append, ← h.rowSize] at hloop
  have hzero : splice? buf 0 (List.replicate hdr.rowSize.toNat 0) =
      some (List.replicate hdr.rowSize.toNat 0 ++ buf.drop hdr.rowSize.toNat) := by
    rw [splice?, if_pos (by rw [List.length_replicate]; omega), splice, List.take_zero,
      List.nil_append, List.length_replicate, Nat.zero_add]
  rw [rowSerialize, h.inUse?]
  show (splice? buf 0 _).bind _ = _
  rw [hzero]
  exact hloop

theorem SchemaOk.length_rowBytes (h : SchemaOk hdr) (hlen : values.length = hdr.inUse.length) :
    (rowBytes hdr.inUse values).length = hdr.rowSize.toNat := by
  rw [MiniDb.length_rowBytes h.columns hlen, h.rowSize]

/-- Reading a row gives its values, with the strings cut. -/
theorem rowDeserialize_rowBytes (h : SchemaOk hdr) (hlen : values.length = hdr.inUse.length)
    (rest : List UInt8) :
    rowDeserialize hdr (rowBytes hdr.inUse values ++ rest) =
      some (hdr.inUse.zipWith cutValue values) := by
  have hloop := deserializeLoop_spec (A := []) (B := rest) h.columns h.laidOut hlen
  rw [List.nil_append] at hloop
  rw [rowDeserialize, h.inUse?]
  exact hloop

end Schema

/-! ## Layout -/

/-- The columns with the offsets `schema_compute_layout` gives them -/
def layoutFrom : UInt16 → List ColumnMeta → List ColumnMeta
  | _, [] => []
  | off, col :: cols => { col with offset := off } :: layoutFrom (off + col.size) cols

theorem length_layoutFrom (off : UInt16) (cols : List ColumnMeta) :
    (layoutFrom off cols).length = cols.length := by
  induction cols generalizing off with
  | nil => rfl
  | cons col cols ih => rw [layoutFrom, List.length_cons, ih, List.length_cons]

theorem columnsSize_layoutFrom (off : UInt16) (cols : List ColumnMeta) :
    columnsSize (layoutFrom off cols) = columnsSize cols := by
  induction cols generalizing off with
  | nil => rfl
  | cons col cols ih =>
    have hrest := ih (off + col.size)
    unfold columnsSize at hrest ⊢
    rw [layoutFrom, List.map_cons, List.sum_cons, hrest, List.map_cons, List.sum_cons]

/-- Nothing is cut off in 16 bits. -/
theorem toNat_add_size {off : UInt16} {col : ColumnMeta} {cols : List ColumnMeta}
    (h : off.toNat + columnsSize (col :: cols) < 65536) :
    (off + col.size).toNat = off.toNat + col.size.toNat ∧
      (off + col.size).toNat + columnsSize cols < 65536 := by
  simp only [columnsSize, List.map_cons, List.sum_cons] at h ⊢
  have hadd : (off + col.size).toNat = off.toNat + col.size.toNat := by
    rw [UInt16.toNat_add]
    apply Nat.mod_eq_of_lt
    show off.toNat + col.size.toNat < 65536
    omega
  omega

theorem laidOut_layoutFrom {off : UInt16} {cols : List ColumnMeta} (h : off.toNat + columnsSize cols < 65536) :
    LaidOut off.toNat (layoutFrom off cols) := by
  induction cols generalizing off with
  | nil => trivial
  | cons col cols ih =>
    obtain ⟨hadd, hlt⟩ := toNat_add_size h
    have hrest := ih hlt
    rw [hadd] at hrest
    exact ⟨rfl, hrest⟩

theorem columnOk_layoutFrom {off : UInt16} {cols : List ColumnMeta}
    (hok : ∀ col ∈ cols, ColumnOk col) : ∀ col ∈ layoutFrom off cols, ColumnOk col := by
  induction cols generalizing off with
  | nil => exact fun _ h => nomatch h
  | cons col cols ih =>
    intro c hc
    cases List.mem_cons.mp hc with
    | inl h => exact h ▸ hok col (List.mem_cons_self ..)
    | inr h => exact ih (fun c hc => hok c (List.mem_cons_of_mem _ hc)) c h

/-- The loop over the array -/
theorem layoutLoop_spec {n i : Nat} (h : i + n ≤ 16) (off : UInt16) (cols : Vector ColumnMeta 16) :
    ∃ cols', layoutLoop n i off cols =
        some (cols', off + UInt16.ofNat (columnsSize ((cols.toList.drop i).take n))) ∧
      cols'.toList = cols.toList.take i ++ layoutFrom off ((cols.toList.drop i).take n) ++
        cols.toList.drop (i + n) := by
  induction n generalizing i off cols with
  | zero =>
    refine ⟨cols, ?_, ?_⟩
    · simp [layoutLoop, columnsSize]
    · simp [layoutFrom]
  | succ n ih =>
    have hi : i < 16 := by omega
    have hlen : i < cols.toList.length := by rw [Vector.length_toList]; exact hi
    obtain ⟨cols', hloop, hcols'⟩ := ih (i := i + 1) (by omega) (off + cols[i].size)
      (cols.set i { cols[i] with offset := off })
    have hdrop : (cols.set i { cols[i] with offset := off }).toList.drop (i + 1) =
        cols.toList.drop (i + 1) := by
      rw [Vector.toList_set, List.drop_set_of_lt (Nat.lt_succ_self i)]
    have htake : (cols.set i { cols[i] with offset := off }).toList.take (i + 1) =
        cols.toList.take i ++ [{ cols[i] with offset := off }] := by
      rw [Vector.toList_set, List.take_succ_eq_append_getElem (by rw [List.length_set]; exact hlen),
        List.take_set_of_le (Nat.le_refl _), List.getElem_set_self]
    have hcons : (cols.toList.drop i).take (n + 1) =
        cols[i] :: (cols.toList.drop (i + 1)).take n := by
      rw [List.drop_eq_getElem_cons hlen, List.take_succ_cons, Vector.getElem_toList]
    have hrest : (cols.set i { cols[i] with offset := off }).toList.drop (i + 1 + n) =
        cols.toList.drop (i + (n + 1)) := by
      rw [Vector.toList_set, List.drop_set_of_lt (by omega)]
      congr 1
      omega
    refine ⟨cols', ?_, ?_⟩
    · rw [layoutLoop, dif_pos hi, hloop, hdrop, hcons]
      have hsize : columnsSize (cols[i] :: (cols.toList.drop (i + 1)).take n) =
          cols[i].size.toNat + columnsSize ((cols.toList.drop (i + 1)).take n) := by
        simp only [columnsSize, List.map_cons, List.sum_cons]
      rw [hsize, UInt16.ofNat_add, UInt16.ofNat_toNat, UInt16.add_assoc]
    · rw [hcols', hdrop, htake, hcons, hrest, layoutFrom, List.append_assoc (cols.toList.take i)]
      rfl

/-- The part of a header that a CREATE TABLE leaves alone -/
def DbHeader.outsideSchema (hdr : DbHeader) : DbHeader :=
  { hdr with
    columns := Vector.replicate 16 ⟨Vector.replicate 32 0, 0, 0, 0, 0⟩
    columnCount := 0
    rowSize := 0 }

/-- The offsets and the size of the row in 16 bits -/
theorem schemaComputeLayout_eq {hdr : DbHeader} (hcount : hdr.columnCount.toNat ≤ 16) :
    ∃ hdr', schemaComputeLayout hdr = some hdr' ∧ hdr'.inUse = layoutFrom 0 hdr.inUse ∧
      hdr'.rowSize = UInt16.ofNat (columnsSize hdr.inUse) ∧ hdr'.columnCount = hdr.columnCount ∧
      hdr'.outsideSchema = hdr.outsideSchema := by
  obtain ⟨cols', hloop, hcols'⟩ := layoutLoop_spec (i := 0) (n := hdr.columnCount.toNat)
    (by omega) 0 hdr.columns
  rw [List.drop_zero] at hloop hcols'
  have hlen : (layoutFrom 0 hdr.inUse).length = hdr.columnCount.toNat := by
    rw [length_layoutFrom, DbHeader.inUse, List.length_take, Vector.length_toList]
    omega
  refine ⟨{ hdr with columns := cols', rowSize := 0 + UInt16.ofNat (columnsSize hdr.inUse) }, ?_,
    ?_, UInt16.zero_add _, rfl, rfl⟩
  · rw [schemaComputeLayout, hloop]
    rfl
  · show cols'.toList.take hdr.columnCount.toNat = layoutFrom 0 hdr.inUse
    rw [hcols', List.take_zero, List.nil_append]
    exact List.take_left' hlen

/-- `schema_compute_layout` lays the columns out one after the other. -/
theorem schemaComputeLayout_spec {hdr : DbHeader} (hcount : hdr.columnCount.toNat ≤ 16)
    (hok : ∀ col ∈ hdr.inUse, ColumnOk col) (hsize : columnsSize hdr.inUse < 65536) :
    ∃ hdr', schemaComputeLayout hdr = some hdr' ∧ hdr'.inUse = layoutFrom 0 hdr.inUse ∧
      SchemaOk hdr' ∧ hdr'.columnCount = hdr.columnCount ∧
      hdr'.outsideSchema = hdr.outsideSchema := by
  obtain ⟨hdr', hlayout, hinUse, hrow, hcount', hrest⟩ := schemaComputeLayout_eq hcount
  refine ⟨hdr', hlayout, hinUse, ⟨?_, ?_, ?_, ?_⟩, hcount', hrest⟩
  · rw [hcount']
    exact hcount
  · rw [hinUse]
    exact columnOk_layoutFrom hok
  · rw [hinUse]
    have hsum : (0 : UInt16).toNat + columnsSize hdr.inUse < 65536 := by
      rw [UInt16.toNat_zero]
      omega
    exact laidOut_layoutFrom hsum
  · rw [hrow, hinUse, columnsSize_layoutFrom, UInt16.toNat_ofNat_of_lt' hsize]

/-! ## Round trip -/

/-- What a column keeps does not depend on its offset. -/
theorem zipWith_cutValue_layoutFrom (off : UInt16) (cols : List ColumnMeta)
    (values : List RowValue) :
    (layoutFrom off cols).zipWith cutValue values = cols.zipWith cutValue values := by
  induction cols generalizing off values with
  | nil => rfl
  | cons col cols ih =>
    cases values with
    | nil => rfl
    | cons v values => rw [layoutFrom, List.zipWith_cons_cons, List.zipWith_cons_cons, ih]; rfl

/-- Cutting a string again changes nothing. -/
theorem cutString_cutString (col : ColumnMeta) (s : CString 256) :
    cutString col (cutString col s) = cutString col s := by
  apply CString.ext
  show (s.bytes.take _).take _ = s.bytes.take _
  rw [List.take_take, Nat.min_self]

theorem cutValue_cutValue (col : ColumnMeta) (v : RowValue) :
    cutValue col (cutValue col v) = cutValue col v := by
  unfold cutValue
  split
  next => rfl
  next => rfl
  next =>
    dsimp only
    rw [cutString_cutString]
  next => rfl

theorem cellBytes_cutValue (col : ColumnMeta) (v : RowValue) :
    cellBytes col (cutValue col v) = cellBytes col v := by
  unfold cellBytes cutValue
  split
  next => rfl
  next => rfl
  next =>
    dsimp only
    rw [cutString_cutString]
  next => rfl

theorem rowBytes_cutValue (cols : List ColumnMeta) (values : List RowValue) :
    rowBytes cols (cols.zipWith cutValue values) = rowBytes cols values := by
  induction cols generalizing values with
  | nil => rfl
  | cons col cols ih =>
    cases values with
    | nil => rfl
    | cons v values =>
      have hrest := ih values
      unfold rowBytes at hrest ⊢
      rw [List.zipWith_cons_cons, List.zip_cons_cons, List.zip_cons_cons, List.flatMap_cons,
        List.flatMap_cons, hrest]
      dsimp only
      rw [cellBytes_cutValue]

/-- A row is written to its own bytes and read back, whatever the buffer held before and
    whatever follows it. -/
theorem rowCodec_roundTrip {hdr : DbHeader} (hcount : hdr.columnCount.toNat ≤ 16)
    (hok : ∀ col ∈ hdr.inUse, ColumnOk col) (hsize : columnsSize hdr.inUse < 65536) :
    ∃ hdr', schemaComputeLayout hdr = some hdr' ∧ hdr'.rowSize.toNat = columnsSize hdr.inUse ∧
      ∀ values, values.length = hdr.inUse.length → ∃ row, row.length = hdr'.rowSize.toNat ∧
        (∀ buf, hdr'.rowSize.toNat ≤ buf.length →
          rowSerialize hdr' values buf = some (row ++ buf.drop hdr'.rowSize.toNat)) ∧
        (∀ rest, rowDeserialize hdr' (row ++ rest) = some (hdr.inUse.zipWith cutValue values)) ∧
        ∀ buf, hdr'.rowSize.toNat ≤ buf.length →
          rowSerialize hdr' (hdr.inUse.zipWith cutValue values) buf =
            some (row ++ buf.drop hdr'.rowSize.toNat) := by
  obtain ⟨hdr', hlayout, hinUse, hschema, -, -⟩ := schemaComputeLayout_spec hcount hok hsize
  have hrow : hdr'.rowSize.toNat = columnsSize hdr.inUse := by
    rw [hschema.rowSize, hinUse, columnsSize_layoutFrom]
  refine ⟨hdr', hlayout, hrow, fun values hlen => ?_⟩
  have hlen' : values.length = hdr'.inUse.length := by rw [hinUse, length_layoutFrom, hlen]
  have hcut : hdr.inUse.zipWith cutValue values = hdr'.inUse.zipWith cutValue values := by
    rw [hinUse, zipWith_cutValue_layoutFrom]
  refine ⟨rowBytes hdr'.inUse values, hschema.length_rowBytes hlen', ?_, ?_, ?_⟩
  · exact fun buf hbuf => rowSerialize_eq hschema hlen' hbuf
  · intro rest
    rw [hcut]
    exact rowDeserialize_rowBytes hschema hlen' rest
  · intro buf hbuf
    have hlen₂ : (hdr'.inUse.zipWith cutValue values).length = hdr'.inUse.length := by
      rw [List.length_zipWith, hlen', Nat.min_self]
    rw [hcut, rowSerialize_eq hschema hlen₂ hbuf, rowBytes_cutValue]

/-- A BIGINT, a VARCHAR(32) and an INT -/
def usersHeader : DbHeader :=
  { freshHeader 4096 with
    columns := (((freshHeader 4096).columns.set 0 ⟨Vector.replicate 32 0, 2, 8, 0, 1⟩).set 1
      ⟨Vector.replicate 32 0, 3, 32, 0, 0⟩).set 2 ⟨Vector.replicate 32 0, 1, 4, 0, 0⟩
    columnCount := 3 }

/-- The row of Alice, who is 25 -/
def alice : List RowValue :=
  [{ RowValue.zero with bigintVal := 1 },
    { RowValue.zero with strVal := ⟨[65, 108, 105, 99, 101], by decide, by decide⟩ },
    { RowValue.zero with intVal := 25 }]

theorem rowCodec_roundTrip_users : ∃ hdr' row, schemaComputeLayout usersHeader = some hdr' ∧
    row.length = hdr'.rowSize.toNat ∧ hdr'.rowSize.toNat = 44 ∧
    rowSerialize hdr' alice (List.replicate 50 7) =
      some (row ++ (List.replicate 50 7).drop hdr'.rowSize.toNat) ∧
    rowDeserialize hdr' (row ++ []) = some alice := by
  have hok : ∀ col ∈ usersHeader.inUse, ColumnOk col := by decide +kernel
  obtain ⟨hdr', hlayout, hrow, hvalues⟩ := rowCodec_roundTrip (by decide) hok (by decide +kernel)
  have hsize : hdr'.rowSize.toNat = 44 := hrow.trans (by decide +kernel)
  obtain ⟨row, hlen, hser, hdes, -⟩ := hvalues alice (by decide +kernel)
  have halice : usersHeader.inUse.zipWith cutValue alice = alice := by decide +kernel
  refine ⟨hdr', row, hlayout, hlen, hsize, hser _ ?_, ?_⟩
  · rw [hsize, List.length_replicate]
    omega
  · rw [hdes, halice]

end MiniDb
