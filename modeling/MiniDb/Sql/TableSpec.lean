import MiniDb.Storage
import MiniDb.Sql.Accepted
import MiniDb.Sql.Table

/-!
# The executor acts on a table

`TableAt db live t hp`: the rows `live`, each with its slot, are the rows of the heap and the
entries of the index.  Every function of the executor keeps this, does to the rows what
`Table.Step` says, and answers what it says.

## Key results

- `removeRow_spec`: the removal of a row from both structures
- `execute_spec`: what a statement does
-/

namespace MiniDb

open Bytes CText Lists Free

/-! ## Fields -/

/-- The fields that no tree and no heap operation changes -/
def Db.tableFields (db : Db) : PagerFields :=
  { db.fields with
    lastHeapPageId := 0
    header := { db.header with nextPageId := 0, freePageHead := 0, rootIndexPageId := 0 } }

section Fields

variable {db db' db'' : Db}

theorem tableFields_of_outside (h : db'.outside = db.outside) : db'.tableFields = db.tableFields :=
  congrArg (fun f => { f with lastHeapPageId := 0 }) h

theorem tableFields_of_heapOutside (h : db'.heapOutside = db.heapOutside) :
    db'.tableFields = db.tableFields :=
  congrArg (fun f => { f with header := { f.header with rootIndexPageId := 0 } }) h

/-- The fields of the table but for the two counters are the same. -/
structure SameTable (db db' : Db) : Prop where
  pageSize : db'.fields.pageSize = db.fields.pageSize
  columnCount : db'.header.columnCount = db.header.columnCount
  columns : db'.header.columns = db.header.columns
  rowSize : db'.header.rowSize = db.header.rowSize

theorem SameTable.refl (db : Db) : SameTable db db := ⟨rfl, rfl, rfl, rfl⟩

theorem SameTable.trans (h : SameTable db db') (h' : SameTable db' db'') : SameTable db db'' :=
  ⟨h'.pageSize.trans h.pageSize, h'.columnCount.trans h.columnCount, h'.columns.trans h.columns,
    h'.rowSize.trans h.rowSize⟩

theorem SameTable.of_tableFields (h : db'.tableFields = db.tableFields) : SameTable db db' where
  pageSize := congrArg (fun f => f.pageSize) h
  columnCount := congrArg (fun f => f.header.columnCount) h
  columns := congrArg (fun f => f.header.columns) h
  rowSize := congrArg (fun f => f.header.rowSize) h

theorem SameTable.setHeader (h : SameTable db db') (hdr : DbHeader)
    (hcount : hdr.columnCount = db'.header.columnCount) (hcols : hdr.columns = db'.header.columns)
    (hrow : hdr.rowSize = db'.header.rowSize) : SameTable db (db'.setHeader hdr) :=
  ⟨h.pageSize, hcount.trans h.columnCount, hcols.trans h.columns, hrow.trans h.rowSize⟩

theorem nextId_of_tableFields (h : db'.tableFields = db.tableFields) :
    db'.header.nextId = db.header.nextId := congrArg (fun f => f.header.nextId) h

theorem rowCount_of_tableFields (h : db'.tableFields = db.tableFields) :
    db'.header.rowCount = db.header.rowCount := congrArg (fun f => f.header.rowCount) h

theorem SameTable.inUse (h : SameTable db db') : db'.header.inUse = db.header.inUse := by
  unfold DbHeader.inUse
  rw [h.columns, h.columnCount]

theorem SameTable.schemaOk (h : SameTable db db') (hok : SchemaOk db.header) :
    SchemaOk db'.header := by
  constructor
  · rw [h.columnCount]
    exact hok.count
  · rw [h.inUse]
    exact hok.columns
  · rw [h.inUse]
    exact hok.laidOut
  · rw [h.rowSize, h.inUse]
    exact hok.rowSize

end Fields

/-! ## Rows in their slots -/

/-- The values fit their columns. -/
def RowFits (cols : List ColumnMeta) (vs : List RowValue) : Prop :=
  vs.length = cols.length ∧ cols.zipWith cutValue vs = vs

/-- The database stores the rows `live`, each in the slot it comes with, in the tree `t` and the
    heap `hp`. -/
structure TableAt (db : Db) (live : List (RowRef × List RowValue)) (t : Tree)
    (hp : List HeapPage) : Prop where
  schema : SchemaOk db.header
  cap : HoldsTwo db.fields.pageSize
  dims : HeapDims db.fields.pageSize db.header.rowSize
  storage : StorageInv db db.header.rowSize.toNat t hp
  heap : (liveRows hp).Perm (live.map fun x => (x.1, rowBytes db.header.inUse x.2))
  index : (t.entries.map fun e => (e.key, e.rowRef)).Perm (live.map fun x => (rowId x.2, x.1))
  fits : ∀ x ∈ live, RowFits db.header.inUse x.2
  count : db.header.rowCount.toNat = live.length

namespace TableAt

variable {db : Db} {live A B : List (RowRef × List RowValue)} {t : Tree} {hp : List HeapPage}
  {x : RowRef × List RowValue}

/-- Different rows have different ids. -/
theorem ids_nodup (h : TableAt db live t hp) : (live.map fun x => rowId x.2).Nodup := by
  have hkeys : (t.entries.map (·.key)).Nodup :=
    (List.pairwise_map.mpr h.storage.tree.keys_sorted).imp fun hab => UInt64.ne_of_lt hab
  have hperm := h.index.map Prod.fst
  rw [List.map_map, List.map_map] at hperm
  exact hperm.nodup_iff.mp hkeys

/-- The index leads from the id of a row to its slot. -/
theorem lookup_id (h : TableAt db live t hp) (hx : x ∈ live) :
    lookup t.entries (rowId x.2) = some x.1 := by
  have hmem : (rowId x.2, x.1) ∈ t.entries.map fun e => (e.key, e.rowRef) :=
    h.index.mem_iff.mpr (List.mem_map.mpr ⟨x, hx, rfl⟩)
  obtain ⟨e, he, heq⟩ := List.mem_map.mp hmem
  obtain ⟨hkey, href⟩ := Prod.mk.inj heq
  obtain ⟨es, es', hes⟩ := List.append_of_mem he
  have hsorted := h.storage.tree.keys_sorted
  rw [hes] at hsorted ⊢
  rw [lookup_append_cons hsorted, ← hkey, Function.update_self, href]

theorem lookup_none (h : TableAt db live t hp) {key : Key}
    (hkey : ∀ x ∈ live, rowId x.2 ≠ key) : lookup t.entries key = none := by
  rw [lookup_eq_none_iff]
  intro e he heq
  have hmem := h.index.mem_iff.mp (List.mem_map.mpr ⟨e, he, rfl⟩)
  obtain ⟨x, hx, hxe⟩ := List.mem_map.mp hmem
  exact hkey x hx ((Prod.mk.inj hxe).1.trans heq)

/-- The slot of a row holds its bytes. -/
theorem heapMap_row (h : TableAt db live t hp) (hx : x ∈ live) :
    heapMap hp x.1 = some (rowBytes db.header.inUse x.2) :=
  h.storage.heap.mem_liveRows.mp (h.heap.mem_iff.mpr (List.mem_map.mpr ⟨x, hx, rfl⟩))

/-- Reading the bytes of a row gives its values. -/
theorem deserialize (h : TableAt db live t hp) (hx : x ∈ live) :
    rowDeserialize db.header (rowBytes db.header.inUse x.2) = some x.2 := by
  obtain ⟨hlen, hcut⟩ := h.fits x hx
  have hread := rowDeserialize_rowBytes h.schema hlen []
  rw [List.append_nil, hcut] at hread
  exact hread

/-- The rows as the scan meets them -/
theorem scanned (h : TableAt db live t hp) : ∃ met : List (RowRef × List RowValue),
    met.Perm live ∧ liveRows hp = met.map fun x => (x.1, rowBytes db.header.inUse x.2) := by
  obtain ⟨met, hperm, hmap⟩ := exists_perm_map h.heap.symm
  exact ⟨met, hperm, hmap.symm⟩

/-- What the rows do not depend on may change. -/
theorem congr {db' : Db} {t' : Tree} {hp' : List HeapPage} (h : TableAt db live t hp)
    (hsame : SameTable db db') (hinv : StorageInv db' db'.header.rowSize.toNat t' hp')
    {live' : List (RowRef × List RowValue)}
    (hheap : (liveRows hp').Perm (live'.map fun x => (x.1, rowBytes db.header.inUse x.2)))
    (hindex : (t'.entries.map fun e => (e.key, e.rowRef)).Perm
      (live'.map fun x => (rowId x.2, x.1)))
    (hfits : ∀ x ∈ live', RowFits db.header.inUse x.2)
    (hcount : db'.header.rowCount.toNat = live'.length) : TableAt db' live' t' hp' where
  schema := hsame.schemaOk h.schema
  cap := by
    rw [hsame.pageSize]
    exact h.cap
  dims := by
    rw [hsame.pageSize, hsame.rowSize]
    exact h.dims
  storage := hinv
  heap := by
    rw [hsame.inUse]
    exact hheap
  index := hindex
  fits := by
    rw [hsame.inUse]
    exact hfits
  count := hcount

end TableAt

/-! ## Assumptions -/

/-- Before a row is removed every internal node has a separator. -/
def separatedAtRemoval : PagerOp → Db → Prop
  | .note (.removeRow _), db => Separated db
  | _, _ => True

/-- Like `wpDb`, for the runs in which every internal node has a separator before each removal -/
def wpSep {α : Type} (p : Routine α) (db : Db) (Q : α → Db → Prop)
    (tol : Fault → Prop := (· = Fault.idsExhausted)) : Prop :=
  Free.wpUnder Db.step separatedAtRemoval opOk tol p db Q

section Rules

variable {α β : Type} {db : Db} {tol : Fault → Prop}

theorem wpSep_mono {p : Routine α} {Q Q' : α → Db → Prop} (h : wpSep p db Q tol)
    (hQ : ∀ a db', Q a db' → Q' a db') : wpSep p db Q' tol := wpUnder_mono h hQ

theorem wpSep_mono_tol {tol' : Fault → Prop} {p : Routine α} {Q : α → Db → Prop}
    (h : wpSep p db Q tol) (htol : ∀ e, tol e → tol' e) : wpSep p db Q tol' :=
  wpUnder_mono_tol h htol

theorem wpSep_bind (p : Routine α) (f : α → Routine β) (Q : β → Db → Prop) :
    wpSep (p >>= f) db Q tol ↔ wpSep p db (fun a db' => wpSep (f a) db' Q tol) tol :=
  wpUnder_bind p f db Q

theorem wpSep_of_wpDb {p : Routine α} {Q : α → Db → Prop} (h : wpDb p db Q tol) :
    wpSep p db Q tol := wpUnder_of_wp h

/-- A first part that removes nothing -/
theorem wpSep_bind_of_wpDb {p : Routine α} {f : α → Routine β} {Q : β → Db → Prop}
    (h : wpDb p db (fun a db' => wpSep (f a) db' Q tol) tol) : wpSep (p >>= f) db Q tol :=
  (wpSep_bind p f Q).mpr (wpSep_of_wpDb h)

theorem wpSep_removal {key : Key} {Q : Unit → Db → Prop} (h : Separated db → Q () db) :
    wpSep (note (.removeRow key)) db Q tol := fun hsep => ⟨trivial, h hsep⟩

/-- A run that meets the assumption -/
theorem wpDb_of_wpSep {p : Routine α} {Q : α → Db → Prop}
    (hsep : ∀ e ∈ db.events p, ∀ key, e.1 = .removeRow key → Separated e.2)
    (h : wpSep p db Q tol) : wpDb p db Q tol := by
  let ok : Event × Db → Prop := fun e => ∀ key, e.1 = .removeRow key → Separated e.2
  refine wp_of_wpUnder (S := PagerSig) _ (fun o db' hnone => ?_) (fun o e db' ho hok => ?_)
    (show ∀ e ∈ db.events p, ok e from hsep) h
  · cases o <;> trivial
  · cases o with
    | note e' =>
      cases e' <;> first | trivial | exact hok _ (Option.some.inj ho).symm
    | _ => contradiction

end Rules

/-- The tree does not see what happens in the heap. -/
theorem Separated.heapStep {db db' : Db} {rs : Nat} {t : Tree} {hp hp' : List HeapPage}
    (hsep : Separated db) (h : StorageInv db rs t hp) (hstep : HeapStep db db' rs hp' t.pids) :
    Separated db' := by
  intro pid hreach
  have hmem := (h.heapStep hstep).tree.toTreeShape.treeReach_iff.mp hreach
  rw [hstep.frame pid hmem]
  exact hsep pid (h.tree.toTreeShape.treeReach_iff.mpr hmem)

/-! ## Removing a row -/

section Remove

variable {db : Db} {A B : List (RowRef × List RowValue)} {t : Tree} {hp : List HeapPage}
  {x : RowRef × List RowValue}

/-- The removal of a row from the heap and the index does everything right. -/
theorem removeRow_spec (h : TableAt db (A ++ x :: B) t hp) :
    wpSep (removeRow (rowId x.2) x.1) db fun _ db' =>
      SameTable db db' ∧ db'.header.nextId = db.header.nextId ∧
        ∃ t' hp', TableAt db' (A ++ B) t' hp' := by
  have hx : x ∈ A ++ x :: B := by simp
  have hrow := h.heapMap_row hx
  rw [removeRow, wpSep_bind]
  apply wpSep_removal
  intro hsep
  apply wpSep_of_wpDb
  simp only [wpDb_bind]
  refine wpDb_mono (heapDelete_spec h.storage.heap (InHeap.of_row hrow)) ?_
  -- the slot is live, so the heap does free it
  rintro rc db₁ (⟨hnone, -, -⟩ | ⟨-, rfl, hp', hheap, hmap, -, -⟩)
  · exact absurd (hrow.symm.trans hnone) (by simp)
  have hinv₁ := h.storage.heapStep hheap
  have hsame₁ := SameTable.of_tableFields (tableFields_of_heapOutside hheap.outside)
  have hcap₁ : HoldsTwo db₁.fields.pageSize := by
    rw [hsame₁.pageSize]
    exact h.cap
  have hsafe := (hsep.heapStep h.storage hheap).deleteSafe hinv₁.tree.toTreeShape (rowId x.2)
  refine (wpDb_note _ _).mpr ⟨rfl, wpDb_mono (bptreeDelete_spec hcap₁ hinv₁.tree _ hsafe) ?_⟩
  have hlookup := h.lookup_id hx
  -- the id is in the index, so the tree does remove it
  rintro rc db₂ (⟨hnone, -, -⟩ | ⟨-, t', es, e, es', htree, hkey, hes, hes'⟩)
  · rw [lookup_eq_none_iff.mpr hnone] at hlookup
    contradiction
  have hinv₂ := hinv₁.treeStep htree
  have hfields : db₂.tableFields = db.tableFields :=
    (tableFields_of_outside htree.outside).trans (tableFields_of_heapOutside hheap.outside)
  have hsame := SameTable.of_tableFields hfields
  have hcount := h.count
  rw [List.length_append, List.length_cons] at hcount
  simp only [wpDb_getHeader, wpDb_note, wpDb_modifyHeader]
  rw [rowCount_of_tableFields hfields]
  have hsame' := hsame.setHeader { db₂.header with rowCount := db.header.rowCount - 1 } rfl rfl rfl
  have hnext : db₂.header.nextId = db.header.nextId := nextId_of_tableFields hfields
  refine ⟨fun hzero => ?_, hsame', hnext, t', hp', ?_⟩
  · -- there is a row to count
    rw [hzero, UInt64.toNat_zero] at hcount
    omega
  refine h.congr hsame' ?_ ?_ ?_ ?_ ?_
  · show StorageInv (db₂.setHeader _) db₂.header.rowSize.toNat t' hp'
    rw [hsame.rowSize]
    exact hinv₂.setHeader _ rfl rfl rfl rfl
  · -- the slot of the row is free, the others are as they were
    have hback : heapMap hp =
        Function.update (heapMap hp') x.1 (some (rowBytes db.header.inUse x.2)) := by
      rw [hmap, Function.update_idem, ← hrow, Function.update_eq_self]
    have hfree : heapMap hp' x.1 = none := by rw [hmap, Function.update_self]
    have hperm := hheap.shape.liveRows_perm h.storage.heap hfree hback
    have hlive := hperm.symm.trans h.heap
    rw [List.map_append, List.map_cons] at hlive
    rw [List.map_append]
    exact (hlive.trans List.perm_middle).cons_inv
  · -- the entry with the id is the entry of the row
    have hsorted := h.storage.tree.keys_sorted
    rw [hes] at hsorted hlookup
    rw [lookup_append_cons hsorted, ← hkey, Function.update_self] at hlookup
    have hindex := h.index
    rw [hes, List.map_append, List.map_cons, List.map_append, List.map_cons, hkey,
      Option.some.inj hlookup] at hindex
    rw [hes', List.map_append, List.map_append]
    exact (List.perm_middle.symm.trans (hindex.trans List.perm_middle)).cons_inv
  · intro y hy
    rcases List.mem_append.mp hy with hy | hy
    · exact h.fits y (List.mem_append_left _ hy)
    · exact h.fits y (List.mem_append_right _ (List.mem_cons_of_mem _ hy))
  · show (db.header.rowCount - 1).toNat = (A ++ B).length
    rw [List.length_append]
    have hone : (1 : UInt64).toNat = 1 := rfl
    rw [UInt64.toNat_sub_of_le _ _ (by rw [UInt64.le_iff_toNat_le, hone]; omega), hone]
    omega

end Remove

/-! ## Adding a row -/

/-- There are fewer slots than 32 bits of pages with 16 bits of slots. -/
theorem HeapShape.length_liveRows_le {db : Db} {rs : Nat} {hp : List HeapPage}
    {others : List PageId} (h : HeapShape db rs hp others) : (liveRows hp).length < 2 ^ 48 := by
  have hslots : ∀ (pid : PageId) (rows : List (Option (List UInt8))) (i : Nat),
      (liveFrom pid i rows).length ≤ rows.length := by
    intro pid rows
    induction rows with
    | nil => exact fun _ => Nat.le_refl _
    | cons r rows ih =>
      intro i
      cases r with
      | none => exact Nat.le_succ_of_le (ih (i + 1))
      | some row => exact Nat.succ_le_succ (ih (i + 1))
  have hpage : ∀ n ∈ hp.map fun p => (liveFrom p.pid 0 p.rows).length, n ≤ 65536 := by
    intro n hn
    obtain ⟨p, hmem, rfl⟩ := List.mem_map.mp hn
    have hsmall := h.rows_small hmem
    exact (hslots p.pid p.rows 0).trans (by omega)
  have hsum := List.sum_le_card_nsmul _ 65536 hpage
  have hlt := h.length_lt
  rw [List.length_map, smul_eq_mul] at hsum
  rw [liveRows, List.length_flatMap]
  unfold maxPages at hlt
  omega

section Lib

variable (lib : CLib)

section Insert

variable {db : Db} {live : List (RowRef × List RowValue)} {t : Tree} {hp : List HeapPage}

/-- Values fit the columns they have been cut to. -/
theorem rowFits_cut {cols : List ColumnMeta} {vs : List RowValue}
    (h : vs.length = cols.length) : RowFits cols (cols.zipWith cutValue vs) := by
  induction cols generalizing vs with
  | nil => exact ⟨rfl, rfl⟩
  | cons col cols ih =>
    cases vs with
    | nil => exact nomatch h
    | cons v vs =>
      obtain ⟨hlen, hcut⟩ := ih (Nat.succ.inj h)
      refine ⟨congrArg Nat.succ hlen, ?_⟩
      rw [List.zipWith_cons_cons, List.zipWith_cons_cons, hcut, cutValue_cutValue]

/-- An INSERT puts the row into the heap and its slot into the index. -/
theorem execInsert_spec (h : TableAt db live t hp)
    (hid : ∃ cols, db.header.inUse = idColumn :: cols)
    (hnew : ∀ x ∈ live, rowId x.2 ≠ db.header.nextId) (stmt : Statement) :
    wpDb (execInsert lib stmt) db fun r db' =>
      r = ⟨0, .rowInserted db.header.nextId, []⟩ ∧ SameTable db db' ∧
        db'.header.nextId = db.header.nextId + 1 ∧ ∃ ref t' hp', TableAt db'
          (live ++ [(ref, db.header.inUse.zipWith cutValue (rowValues lib db.header stmt))])
          t' hp' := by
  obtain ⟨cols, hcols⟩ := hid
  have hne : db.header.inUse ≠ [] := by
    rw [hcols]
    exact List.cons_ne_nil _ _
  have hcount : db.header.columnCount ≠ 0 := by
    intro hzero
    apply hne
    rw [DbHeader.inUse, hzero]
    rfl
  have hlen := length_rowValues lib hne stmt
  -- the row is written into a buffer of zeros
  have hser := rowSerialize_eq h.schema hlen (by rw [List.length_replicate (a := (0 : UInt8))])
  rw [List.drop_eq_nil_of_le (by rw [List.length_replicate]), List.append_nil] at hser
  simp only [execInsert, wpDb_bind, wpDb_getHeader, wpDb_ite, if_neg hcount,
    wpDb_inBounds_some hser]
  have hrow := (h.schema.length_rowBytes hlen)
  refine wpDb_mono (heapInsert_spec h.storage.heap h.dims hrow) ?_
  rintro ref db₁ ⟨hp', ⟨hheap, hvacant, hmap, -, -⟩, -⟩
  have hinv₁ := h.storage.heapStep hheap
  have hfields₁ := tableFields_of_heapOutside hheap.outside
  have hcap₁ : HoldsTwo db₁.fields.pageSize := by
    rw [(SameTable.of_tableFields hfields₁).pageSize]
    exact h.cap
  rw [nextId_of_tableFields hfields₁]
  refine wpDb_mono (bptreeInsert_spec hcap₁ hinv₁.tree db.header.nextId ref) ?_
  rintro rc db₂ (⟨hdup, -, -⟩ | ⟨-, rfl, t', es, es', htree, hes, hes'⟩)
  · -- the id is new
    obtain ⟨e, he, hkey⟩ := hdup
    have hnone := h.lookup_none hnew
    exact absurd hkey (lookup_eq_none_iff.mp hnone e he)
  have hinv₂ := hinv₁.treeStep htree
  have hfields : db₂.tableFields = db.tableFields :=
    (tableFields_of_outside htree.outside).trans hfields₁
  have hsame := SameTable.of_tableFields hfields
  have hnext : db₂.header.nextId = db.header.nextId := nextId_of_tableFields hfields
  have hrows : db₂.header.rowCount = db.header.rowCount := rowCount_of_tableFields hfields
  -- the row is new to the heap, in a vacant slot
  have hperm := h.storage.heap.liveRows_perm hheap.shape hvacant hmap
  simp only [ne_eq, not_true_eq_false, if_false, wpDb_modifyHeader, wpDb_setHeaderDirty,
    Db.setHeader_header, wpDb_pure, hnext, hrows]
  have hsame' := hsame.setHeader { db₂.header with
    nextId := db.header.nextId + 1, rowCount := db.header.rowCount + 1 } rfl rfl rfl
  -- the first cell is the id under which the index has the slot
  have hid : rowId (db.header.inUse.zipWith cutValue (rowValues lib db.header stmt)) =
      db.header.nextId := by
    rw [hcols, rowValues, List.zipWith_cons_cons]
    exact db.header.nextId.toUInt64_toInt64
  refine ⟨by rw [UInt64.add_sub_cancel], hsame', trivial, ref, t', hp',
    h.congr hsame' ?_ ?_ ?_ ?_ ?_⟩
  · show StorageInv (db₂.setHeader _) db₂.header.rowSize.toNat t' hp'
    rw [hsame.rowSize]
    exact hinv₂.setHeader _ rfl rfl rfl rfl
  · rw [List.map_append, List.map_cons, List.map_nil, rowBytes_cutValue]
    exact hperm.trans ((h.heap.cons _).trans (List.perm_append_singleton _ _).symm)
  · rw [hes', List.map_append, List.map_append, List.map_cons, List.map_cons, List.map_nil, hid]
    have hindex := h.index
    rw [hes, List.map_append] at hindex
    exact List.perm_middle.trans ((hindex.cons _).trans (List.perm_append_singleton _ _).symm)
  · intro x hx
    rcases List.mem_append.mp hx with hx | hx
    · exact h.fits x hx
    · rw [List.mem_singleton.mp hx]
      exact rowFits_cut hlen
  · -- the counter is far from its bound
    have hlt := h.storage.heap.length_liveRows_le
    rw [h.heap.length_eq, List.length_map, ← h.count] at hlt
    show (db.header.rowCount + 1).toNat = _
    rw [UInt64.toNat_add, List.length_append, List.length_singleton, ← h.count]
    apply Nat.mod_eq_of_lt
    show db.header.rowCount.toNat + 1 < 2 ^ 64
    omega

end Insert

/-! ## The rows of the table -/

section Rows

theorem cutValue_zero (col : ColumnMeta) : cutValue col RowValue.zero = RowValue.zero := by
  have hempty : cutString col RowValue.zero.strVal = RowValue.zero.strVal :=
    CString.ext (List.take_nil ..)
  unfold cutValue
  cases ColumnType.ofCode? col.type with
  | none => rfl
  | some type =>
    cases type with
    | int => rfl
    | bigint => rfl
    | varchar =>
      dsimp only
      rw [hempty]

/-- A column keeps of the text it is given what the table says. -/
theorem cutValue_insertValue (col : ColumnMeta) (text : CString 256) :
    cutValue col (insertValue lib col text) = Table.valueFrom lib col (some text) := by
  unfold cutValue insertValue Table.valueFrom
  cases ColumnType.ofCode? col.type with
  | none => rfl
  | some type =>
    cases type with
    | int => rfl
    | bigint => rfl
    | varchar =>
      -- the text is shorter than the 255 bytes that the executor copies
      have hcut : cutString col (text.take 255) = text.take (col.size.toNat - 1) := by
        apply CString.ext
        show ((text.bytes.take 255).take _) = text.bytes.take _
        rw [List.take_of_length_le (Nat.le_of_lt_succ text.short)]
      show ({ RowValue.zero with strVal := cutString col (text.take 255) } : RowValue) = _
      rw [hcut]

theorem zipWith_insertValues (cols : List ColumnMeta) (texts : List (CString 256)) :
    cols.zipWith cutValue (insertValues lib cols texts) =
      cols.mapIdx fun i col => Table.valueFrom lib col texts[i]? := by
  induction cols generalizing texts with
  | nil => rfl
  | cons col cols ih =>
    cases texts with
    | nil =>
      have hnone : Table.valueFrom lib col none = RowValue.zero := by
        unfold Table.valueFrom
        cases ColumnType.ofCode? col.type with
        | none => rfl
        | some type => cases type <;> rfl
      rw [insertValues, List.zipWith_cons_cons, List.mapIdx_cons, cutValue_zero, ih]
      simp [hnone]
    | cons text texts =>
      rw [insertValues, List.zipWith_cons_cons, List.mapIdx_cons, cutValue_insertValue, ih]
      simp

/-- The row that `exec_insert` stores is the one the table adds. -/
theorem Table.newRow_eq {tab : Table} {cols : List ColumnMeta} (hcols : tab.cols = idColumn :: cols)
    (stmt : Statement) : tab.cols.zipWith cutValue
      ({ RowValue.zero with bigintVal := tab.nextId.toInt64 } ::
        insertValues lib tab.cols.tail stmt.insertValues) = tab.newRow lib stmt := by
  rw [Table.newRow, hcols, List.zipWith_cons_cons, List.tail_cons, zipWith_insertValues]
  rfl

/-- The cells that `print_row` prints are those the table shows. -/
theorem map_printValue (cols : List ColumnMeta) (vs : List RowValue) :
    (cols.zip vs).map (fun (col, v) => printValue col v) = printedRow cols vs := by
  have hcell : ∀ (col : ColumnMeta) (v : RowValue), printValue col v =
      (ColumnType.ofCode? col.type).elim (.varchar []) (ColumnType.shown v) := by
    intro col v
    unfold printValue
    cases ColumnType.ofCode? col.type with
    | none => rfl
    | some type => cases type <;> rfl
  rw [List.map_zip_eq_zipWith, printedRow]
  congr 1
  funext col v
  exact hcell col v

theorem cells?_printRow (hdr : DbHeader) (vs : List RowValue) :
    (printRow hdr vs).cells? = some (printedRow hdr.inUse vs) :=
  congrArg some (map_printValue hdr.inUse vs)

end Rows

/-! ## Scans -/

section Scan

variable {hdr : DbHeader} {met : List (RowRef × List RowValue)} {stmt : Statement}
  {sel : List RowValue → Bool}

theorem foldRows_cons {γ : Type} {cb : List UInt8 → RowRef → γ → Bool × γ} {ref : RowRef}
    {row : List UInt8} {l : List (RowRef × List UInt8)} {ctx ctx' : γ}
    (h : cb row ref ctx = (true, ctx')) : foldRows cb ((ref, row) :: l) ctx = foldRows cb l ctx' := by
  rw [foldRows, h]
  rfl

/-- The callback of SELECT prints the rows that match. -/
theorem foldRows_select (hsel : ∀ vs, matchPredicate lib hdr vs stmt = sel vs)
    (hread : ∀ x ∈ met, rowDeserialize hdr (rowBytes hdr.inUse x.2) = some x.2) (sc : ScanCtx) :
    ∃ sc', foldRows (selectScanCb lib hdr stmt) (met.map fun x => (x.1, rowBytes hdr.inUse x.2))
        (some sc) = (true, some sc') ∧
      sc'.output.filterMap Line.cells? = sc.output.filterMap Line.cells? ++
        ((met.map Prod.snd).filter sel).map
          (printedRow hdr.inUse) := by
  induction met generalizing sc with
  | nil => exact ⟨sc, rfl, (List.append_nil _).symm⟩
  | cons x met ih =>
    have hrest := ih fun y hy => hread y (List.mem_cons_of_mem _ hy)
    have hx := hread x (List.mem_cons_self ..)
    rw [List.map_cons, List.map_cons]
    by_cases hmatch : sel x.2 = true
    · -- the header line in front of the first row holds no cells
      have hhead : ∀ out : List Line, (if sc.count = 0 then out ++ [printHeader hdr] else out).filterMap
          Line.cells? = out.filterMap Line.cells? := by
        intro out
        split
        · rw [List.filterMap_append]
          exact List.append_nil _
        · rfl
      obtain ⟨sc', hfold, hout⟩ := hrest ⟨sc.count + 1,
        (if sc.count = 0 then sc.output ++ [printHeader hdr] else sc.output) ++ [printRow hdr x.2]⟩
      have hcb : selectScanCb lib hdr stmt (rowBytes hdr.inUse x.2) x.1 (some sc) =
          (true, some ⟨sc.count + 1, (if sc.count = 0 then sc.output ++ [printHeader hdr]
            else sc.output) ++ [printRow hdr x.2]⟩) := by
        simp only [selectScanCb, hx, hsel, hmatch, if_true]
      rw [foldRows_cons hcb, List.filter_cons_of_pos hmatch, List.map_cons]
      refine ⟨sc', hfold, ?_⟩
      rw [hout, List.filterMap_append, hhead, List.append_assoc,
        List.filterMap_cons_some (cells?_printRow hdr x.2)]
      rfl
    · obtain ⟨sc', hfold, hout⟩ := hrest sc
      have hcb : selectScanCb lib hdr stmt (rowBytes hdr.inUse x.2) x.1 (some sc) =
          (true, some sc) := by
        simp only [selectScanCb, hx, hsel, if_neg hmatch]
      rw [foldRows_cons hcb, List.filter_cons_of_neg hmatch]
      exact ⟨sc', hfold, hout⟩

/-- The array of ids has room for what it holds. -/
structure DeleteCtx.Ok (dc : DeleteCtx) : Prop where
  len : dc.idsLen.toNat = dc.ids.length
  cap : dc.idsCap.toNat = 0 ∨ ∃ j ≤ 25, dc.idsCap.toNat = 64 * 2 ^ j
  le : dc.ids.length ≤ dc.idsCap.toNat

/-- Up to `2 ^ 31` ids the capacity does not wrap. -/
theorem pushId_spec {dc : DeleteCtx} (h : dc.Ok) (hroom : dc.ids.length < 2 ^ 31) (id : UInt64) :
    ∃ dc', pushId dc id = some dc' ∧ dc'.ids = dc.ids ++ [id] ∧ dc'.Ok := by
  obtain ⟨hlen, hcap, hle⟩ := h
  have hsucc : (dc.idsLen + 1).toNat = (dc.ids ++ [id]).length := by
    rw [UInt32.toNat_add, hlen, List.length_append, List.length_singleton]
    apply Nat.mod_eq_of_lt
    show dc.ids.length + 1 < 2 ^ 32
    omega
  have hgrown : ∃ cap : UInt32, (if dc.idsCap ≤ dc.idsLen then
      if dc.idsCap ≠ 0 then dc.idsCap * 2 else 64 else dc.idsCap) = cap ∧
      (∃ j ≤ 25, cap.toNat = 64 * 2 ^ j) ∧ dc.ids.length < cap.toNat := by
    by_cases hfull : dc.idsCap ≤ dc.idsLen
    · rw [if_pos hfull]
      rw [UInt32.le_iff_toNat_le, hlen] at hfull
      by_cases hzero : dc.idsCap = 0
      · rw [if_neg (not_not_intro hzero)]
        rw [hzero, UInt32.toNat_zero] at hle
        exact ⟨64, rfl, ⟨0, by omega, rfl⟩, Nat.lt_of_le_of_lt hle (by decide)⟩
      · rw [if_pos hzero]
        obtain ⟨j, hj, hcapj⟩ := hcap.resolve_left fun h0 => hzero (UInt32.toNat_inj.mp h0)
        -- a full array below 2 ^ 31 has not reached the last power of two
        have hlt : j < 25 := by
          by_contra hge
          have h25 : j = 25 := by omega
          rw [h25] at hcapj
          omega
        have htwo : (dc.idsCap * 2).toNat = 64 * 2 ^ (j + 1) := by
          have hpow : 2 ^ (j + 1) ≤ 2 ^ 25 := Nat.pow_le_pow_right (by omega) hlt
          have hsucc : 64 * 2 ^ (j + 1) = 64 * 2 ^ j * 2 := by rw [Nat.pow_succ, Nat.mul_assoc]
          rw [UInt32.toNat_mul, hcapj, hsucc]
          apply Nat.mod_eq_of_lt
          show 64 * 2 ^ j * 2 < 2 ^ 32
          omega
        refine ⟨dc.idsCap * 2, rfl, ⟨j + 1, hlt, htwo⟩, ?_⟩
        have hpos := Nat.two_pow_pos j
        rw [htwo, Nat.pow_succ]
        omega
    · rw [if_neg hfull]
      rw [UInt32.le_iff_toNat_le, hlen] at hfull
      refine ⟨dc.idsCap, rfl, hcap.resolve_left fun h0 => ?_, by omega⟩
      omega
  obtain ⟨cap, hcap', hpow, hlt⟩ := hgrown
  have hfits : dc.idsLen < cap := by
    rw [UInt32.lt_iff_toNat_lt, hlen]
    exact hlt
  refine ⟨⟨dc.ids ++ [id], cap, dc.idsLen + 1⟩, ?_, rfl, ⟨hsucc, Or.inr hpow, ?_⟩⟩
  · unfold pushId
    rw [hcap', if_pos hfits]
  · rw [List.length_append, List.length_singleton]
    exact hlt

/-- The callback of DELETE keeps the ids of the rows that match. -/
theorem foldRows_delete (hsel : ∀ vs, matchPredicate lib hdr vs stmt = sel vs)
    (hread : ∀ x ∈ met, rowDeserialize hdr (rowBytes hdr.inUse x.2) = some x.2) {dc : DeleteCtx}
    (hdc : dc.Ok) (hroom : dc.ids.length +
      ((met.map Prod.snd).filter sel).length ≤ 2 ^ 31) :
    ∃ dc', foldRows (deleteScanCb lib hdr stmt) (met.map fun x => (x.1, rowBytes hdr.inUse x.2))
        (some dc) = (true, some dc') ∧
      dc'.ids = dc.ids ++
        ((met.map Prod.snd).filter sel).map rowId := by
  induction met generalizing dc with
  | nil => exact ⟨dc, rfl, (List.append_nil _).symm⟩
  | cons x met ih =>
    have hmet : ∀ y ∈ met, rowDeserialize hdr (rowBytes hdr.inUse y.2) = some y.2 := fun y hy =>
      hread y (List.mem_cons_of_mem _ hy)
    have hx := hread x (List.mem_cons_self ..)
    rw [List.map_cons] at hroom
    rw [List.map_cons, List.map_cons]
    by_cases hmatch : sel x.2 = true
    · rw [List.filter_cons_of_pos hmatch, List.length_cons] at hroom
      obtain ⟨dc₁, hpush, hids, hok⟩ := pushId_spec hdc (by omega) (rowId x.2)
      obtain ⟨dc', hfold, hout⟩ := ih hmet hok (by
        rw [hids, List.length_append, List.length_singleton]
        omega)
      have hpush' : pushId dc (x.2.headD RowValue.zero).bigintVal.toUInt64 = some dc₁ := hpush
      have hcb : deleteScanCb lib hdr stmt (rowBytes hdr.inUse x.2) x.1 (some dc) =
          (true, some dc₁) := by
        simp only [deleteScanCb, hx, hsel, hmatch, if_true, hpush']
      rw [foldRows_cons hcb, List.filter_cons_of_pos hmatch, List.map_cons]
      refine ⟨dc', hfold, ?_⟩
      rw [hout, hids, List.append_assoc, List.singleton_append]
    · rw [List.filter_cons_of_neg hmatch] at hroom
      obtain ⟨dc', hfold, hout⟩ := ih hmet hdc hroom
      have hcb : deleteScanCb lib hdr stmt (rowBytes hdr.inUse x.2) x.1 (some dc) =
          (true, some dc) := by
        simp only [deleteScanCb, hx, hsel, if_neg hmatch]
      rw [foldRows_cons hcb, List.filter_cons_of_neg hmatch]
      exact ⟨dc', hfold, hout⟩

/-- The next id finds no room: the capacity wraps to 0. -/
theorem pushId_full {dc : DeleteCtx} (h : dc.Ok) (hfull : dc.ids.length = 2 ^ 31) (id : UInt64) :
    pushId dc id = none := by
  obtain ⟨hlen, hcap, hle⟩ := h
  have hcap31 : dc.idsCap.toNat = 2 ^ 31 := by
    obtain ⟨j, hj, hcapj⟩ := hcap.resolve_left fun h0 => by omega
    have hpow : 2 ^ j ≤ 2 ^ 25 := Nat.pow_le_pow_right (by omega) hj
    omega
  have hgrow : dc.idsCap ≤ dc.idsLen := by
    rw [UInt32.le_iff_toNat_le, hlen, hcap31, hfull]
  have hzero : dc.idsCap ≠ 0 := by
    intro h0
    rw [h0, UInt32.toNat_zero] at hcap31
    omega
  have hwrap : dc.idsCap * 2 = 0 := by
    rw [← UInt32.toNat_inj, UInt32.toNat_mul, hcap31]
    rfl
  have hno : ¬ dc.idsLen < 0 := by
    rw [UInt32.lt_iff_toNat_lt, UInt32.toNat_zero]
    omega
  unfold pushId
  rw [if_pos hgrow, if_pos hzero, hwrap, if_neg hno]

/-- More rows than that are too many for the callback of DELETE. -/
theorem foldRows_delete_full (hsel : ∀ vs, matchPredicate lib hdr vs stmt = sel vs)
    (hread : ∀ x ∈ met, rowDeserialize hdr (rowBytes hdr.inUse x.2) = some x.2) {dc : DeleteCtx}
    (hdc : dc.Ok) (hle : dc.ids.length ≤ 2 ^ 31)
    (hfull : 2 ^ 31 < dc.ids.length + ((met.map Prod.snd).filter sel).length) :
    (foldRows (deleteScanCb lib hdr stmt) (met.map fun x => (x.1, rowBytes hdr.inUse x.2))
      (some dc)).2 = none := by
  induction met generalizing dc with
  | nil =>
    rw [List.map_nil, List.filter_nil, List.length_nil] at hfull
    omega
  | cons x met ih =>
    have hmet : ∀ y ∈ met, rowDeserialize hdr (rowBytes hdr.inUse y.2) = some y.2 := fun y hy =>
      hread y (List.mem_cons_of_mem _ hy)
    have hx := hread x (List.mem_cons_self ..)
    rw [List.map_cons] at hfull
    rw [List.map_cons]
    by_cases hmatch : sel x.2 = true
    · rw [List.filter_cons_of_pos hmatch, List.length_cons] at hfull
      by_cases hroom : dc.ids.length < 2 ^ 31
      · obtain ⟨dc₁, hpush, hids, hok⟩ := pushId_spec hdc hroom (rowId x.2)
        have hpush' : pushId dc (x.2.headD RowValue.zero).bigintVal.toUInt64 = some dc₁ := hpush
        have hcb : deleteScanCb lib hdr stmt (rowBytes hdr.inUse x.2) x.1 (some dc) =
            (true, some dc₁) := by
          simp only [deleteScanCb, hx, hsel, hmatch, if_true, hpush']
        have hlen : dc₁.ids.length = dc.ids.length + 1 := by
          rw [hids, List.length_append, List.length_singleton]
        rw [foldRows_cons hcb]
        exact ih hmet hok (by omega) (by omega)
      · have hpush := pushId_full hdc (by omega) (rowId x.2)
        have hpush' : pushId dc (x.2.headD RowValue.zero).bigintVal.toUInt64 = none := hpush
        have hcb : deleteScanCb lib hdr stmt (rowBytes hdr.inUse x.2) x.1 (some dc) =
            (false, none) := by
          simp only [deleteScanCb, hx, hsel, hmatch, if_true, hpush']
        rw [foldRows, hcb]
        rfl
    · rw [List.filter_cons_of_neg hmatch] at hfull
      have hcb : deleteScanCb lib hdr stmt (rowBytes hdr.inUse x.2) x.1 (some dc) =
          (true, some dc) := by
        simp only [deleteScanCb, hx, hsel, if_neg hmatch]
      rw [foldRows_cons hcb]
      exact ih hmet hdc hle hfull

end Scan

/-! ## SELECT and DELETE -/

section Statements

variable {db : Db} {live A B : List (RowRef × List RowValue)} {t : Tree} {hp : List HeapPage}
  {x : RowRef × List RowValue} {stmt : Statement}

/-- The other rows have other ids. -/
theorem TableAt.others_ne (h : TableAt db (A ++ x :: B) t hp) :
    ∀ y ∈ A ++ B, rowId y.2 ≠ rowId x.2 := by
  have hmiddle : (A ++ x :: B).Perm (x :: (A ++ B)) := List.perm_middle
  have hnodup := (hmiddle.map fun x => rowId x.2).nodup_iff.mp h.ids_nodup
  rw [List.map_cons, List.nodup_cons] at hnodup
  exact fun y hy heq => hnodup.1 (heq ▸ List.mem_map_of_mem hy)

/-- A row is the only one with its id. -/
theorem TableAt.filter_id (h : TableAt db (A ++ x :: B) t hp) :
    ((A ++ x :: B).filter fun y => rowId y.2 = rowId x.2) = [x] := by
  have hne := h.others_ne
  have hnil : ∀ C : List (RowRef × List RowValue), (∀ y ∈ C, rowId y.2 ≠ rowId x.2) →
      (C.filter fun y => rowId y.2 = rowId x.2) = [] := by
    intro C hC
    rw [List.filter_eq_nil_iff]
    intro y hy
    simpa using hC y hy
  rw [List.filter_append, List.filter_cons_of_pos (by simp),
    hnil A fun y hy => hne y (List.mem_append_left _ hy),
    hnil B fun y hy => hne y (List.mem_append_right _ hy), List.nil_append]

/-- The second pass of DELETE removes the rows with the ids it has kept. -/
theorem deleteLoop_spec {keys : List Key} (hnodup : keys.Nodup) (h : TableAt db live t hp)
    (hkeys : ∀ key ∈ keys, ∃ x ∈ live, rowId x.2 = key) (count : UInt32) :
    wpSep (deleteLoop keys count) db fun n db' =>
      n = count + UInt32.ofNat keys.length ∧ SameTable db db' ∧
        db'.header.nextId = db.header.nextId ∧
        ∃ t' hp', TableAt db' (live.filter fun x => rowId x.2 ∉ keys) t' hp' := by
  induction keys generalizing db live t hp count with
  | nil =>
    refine wpSep_of_wpDb ⟨(UInt32.add_zero count).symm, SameTable.refl db, rfl, t, hp, ?_⟩
    rw [List.filter_eq_self.mpr (by simp)]
    exact h
  | cons key keys ih =>
    obtain ⟨hkey, hnodup'⟩ := List.nodup_cons.mp hnodup
    obtain ⟨x, hx, rfl⟩ := hkeys key (List.mem_cons_self ..)
    have hfound := h.lookup_id hx
    obtain ⟨A, B, rfl⟩ := List.append_of_mem hx
    have hothers := h.others_ne
    rw [deleteLoop]
    refine wpSep_bind_of_wpDb (wpDb_mono (bptreeSearch_spec h.storage.tree.toTreeShape _) ?_)
    rintro r db' ⟨rfl, rfl⟩
    rw [hfound]
    dsimp only
    rw [wpSep_bind]
    refine wpSep_mono (removeRow_spec h) ?_
    rintro _ db₁ ⟨hsame₁, hnext₁, t₁, hp₁, h₁⟩
    have hkeys₁ : ∀ key ∈ keys, ∃ y ∈ A ++ B, rowId y.2 = key := by
      intro key hmem
      obtain ⟨y, hy, rfl⟩ := hkeys key (List.mem_cons_of_mem _ hmem)
      refine ⟨y, ?_, rfl⟩
      simp only [List.mem_append, List.mem_cons] at hy ⊢
      rcases hy with hy | rfl | hy
      · exact Or.inl hy
      · exact absurd hmem hkey
      · exact Or.inr hy
    refine wpSep_mono (ih hnodup' h₁ hkeys₁ (count + 1)) ?_
    rintro n db₂ ⟨rfl, hsame₂, hnext₂, t₂, hp₂, h₂⟩
    refine ⟨?_, hsame₁.trans hsame₂, hnext₂.trans hnext₁, t₂, hp₂, ?_⟩
    · rw [List.length_cons, UInt32.ofNat_add, UInt32.add_assoc, UInt32.add_comm 1]
      rfl
    · have hfilter : ((A ++ x :: B).filter fun y => rowId y.2 ∉ rowId x.2 :: keys) =
          (A ++ B).filter fun y => rowId y.2 ∉ keys := by
        have hrest : ∀ C ⊆ A ++ B, (C.filter fun y => rowId y.2 ∉ rowId x.2 :: keys) =
            C.filter fun y => rowId y.2 ∉ keys := by
          intro C hC
          refine List.filter_congr fun y hy => ?_
          simp [hothers y (hC hy)]
        rw [List.filter_append, List.filter_cons_of_neg (by simp), List.filter_append,
          hrest A (List.subset_append_left _ _), hrest B (List.subset_append_right _ _)]
      rw [hfilter]
      exact h₂

theorem matchPredicate_eq (hkind : stmt.predicateKind ≠ .idEq) (hdr : DbHeader)
    (vs : List RowValue) : matchPredicate lib hdr vs stmt = Table.selects lib stmt hdr.inUse vs := by
  unfold matchPredicate Table.selects
  cases hk : stmt.predicateKind with
  | none => rfl
  | idEq => exact absurd hk hkind
  | fieldEq => rfl

theorem selects_idEq (hkind : stmt.predicateKind = .idEq) (cols : List ColumnMeta) :
    Table.selects lib stmt cols = fun vs => decide (rowId vs = stmt.predId) := by
  funext vs
  rw [Table.selects, hkind]

/-- A SELECT that scans prints the rows its condition selects, in the order of the heap. -/
theorem execTableScan_spec (h : TableAt db live t hp) (hkind : stmt.predicateKind ≠ .idEq)
    {tol : Fault → Prop} :
    wpDb (execTableScan lib stmt) db (fun r db' => db' = db ∧ r.status = 0 ∧
      ∃ found : List (List RowValue),
        found.Perm ((live.map Prod.snd).filter (Table.selects lib stmt db.header.inUse)) ∧
        r.rows = found.map (printedRow db.header.inUse)) tol := by
  obtain ⟨met, hperm, hmet⟩ := h.scanned
  have hread : ∀ x ∈ met, rowDeserialize db.header (rowBytes db.header.inUse x.2) = some x.2 :=
    fun x hx => h.deserialize (hperm.mem_iff.mp hx)
  obtain ⟨sc, hfold, hout⟩ := foldRows_select lib (matchPredicate_eq lib hkind db.header) hread
    ⟨0, []⟩
  rw [← hmet] at hfold
  simp only [execTableScan, wpDb_bind, wpDb_getHeader]
  refine wpDb_mono (heapScan_spec h.storage.heap _) ?_
  rintro r db' ⟨rfl, rfl⟩
  rw [hfold, wpDb_inBounds_some rfl]
  exact ⟨rfl, rfl, _, (hperm.map Prod.snd).filter _, hout⟩

/-- A SELECT that looks an id up prints the row with the id. -/
theorem execIndexLookup_spec (h : TableAt db live t hp) (hkind : stmt.predicateKind = .idEq)
    {tol : Fault → Prop} :
    wpDb (execIndexLookup stmt) db (fun r db' => db' = db ∧ r.status = 0 ∧
      ∃ found : List (List RowValue),
        found.Perm ((live.map Prod.snd).filter (Table.selects lib stmt db.header.inUse)) ∧
        r.rows = found.map (printedRow db.header.inUse)) tol := by
  rw [selects_idEq lib hkind]
  rw [execIndexLookup, wpDb_bind]
  refine wpDb_mono (bptreeSearch_spec h.storage.tree.toTreeShape stmt.predId) ?_
  rintro r db' ⟨rfl, rfl⟩
  -- the index has the id exactly when a row has it
  by_cases hid : ∃ x ∈ live, rowId x.2 = stmt.predId
  · obtain ⟨x, hx, hid⟩ := hid
    have hrow := h.heapMap_row hx
    have hread := h.deserialize hx
    have hfound := h.lookup_id hx
    obtain ⟨A, B, rfl⟩ := List.append_of_mem hx
    have hone := congrArg (List.map Prod.snd) h.filter_id
    rw [← hid, hfound]
    dsimp only
    rw [wpDb_bind, wpDb_getHeader, wpDb_bind]
    refine wpDb_mono (fetchRow_spec h.storage.heap (InHeap.of_row hrow)) ?_
    rintro r db' ⟨rfl, rfl⟩
    rw [hrow]
    dsimp only
    rw [wpDb_bind, wpDb_inBounds_some hread]
    refine ⟨rfl, rfl, [x.2], ?_, List.filterMap_cons_some (cells?_printRow db'.header x.2)⟩
    rw [List.filter_map]
    exact List.Perm.of_eq hone.symm
  · have hne : ∀ x ∈ live, rowId x.2 ≠ stmt.predId := fun x hx heq => hid ⟨x, hx, heq⟩
    rw [h.lookup_none hne]
    refine ⟨rfl, rfl, [], ?_, rfl⟩
    have hnil : ((live.map Prod.snd).filter fun vs => decide (rowId vs = stmt.predId)) = [] := by
      rw [List.filter_eq_nil_iff]
      intro vs hvs
      obtain ⟨x, hx, rfl⟩ := List.mem_map.mp hvs
      simpa using hne x hx
    rw [hnil]

/-- What a DELETE leaves, and what it reports -/
def Deletes (db : Db) (live : List (RowRef × List RowValue)) (sel : List RowValue → Bool)
    (r : ExecResult) (db' : Db) : Prop :=
  r.status = 0 ∧ r.message.removed = ((live.map Prod.snd).filter sel).length ∧
    SameTable db db' ∧ db'.header.nextId = db.header.nextId ∧
    ∃ t' hp', TableAt db' (live.filter fun x => !sel x.2) t' hp'

/-- A DELETE that scans removes the rows its condition selects, unless they are too many. -/
theorem execDeleteScan_full (h : TableAt db live t hp) (hkind : stmt.predicateKind ≠ .idEq)
    (hfull : 2 ^ 31 < ((live.map Prod.snd).filter
      (Table.selects lib stmt db.header.inUse)).length) {Q : ExecResult → Db → Prop}
    {tol : Fault → Prop} (htol : tol .outOfBounds) : wpSep (execDeleteScan lib stmt) db Q tol := by
  obtain ⟨met, hperm, hmet⟩ := h.scanned
  have hread : ∀ x ∈ met, rowDeserialize db.header (rowBytes db.header.inUse x.2) = some x.2 :=
    fun x hx => h.deserialize (hperm.mem_iff.mp hx)
  have hsel := (hperm.map Prod.snd).filter (Table.selects lib stmt db.header.inUse)
  have hnone := foldRows_delete_full lib (matchPredicate_eq lib hkind db.header) hread
    (show DeleteCtx.Ok ⟨[], 0, 0⟩ from ⟨rfl, Or.inl rfl, Nat.le_refl _⟩)
    (show 0 ≤ 2 ^ 31 from Nat.zero_le _) (by
      rw [List.length_nil, Nat.zero_add, hsel.length_eq]
      exact hfull)
  rw [← hmet] at hnone
  rw [execDeleteScan]
  apply wpSep_bind_of_wpDb
  rw [wpDb_getHeader]
  refine wpSep_bind_of_wpDb (wpDb_mono (heapScan_spec h.storage.heap _) ?_)
  rintro r db' ⟨rfl, rfl⟩
  rw [hnone]
  exact htol

/-- A DELETE that scans removes the rows its condition selects. -/
theorem execDeleteScan_spec (h : TableAt db live t hp) (hkind : stmt.predicateKind ≠ .idEq)
    (hroom : ((live.map Prod.snd).filter (Table.selects lib stmt db.header.inUse)).length ≤
      2 ^ 31) :
    wpSep (execDeleteScan lib stmt) db
      (Deletes db live (Table.selects lib stmt db.header.inUse)) := by
  obtain ⟨met, hperm, hmet⟩ := h.scanned
  have hread : ∀ x ∈ met, rowDeserialize db.header (rowBytes db.header.inUse x.2) = some x.2 :=
    fun x hx => h.deserialize (hperm.mem_iff.mp hx)
  have hsel := (hperm.map Prod.snd).filter (Table.selects lib stmt db.header.inUse)
  -- the first pass: the scan keeps the ids
  obtain ⟨dc, hfold, hids⟩ := foldRows_delete lib (matchPredicate_eq lib hkind db.header) hread
    (show DeleteCtx.Ok ⟨[], 0, 0⟩ from ⟨rfl, Or.inl rfl, Nat.le_refl _⟩) (by
      rw [List.length_nil, Nat.zero_add, hsel.length_eq]
      exact hroom)
  rw [← hmet] at hfold
  rw [List.nil_append] at hids
  -- the kept ids are the ids of the selected rows
  have hnodup : dc.ids.Nodup := by
    have hmetIds := (hperm.map fun x => rowId x.2).nodup_iff.mpr h.ids_nodup
    rw [hids]
    rw [← Function.comp_def, ← List.map_map] at hmetIds
    exact (List.filter_sublist.map rowId).nodup hmetIds
  have hmem : ∀ key, key ∈ dc.ids ↔
      ∃ x ∈ live, Table.selects lib stmt db.header.inUse x.2 = true ∧ rowId x.2 = key := by
    intro key
    rw [hids, List.mem_map]
    constructor
    · rintro ⟨vs, hvs, rfl⟩
      obtain ⟨hvs, hs⟩ := List.mem_filter.mp (hsel.mem_iff.mp hvs)
      obtain ⟨x, hx, rfl⟩ := List.mem_map.mp hvs
      exact ⟨x, hx, hs, rfl⟩
    · rintro ⟨x, hx, hs, rfl⟩
      exact ⟨x.2, hsel.mem_iff.mpr (List.mem_filter.mpr ⟨List.mem_map_of_mem hx, hs⟩), rfl⟩
  have hlen : dc.ids.length =
      ((live.map Prod.snd).filter (Table.selects lib stmt db.header.inUse)).length := by
    rw [hids, List.length_map, hsel.length_eq]
  -- ids are apart, so a row with a kept id is a selected row
  have hfilter : (live.filter fun x => rowId x.2 ∉ dc.ids) =
      live.filter fun x => !Table.selects lib stmt db.header.inUse x.2 := by
    refine List.filter_congr fun x hx => ?_
    have hiff : rowId x.2 ∈ dc.ids ↔ Table.selects lib stmt db.header.inUse x.2 = true := by
      rw [hmem]
      constructor
      · rintro ⟨y, hy, hs, hid⟩
        rwa [← List.inj_on_of_nodup_map h.ids_nodup hy hx hid]
      · exact fun hs => ⟨x, hx, hs, rfl⟩
    simp [hiff]
  rw [execDeleteScan]
  apply wpSep_bind_of_wpDb
  rw [wpDb_getHeader]
  refine wpSep_bind_of_wpDb (wpDb_mono (heapScan_spec h.storage.heap _) ?_)
  rintro r db' ⟨rfl, rfl⟩
  apply wpSep_bind_of_wpDb
  rw [hfold, wpDb_inBounds_some rfl, wpSep_bind]
  -- the second pass: the loop removes the rows of these ids
  refine wpSep_mono (deleteLoop_spec hnodup h (fun key hkey => ?_) 0) ?_
  · obtain ⟨x, hx, -, hid⟩ := (hmem key).mp hkey
    exact ⟨x, hx, hid⟩
  rintro n db' ⟨rfl, hsame, hnext, t', hp', h'⟩
  rw [hfilter] at h'
  apply wpSep_of_wpDb
  rw [wpDb_bind, wpDb_setHeaderDirty]
  refine ⟨rfl, ?_, hsame, hnext, t', hp', h'⟩
  show (0 + UInt32.ofNat dc.ids.length).toNat = _
  rw [UInt32.zero_add, UInt32.toNat_ofNat_of_lt' (by
    show dc.ids.length < 2 ^ 32
    omega), hlen]

/-- A DELETE by id removes the row with the id. -/
theorem execIndexDelete_spec (h : TableAt db live t hp) (hkind : stmt.predicateKind = .idEq) :
    wpSep (execIndexDelete stmt) db
      (Deletes db live (Table.selects lib stmt db.header.inUse)) := by
  rw [selects_idEq lib hkind]
  rw [execIndexDelete]
  refine wpSep_bind_of_wpDb (wpDb_mono (bptreeSearch_spec h.storage.tree.toTreeShape _) ?_)
  rintro r db' ⟨rfl, rfl⟩
  by_cases hid : ∃ x ∈ live, rowId x.2 = stmt.predId
  · obtain ⟨x, hx, hid⟩ := hid
    have hfound := h.lookup_id hx
    obtain ⟨A, B, rfl⟩ := List.append_of_mem hx
    have hone := congrArg List.length h.filter_id
    have hothers := h.others_ne
    rw [← hid, hfound]
    dsimp only
    rw [wpSep_bind]
    refine wpSep_mono (removeRow_spec h) ?_
    rintro _ db₁ ⟨hsame₁, hnext₁, t₁, hp₁, h₁⟩
    apply wpSep_of_wpDb
    rw [wpDb_bind, wpDb_setHeaderDirty]
    refine ⟨rfl, ?_, hsame₁, hnext₁, t₁, hp₁, ?_⟩
    · rw [List.filter_map, List.length_map]
      exact hone.symm
    · -- no other row has the id
      have hfilter : ((A ++ x :: B).filter fun y => !decide (rowId y.2 = rowId x.2)) = A ++ B := by
        have hrest : ∀ C ⊆ A ++ B, (C.filter fun y => !decide (rowId y.2 = rowId x.2)) = C := by
          intro C hC
          refine List.filter_eq_self.mpr fun y hy => ?_
          simpa using hothers y (hC hy)
        rw [List.filter_append, List.filter_cons_of_neg (by simp),
          hrest A (List.subset_append_left _ _), hrest B (List.subset_append_right _ _)]
      rw [hfilter]
      exact h₁
  · have hne : ∀ x ∈ live, rowId x.2 ≠ stmt.predId := fun x hx heq => hid ⟨x, hx, heq⟩
    rw [h.lookup_none hne]
    refine wpSep_of_wpDb ⟨rfl, ?_, SameTable.refl _, rfl, t, hp, ?_⟩
    · rw [List.filter_map, List.length_map]
      show 0 = _
      rw [List.filter_eq_nil_iff.mpr (by simpa using hne), List.length_nil]
    · rw [List.filter_eq_self.mpr (by simpa using hne)]
      exact h

end Statements

/-! ## CREATE TABLE -/

/-- The table that CREATE TABLE makes in a new database has no rows. -/
theorem execCreateTable_spec {pageSize : UInt32} {stmt : Statement} (hcap : HoldsTwo pageSize)
    (hsmall : pageSize.toNat < 65536) (hok : CreateOk pageSize stmt) :
    wpDb (execCreateTable stmt) (Db.fresh pageSize) fun r db' => r.status = 0 ∧
      db'.header.inUse = layoutFrom 0 (tableColumns stmt.colDefs) ∧ db'.header.nextId = 1 ∧
      db'.fields.pageSize = pageSize ∧ ∃ t hp, TableAt db' [] t hp := by
  have hroom := hok.room
  obtain ⟨hdr, hcreate, hinUse, hschema, -, hrow, hrest⟩ := createSchema_ok hok.count hok.sizes
    (by omega) (Db.fresh pageSize).header
  have hdims : HeapDims pageSize hdr.rowSize := ⟨hsmall, by omega⟩
  have hroot := congrArg (·.rootIndexPageId) hrest
  have hfirst := congrArg (·.firstHeapPageId) hrest
  have hnext := congrArg (·.nextPageId) hrest
  have hfree := congrArg (·.freePageHead) hrest
  have hid := congrArg (·.nextId) hrest
  have hcount := congrArg (·.rowCount) hrest
  have hempty : ¬ 0 < (Db.fresh pageSize).header.columnCount := by
    show ¬ (0 : UInt16) < 0
    decide
  simp only [execCreateTable, wpDb_bind, wpDb_getHeader, wpDb_ite, if_neg hempty,
    wpDb_inBounds_some hcreate, wpDb_modifyHeader, wpDb_setHeaderDirty, wpDb_pure]
  refine ⟨trivial, hinUse, hid, rfl, emptyTree, [⟨1, [], []⟩], ?_⟩
  exact ⟨hschema, hcap, hdims,
    (fresh_storageInv hcap hdims).setHeader hdr hroot hfirst hnext hfree, List.Perm.refl _,
    List.Perm.refl _, fun _ hx => absurd hx List.not_mem_nil, congrArg UInt64.toNat hcount⟩

/-! ## Every statement -/

/-- The database is new, or it stores the rows of the table. -/
inductive Represents (pageSize : UInt32) : Db → Table → Prop where
  | fresh : Represents pageSize (Db.fresh pageSize) Table.none
  | table {db : Db} {live : List (RowRef × List RowValue)} {t : Tree} {hp : List HeapPage} :
    db.fields.pageSize = pageSize → (∃ cols, db.header.inUse = idColumn :: cols) →
      TableAt db live t hp → Represents pageSize db ⟨db.header.inUse, live.map Prod.snd, db.header.nextId⟩

section Execute

variable {pageSize : UInt32} {db : Db} {tab : Table} {stmt : Statement}

theorem execute_insert (h : stmt.type = .insert) : execute lib stmt = execInsert lib stmt := by
  unfold execute planOf plannerCreatePlan
  rw [h]
  rfl

theorem execute_select (h : stmt.type = .select) : execute lib stmt =
    if stmt.predicateKind = .idEq then execIndexLookup stmt else execTableScan lib stmt := by
  unfold execute planOf plannerCreatePlan
  rw [h]
  dsimp only [planFor]
  cases hkind : stmt.predicateKind <;> rfl

theorem execute_delete (h : stmt.type = .delete) : execute lib stmt =
    if stmt.predicateKind = .idEq then execIndexDelete stmt else execDeleteScan lib stmt := by
  unfold execute planOf plannerCreatePlan
  rw [h]
  dsimp only [planFor]
  cases hkind : stmt.predicateKind <;> rfl

/-- Without a table nothing but CREATE TABLE does anything. -/
theorem execute_fresh (hcap : HoldsTwo pageSize) (hsmall : pageSize.toNat < 65536)
    (hcreate : stmt.type ≠ .createTable) (hexplain : stmt.type ≠ .explain) :
    wpDb (execute lib stmt) (Db.fresh pageSize) fun r db' =>
      db' = Db.fresh pageSize ∧ Table.Step lib (Table.selects lib) stmt Table.none r Table.none := by
  have h48 := hcap.le_pageSize
  have hdims : HeapDims pageSize 0 := ⟨hsmall, by
    show 16 + 8 + 0 ≤ pageSize.toNat
    omega⟩
  -- the tree is an empty leaf, and there is no heap page
  have hinv := fresh_storageInv hcap hdims
  have hsearch : wpDb (bptreeSearch stmt.predId) (Db.fresh pageSize) fun r db' =>
      db' = Db.fresh pageSize ∧ r = none :=
    wpDb_mono (bptreeSearch_spec hinv.tree.toTreeShape stmt.predId) fun _ _ h => h
  have hscan : ∀ (γ : Type) (cb : List UInt8 → RowRef → γ → Bool × γ) (ctx : γ),
      wpDb (heapScan cb 0 ctx) (Db.fresh pageSize) fun r db' =>
        db' = Db.fresh pageSize ∧ r = ctx := fun γ cb ctx => heapScan_spec hinv.heap ctx
  unfold Table.Step
  cases htype : stmt.type with
  | createTable => exact absurd htype hcreate
  | explain => exact absurd htype hexplain
  | insert =>
    rw [execute_insert lib htype, execInsert, wpDb_bind, wpDb_getHeader]
    exact ⟨rfl, rfl, rfl⟩
  | select =>
    rw [execute_select lib htype]
    split
    next =>
      rw [execIndexLookup, wpDb_bind]
      refine wpDb_mono hsearch ?_
      rintro r db' ⟨rfl, rfl⟩
      exact ⟨rfl, rfl, rfl, [], List.Perm.refl _, rfl⟩
    next =>
      rw [execTableScan, wpDb_bind, wpDb_getHeader, wpDb_bind]
      refine wpDb_mono (hscan _ _ _) ?_
      rintro r db' ⟨rfl, rfl⟩
      exact ⟨rfl, rfl, rfl, [], List.Perm.refl _, rfl⟩
  | delete =>
    rw [execute_delete lib htype]
    split
    next =>
      rw [execIndexDelete, wpDb_bind]
      refine wpDb_mono hsearch ?_
      rintro r db' ⟨rfl, rfl⟩
      exact ⟨rfl, rfl, rfl, rfl⟩
    next =>
      rw [execDeleteScan, wpDb_bind, wpDb_getHeader, wpDb_bind]
      refine wpDb_mono (hscan _ _ _) ?_
      rintro r db' ⟨rfl, rfl⟩
      exact ⟨trivial, rfl, rfl, rfl, rfl⟩

/-- EXPLAIN does nothing but print. -/
theorem execute_explain (htype : stmt.type = .explain) (hinner : stmt.innerType ≠ .explain) :
    wpDb (execute lib stmt) db fun _ db' => db' = db := by
  obtain ⟨path, hpath⟩ : ∃ path, plannerCreatePlan stmt = some path := by
    unfold plannerCreatePlan
    rw [htype]
    cases hi : stmt.innerType with
    | explain => exact absurd hi hinner
    | _ => exact ⟨_, rfl⟩
  rw [execute, if_pos htype, execExplain, planOf, hpath]
  rfl

/-- Every statement acts on the stored rows as `Table.Step` says. -/
theorem execute_tableAt {live : List (RowRef × List RowValue)} {t : Tree} {hp : List HeapPage}
    (hps : db.fields.pageSize = pageSize) (hid : ∃ cols, db.header.inUse = idColumn :: cols)
    (h : TableAt db live t hp)
    (hok : Table.Accepts pageSize stmt ⟨db.header.inUse, live.map Prod.snd, db.header.nextId⟩) :
    wpSep (execute lib stmt) db (fun r db' => ∃ tab',
      Table.Step lib (Table.selects lib) stmt
        ⟨db.header.inUse, live.map Prod.snd, db.header.nextId⟩ r tab' ∧
      Represents pageSize db' tab')
      (Table.Fails lib stmt ⟨db.header.inUse, live.map Prod.snd, db.header.nextId⟩) := by
  have hid' : ∀ {db'}, SameTable db db' → ∃ cols, db'.header.inUse = idColumn :: cols := by
    intro db' hsame
    rw [hsame.inUse]
    exact hid
  have hcols : db.header.inUse ≠ [] := by
    obtain ⟨cols, hcols⟩ := hid
    rw [hcols]
    exact List.cons_ne_nil _ _
  -- deletions leave the rows that are not selected
  have hdelete : ∀ r db', Deletes db live (Table.selects lib stmt db.header.inUse) r db' →
      stmt.type = .delete → ∃ tab', Table.Step lib (Table.selects lib) stmt
        ⟨db.header.inUse, live.map Prod.snd, db.header.nextId⟩ r tab' ∧
        Represents pageSize db' tab' := by
    rintro r db' ⟨hstatus, hremoved, hsame, hnext, t', hp', h'⟩ htype
    refine ⟨_, ?_, Represents.table (hsame.pageSize.trans hps) (hid' hsame) h'⟩
    unfold Table.Step
    rw [htype]
    refine ⟨hstatus, hremoved, ?_⟩
    rw [hsame.inUse, hnext, List.filter_map]
    rfl
  unfold Table.Accepts at hok
  cases htype : stmt.type with
  -- there is a table, so the statement is refused
  | createTable =>
    have hpos : 0 < db.header.columnCount := by
      rw [UInt16.lt_iff_toNat_lt, UInt16.toNat_zero]
      apply Nat.pos_of_ne_zero
      intro hzero
      apply hcols
      rw [DbHeader.inUse, hzero, List.take_zero]
    rw [execute_createTable lib htype, execCreateTable]
    apply wpSep_of_wpDb
    rw [wpDb_bind, wpDb_getHeader, wpDb_ite, if_pos hpos]
    refine ⟨_, ?_, Represents.table hps hid h⟩
    unfold Table.Step
    rw [htype]
    exact (if_neg hcols).mpr ⟨rfl, rfl⟩
  | insert =>
    rw [htype] at hok
    rw [execute_insert lib htype]
    refine wpSep_mono_tol (wpSep_of_wpDb ?_) (fun _ => Or.inl)
    refine wpDb_mono (execInsert_spec lib h hid (fun x hx => hok x.2 (List.mem_map_of_mem hx)) stmt) ?_
    rintro r db' ⟨rfl, hsame, hnext, ref, t', hp', h'⟩
    refine ⟨_, ?_, Represents.table (hsame.pageSize.trans hps) (hid' hsame) h'⟩
    unfold Table.Step
    rw [htype]
    refine (if_neg hcols).mpr ⟨rfl, ?_⟩
    let tab : Table := ⟨db.header.inUse, live.map Prod.snd, db.header.nextId⟩
    have hrow : db.header.inUse.zipWith cutValue (rowValues lib db.header stmt) =
        tab.newRow lib stmt := by
      obtain ⟨cols, hid⟩ := hid
      exact Table.newRow_eq lib (show tab.cols = idColumn :: cols from hid) stmt
    rw [hsame.inUse, hnext, List.map_append, List.map_singleton, hrow]
  | select =>
    rw [execute_select lib htype]
    refine wpSep_mono_tol (wpSep_of_wpDb ?_) (fun _ => Or.inl)
    have hread : wpDb (if stmt.predicateKind = .idEq then execIndexLookup stmt
        else execTableScan lib stmt) db fun r db' => db' = db ∧ r.status = 0 ∧
          ∃ found : List (List RowValue),
            found.Perm ((live.map Prod.snd).filter (Table.selects lib stmt db.header.inUse)) ∧
            r.rows = found.map (printedRow db.header.inUse) := by
      split
      next hkind => exact execIndexLookup_spec lib h hkind
      next hkind => exact execTableScan_spec lib h hkind
    refine wpDb_mono hread ?_
    rintro r db' ⟨rfl, hstatus, hfound⟩
    refine ⟨_, ?_, Represents.table hps hid h⟩
    unfold Table.Step
    rw [htype]
    exact ⟨rfl, hstatus, hfound⟩
  | delete =>
    rw [execute_delete lib htype]
    split
    next hkind =>
      exact wpSep_mono_tol (wpSep_mono (execIndexDelete_spec lib h hkind) fun r db' hd =>
        hdelete r db' hd htype) fun _ => Or.inl
    next hkind =>
      by_cases hroom : ((live.map Prod.snd).filter
          (Table.selects lib stmt db.header.inUse)).length ≤ 2 ^ 31
      · exact wpSep_mono_tol (wpSep_mono (execDeleteScan_spec lib h hkind hroom) fun r db' hd =>
          hdelete r db' hd htype) fun _ => Or.inl
      · -- the array of ids would not hold the selected rows
        have hfull := Nat.lt_of_not_le hroom
        exact execDeleteScan_full lib h hkind hfull (Or.inr ⟨rfl, htype, hkind, hfull⟩)
  | explain =>
    rw [htype] at hok
    refine wpSep_mono_tol (wpSep_of_wpDb ?_) (fun _ => Or.inl)
    refine wpDb_mono (execute_explain lib htype hok) ?_
    rintro r db' rfl
    refine ⟨_, ?_, Represents.table hps hid h⟩
    unfold Table.Step
    rw [htype]

/-- Every statement acts on the table as `Table.Step` says. -/
theorem execute_spec (h : Represents pageSize db tab) (hcap : HoldsTwo pageSize)
    (hsmall : pageSize.toNat < 65536) (hok : tab.Accepts pageSize stmt) :
    wpSep (execute lib stmt) db (fun r db' => ∃ tab',
      Table.Step lib (Table.selects lib) stmt tab r tab' ∧ Represents pageSize db' tab')
      (tab.Fails lib stmt) := by
  cases h with
  | table hps hid h => exact execute_tableAt lib hps hid h hok
  | fresh =>
    refine wpSep_mono_tol (wpSep_of_wpDb ?_) (fun _ => Or.inl)
    by_cases hcreate : stmt.type = .createTable
    · unfold Table.Accepts at hok
      rw [hcreate] at hok
      rw [execute_createTable lib hcreate]
      refine wpDb_mono (execCreateTable_spec hcap hsmall hok) ?_
      rintro r db' ⟨hstatus, hinUse, hnext, hps, t, hp, h'⟩
      refine ⟨_, ?_, Represents.table hps ⟨_, hinUse⟩ h'⟩
      unfold Table.Step
      rw [hcreate, hinUse, hnext]
      exact (if_pos rfl).mpr ⟨hstatus, rfl⟩
    by_cases hexplain : stmt.type = .explain
    · unfold Table.Accepts at hok
      rw [hexplain] at hok
      refine wpDb_mono (execute_explain lib hexplain hok) ?_
      rintro r db' rfl
      refine ⟨_, ?_, Represents.fresh⟩
      unfold Table.Step
      rw [hexplain]
    · refine wpDb_mono (execute_fresh lib hcap hsmall hcreate hexplain) ?_
      rintro r db' ⟨rfl, hstep⟩
      exact ⟨_, hstep, Represents.fresh⟩

end Execute

end Lib

end MiniDb
