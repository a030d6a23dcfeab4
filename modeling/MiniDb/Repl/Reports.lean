import MiniDb.Heap.Reuse
import MiniDb.Repl.Code
import MiniDb.Sql.TableRuns

/-!
# What the reports tell about a table

`.btree`, `.pages` and `.stats` read the database and change nothing.  What they print is said of
the table that the database stands for.

## Key results

- `cmdStats_spec`, `bptreePrint_spec`, `cmdPages_report`
-/

namespace MiniDb

open Bytes Lists

/-! ## Lines of the tree -/

/-- The number of keys that the line of a leaf tells -/
def TreeLine.leafCount? : TreeLine → Option Nat
  | .leaf _ _ keyCount _ => some keyCount.toNat
  | _ => none

/-- The keys on the line of a leaf -/
def TreeLine.leafKeys? : TreeLine → Option (List Key)
  | .leaf _ _ _ keys => some keys
  | _ => none

/-- The lines of `.btree` for a table: the leaves are at one depth, their counts add up to the
    number of rows, and the keys on their lines are ids of rows in increasing order. -/
structure ShowsTable (tab : Table) (lines : List TreeLine) : Prop where
  depth : ∃ h, ∀ x ∈ lines.filterMap TreeLine.leaf?, x.1 = h
  pages : (lines.filterMap TreeLine.page?).Nodup
  count : (lines.filterMap TreeLine.leafCount?).sum = tab.rows.length
  ids : ∀ k ∈ (lines.filterMap TreeLine.leafKeys?).flatten, ∃ vs ∈ tab.rows, rowId vs = k
  sorted : (lines.filterMap TreeLine.leafKeys?).flatten.Pairwise (· < ·)

/-- The report of `.stats` for a table -/
structure StatsOf (pageSize : UInt32) (tab : Table) (report : StatsReport) : Prop where
  rowCount : report.rowCount.toNat = tab.rows.length
  nextId : report.nextId = tab.nextId
  size : report.pageSize = pageSize
  rowSize : report.rowSize.toNat = columnsSize tab.cols
  rowsPerPage : report.rowsPerPage.map (·.toNat) =
    if tab.cols = [] then none else some (heapCap pageSize.toNat (columnsSize tab.cols))

/-- The report of `.pages`: every page has one type, and up to twenty free pages are listed. -/
structure PagesAddUp (report : PagesReport) : Prop where
  total : 1 + report.counts.heap.toNat + report.counts.leaf.toNat + report.counts.internal.toNat +
    report.counts.free.toNat = report.total.toNat
  list : report.freeList.length = min 20 report.counts.free.toNat
  nodup : report.freeList.Nodup
  more : report.more = true ↔ 20 < report.counts.free.toNat

section Flat

variable {db : Db} {live : List (RowRef × List RowValue)} {t : Tree} {hp : List HeapPage}

/-- The keys on the lines of the leaves are among the keys of the tree. -/
theorem leafKeys_sublist (db : Db) (h depth : Nat) (pid : PageId) :
    ((linesBelow db (h + 1) depth pid).filterMap TreeLine.leafKeys?).flatten.Sublist
      ((leavesBelow db (h + 1) pid).flatMap fun p => leafKeys (db.pages p)) := by
  rw [linesBelow_filterMap (g := fun p => (leafKeys (db.pages p)).take 5) (fun _ _ _ _ => rfl)
    fun depth p htype => by rw [nodeLine, if_pos htype]; rfl]
  rw [← List.flatMap_def]
  induction leavesBelow db (h + 1) pid with
  | nil => exact List.Sublist.refl _
  | cons p l ih =>
    rw [List.flatMap_cons, List.flatMap_cons]
    exact (List.take_sublist 5 _).append ih

theorem sum_leafCounts (h depth : Nat) (pid : PageId) :
    ((linesBelow db (h + 1) depth pid).filterMap TreeLine.leafCount?).sum =
      ((leavesBelow db (h + 1) pid).flatMap fun p => leafKeys (db.pages p)).length := by
  rw [linesBelow_filterMap (g := fun p => (leafKeys (db.pages p)).length) (fun _ _ _ _ => rfl)
    fun depth p htype => by rw [nodeLine, if_pos htype, leafKeys, List.length_map, Codec.length_listAt]; rfl,
    List.length_flatMap]

/-- What `.btree` prints about a table -/
theorem TableAt.showsTable (h : TableAt db live t hp) (nextId : UInt64) :
    ShowsTable ⟨db.header.inUse, live.map Prod.snd, nextId⟩
      (linesBelow db (t.levels.length + 1) 1 db.header.rootIndexPageId) := by
  have hshape := h.storage.tree.toTreeShape
  have hshows := (hshape.storedTree h.cap).shows h.cap
  have hkeys : keysOf db t.levels.length = t.entries.map (·.key) := hshape.keysOf_eq
  have hsub := leafKeys_sublist db t.levels.length 1 db.header.rootIndexPageId
  rw [← leavesOf, ← keysOf, hkeys] at hsub
  refine ⟨⟨t.levels.length + 1, fun x hx => ?_⟩, ?_, ?_, fun k hk => ?_, ?_⟩
  · rw [hshows.leaves] at hx
    obtain ⟨pid, -, rfl⟩ := List.mem_map.mp hx
    rfl
  · rw [hshows.pages]
    exact hshows.once
  · have hlen := h.index.length_eq
    rw [List.length_map, List.length_map] at hlen
    rw [sum_leafCounts, ← leavesOf, ← keysOf, hkeys, List.length_map, hlen, List.length_map]
  · obtain ⟨e, he, rfl⟩ := List.mem_map.mp (hsub.mem hk)
    obtain ⟨x, hx, heq⟩ := List.mem_map.mp (h.index.mem_iff.mp (List.mem_map.mpr ⟨e, he, rfl⟩))
    exact ⟨x.2, List.mem_map_of_mem hx, (Prod.mk.inj heq).1⟩
  · exact (List.pairwise_map.mpr hshape.keys_sorted).sublist hsub

/-- The division in 64 bits is the one of numbers. -/
theorem toNat_rowsPerPage {hdr : DbHeader} (h16 : 16 ≤ hdr.pageSize.toNat) :
    (rowsPerPage hdr).toNat = heapCap hdr.pageSize.toNat hdr.rowSize.toNat := by
  have hps : hdr.pageSize.toNat < 2 ^ 32 := hdr.pageSize.toNat_lt
  have hrs : hdr.rowSize.toNat < 2 ^ 16 := hdr.rowSize.toNat_lt
  have hsub : (hdr.pageSize.toUInt64 - UInt64.ofNat heapPageHeaderC.size).toNat =
      hdr.pageSize.toNat - 16 := by
    rw [UInt64.toNat_sub_of_le]
    · rfl
    · rw [UInt64.le_iff_toNat_le]
      exact h16
  have hadd : (hdr.rowSize.toUInt64 + UInt64.ofNat slotC.size).toNat = hdr.rowSize.toNat + 8 := by
    rw [UInt64.toNat_add]
    apply Nat.mod_eq_of_lt
    show hdr.rowSize.toNat + 8 < 2 ^ 64
    omega
  have hcap : heapCap hdr.pageSize.toNat hdr.rowSize.toNat =
      (hdr.pageSize.toNat - 16) / (hdr.rowSize.toNat + 8) := rfl
  rw [rowsPerPage, UInt64.toNat_toUInt32, UInt64.toNat_div, hsub, hadd, hcap]
  apply Nat.mod_eq_of_lt
  have := Nat.div_le_self (hdr.pageSize.toNat - 16) (hdr.rowSize.toNat + 8)
  omega

/-- What `.stats` prints about a table -/
theorem TableAt.stats (h : TableAt db live t hp) (hsize : db.header.pageSize = db.fields.pageSize)
    (hid : db.header.inUse ≠ [] → ∃ cols, db.header.inUse = idColumn :: cols) :
    ∃ report, db.exec cmdStats = .ok (report, db) ∧
      StatsOf db.fields.pageSize ⟨db.header.inUse, live.map Prod.snd, db.header.nextId⟩ report := by
  have hheight := bptreeHeight_exec h.storage.tree.toTreeShape
  have h48 := h.cap.le_pageSize
  refine ⟨statsReport db.header (t.levels.length + 1), ?_, ⟨?_, rfl, hsize, h.schema.rowSize, ?_⟩⟩
  · show Free.run Db.step (bptreeHeight >>= _) db = _
    rw [Free.run_bind, show Free.run Db.step bptreeHeight db = _ from hheight]
    rfl
  · rw [List.length_map]
    exact h.count
  · have hrows := h.schema.rowSize
    show (if 0 < db.header.rowSize then some (MiniDb.rowsPerPage db.header) else none).map (·.toNat) =
      if db.header.inUse = [] then none else some (heapCap _ (columnsSize db.header.inUse))
    by_cases hcols : db.header.inUse = []
    · rw [hcols] at hrows
      have hzero : ¬ 0 < db.header.rowSize := by
        rw [UInt16.lt_iff_toNat_lt, hrows]
        exact Nat.lt_irrefl 0
      rw [if_neg hzero, if_pos hcols]
      rfl
    · obtain ⟨cols, hcols'⟩ := hid hcols
      have hpos : 0 < db.header.rowSize := by
        rw [UInt16.lt_iff_toNat_lt, hrows, hcols']
        show 0 < 8 + columnsSize cols
        omega
      rw [if_pos hpos, if_neg hcols, Option.map_some, toNat_rowsPerPage (by rw [hsize]; omega), hrows, hsize]

/-- What `.pages` prints -/
theorem TableAt.pages (h : TableAt db live t hp) (hnext : db.header.nextPageId ≠ 0) :
    ∃ report, db.exec cmdPages = .ok (report, db) ∧ PagesAddUp report := by
  have h48 := h.cap.le_pageSize
  have hparts := h.storage.pagesPartitioned (show 8 ≤ db.ps by rw [Db.ps]; omega) hnext
  obtain ⟨c, fps, more, hexec, htotal, -, hfree, hfps, hmore⟩ := hparts.report
  have hpos : 0 < db.header.nextPageId.toNat := by
    rw [Nat.pos_iff_ne_zero]
    exact fun h0 => hnext (UInt32.toNat_inj.mp h0)
  refine ⟨_, hexec, ⟨?_, ?_, ?_, ?_⟩⟩
  · show 1 + c.heap.toNat + c.leaf.toNat + c.internal.toNat + c.free.toNat = db.header.nextPageId.toNat
    omega
  · rw [hfps, List.length_take, hfree]
  · rw [hfps]
    exact hparts.free_nodup.sublist (List.take_sublist ..)
  · rw [hmore, hfree]

end Flat

end MiniDb
