import MiniDb.Accounting
import MiniDb.Bptree.Pins
import MiniDb.Heap.Pins
import MiniDb.Pager.Counters
import MiniDb.Pager.Files
import MiniDb.Sql.TableRuns

/-!
# Statements on the cache

No statement needs more than three pins, and all of them are given back when it returns, on its
error paths too.  So statements do on the cache what they do on the flat store, whatever the file
holds.

## Key results

- `balanced_execute`, `balanced_cmdPages`
- `statements_cached`, `statements_counted`: runs of statements
-/

namespace MiniDb

open Bytes CText Free Ledger Pager Runs

variable {file : FileId} {cap : Nat}

/-- A new schema leaves the stamp of the header alone. -/
theorem stamp_createSchema {hdr hdr' : DbHeader} {defs : List ColumnDef}
    (h : createSchema hdr defs = some hdr') : hdr'.stamp = hdr.stamp := by
  obtain ⟨hdr₁, hcreate, -, -, -, hrest⟩ := createSchema_eq (length_userDefs_le h) hdr
  rw [h] at hcreate
  obtain rfl := Option.some.inj hcreate
  show hdr'.outsideSchema.stamp = hdr.outsideSchema.stamp
  rw [hrest]

section Statements

variable (lib : CLib) (stmt : Statement)

theorem balanced_execCreateTable : Balanced file 3 (execCreateTable stmt) := by
  intro cap pins recent hpins
  simp only [execCreateTable, obeys_bind, obeys_getHeader, obeys_ite, obeys_inBounds,
    obeys_setHeaderDirty, obeys_pure]
  refine fun hdr hstamp => ⟨fun _ => ⟨_, rfl⟩, fun _ hdr' hschema => ?_⟩
  exact obeys_putHeader ((stamp_createSchema hschema).trans hstamp) ⟨_, rfl⟩

theorem balanced_execInsert : Balanced file 3 (execInsert lib stmt) := by
  intro cap pins recent hpins
  simp only [execInsert, obeys_bind, obeys_getHeader, obeys_ite, obeys_inBounds, obeys_pure]
  refine fun hdr _ => ⟨fun _ => ⟨_, rfl⟩, fun _ row _ => ?_⟩
  apply (balanced_heapInsert _ _).call (by omega)
  intro ref recent hdr' _
  apply (balanced_bptreeInsert _ _).call hpins
  intro rc recent
  simp only [obeys_modifyHeader, implies_true, obeys_setHeaderDirty]
  exact ⟨fun _ => ⟨_, rfl⟩, fun _ _ _ => ⟨_, rfl⟩⟩

theorem balanced_execIndexLookup : Balanced file 3 (execIndexLookup stmt) := by
  intro cap pins recent hpins
  have hone : pins.length + 1 ≤ cap := by omega
  rw [execIndexLookup, obeys_bind]
  apply (balanced_bptreeSearch _).call hone
  intro found recent
  cases found with
  | none => exact ⟨_, rfl⟩
  | some ref =>
    rw [obeys_bind, obeys_getHeader]
    intro hdr _
    rw [obeys_bind]
    apply (balanced_fetchRow _ _).call hone
    intro row recent
    cases row with
    | none => exact ⟨_, rfl⟩
    | some row =>
      simp only [obeys_bind, obeys_inBounds, obeys_pure]
      exact fun values _ => ⟨_, rfl⟩

theorem balanced_execTableScan : Balanced file 3 (execTableScan lib stmt) := by
  intro cap pins recent hpins
  simp only [execTableScan, obeys_bind, obeys_getHeader]
  intro hdr _
  apply (balanced_heapScan _).call (by omega)
  intro sc recent
  simp only [obeys_inBounds, obeys_pure]
  exact fun sc _ => ⟨_, rfl⟩

theorem balanced_removeRow (key : Key) (ref : RowRef) : Balanced file 2 (removeRow key ref) := by
  intro cap pins recent hpins
  simp only [removeRow, obeys_bind, obeys_note]
  apply (balanced_heapDelete ref).call (by omega)
  intro rc recent
  apply (balanced_bptreeDelete key).call hpins
  intro rc recent
  simp only [obeys_getHeader, obeys_modifyHeader, implies_true]
  exact fun _ _ => ⟨_, rfl⟩

theorem balanced_execIndexDelete : Balanced file 3 (execIndexDelete stmt) := by
  intro cap pins recent hpins
  rw [execIndexDelete, obeys_bind]
  apply (balanced_bptreeSearch _).call (by omega)
  intro found recent
  cases found with
  | none => exact ⟨_, rfl⟩
  | some ref =>
    rw [obeys_bind]
    apply (balanced_removeRow _ _).call (by omega)
    intro _ recent
    simp only [obeys_bind, obeys_setHeaderDirty, obeys_pure]
    exact ⟨_, rfl⟩

theorem balanced_deleteLoop (keys : List Key) (count : UInt32) :
    Balanced file 2 (deleteLoop keys count) := by
  intro cap pins recent hpins
  induction keys generalizing count recent with
  | nil => exact ⟨_, rfl⟩
  | cons key keys ih =>
    rw [deleteLoop, obeys_bind]
    apply (balanced_bptreeSearch key).call (by omega)
    intro found recent
    cases found with
    | none => exact ih _ _
    | some ref =>
      rw [obeys_bind]
      apply (balanced_removeRow _ _).call hpins
      intro _ recent
      exact ih _ _

theorem balanced_execDeleteScan : Balanced file 3 (execDeleteScan lib stmt) := by
  intro cap pins recent hpins
  simp only [execDeleteScan, obeys_bind, obeys_getHeader]
  intro hdr _
  -- the rows are collected first, and the heap is not pinned while they are removed
  apply (balanced_heapScan _).call (by omega)
  intro dc recent
  rw [obeys_inBounds]
  intro dc _
  apply (balanced_deleteLoop _ _).call (by omega)
  intro count recent
  simp only [obeys_setHeaderDirty, obeys_pure]
  exact ⟨_, rfl⟩

theorem obeys_planOf {t : Ledger} {Q : AccessPath → Ledger → Prop} (hQ : ∀ path, Q path t) :
    Obeys file cap (planOf stmt) t Q :=
  (Free.fold_ofOption _ _ _ _).mpr fun path _ => hQ path

/-- A statement gives back its pins. -/
theorem balanced_execute : Balanced file 3 (execute lib stmt) := by
  intro cap pins recent hpins
  rw [execute, obeys_ite]
  constructor
  · intro _
    rw [execExplain, obeys_bind]
    apply obeys_planOf
    intro path
    exact ⟨_, rfl⟩
  · intro _
    rw [obeys_bind]
    apply obeys_planOf
    intro path
    cases path with
    | createTable => exact balanced_execCreateTable stmt pins recent hpins
    | insert => exact balanced_execInsert lib stmt pins recent hpins
    | indexLookup => exact balanced_execIndexLookup stmt pins recent hpins
    | tableScan =>
      simp only [obeys_ite]
      constructor
      · intro _
        exact balanced_execDeleteScan lib stmt pins recent hpins
      · intro _
        exact balanced_execTableScan lib stmt pins recent hpins
    | indexDelete => exact balanced_execIndexDelete stmt pins recent hpins

end Statements

/-! ## The reports -/

theorem balanced_cmdPagesLoop (next : PageId) (n : Nat) (i : PageId) (c : PageCounts) :
    Balanced file 1 (cmdPagesLoop next n i c) := by
  intro cap pins recent hpins
  induction n generalizing i c recent with
  | zero => exact obeys_throw _
  | succ n ih =>
    simp only [cmdPagesLoop, obeys_ite, obeys_bind, obeys_getPage, obeys_load, obeys_unpin, obeys_pure,
      pin_mk]
    refine ⟨fun _ => ⟨hpins, Or.inl (List.mem_cons_self ..), fun page _ => unpin_head ?_⟩,
      fun _ => ⟨_, rfl⟩⟩
    exact ih _ _ _

theorem balanced_cmdPagesFree (n : Nat) (fp : PageId) :
    Balanced file 1 (cmdPagesFree n fp) := by
  intro cap pins recent hpins
  induction n generalizing fp recent with
  | zero => exact ⟨_, rfl⟩
  | succ n ih =>
    simp only [cmdPagesFree, obeys_ite, obeys_bind, obeys_getPage, obeys_load, obeys_inBounds,
      obeys_unpin, obeys_pure, pin_mk]
    refine ⟨fun _ => ⟨_, rfl⟩, fun _ => ⟨hpins, Or.inl (List.mem_cons_self ..), fun page _ fph _ =>
      unpin_head ?_⟩⟩
    apply obeys_mono (ih _ _)
    rintro rest _ ⟨recent', rfl⟩
    exact ⟨_, rfl⟩

theorem balanced_cmdPages : Balanced file 1 cmdPages := by
  intro cap pins recent hpins
  simp only [cmdPages, obeys_bind, obeys_getHeader]
  intro hdr _
  apply (balanced_cmdPagesLoop _ _ _ _).call hpins
  intro counts recent
  rw [obeys_ite, obeys_bind]
  constructor
  · intro _
    exact (balanced_cmdPagesFree _ _).call hpins fun fps _ => ⟨_, rfl⟩
  · intro _
    exact ⟨_, rfl⟩

/-! ## Runs of statements -/

section Cached

variable (lib : CLib) {p : Pager} {stmts : List Statement}

/-- The statements of a run on the cache, as long as the counter of the lookups does not wrap -/
def StatementsLast (p : Pager) (stmts : List Statement) : Prop :=
  ∀ c ∈ calls (onCache (execute lib)) stmts p,
    c.2.tick.toNat + c.2.data.lookups (execute lib c.1) < 2 ^ 64

instance (p : Pager) (stmts : List Statement) : Decidable (StatementsLast lib p stmts) :=
  inferInstanceAs (Decidable (∀ c ∈ _, _ < _))

theorem Opened.serves (h : p.Opened) (hticks : StatementsLast lib p stmts) :
    (∀ rs db, runAll (onStore (execute lib)) stmts p.data = .ok (rs, db) →
      ∃ q, runAll (onCache (execute lib)) stmts p = .ok (rs, q) ∧ q.data = db ∧
        Served p.fields.fileId 3 (execute lib) stmts p q) ∧
    ∀ e, e ≠ .headerPage → runAll (onStore (execute lib)) stmts p.data = .error e →
      runAll (onCache (execute lib)) stmts p = .error e :=
  have hcap : 3 + Ledger.memory < maxFrames := by decide
  have hzero : 0 < 2 ^ 64 := by decide
  Kept.runAll (fun stmt => balanced_execute lib stmt) (h.kept hcap hzero).data hticks

end Cached

/-- A new database on pages of 700 bytes -/
theorem isSome_newFile : (Pager.create 700).isSome = true := by decide +kernel

def newPager : Pager := (Pager.create 700).get isSome_newFile

theorem newPager_opened : newPager.Opened := create_opened (Option.some_get isSome_newFile).symm

theorem newPager_data : newPager.data = Db.fresh 700 := create_data (Option.some_get isSome_newFile).symm

/-- A table, two rows, the removal of one of them, and the other one -/
def shortRun : List Statement :=
  statements ["CREATE TABLE t (n INT)", "INSERT INTO t VALUES (5)", "INSERT INTO t VALUES (7)",
    "DELETE FROM t WHERE n = 5", "SELECT * FROM t WHERE id = 2"]

theorem shortRun_lasts : StatementsLast CLib.wrapping newPager shortRun := by decide +kernel

end MiniDb
