import MiniDb.Sql.TableSpec

/-!
# Runs of statements

CREATE TABLE, INSERT, SELECT and DELETE in any order on a new database.

## Key results

- `statementRun_index`: the index leads to exactly the live rows of the heap
-/

namespace MiniDb

open Bytes CText Lists Runs

section Lib

variable (lib : CLib)

/-- A statement as a step of the database -/
def Statement.step (stmt : Statement) (db : Db) : Except Fault (ExecResult × Db) :=
  db.exec (execute lib stmt)

/-- Before each removal of a row every internal node has a separator. -/
def KeepsSeparators (stmt : Statement) (db : Db) : Prop :=
  ∀ e ∈ db.events (execute lib stmt), ∀ key, e.1 = .removeRow key → Separated e.2

/-- The test of all removals, for trees of height at most `n` -/
def separatedAtRemovals (n : Nat) (stmt : Statement) (db : Db) : Bool :=
  (db.events (execute lib stmt)).all fun e =>
    match e.1 with
    | .removeRow _ => separatedBelow e.2 n e.2.header.rootIndexPageId
    | _ => true

theorem KeepsSeparators.of_check {n : Nat} {stmt : Statement} {db : Db}
    (h : separatedAtRemovals lib n stmt db = true) : KeepsSeparators lib stmt db := by
  intro e he key hkey
  have hcheck := List.all_eq_true.mp h e he
  rw [hkey] at hcheck
  exact Separated.of_check hcheck

/-- A statement of a run: a table has columns of sensible sizes, and every internal node keeps a
    separator. -/
structure StatementOk (pageSize : UInt32) (stmt : Statement) (db : Db) : Prop where
  type : stmt.type ≠ .explain
  create : stmt.type = .createTable → CreateOk pageSize stmt
  separated : KeepsSeparators lib stmt db

instance (pageSize : UInt32) (stmt : Statement) : Decidable (CreateOk pageSize stmt) :=
  decidable_of_iff ((userDefs stmt.colDefs).length ≤ 15 ∧ (∀ cd ∈ userDefs stmt.colDefs, DefOk cd) ∧
    16 + 8 + (8 + userSize stmt.colDefs) ≤ pageSize.toNat)
    ⟨fun h => ⟨h.1, h.2.1, h.2.2⟩, fun h => ⟨h.count, h.sizes, h.room⟩⟩

theorem StatementOk.of_checks {n : Nat} {pageSize : UInt32} {stmts : List Statement} {db : Db}
    (htype : ∀ stmt ∈ stmts, stmt.type ≠ .explain)
    (hcreate : ∀ stmt ∈ stmts, stmt.type = .createTable → CreateOk pageSize stmt)
    (hsep : ∀ c ∈ calls (Statement.step lib) stmts db, separatedAtRemovals lib n c.1 c.2 = true) :
    ∀ c ∈ calls (Statement.step lib) stmts db, StatementOk lib pageSize c.1 c.2 := fun c hc =>
  ⟨htype c.1 (op_mem_of_mem_calls hc), hcreate c.1 (op_mem_of_mem_calls hc),
    KeepsSeparators.of_check lib (hsep c hc)⟩

/-- How many of the statements are INSERTs -/
def inserts (stmts : List Statement) : Nat := stmts.countP fun stmt => stmt.type = .insert

/-! ## One statement -/

/-- The ids are those already given out. -/
def Table.IdsBelow (tab : Table) : Prop := ∀ vs ∈ tab.rows, (rowId vs).toNat < tab.nextId.toNat

section Step

variable {pageSize : UInt32} {db db' : Db} {tab tab' : Table} {stmt : Statement}

/-- What a statement does, in a run in which every internal node keeps a separator -/
theorem Statement.wp_spec (h : Represents pageSize db tab) (hcap : HoldsTwo pageSize)
    (hsmall : pageSize.toNat < 65536) (haccepts : tab.Accepts pageSize stmt)
    (hsep : KeepsSeparators lib stmt db) :
    wpDb (execute lib stmt) db (fun r db' => ∃ tab',
      Table.Step lib (Table.selects lib) stmt tab r tab' ∧ Represents pageSize db' tab')
      (tab.Fails lib stmt) :=
  wpDb_of_wpSep hsep (execute_spec lib h hcap hsmall haccepts)

theorem Represents.idFirst (h : Represents pageSize db tab) :
    tab.cols ≠ [] → ∃ cols, tab.cols = idColumn :: cols := by
  cases h with
  | fresh => exact fun hne => absurd rfl hne
  | table _ hid _ => exact fun _ => hid

theorem Table.rowId_newRow (tab : Table) (stmt : Statement) :
    rowId (tab.newRow lib stmt) = tab.nextId :=
  tab.nextId.toUInt64_toInt64

/-- An INSERT counts the ids; other statements leave the count alone. -/
theorem Table.Step.ids (h : Table.Step lib (Table.selects lib) stmt tab r tab')
    (hbelow : tab.IdsBelow) (hroom : tab.nextId.toNat + inserts [stmt] < 2 ^ 64) :
    tab'.IdsBelow ∧ tab'.nextId.toNat ≤ tab.nextId.toNat + inserts [stmt] := by
  unfold Table.Step at h
  cases htype : stmt.type with
  | createTable =>
    rw [htype] at h
    dsimp only at h
    split at h
    all_goals
      obtain ⟨-, rfl⟩ := h
      exact ⟨hbelow, Nat.le_add_right _ _⟩
  | insert =>
    rw [htype] at h
    dsimp only at h
    split at h
    next =>
      obtain ⟨-, rfl⟩ := h
      exact ⟨hbelow, Nat.le_add_right _ _⟩
    next =>
      obtain ⟨-, rfl⟩ := h
      have hone : inserts [stmt] = 1 := by simp [inserts, htype]
      have hsucc : (tab.nextId + 1).toNat = tab.nextId.toNat + 1 := by
        rw [UInt64.toNat_add]
        apply Nat.mod_eq_of_lt
        show tab.nextId.toNat + 1 < 2 ^ 64
        omega
      -- the counter does not wrap, and the new row has the old count for its id
      refine ⟨fun vs hvs => ?_, by rw [hone]; exact Nat.le_of_eq hsucc⟩
      rw [hsucc]
      rcases List.mem_append.mp hvs with hvs | hvs
      · exact Nat.lt_succ_of_lt (hbelow vs hvs)
      · rw [List.mem_singleton.mp hvs, Table.rowId_newRow lib]
        exact Nat.lt_succ_self _
  | select =>
    rw [htype] at h
    obtain ⟨rfl, -⟩ := h
    exact ⟨hbelow, Nat.le_add_right _ _⟩
  | delete =>
    rw [htype] at h
    obtain ⟨-, -, rfl⟩ := h
    -- the rows that stay were there before
    exact ⟨fun vs hvs => hbelow vs (List.mem_filter.mp hvs).1, Nat.le_add_right _ _⟩
  | explain =>
    rw [htype] at h
    obtain rfl := h
    exact ⟨hbelow, Nat.le_add_right _ _⟩

end Step

/-! ## The index and the heap -/

/-- The id column of a stored row -/
def storedId (row : List UInt8) : Option Key := (i64.get? row 0).map (·.toUInt64)

/-- The index leads to exactly the live rows of the heap, the counters count them, and a look-up
    of an id prints what a scan for the id prints. -/
structure IndexMatchesHeap (db : Db) : Prop where
  search : ∀ key ref, db.exec (bptreeSearch key) = .ok (some ref, db) ↔
    ∃ row, (ref, row) ∈ heapRows db db.header.rowSize ∧ storedId row = some key
  distinct : ∀ key key' ref, db.exec (bptreeSearch key) = .ok (some ref, db) →
    db.exec (bptreeSearch key') = .ok (some ref, db) → key = key'
  rows : db.header.rowCount.toNat = (heapRows db db.header.rowSize).length
  keys : db.header.rowCount.toNat = (treeKeys db).length
  below : ∀ key ∈ treeKeys db, key < db.header.nextId
  lookup : ∀ look scan : Statement, look.predicateKind = .idEq → scan.predicateKind = .fieldEq →
    scan.predField.bytes = idName → (lib.atoll scan.predValue.bytes).toUInt64 = look.predId →
    ∃ r r', db.exec (execIndexLookup look) = .ok (r, db) ∧
      db.exec (execTableScan lib scan) = .ok (r', db) ∧ r.rows = r'.rows

/-- A new database stores no rows. -/
theorem fresh_tableAt {pageSize : UInt32} (hcap : HoldsTwo pageSize)
    (hsmall : pageSize.toNat < 65536) :
    TableAt (Db.fresh pageSize) [] emptyTree [⟨1, [], []⟩] := by
  have h48 := hcap.le_pageSize
  have hdims : HeapDims pageSize 0 := ⟨hsmall, by
    show 16 + 8 + 0 ≤ pageSize.toNat
    omega⟩
  exact ⟨⟨Nat.zero_le _, fun _ h => (nomatch h), trivial, rfl⟩, hcap, hdims,
    fresh_storageInv hcap hdims, List.Perm.refl _, List.Perm.refl _, fun _ h => (nomatch h), rfl⟩

theorem Represents.exists_tableAt {pageSize : UInt32} {db : Db} {tab : Table}
    (h : Represents pageSize db tab) (hcap : HoldsTwo pageSize)
    (hsmall : pageSize.toNat < 65536) : ∃ live t hp, TableAt db live t hp ∧
      tab = ⟨db.header.inUse, live.map Prod.snd, db.header.nextId⟩ ∧
      (live ≠ [] → ∃ cols, db.header.inUse = idColumn :: cols) := by
  cases h with
  | fresh => exact ⟨[], _, _, fresh_tableAt hcap hsmall, rfl, fun hne => absurd rfl hne⟩
  | table _ hid h => exact ⟨_, _, _, h, rfl, fun _ => hid⟩

section Stored

variable {db : Db} {live : List (RowRef × List RowValue)} {t : Tree} {hp : List HeapPage}

theorem storedId_rowBytes {cols : List ColumnMeta} (vs : List RowValue)
    (hlen : vs.length = (idColumn :: cols).length) :
    storedId (rowBytes (idColumn :: cols) vs) = some (rowId vs) := by
  cases vs with
  | nil => exact nomatch hlen
  | cons v vs =>
    have hget : i64.get? (rowBytes (idColumn :: cols) (v :: vs)) 0 = some v.bigintVal :=
      get_mid i64 [] (rowBytes cols vs) v.bigintVal
    rw [storedId, hget]
    rfl

theorem TableAt.lookup_iff (h : TableAt db live t hp) {key : Key} {ref : RowRef} :
    lookup t.entries key = some ref ↔ ∃ x ∈ live, rowId x.2 = key ∧ x.1 = ref := by
  constructor
  · intro hfound
    by_contra hno
    by_cases hid : ∃ x ∈ live, rowId x.2 = key
    · obtain ⟨x, hx, rfl⟩ := hid
      rw [h.lookup_id hx] at hfound
      exact hno ⟨x, hx, rfl, Option.some.inj hfound⟩
    · rw [h.lookup_none fun x hx heq => hid ⟨x, hx, heq⟩] at hfound
      exact nomatch hfound
  · rintro ⟨x, hx, rfl, rfl⟩
    exact h.lookup_id hx

theorem TableAt.search_iff (h : TableAt db live t hp) {key : Key} {ref : RowRef} :
    db.exec (bptreeSearch key) = .ok (some ref, db) ↔ ∃ x ∈ live, rowId x.2 = key ∧ x.1 = ref := by
  obtain ⟨r, db', hexec, hdb, hr⟩ := wpDb_total (bptreeSearch_spec h.storage.tree.toTreeShape key)
  rw [hexec, hdb, hr, ← h.lookup_iff]
  simp

theorem toUInt64_inj {a b : Int64} (h : a.toUInt64 = b.toUInt64) : a = b := by
  rw [← Int64.toInt64_toUInt64 a, h, Int64.toInt64_toUInt64]

/-- A condition on the id, tested row by row -/
theorem selects_scanId {look scan : Statement} {cols : List ColumnMeta}
    (hlook : look.predicateKind = .idEq) (hscan : scan.predicateKind = .fieldEq)
    (hname : scan.predField.bytes = idName)
    (hval : (lib.atoll scan.predValue.bytes).toUInt64 = look.predId) (vs : List RowValue)
    (hlen : vs.length = (idColumn :: cols).length) :
    Table.selects lib scan (idColumn :: cols) vs = Table.selects lib look (idColumn :: cols) vs := by
  cases vs with
  | nil => exact nomatch hlen
  | cons v vs =>
    have hid : cString idColumn.name.toList = idName := by decide
    have htype : ColumnType.ofCode? idColumn.type = some .bigint := rfl
    unfold Table.selects
    rw [hscan, hlook]
    simp only [List.zip_cons_cons, matchLoop, hid, hname, if_true, htype, rowId, List.headD_cons,
      ← hval]
    exact decide_eq_decide.mpr ⟨congrArg Int64.toUInt64, toUInt64_inj⟩

/-- A single row has one order only. -/
theorem eq_of_perm_of_length_le_one {α : Type} {l l' m : List α} (h : l.Perm m) (h' : l'.Perm m)
    (hlen : m.length ≤ 1) : l = l' := by
  cases m with
  | nil => rw [h.eq_nil, h'.eq_nil]
  | cons a m =>
    have hnil : m = [] := List.length_eq_zero_iff.mp (by
      rw [List.length_cons] at hlen
      omega)
    rw [hnil] at h h'
    rw [List.perm_singleton.mp h, List.perm_singleton.mp h']

/-- What the index, the heap and the counters have to do with each other -/
theorem TableAt.indexMatchesHeap (h : TableAt db live t hp)
    (hid : live ≠ [] → ∃ cols, db.header.inUse = idColumn :: cols)
    (hbelow : ∀ x ∈ live, (rowId x.2).toNat < db.header.nextId.toNat) :
    IndexMatchesHeap lib db := by
  have hrows : heapRows db db.header.rowSize = liveRows hp := h.storage.heap.heapRows_eq
  have hkeys := h.storage.tree.toTreeShape.treeKeys_eq
  have hcols : ∀ x ∈ live, ∃ cols, db.header.inUse = idColumn :: cols := fun x hx =>
    hid (List.ne_nil_of_mem hx)
  -- the id is the first cell of the bytes
  have hstored : ∀ x ∈ live, storedId (rowBytes db.header.inUse x.2) = some (rowId x.2) := by
    intro x hx
    obtain ⟨cols, hcols⟩ := hcols x hx
    have hlen := (h.fits x hx).1
    rw [hcols] at hlen ⊢
    exact storedId_rowBytes x.2 hlen
  -- the index leads to the rows, and to each by one id; the two counters; the ids below the
  -- next one; a lookup and a scan
  refine ⟨fun key ref => ?_, fun key key' ref hkey hkey' => ?_, ?_, ?_, fun key hkey => ?_,
    fun look scan hlook hscan hname hval => ?_⟩
  · rw [h.search_iff, hrows]
    constructor
    · rintro ⟨x, hx, rfl, rfl⟩
      exact ⟨_, h.heap.mem_iff.mpr (List.mem_map.mpr ⟨x, hx, rfl⟩), hstored x hx⟩
    · rintro ⟨row, hmem, hstore⟩
      obtain ⟨x, hx, heq⟩ := List.mem_map.mp (h.heap.mem_iff.mp hmem)
      obtain ⟨href, hrow⟩ := Prod.mk.inj heq
      rw [← hrow, hstored x hx] at hstore
      exact ⟨x, hx, Option.some.inj hstore, href⟩
  · -- a slot holds one row
    obtain ⟨x, hx, rfl, hrefx⟩ := h.search_iff.mp hkey
    obtain ⟨y, hy, rfl, hrefy⟩ := h.search_iff.mp hkey'
    have hnodup : (live.map Prod.fst).Nodup := by
      have hslots := (h.heap.map Prod.fst).nodup_iff.mp h.storage.heap.liveRows_nodup
      rwa [List.map_map] at hslots
    rw [List.inj_on_of_nodup_map hnodup hx hy (hrefx.trans hrefy.symm)]
  · rw [hrows, h.heap.length_eq, List.length_map]
    exact h.count
  · have hlen := h.index.length_eq
    rw [List.length_map, List.length_map] at hlen
    rw [hkeys, List.length_map, hlen]
    exact h.count
  · rw [hkeys] at hkey
    obtain ⟨e, he, rfl⟩ := List.mem_map.mp hkey
    have hmem := h.index.mem_iff.mp (List.mem_map.mpr ⟨e, he, rfl⟩)
    obtain ⟨x, hx, heq⟩ := List.mem_map.mp hmem
    rw [← (Prod.mk.inj heq).1, UInt64.lt_iff_toNat_lt]
    exact hbelow x hx
  · obtain ⟨r, db₁, hexec, hdb₁, -, found, hfound, hr⟩ := wpDb_total
      (execIndexLookup_spec lib h hlook)
    obtain ⟨r', db₂, hexec', hdb₂, -, found', hfound', hr'⟩ := wpDb_total
      (execTableScan_spec lib h (show scan.predicateKind ≠ .idEq by rw [hscan]; decide))
    rw [hdb₁] at hexec
    rw [hdb₂] at hexec'
    refine ⟨r, r', hexec, hexec', ?_⟩
    -- both find the rows with the id
    have hsame : (live.map Prod.snd).filter (Table.selects lib scan db.header.inUse) =
        (live.map Prod.snd).filter (Table.selects lib look db.header.inUse) := by
      refine List.filter_congr fun vs hvs => ?_
      obtain ⟨x, hx, rfl⟩ := List.mem_map.mp hvs
      obtain ⟨cols, hcols⟩ := hcols x hx
      have hlen := (h.fits x hx).1
      rw [hcols] at hlen ⊢
      exact selects_scanId lib hlook hscan hname hval x.2 hlen
    -- at most one row has the id, so the order does not matter
    have hone : ((live.map Prod.snd).filter (Table.selects lib look db.header.inUse)).length ≤ 1 := by
      rw [selects_idEq lib hlook, List.filter_map, List.length_map]
      by_cases hex : ∃ x ∈ live, rowId x.2 = look.predId
      · obtain ⟨x, hx, hxid⟩ := hex
        obtain ⟨A, B, rfl⟩ := List.append_of_mem hx
        have hfilter := congrArg List.length h.filter_id
        rw [hxid] at hfilter
        exact Nat.le_of_eq hfilter
      · rw [List.filter_eq_nil_iff.mpr fun x hx => by simpa using fun heq => hex ⟨x, hx, heq⟩]
        exact Nat.zero_le _
    rw [hsame] at hfound'
    rw [hr, hr', eq_of_perm_of_length_le_one hfound hfound' hone]

end Stored

/-! ## Whole runs -/

/-- `pager_open` writes the header of the database into page 0, so that every page of a database
    has room for two entries of a node. -/
theorem HoldsTwo.of_header {pageSize : UInt32} (h : dbHeaderC.size ≤ pageSize.toNat) :
    HoldsTwo pageSize := by
  rw [dbHeaderC_size] at h
  constructor
  · rw [leafEntryC_size, leafBase]
    omega
  · rw [internalEntryC_size, internalBase]
    omega

section Run

variable {pageSize : UInt32} {stmts : List Statement}

/-- The database stands for a table, and there are ids for the statements still to come. -/
def RunsOn (pageSize : UInt32) (stmts : List Statement) (tab : Table) (db : Db) : Prop :=
  Represents pageSize db tab ∧ tab.IdsBelow ∧ tab.nextId.toNat + inserts stmts ≤ 2 ^ 63

theorem RunsOn.accepts {stmt : Statement} {tab : Table} {db : Db}
    (h : RunsOn pageSize (stmt :: stmts) tab db) (hok : StatementOk lib pageSize stmt db) :
    tab.Accepts pageSize stmt := by
  unfold Table.Accepts
  cases htype : stmt.type with
  | createTable => exact hok.create htype
  | insert =>
    intro vs hvs heq
    have hlt := h.2.1 vs hvs
    rw [heq] at hlt
    exact Nat.lt_irrefl _ hlt
  | explain => exact absurd htype hok.type
  | _ => trivial

theorem inserts_cons (stmt : Statement) (stmts : List Statement) :
    inserts (stmt :: stmts) = inserts [stmt] + inserts stmts := by
  unfold inserts
  rw [← List.singleton_append, List.countP_append]

theorem Statement.runsOn (hcap : HoldsTwo pageSize) (hsmall : pageSize.toNat < 65536)
    (stmt : Statement) (stmts : List Statement) (tab : Table) (db : Db)
    (h : RunsOn pageSize (stmt :: stmts) tab db) (hok : StatementOk lib pageSize stmt db) :
    ∀ r db', stmt.step lib db = .ok (r, db') →
      ∃ tab', Table.Step lib (Table.selects lib) stmt tab r tab' ∧ RunsOn pageSize stmts tab' db' := by
  intro r db' hstep
  obtain ⟨tab', hspec, hrep⟩ := (wpDb_exec (Statement.wp_spec lib h.1 hcap hsmall
    (h.accepts lib hok) hok.separated)).1 r db' hstep
  have hroom := h.2.2
  rw [inserts_cons] at hroom
  obtain ⟨hbelow, hnext⟩ := hspec.ids lib h.2.1 (by omega)
  exact ⟨tab', hspec, hrep, hbelow, by omega⟩

/-- No INSERT of a run on a table reports a duplicate key. -/
theorem insert_ne_duplicateKey {rs : List ExecResult} {tab tab' : Table}
    (h : SpecRun (Table.Step lib (Table.selects lib)) stmts tab rs tab') :
    ∀ p ∈ stmts.zip rs, p.1.type = .insert → p.2.message ≠ .duplicateKey := by
  induction h with
  | nil => exact fun p hp => nomatch hp
  | @cons stmt stmts tab tab₁ tab₂ r rs hstep hrest ih =>
    intro p hp htype
    rw [List.zip_cons_cons, List.mem_cons] at hp
    rcases hp with rfl | hp
    · unfold Table.Step at hstep
      rw [htype] at hstep
      dsimp only at hstep
      split at hstep
      all_goals
        rw [hstep.1]
        exact nofun
    · exact ih p hp htype

/-- In every state of a run the index and the heap agree, no INSERT meets its id in the index,
    every removal finds its row, and the counter of rows never runs below 0.  A run stops when
    the page ids run out, or at a DELETE of more rows than its array of ids holds. -/
theorem statementRun_index (hcap : HoldsTwo pageSize) (hsmall : pageSize.toNat < 65536)
    (hinserts : inserts stmts < 2 ^ 63)
    (hok : ∀ c ∈ calls (Statement.step lib) stmts (Db.fresh pageSize),
      StatementOk lib pageSize c.1 c.2) :
    (∀ rs db, runAll (Statement.step lib) stmts (Db.fresh pageSize) = .ok (rs, db) →
      IndexMatchesHeap lib db ∧
      ∀ p ∈ stmts.zip rs, p.1.type = .insert → p.2.message ≠ .duplicateKey) ∧
    (∀ c ∈ calls (Statement.step lib) stmts (Db.fresh pageSize),
      ∀ e ∈ c.2.events (execute lib c.1), EventOk e.1 e.2) ∧
    ∀ e, runAll (Statement.step lib) stmts (Db.fresh pageSize) = .error e → e = .idsExhausted ∨
      e = .outOfBounds ∧ ∃ c ∈ calls (Statement.step lib) stmts (Db.fresh pageSize),
        c.1.type = .delete ∧ 2 ^ 31 < (heapRows c.2 c.2.header.rowSize).length := by
  have hone : (1 : UInt64).toNat = 1 := rfl
  -- each INSERT still to come has an id left
  have hstart : RunsOn pageSize stmts Table.none (Db.fresh pageSize) := by
    refine ⟨Represents.fresh, fun vs hvs => (nomatch hvs), ?_⟩
    show (1 : UInt64).toNat + inserts stmts ≤ 2 ^ 63
    omega
  have hstep := Statement.runsOn lib hcap hsmall
  -- and so it is at every call
  have hcalls := calls_rest hstep hstart hok
  refine ⟨fun rs db hrun => ?_, fun c hc => ?_, fun e hrun => ?_⟩
  · obtain ⟨tab, hspec, hrep, hbelow, -⟩ := runAll_rest hstep hstart hok hrun
    obtain ⟨live, t, hp, hat, rfl, hid⟩ := hrep.exists_tableAt hcap hsmall
    exact ⟨hat.indexMatchesHeap lib hid fun x hx => hbelow x.2 (List.mem_map_of_mem hx),
      insert_ne_duplicateKey lib hspec⟩
  · obtain ⟨tab, rest, hruns⟩ := hcalls c hc
    exact wpDb_events (Statement.wp_spec lib hruns.1 hcap hsmall (hruns.accepts lib (hok c hc))
      (hok c hc).separated)
  · obtain ⟨c, hc, hce⟩ := exists_call_of_error hrun
    obtain ⟨tab, rest, hruns⟩ := hcalls c hc
    have hfails := (wpDb_exec (Statement.wp_spec lib hruns.1 hcap hsmall
      (hruns.accepts lib (hok c hc)) (hok c hc).separated)).2 e hce
    refine hfails.imp_right fun hover => ⟨hover.1, c, hc, hover.2.1, ?_⟩
    obtain ⟨live, t, hp, hat, rfl, -⟩ := hruns.1.exists_tableAt hcap hsmall
    have hrows : heapRows c.2 c.2.header.rowSize = liveRows hp := hat.storage.heap.heapRows_eq
    have hlen := List.length_filter_le (Table.selects lib c.1 c.2.header.inUse)
      (live.map Prod.snd)
    -- the DELETE selects some of the rows of the heap
    rw [hrows, hat.heap.length_eq, List.length_map, ← List.length_map (f := Prod.snd)]
    exact Nat.lt_of_lt_of_le hover.2.2.2 hlen

end Run

end Lib

/-- The statements of texts -/
def statements (texts : List String) : List Statement :=
  texts.filterMap fun text => (parse CLib.wrapping (utf8 text)).toOption

theorem statements_parsed (texts : List String) :
    ∀ stmt ∈ statements texts, ∃ text, parse CLib.wrapping text = .ok stmt := by
  intro stmt hstmt
  obtain ⟨text, -, hparse⟩ := List.mem_filterMap.mp hstmt
  refine ⟨utf8 text, ?_⟩
  cases hp : parse CLib.wrapping (utf8 text) with
  | error e =>
    rw [hp] at hparse
    exact nomatch hparse
  | ok s =>
    rw [hp] at hparse
    rw [Option.some.inj hparse]

/-- A table with one column, four rows, and the removal of two of them at once -/
def storeRun : List Statement :=
  statements ["CREATE TABLE t (n INT)", "INSERT INTO t VALUES (5)", "INSERT INTO t VALUES (7)",
    "INSERT INTO t VALUES (5)", "DELETE FROM t WHERE n = 5", "INSERT INTO t VALUES (7)",
    "SELECT * FROM t WHERE id = 4"]

theorem storeRun_ok : ∀ c ∈ calls (Statement.step CLib.wrapping) storeRun (Db.fresh 48),
    StatementOk CLib.wrapping 48 c.1 c.2 :=
  StatementOk.of_checks CLib.wrapping (by decide +kernel) (by decide +kernel)
    (show ∀ c ∈ calls (Statement.step CLib.wrapping) storeRun (Db.fresh 48),
      separatedAtRemovals CLib.wrapping 2 c.1 c.2 = true by decide +kernel)

theorem statementRun_index_48 :
    (∀ rs db, runAll (Statement.step CLib.wrapping) storeRun (Db.fresh 48) = .ok (rs, db) →
      IndexMatchesHeap CLib.wrapping db ∧
      ∀ p ∈ storeRun.zip rs, p.1.type = .insert → p.2.message ≠ .duplicateKey) ∧
    (∀ c ∈ calls (Statement.step CLib.wrapping) storeRun (Db.fresh 48),
      ∀ e ∈ c.2.events (execute CLib.wrapping c.1), EventOk e.1 e.2) ∧
    ∀ e, runAll (Statement.step CLib.wrapping) storeRun (Db.fresh 48) = .error e →
      e = .idsExhausted ∨ e = .outOfBounds ∧
        ∃ c ∈ calls (Statement.step CLib.wrapping) storeRun (Db.fresh 48),
          c.1.type = .delete ∧ 2 ^ 31 < (heapRows c.2 c.2.header.rowSize).length :=
  statementRun_index CLib.wrapping ⟨by decide, by decide⟩ (by decide) (by decide +kernel) storeRun_ok

end MiniDb
