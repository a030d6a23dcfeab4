import MiniDb.Sql.TableRuns
import MiniDb.Sql.RoundTrip

/-!
# What the names in conditions mean

The parser takes every spelling of `id` for the system column, the executor compares names
exactly.  The two agree unless a user column has one of these spellings.

## Key results

- `selects_eq_satisfies`: the access path leads to the rows the condition holds for
- `statementRun_table`: runs of statements act on a table of rows
-/

namespace MiniDb

open Bytes CText Lists Runs

section Lib

variable (lib : CLib)

/-! ## Parsed conditions -/

/-- What the parser makes of the field and the value of a condition -/
structure Classified (stmt : Statement) : Prop where
  id : stmt.predicateKind = .idEq → stmt.predField.bytes.map toLower = idWord ∧
    stmt.predId = (lib.atoll stmt.predValue.bytes).toUInt64
  field : stmt.predicateKind = .fieldEq → stmt.predField.bytes.map toLower ≠ idWord

theorem Classified.of_none {stmt : Statement} (h : stmt.predicateKind = .none) :
    Classified lib stmt :=
  ⟨fun hid => (nomatch h.symm.trans hid), fun hfield => nomatch h.symm.trans hfield⟩

theorem classified_withPredicate (stmt : Statement) (field : CString 32) (value : CString 256) :
    Classified lib (withPredicate lib stmt field value) := by
  unfold withPredicate
  split
  next hid => exact ⟨fun _ => ⟨(isIdField_iff field).mp hid, rfl⟩, nofun⟩
  next hid => exact ⟨nofun, fun _ hlower => hid ((isIdField_iff field).mpr hlower)⟩

theorem classified_parseFrom {p : List UInt8} {stmt stmt' : Statement}
    (h : parseFrom lib p stmt = .ok stmt') : Classified lib stmt' := by
  obtain ⟨-, rfl⟩ | ⟨-, -, rfl⟩ := parseWhere_cases lib (parseFrom_cases lib h).2
  · exact Classified.of_none lib rfl
  · exact classified_withPredicate ..

theorem parse_classified {text : List UInt8} {stmt : Statement} (h : parse lib text = .ok stmt)
    (htype : stmt.type ≠ .explain) : Classified lib stmt := by
  rw [parse_eq] at h
  obtain ⟨-, -, h⟩ | ⟨-, h⟩ | ⟨-, h⟩ | ⟨-, h⟩ | ⟨-, s, -, rfl⟩ := parseStatement_cases lib h
  · obtain ⟨-, defs, r, -, rfl⟩ := parseCreateTable_cases lib h
    exact Classified.of_none lib rfl
  · obtain ⟨-, -, -, values, r, -, rfl⟩ := parseInsert_cases h
    exact Classified.of_none lib rfl
  · obtain ⟨-, h⟩ | ⟨-, h⟩ := parseSelect_cases lib h
    · exact classified_parseFrom lib h
    · exact classified_parseFrom lib h
  · exact classified_parseFrom lib h
  · exact absurd rfl htype

/-! ## The row a condition holds for -/

/-- The loop of `match_predicate` tests the first column with the name. -/
theorem matchLoop_eq {stmt : Statement} {cols : List ColumnMeta} (hok : ∀ col ∈ cols, ColumnOk col)
    (vs : List RowValue) : matchLoop lib stmt (cols.zip vs) =
      Table.holdsAt lib cols vs stmt.predField.bytes stmt.predValue := by
  induction cols generalizing vs with
  | nil => rfl
  | cons col cols ih =>
    cases vs with
    | nil => rfl
    | cons v vs =>
      have hrest := ih (fun c hc => hok c (List.mem_cons_of_mem _ hc)) vs
      have hcol := hok col (List.mem_cons_self ..)
      unfold Table.holdsAt at hrest ⊢
      rw [List.zip_cons_cons, matchLoop]
      by_cases hname : cString col.name.toList = stmt.predField.bytes
      · rw [if_pos hname, List.find?_cons_of_pos (by simpa using hname)]
        dsimp only
        unfold Table.valueIs
        unfold ColumnOk at hcol
        cases htype : ColumnType.ofCode? col.type with
        | none =>
          rw [htype] at hcol
          exact hcol.elim
        | some type => cases type <;> rfl
      · rw [if_neg hname, List.find?_cons_of_neg (by simpa using hname)]
        exact hrest

/-- A condition on the system column compares the id. -/
theorem holdsAt_id (cols : List ColumnMeta) (v : RowValue) (vs : List RowValue)
    (text : CString 256) : Table.holdsAt lib (idColumn :: cols) (v :: vs) idName text =
      decide (rowId (v :: vs) = (lib.atoll text.bytes).toUInt64) := by
  have hid : cString idColumn.name.toList = idName := by decide
  have htype : ColumnType.ofCode? idColumn.type = some .bigint := rfl
  unfold Table.holdsAt
  rw [List.zip_cons_cons, List.find?_cons_of_pos (by simpa using hid)]
  dsimp only
  unfold Table.valueIs
  rw [htype]
  exact decide_eq_decide.mpr ⟨congrArg Int64.toUInt64, toUInt64_inj⟩

/-- A condition that goes to the index is not about a user column. -/
def MeansId (stmt : Statement) (cols : List ColumnMeta) : Prop :=
  stmt.predicateKind = .idEq →
    stmt.predField.bytes = idName ∨ ∀ col ∈ cols, cString col.name.toList ≠ stmt.predField.bytes

/-- The access path leads to exactly the rows that the condition holds for. -/
theorem selects_eq_satisfies {stmt : Statement} {cols : List ColumnMeta}
    (hparsed : Classified lib stmt) (hmeans : MeansId stmt (idColumn :: cols))
    (hok : ∀ col ∈ idColumn :: cols, ColumnOk col) {vs : List RowValue}
    (hlen : vs.length = (idColumn :: cols).length) :
    Table.selects lib stmt (idColumn :: cols) vs =
      Table.satisfies lib stmt (idColumn :: cols) vs := by
  have hidIn : (idColumn :: cols).any fun col => cString col.name.toList = idName := by
    rw [List.any_cons]
    exact (Bool.or_eq_true ..).mpr (Or.inl (by decide))
  unfold Table.selects Table.satisfies Table.meant
  cases hkind : stmt.predicateKind with
  | none => rfl
  -- a condition on a field: the field is not `id`, so both ask for the column of that name
  | fieldEq =>
    have hno : ¬ (keyword idWord stmt.predField.bytes && decide (stmt.predField.bytes.length = 2)) =
        true := fun hid => hparsed.field hkind ((isIdField_iff _).mp hid)
    rw [if_neg hno, ite_self]
    exact matchLoop_eq lib hok vs
  | idEq =>
    obtain ⟨hlower, hval⟩ := hparsed.id hkind
    -- `field = 5` with `field` spelled like `id`: the executor takes the first column
    have hyes := (isIdField_iff stmt.predField).mpr hlower
    -- and so does the reference, unless another column has exactly that name
    have hname : (if (idColumn :: cols).any fun col =>
          cString col.name.toList = stmt.predField.bytes then stmt.predField.bytes
        else if keyword idWord stmt.predField.bytes && stmt.predField.bytes.length = 2 then idName
        else stmt.predField.bytes) = idName := by
      rcases hmeans hkind with hexact | hnone
      · rw [hexact, if_pos hidIn]
      · rw [if_neg (by simpa using hnone), if_pos hyes]
    cases vs with
    | nil => exact nomatch hlen
    | cons v vs =>
      rw [hname, holdsAt_id, hval]
      rfl

/-! ## Runs on a table of rows -/

/-- The rows that the database stores -/
def storedRows (db : Db) : List (List RowValue) :=
  (heapRows db db.header.rowSize).filterMap fun x => rowDeserialize db.header x.2

/-- What a statement must find in the database to do what it says: an id that is not in the
    index, a condition on `id` that is not about a user column, and for a DELETE by a scan no
    more rows than its array of ids holds -/
structure Faithful (stmt : Statement) (db : Db) : Prop where
  newId : stmt.type = .insert → ∀ ref, db.exec (bptreeSearch db.header.nextId) ≠ .ok (some ref, db)
  means : MeansId stmt db.header.inUse
  room : stmt.type = .delete → stmt.predicateKind ≠ .idEq →
    ((storedRows db).filter (Table.satisfies lib stmt db.header.inUse)).length ≤ 2 ^ 31

section Run

variable {pageSize : UInt32} {stmts : List Statement}

theorem TableAt.storedRows_perm {db : Db} {live : List (RowRef × List RowValue)} {t : Tree}
    {hp : List HeapPage} (h : TableAt db live t hp) :
    (storedRows db).Perm (live.map Prod.snd) := by
  obtain ⟨met, hperm, hmet⟩ := h.scanned
  have hrows : heapRows db db.header.rowSize = liveRows hp := h.storage.heap.heapRows_eq
  have hread : ∀ x ∈ met, rowDeserialize db.header (rowBytes db.header.inUse x.2) = some x.2 :=
    fun x hx => h.deserialize (hperm.mem_iff.mp hx)
  have hmap : storedRows db = met.map Prod.snd := by
    unfold storedRows
    rw [hrows, hmet, List.filterMap_map, ← List.filterMap_eq_map]
    exact List.filterMap_congr hread
  rw [hmap]
  exact hperm.map Prod.snd

/-- A statement that finds what it needs selects the rows its condition holds for. -/
theorem Table.Step.congr {sel sel' : Statement → List ColumnMeta → List RowValue → Bool}
    {stmt : Statement} {tab tab' : Table} {r : ExecResult} (h : Table.Step lib sel stmt tab r tab')
    (hsel : ∀ vs ∈ tab.rows, sel stmt tab.cols vs = sel' stmt tab.cols vs) :
    Table.Step lib sel' stmt tab r tab' := by
  have hfilter : tab.rows.filter (sel stmt tab.cols) = tab.rows.filter (sel' stmt tab.cols) :=
    List.filter_congr hsel
  have hrest : (tab.rows.filter fun vs => !sel stmt tab.cols vs) =
      tab.rows.filter fun vs => !sel' stmt tab.cols vs :=
    List.filter_congr fun vs hvs => by rw [hsel vs hvs]
  unfold Table.Step at h ⊢
  rw [hfilter, hrest] at h
  exact h

section Cases

variable {lib} {sel : Statement → List ColumnMeta → List RowValue → Bool} {stmt : Statement}
  {tab tab' : Table} {r : ExecResult}

theorem Table.Step.createTable_eq (h : Table.Step lib sel stmt tab r tab') (htype : stmt.type = .createTable)
    (hnone : tab.cols = []) :
    tab' = { tab with cols := layoutFrom 0 (tableColumns stmt.colDefs) } := by
  unfold Table.Step at h
  rw [htype] at h
  dsimp only at h
  rw [if_pos hnone] at h
  exact h.2

theorem Table.Step.insert_eq (h : Table.Step lib sel stmt tab r tab') (htype : stmt.type = .insert)
    (hcols : tab.cols ≠ []) : tab' = { tab with
      rows := tab.rows ++ [tab.newRow lib stmt], nextId := tab.nextId + 1 } := by
  unfold Table.Step at h
  rw [htype] at h
  dsimp only at h
  rw [if_neg hcols] at h
  exact h.2

theorem Table.Step.select_length (h : Table.Step lib sel stmt tab r tab') (htype : stmt.type = .select) :
    r.rows.length = (tab.rows.filter (sel stmt tab.cols)).length := by
  unfold Table.Step at h
  rw [htype] at h
  obtain ⟨-, -, found, hperm, hrows⟩ := h
  rw [hrows, List.length_map, hperm.length_eq]
end Cases

/-- What a faithful statement does -/
theorem Faithful.step {stmt : Statement} {tab : Table} {db : Db} (h : Represents pageSize db tab)
    (hcap : HoldsTwo pageSize) (hsmall : pageSize.toNat < 65536)
    (hparsed : ∃ text, parse lib text = .ok stmt) (hok : StatementOk lib pageSize stmt db)
    (hfaithful : Faithful lib stmt db) :
    wpDb (execute lib stmt) db fun r db' => ∃ tab',
      Table.Step lib (Table.satisfies lib) stmt tab r tab' ∧ Represents pageSize db' tab' := by
  obtain ⟨live, t, hp, hat, rfl, hid⟩ := h.exists_tableAt hcap hsmall
  obtain ⟨text, hparsed⟩ := hparsed
  have hclass := parse_classified lib hparsed hok.type
  -- on the stored rows the two readings of the condition agree
  have hsel : ∀ vs ∈ live.map Prod.snd, Table.selects lib stmt db.header.inUse vs =
      Table.satisfies lib stmt db.header.inUse vs := by
    intro vs hvs
    obtain ⟨x, hx, rfl⟩ := List.mem_map.mp hvs
    obtain ⟨cols, hcols⟩ := hid (List.ne_nil_of_mem hx)
    have hmeans := hfaithful.means
    have hcolumns := hat.schema.columns
    have hlen := (hat.fits x hx).1
    rw [hcols] at hmeans hcolumns hlen ⊢
    exact selects_eq_satisfies lib hclass hmeans hcolumns hlen
  -- an INSERT gets a new id, since the index has none like it
  have haccepts : Table.Accepts pageSize stmt ⟨db.header.inUse, live.map Prod.snd, db.header.nextId⟩ := by
    unfold Table.Accepts
    cases htype : stmt.type with
    | createTable => exact hok.create htype
    | insert =>
      intro vs hvs heq
      obtain ⟨x, hx, rfl⟩ := List.mem_map.mp hvs
      exact hfaithful.newId htype x.1 (hat.search_iff.mpr ⟨x, hx, heq, rfl⟩)
    | explain => exact absurd htype hok.type
    | _ => trivial
  have hwp := Statement.wp_spec lib h hcap hsmall haccepts hok.separated
  refine wpDb_mono (wpDb_mono_tol hwp fun e he => ?_) ?_
  · -- the array of ids holds all rows
    refine he.resolve_right fun hover => ?_
    obtain ⟨-, htype, hkind, hfull⟩ := hover
    have hroom := hfaithful.room htype hkind
    rw [(hat.storedRows_perm.filter _).length_eq, ← List.filter_congr hsel] at hroom
    exact Nat.not_le.mpr hfull hroom
  · rintro r db' ⟨tab', hstep, hrep⟩
    exact ⟨tab', hstep.congr lib hsel, hrep⟩

/-- Where every statement finds what it needs, a run acts on a table of rows with different ids
    as its conditions say, and the counter of rows counts them. -/
theorem statementRun_table (hcap : HoldsTwo pageSize) (hsmall : pageSize.toNat < 65536)
    (hparsed : ∀ stmt ∈ stmts, ∃ text, parse lib text = .ok stmt)
    (hok : ∀ c ∈ calls (Statement.step lib) stmts (Db.fresh pageSize),
      StatementOk lib pageSize c.1 c.2)
    (hfaithful : ∀ c ∈ calls (Statement.step lib) stmts (Db.fresh pageSize),
      Faithful lib c.1 c.2) :
    (∀ rs db, runAll (Statement.step lib) stmts (Db.fresh pageSize) = .ok (rs, db) →
      ∃ tab, SpecRun (Table.Step lib (Table.satisfies lib)) stmts Table.none rs tab ∧
        (tab.rows.map rowId).Nodup ∧ db.header.rowCount.toNat = tab.rows.length) ∧
    ∀ e, runAll (Statement.step lib) stmts (Db.fresh pageSize) = .error e → e = .idsExhausted := by
  have hstep : ∀ stmt tab db, Represents pageSize db tab →
      (∃ text, parse lib text = .ok stmt) ∧ StatementOk lib pageSize stmt db ∧
        Faithful lib stmt db →
      (∀ r db', stmt.step lib db = .ok (r, db') →
        ∃ tab', Table.Step lib (Table.satisfies lib) stmt tab r tab' ∧
          Represents pageSize db' tab') ∧
      ∀ e, stmt.step lib db = .error e → e = .idsExhausted := fun stmt tab db hrep hok =>
    wpDb_exec (Faithful.step lib hrep hcap hsmall hok.1 hok.2.1 hok.2.2)
  obtain ⟨hrun, hfault⟩ := runAll_spec hstep (Represents.fresh : Represents pageSize _ _)
    fun c hc => ⟨hparsed c.1 (op_mem_of_mem_calls hc), hok c hc, hfaithful c hc⟩
  refine ⟨fun rs db hrs => ?_, hfault⟩
  obtain ⟨tab, hspec, hrep⟩ := hrun rs db hrs
  obtain ⟨live, t, hp, hat, rfl, -⟩ := hrep.exists_tableAt hcap hsmall
  refine ⟨_, hspec, ?_, ?_⟩
  · rw [List.map_map]
    exact hat.ids_nodup
  · rw [List.length_map]
    exact hat.count

end Run

end Lib

instance (stmt : Statement) (cols : List ColumnMeta) : Decidable (MeansId stmt cols) := by
  unfold MeansId
  infer_instance

theorem storeRun_faithful : ∀ c ∈ calls (Statement.step CLib.wrapping) storeRun (Db.fresh 48),
    Faithful CLib.wrapping c.1 c.2 := by
  have hnew : ∀ c ∈ calls (Statement.step CLib.wrapping) storeRun (Db.fresh 48),
      c.1.type = .insert → ((c.2.exec (bptreeSearch c.2.header.nextId)).toOption.map
        Prod.fst).join = none := by decide +kernel
  have hmeans : ∀ c ∈ calls (Statement.step CLib.wrapping) storeRun (Db.fresh 48),
      MeansId c.1 c.2.header.inUse := by decide +kernel
  have hroom : ∀ c ∈ calls (Statement.step CLib.wrapping) storeRun (Db.fresh 48),
      c.1.type = .delete → c.1.predicateKind ≠ .idEq → ((storedRows c.2).filter
        (Table.satisfies CLib.wrapping c.1 c.2.header.inUse)).length ≤ 2 ^ 31 := by decide +kernel
  refine fun c hc => ⟨fun htype ref hfound => ?_, hmeans c hc, hroom c hc⟩
  have hnone := hnew c hc htype
  rw [hfound] at hnone
  exact nomatch hnone

theorem statementRun_table_48 :
    (∀ rs db, runAll (Statement.step CLib.wrapping) storeRun (Db.fresh 48) = .ok (rs, db) →
      ∃ tab, SpecRun (Table.Step CLib.wrapping (Table.satisfies CLib.wrapping)) storeRun
          Table.none rs tab ∧
        (tab.rows.map rowId).Nodup ∧ db.header.rowCount.toNat = tab.rows.length) ∧
    ∀ e, runAll (Statement.step CLib.wrapping) storeRun (Db.fresh 48) = .error e →
      e = .idsExhausted :=
  statementRun_table CLib.wrapping ⟨by decide, by decide⟩ (by decide) (statements_parsed _)
    storeRun_ok storeRun_faithful

/-- A table whose only user column is called `ID`, one row, and a search in this column -/
def upperIdRun : List Statement :=
  statements ["CREATE TABLE t (ID INT)", "INSERT INTO t VALUES (5)", "SELECT * FROM t WHERE ID = 5"]

theorem upperIdRun_ok : ∀ c ∈ calls (Statement.step CLib.wrapping) upperIdRun (Db.fresh 48),
    StatementOk CLib.wrapping 48 c.1 c.2 :=
  StatementOk.of_checks CLib.wrapping (by decide +kernel) (by decide +kernel)
    (show ∀ c ∈ calls (Statement.step CLib.wrapping) upperIdRun (Db.fresh 48),
      separatedAtRemovals CLib.wrapping 2 c.1 c.2 = true by decide +kernel)

/-- The search for 5 in the column `ID` finds no row. -/
theorem upperIdRun_table : ¬ ∀ (lib : CLib) (pageSize : UInt32) (stmts : List Statement),
    HoldsTwo pageSize → pageSize.toNat < 65536 →
    (∀ stmt ∈ stmts, ∃ text, parse lib text = .ok stmt) →
    (∀ c ∈ calls (Statement.step lib) stmts (Db.fresh pageSize),
      StatementOk lib pageSize c.1 c.2) →
    ∀ rs db, runAll (Statement.step lib) stmts (Db.fresh pageSize) = .ok (rs, db) →
      ∃ tab, SpecRun (Table.Step lib (Table.satisfies lib)) stmts Table.none rs tab ∧
        (tab.rows.map rowId).Nodup ∧ db.header.rowCount.toNat = tab.rows.length := by
  intro hall
  have hrows : (runAll (Statement.step CLib.wrapping) upperIdRun (Db.fresh 48)).toOption.map
      (fun r => r.1.map ExecResult.rows) = some [[], [], []] := by decide +kernel
  cases hrun : runAll (Statement.step CLib.wrapping) upperIdRun (Db.fresh 48) with
  | error e =>
    rw [hrun] at hrows
    exact nomatch hrows
  | ok out =>
    obtain ⟨rs, db⟩ := out
    rw [hrun] at hrows
    obtain ⟨tab, hspec, -⟩ := hall CLib.wrapping 48 upperIdRun ⟨by decide, by decide⟩ (by decide)
      (statements_parsed _) upperIdRun_ok rs db hrun
    let name : CString 32 := ⟨[0x49, 0x44], by decide, by decide⟩
    let t : CString 32 := ⟨[0x74], by decide, by decide⟩
    let five : CString 256 := ⟨[0x35], by decide, by decide⟩
    have hstmts : upperIdRun = [
      { Statement.zero with type := .createTable, tableName := t, colDefs := [⟨name, .int, 4⟩] },
      { Statement.zero with type := .insert, tableName := t, insertValues := [five] },
      { Statement.zero with
        type := .select, tableName := t, predicateKind := .idEq, predField := name
        predValue := five, predId := 5, selectAll := true }] := by decide +kernel
    -- the reference table has the row with the id 1, value 5 in the column `ID`
    rw [hstmts] at hspec
    obtain _ | ⟨h1, _ | ⟨h2, _ | ⟨h3, -⟩⟩⟩ := hspec
    obtain rfl := h1.createTable_eq rfl rfl
    obtain rfl := h2.insert_eq rfl (by decide)
    have hlen := h3.select_length rfl
    simp only [Option.map_some, Except.toOption, List.map_cons, Option.some.injEq, List.cons.injEq] at hrows
    -- which the SELECT of the run does not print
    rw [hrows.2.2.1] at hlen
    revert hlen
    decide +kernel

end MiniDb
