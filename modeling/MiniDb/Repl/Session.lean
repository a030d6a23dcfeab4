import MiniDb.Pager.Counters
import MiniDb.Repl.Reports
import MiniDb.Sql.Cursor

/-!
# Sessions

What the lines of a session print is what a table says: the pages, the cache and the file do not
show.

## Key results

- `Session.step_spec`: one command
-/

namespace MiniDb

open Bytes CText Free Ledger Pager Runs

/-! ## What a session shows -/

/-- The table, and the flags that `.log` and `.debug` turn -/
structure Screen where
  tab : Table
  logFlushes : Bool
  debugMode : Bool

/-- What a command prints, and what it makes of the screen -/
def Command.Step (lib : CLib) (pageSize : UInt32) (c : Command) (v : Screen) (out : Printed)
    (v' : Screen) : Prop :=
  match c with
  | .blank => out = .nothing ∧ v' = v
  | .btree => v' = v ∧ ∃ root lines, out = .btree root lines ∧ ShowsTable v.tab lines
  | .pages => v' = v ∧ ∃ report, out = .pages report ∧ PagesAddUp report
  | .stats => v' = v ∧ ∃ report, out = .stats report ∧ StatsOf pageSize v.tab report
  | .log => out = .log (!v.logFlushes) ∧ v' = { v with logFlushes := !v.logFlushes }
  | .flush => out = .flushed ∧ v' = v
  | .debug => out = .debug (!v.debugMode) ∧ v' = { v with debugMode := !v.debugMode }
  | .unknown line => out = .unknown line ∧ v' = v
  | .sql line =>
    match parse lib line with
    | .error _ => out = .syntaxError ∧ v' = v
    | .ok stmt => ∃ res stats tab', out = .result res stats ∧ v' = { v with tab := tab' } ∧
      Table.Step lib (Table.selects lib) stmt v.tab res tab' ∧ stats.isSome = v.debugMode ∧
      ∀ q ∈ stats, q.pageLoads = q.cacheHits + q.cacheMisses

/-- The failures of a command: a list of more than sixteen entries, and those of a statement -/
def Command.Fails (lib : CLib) (c : Command) (v : Screen) (e : Fault) : Prop :=
  ∃ line, c = .sql line ∧ (e = .outOfBounds ∧ 16 < entries lib line ∨
    ∃ stmt, parse lib line = .ok stmt ∧ v.tab.Fails lib stmt e)

/-- A statement that acts on the table: a new table has columns of sensible sizes, an EXPLAIN holds
    no EXPLAIN, every internal node keeps a separator, and there is an id left. -/
structure StatementFits (lib : CLib) (pageSize : UInt32) (stmt : Statement) (db : Db) : Prop where
  create : stmt.type = .createTable → CreateOk pageSize stmt
  explain : stmt.type = .explain → stmt.innerType ≠ .explain
  separated : KeepsSeparators lib stmt db
  ids : stmt.type = .insert → db.header.nextId.toNat + 1 < 2 ^ 64

/-- How many pages a command looks up -/
def Command.lookups (lib : CLib) (c : Command) (db : Db) : Nat :=
  match c with
  | .btree => db.lookups bptreePrint
  | .pages => db.lookups cmdPages
  | .stats => db.lookups cmdStats
  | .sql line =>
    match parse lib line with
    | .ok stmt => db.lookups (execute lib stmt)
    | .error _ => 0
  | _ => 0

/-! ## The shell without a cache -/

/-- A session with its pages in memory -/
structure FlatSession where
  db : Db
  logFlushes : Bool
  debugMode : Bool

/-- The session, with the pages that the cache and the file make up -/
def Session.flat (s : Session) : FlatSession := ⟨s.pager.data, s.logFlushes, s.debugMode⟩

/-- What is printed, less the counters that depend on what is in the frames -/
def Printed.uncached : Printed → Printed
  | .result res counters => .result res (counters.map fun q => ⟨q.pageLoads, 0, 0, 0⟩)
  | out => out

namespace FlatSession

/-- A routine over the pages, and what is printed of its result -/
def run {α : Type} (s : FlatSession) (r : Routine α) (print : α → Printed) :
    Except Fault (Printed × FlatSession) :=
  match s.db.exec r with
  | .ok (a, db) => .ok (print a, { s with db := db })
  | .error e => .error e

/-- One turn of the loop of `main` -/
def step (lib : CLib) : Command → FlatSession → Except Fault (Printed × FlatSession)
  | .blank, s => .ok (.nothing, s)
  | .btree, s => s.run bptreePrint fun out => .btree out.1 out.2
  | .pages, s => s.run cmdPages .pages
  | .stats, s => s.run cmdStats .stats
  | .log, s => .ok (.log (!s.logFlushes), { s with logFlushes := !s.logFlushes })
  | .flush, s => .ok (.flushed, s)
  | .debug, s => .ok (.debug (!s.debugMode), { s with debugMode := !s.debugMode })
  | .unknown line, s => .ok (.unknown line, s)
  | .sql line, s =>
    match parse lib line with
    | .error .syntaxError => .ok (.syntaxError, s)
    | .error .overrun => .error .outOfBounds
    | .error .pastNul => .error .outOfBounds
    | .error .nonTermination => .error .nonTermination
    | .ok stmt => s.run (execute lib stmt) fun res => .result res
        (if s.debugMode then some ⟨UInt32.ofNat (s.db.lookups (execute lib stmt)), 0, 0, 0⟩ else none)

end FlatSession

/-! ## Sensible commands -/

/-- A command that the pages are fit for: the statements fit, `.btree` finds a separator in every
    internal node, and `.pages` an id that is not handed out. -/
structure CommandFits (lib : CLib) (pageSize : UInt32) (c : Command) (s : FlatSession) : Prop where
  statement : ∀ line stmt, c = .sql line → parse lib line = .ok stmt →
    StatementFits lib pageSize stmt s.db
  separated : c = .btree → Separated s.db
  counted : c = .pages → s.db.header.nextPageId ≠ 0

/-- The counter of the lookups does not wrap. -/
def TicksLast (lib : CLib) (c : Command) (s : Session) : Prop :=
  s.pager.tick.toNat + c.lookups lib s.pager.data < 2 ^ 64

instance (lib : CLib) (c : Command) (s : Session) : Decidable (TicksLast lib c s) :=
  inferInstanceAs (Decidable (_ < _))

/-- A command of a session -/
structure CommandOk (lib : CLib) (pageSize : UInt32) (c : Command) (s : Session) : Prop where
  fits : CommandFits lib pageSize c s.flat
  ticks : TicksLast lib c s

/-- The test of a statement, for trees of height at most `n` -/
def Statement.check (lib : CLib) (n : Nat) (pageSize : UInt32) (stmt : Statement) (db : Db) : Bool :=
  (stmt.type ≠ .createTable || decide (CreateOk pageSize stmt)) &&
    (stmt.type ≠ .explain || stmt.innerType ≠ .explain) && separatedAtRemovals lib n stmt db &&
    (stmt.type ≠ .insert || decide (db.header.nextId.toNat + 1 < 2 ^ 64))

/-- The test of a command -/
def Command.check (lib : CLib) (n : Nat) (pageSize : UInt32) (c : Command) (s : FlatSession) : Bool :=
  match c with
  | .sql line =>
    match parse lib line with
    | .ok stmt => stmt.check lib n pageSize s.db
    | .error _ => true
  | .btree => separatedBelow s.db n s.db.header.rootIndexPageId
  | .pages => s.db.header.nextPageId ≠ 0
  | _ => true

theorem StatementFits.of_check {lib : CLib} {n : Nat} {pageSize : UInt32} {stmt : Statement} {db : Db}
    (h : stmt.check lib n pageSize db = true) : StatementFits lib pageSize stmt db := by
  simp only [Statement.check, Bool.and_eq_true, Bool.or_eq_true, decide_eq_true_eq] at h
  obtain ⟨⟨⟨hcreate, hexplain⟩, hsep⟩, hids⟩ := h
  exact ⟨fun ht => hcreate.resolve_left fun hne => hne ht, fun ht => hexplain.resolve_left fun hne => hne ht,
    KeepsSeparators.of_check lib hsep, fun ht => hids.resolve_left fun hne => hne ht⟩

theorem CommandFits.of_check {lib : CLib} {n : Nat} {pageSize : UInt32} {c : Command} {s : FlatSession}
    (h : c.check lib n pageSize s = true) : CommandFits lib pageSize c s := by
  refine ⟨fun line stmt hc hparse => ?_, fun hc => ?_, fun hc => ?_⟩
  · subst hc
    simp only [Command.check, hparse] at h
    exact StatementFits.of_check h
  · subst hc
    exact Separated.of_check h
  · subst hc
    exact of_decide_eq_true h

/-! ## One command -/

/-- What stays as it is in a file of pages of `pageSize` bytes -/
def newFile (pageSize : UInt32) : FileId := (Db.fresh pageSize).fields.fileId

/-- The pins that a command has frames for, beside those of the pages looked up last -/
def spareFrames : Nat := maxFrames - Ledger.memory - 1

/-- The pager stands for the table, and nothing is pinned. -/
structure PagerHolds (pageSize : UInt32) (tab : Table) (p : Pager) : Prop where
  kept : ∃ recent, Kept (newFile pageSize) spareFrames 0 p.data p ⟨[], recent, []⟩
  table : Represents pageSize p.data tab
  ids : tab.IdsBelow

/-- The session shows the screen. -/
structure Session.Shows (pageSize : UInt32) (v : Screen) (s : Session) : Prop where
  pager : PagerHolds pageSize v.tab s.pager
  logFlushes : s.logFlushes = v.logFlushes
  debugMode : s.debugMode = v.debugMode

theorem balanced_cmdStats {file : FileId} : Balanced file 1 cmdStats := by
  intro cap pins recent hpins
  simp only [cmdStats, obeys_bind, obeys_getHeader]
  intro hdr _
  apply balanced_bptreeHeight.call hpins
  intro height recent'
  exact ⟨recent', rfl⟩

section Command

variable {lib : CLib} {pageSize : UInt32} {v : Screen} {s s' : Session} {p q : Pager} {tab : Table}

/-- A report that is read off the database, which stays as it is -/
theorem exec_report {α : Type} {r : Routine α} {a : α} (h : PagerHolds pageSize tab p)
    (hr : Balanced (newFile pageSize) spareFrames r)
    (hticks : p.tick.toNat + p.data.lookups r < 2 ^ 64) (hexec : p.data.exec r = .ok (a, p.data)) :
    ∃ q, p.exec r = .ok (a, q) ∧ PagerHolds pageSize tab q ∧ q.data = p.data := by
  obtain ⟨recent, hkept⟩ := h.kept
  obtain ⟨q, recent', hq, hdata, hkept'⟩ := hkept.exec hr hticks hexec
  exact ⟨q, hq, ⟨⟨recent', hkept'⟩, hdata ▸ h.table, h.ids⟩, hdata⟩

theorem Session.run_eq {α : Type} {r : Routine α} {a : α} (h : s.pager.exec r = .ok (a, q)) :
    s.run r = .ok (a, { s with pager := q }) := by
  rw [Session.run, h]

theorem Session.run_extends {α : Type} {r r' : Routine α} {e : Fault} {out : α × Session}
    (h : Extends e r r') (hrun : s.run r = .ok out) : s.run r' = .ok out := by
  rw [Session.run] at hrun
  cases hexec : s.pager.exec r with
  | error e =>
    rw [hexec] at hrun
    contradiction
  | ok res =>
    rw [hexec] at hrun
    have hmore : s.pager.exec r' = .ok res := h.run hexec
    rw [Session.run, hmore]
    exact hrun

/-! ### Statements -/

theorem Represents.nextId {db : Db} (h : Represents pageSize db tab) : tab.nextId = db.header.nextId := by
  cases h with
  | fresh => rfl
  | table _ _ _ => rfl

/-- What a statement must find, it finds. -/
theorem StatementFits.accepts {stmt : Statement} {db : Db} (h : StatementFits lib pageSize stmt db)
    (hbelow : tab.IdsBelow) : tab.Accepts pageSize stmt := by
  unfold Table.Accepts
  cases htype : stmt.type with
  | createTable => exact h.create htype
  | insert =>
    intro vs hvs heq
    have hlt := hbelow vs hvs
    rw [heq] at hlt
    exact Nat.lt_irrefl _ hlt
  | explain => exact h.explain htype
  | _ => trivial

theorem StatementFits.room {stmt : Statement} {db : Db} (h : StatementFits lib pageSize stmt db) :
    db.header.nextId.toNat + inserts [stmt] < 2 ^ 64 := by
  by_cases htype : stmt.type = .insert
  · have hone : inserts [stmt] = 1 := by simp [inserts, htype]
    rw [hone]
    exact h.ids htype
  · have hzero : inserts [stmt] = 0 := by simp [inserts, htype]
    rw [hzero]
    exact db.header.nextId.toNat_lt

/-- A statement on a pager that holds a table -/
theorem PagerHolds.execute {stmt : Statement} (h : PagerHolds pageSize tab p) (hcap : HoldsTwo pageSize)
    (hsmall : pageSize.toNat < 65536) (hfits : StatementFits lib pageSize stmt p.data)
    (hticks : p.tick.toNat + p.data.lookups (execute lib stmt) < 2 ^ 64) :
    (∃ res q tab', p.exec (execute lib stmt) = .ok (res, q) ∧
      p.data.exec (execute lib stmt) = .ok (res, q.data) ∧
      Table.Step lib (Table.selects lib) stmt tab res tab' ∧ PagerHolds pageSize tab' q ∧
      Counts p q (p.data.lookups (execute lib stmt))) ∨
    ∃ e, p.exec (execute lib stmt) = .error e ∧ p.data.exec (execute lib stmt) = .error e ∧
      tab.Fails lib stmt e := by
  obtain ⟨recent, hkept⟩ := h.kept
  -- a statement gives its pins back, so the cache does what the flat store does
  have hbalanced : Balanced (newFile pageSize) spareFrames (MiniDb.execute lib stmt) :=
    (balanced_execute lib stmt).mono (by decide)
  have hwp := Statement.wp_spec lib h.table hcap hsmall (hfits.accepts h.ids) hfits.separated
  obtain ⟨hok, hfault⟩ := wpDb_exec hwp
  cases hexec : p.data.exec (MiniDb.execute lib stmt) with
  | ok out =>
    obtain ⟨res, db'⟩ := out
    obtain ⟨q, recent', hq, rfl, hkept'⟩ := hkept.exec hbalanced hticks hexec
    obtain ⟨tab', hspec, hrep⟩ := hok res _ hexec
    have hroom : tab.nextId.toNat + inserts [stmt] < 2 ^ 64 := by
      rw [h.table.nextId]
      exact hfits.room
    have hids := (hspec.ids lib h.ids hroom).1
    have hcounts := Kept.run_counts (n := 0) (hkept.budget hticks) hbalanced hexec hq
    exact Or.inl ⟨res, q, tab', hq, rfl, hspec, ⟨⟨recent', hkept'⟩, hrep, hids⟩, hcounts⟩
  | error e =>
    have he := hfault e hexec
    -- the failures of a statement are not that of page 0, which only the flat store has
    have hne : e ≠ .headerPage := by
      rintro rfl
      rcases he with he | ⟨he, -⟩
      all_goals contradiction
    exact Or.inr ⟨e, (hkept.budget hticks).run_error hbalanced hexec hne, rfl, he⟩

/-- Setting the counters to zero changes nothing else. -/
theorem PagerHolds.resetStats (h : PagerHolds pageSize tab p) :
    PagerHolds pageSize tab p.resetStats ∧ p.resetStats.data = p.data := by
  obtain ⟨recent, hkept⟩ := h.kept
  have hsame : KeepsPages p p.resetStats :=
    ⟨rfl, rfl, rfl, fun _ => rfl, fun _ => rfl, fun _ => rfl⟩
  have hcontent : ∀ pid, p.resetStats.content pid = p.content pid := content_congr rfl rfl rfl
  have hcaches := hkept.caches
  have hreset : Kept (newFile pageSize) spareFrames 0 p.data p.resetStats ⟨[], recent, []⟩ :=
    hkept.keeps hsame (fun _ => rfl) rfl rfl hkept.marked hkept.file
      ⟨hcaches.coherent.congr rfl rfl rfl, hcaches.fields, fun pid hpid hl =>
        (hcontent pid).trans (hcaches.content pid hpid hl)⟩
  have hdata : p.resetStats.data = p.data := hreset.data_eq (data_zero p)
  exact ⟨⟨⟨recent, hreset.data⟩, hdata ▸ h.table, h.ids⟩, hdata⟩

/-- The pager that a statement of the session runs on -/
def Session.counting (s : Session) : Pager := if s.debugMode then s.pager.resetStats else s.pager

theorem Session.execute_eq (s : Session) (stmt : Statement) : s.execute lib stmt =
    match s.counting.exec (MiniDb.execute lib stmt) with
    | .ok (res, q) =>
      .ok (.result res (if s.debugMode then some q.stats else none), { s with pager := q })
    | .error e => .error e := by
  rw [Session.execute, Session.counting]
  cases hdebug : s.debugMode with
  | false =>
    rw [if_neg Bool.false_ne_true, if_neg Bool.false_ne_true, Session.run]
    cases s.pager.exec (MiniDb.execute lib stmt) with
    | error e => rfl
    | ok out =>
      show Except.ok (Printed.result out.1 (if s.debugMode then some out.2.stats else none), _) = _
      rw [hdebug]
  | true =>
    rw [if_pos rfl, if_pos rfl, Session.run]
    dsimp only
    cases s.pager.resetStats.exec (MiniDb.execute lib stmt) with
    | error e => rfl
    | ok out => rfl

theorem PagerHolds.counting (h : PagerHolds pageSize tab s.pager) :
    PagerHolds pageSize tab s.counting ∧ s.counting.data = s.pager.data ∧
      s.counting.tick = s.pager.tick ∧ (s.debugMode = true → s.counting.stats = ⟨0, 0, 0, 0⟩) := by
  rw [Session.counting]
  split
  next =>
    obtain ⟨hreset, hdata⟩ := h.resetStats
    exact ⟨hreset, hdata, rfl, fun _ => rfl⟩
  next hdebug => exact ⟨h, rfl, rfl, fun hd => absurd hd hdebug⟩

/-- A command does on the cache what it does with the pages in memory. -/
structure Session.Follows (lib : CLib) (pageSize : UInt32) (c : Command) (v : Screen) (s : Session)
    (out : Printed) (s' : Session) : Prop where
  step : s.step lib c = .ok (out, s')
  flat : s.flat.step lib c = .ok (out.uncached, s'.flat)
  shows : ∃ v', c.Step lib pageSize v out v' ∧ s'.Shows pageSize v'

/-- It fails on the cache as it does with the pages in memory. -/
structure Session.FollowsError (lib : CLib) (c : Command) (v : Screen) (s : Session) (e : Fault) :
    Prop where
  step : s.step lib c = .error e
  flat : s.flat.step lib c = .error e
  fails : c.Fails lib v e

/-- A statement of a session; the counters it prints in debug mode are those of the statement. -/
theorem Session.Shows.statement {line : List UInt8} {stmt : Statement} (h : s.Shows pageSize v)
    (hparse : parse lib line = .ok stmt) (hcap : HoldsTwo pageSize)
    (hsmall : pageSize.toNat < 65536) (hfits : StatementFits lib pageSize stmt s.pager.data)
    (hticks : s.pager.tick.toNat + s.pager.data.lookups (MiniDb.execute lib stmt) < 2 ^ 64) :
    (∃ out s', s.Follows lib pageSize (.sql line) v out s') ∨
    ∃ e, s.FollowsError lib (.sql line) v e := by
  obtain ⟨hcounting, hdata, htick, hstats⟩ := h.pager.counting
  have hstep : s.step lib (.sql line) = s.execute lib stmt := by
    rw [Session.step.eq_def]
    dsimp only
    rw [hparse]
  have hflat : s.flat.step lib (.sql line) = s.flat.run (MiniDb.execute lib stmt) fun res => .result res
      (if s.debugMode then some ⟨UInt32.ofNat (s.pager.data.lookups (MiniDb.execute lib stmt)), 0, 0, 0⟩
        else none) := by
    rw [FlatSession.step.eq_def]
    dsimp only
    rw [hparse]
    rfl
  rw [← hdata] at hfits hticks
  rw [← htick] at hticks
  rcases hcounting.execute hcap hsmall hfits hticks with
    ⟨res, q, tab', hq, hexec, hspec, hholds, hcounts⟩ | ⟨e, he, hexec, hfails⟩
  · rw [hdata] at hexec hcounts
    -- the counters, from zero on
    have hcounted : s.debugMode = true → q.stats.cacheHits + q.stats.cacheMisses = q.stats.pageLoads ∧
        q.stats.pageLoads = UInt32.ofNat (s.pager.data.lookups (MiniDb.execute lib stmt)) := by
      intro hdebug
      obtain ⟨hloads, hhits⟩ := hcounts
      rw [hstats hdebug] at hloads hhits
      dsimp only at hloads hhits
      rw [zero_add] at hloads
      rw [zero_add, zero_add] at hhits
      exact ⟨hhits.trans hloads.symm, hloads⟩
    have hdebug := h.debugMode
    refine Or.inl ⟨.result res (if s.debugMode then some q.stats else none), { s with pager := q }, ?_, ?_,
      { v with tab := tab' }, ?_, hholds, h.logFlushes, h.debugMode⟩
    · rw [hstep, Session.execute_eq, hq]
    · rw [hflat, FlatSession.run, Session.flat]
      dsimp only
      rw [hexec]
      dsimp only [Printed.uncached]
      split
      next hd =>
        rw [← (hcounted hd).2]
        rfl
      next => rfl
    · rw [Command.Step, hparse, ← hdebug]
      refine ⟨res, _, tab', rfl, rfl, hspec, ?_, fun st hst => ?_⟩
      · cases s.debugMode with
        | false => rfl
        | true => rfl
      · split at hst
        next hd =>
          obtain rfl := Option.some.inj hst
          exact (hcounted hd).1.symm
        next => exact absurd hst (Option.not_mem_none st)
  · rw [hdata] at hexec
    refine Or.inr ⟨e, ?_, ?_, line, rfl, Or.inr ⟨stmt, hparse, hfails⟩⟩
    · rw [hstep, Session.execute_eq, he]
    · rw [hflat, FlatSession.run, Session.flat]
      dsimp only
      rw [hexec]

/-! ### The other commands -/

/-- A report that a command prints -/
theorem Session.Shows.report {α : Type} {r : Routine α} {a : α} (h : s.Shows pageSize v)
    (hr : Balanced (newFile pageSize) spareFrames r)
    (hticks : s.pager.tick.toNat + s.pager.data.lookups r < 2 ^ 64)
    (hexec : s.pager.data.exec r = .ok (a, s.pager.data)) :
    ∃ s', s.run r = .ok (a, s') ∧ s'.Shows pageSize v ∧ s'.flat = s.flat := by
  obtain ⟨q, hq, hholds, hdata⟩ := exec_report h.pager hr hticks hexec
  refine ⟨{ s with pager := q }, Session.run_eq hq, ⟨hholds, h.logFlushes, h.debugMode⟩, ?_⟩
  rw [Session.flat, hdata]
  rfl

/-- A report with the pages in memory -/
theorem Session.flat_run {α : Type} {r : Routine α} {a : α} {print : α → Printed}
    (hexec : s.pager.data.exec r = .ok (a, s.pager.data)) :
    s.flat.run r print = .ok (print a, s.flat) := by
  rw [FlatSession.run, Session.flat]
  dsimp only
  rw [hexec]

theorem PagerHolds.stamp (h : PagerHolds pageSize tab p) :
    p.data.fields.pageSize = pageSize ∧ p.data.header.stamp = (dbMagic, pageSize) := by
  obtain ⟨recent, hkept⟩ := h.kept
  exact ⟨hkept.pageSize, congrArg FileId.stamp hkept.file⟩

/-- The rows of the table, the tree and the heap in the pager -/
theorem PagerHolds.exists_tableAt (h : PagerHolds pageSize tab p) (hcap : HoldsTwo pageSize)
    (hsmall : pageSize.toNat < 65536) : ∃ live t hp, TableAt p.data live t hp ∧
      tab = ⟨p.data.header.inUse, live.map Prod.snd, p.data.header.nextId⟩ := by
  obtain ⟨live, t, hp, hat, htab, -⟩ := h.table.exists_tableAt hcap hsmall
  exact ⟨live, t, hp, hat, htab⟩

theorem Session.Shows.btree (h : s.Shows pageSize v) (hcap : HoldsTwo pageSize)
    (hsmall : pageSize.toNat < 65536) (hsep : Separated s.pager.data)
    (hticks : s.pager.tick.toNat + s.pager.data.lookups bptreePrint < 2 ^ 64) :
    ∃ out s', s.Follows lib pageSize .btree v out s' := by
  obtain ⟨live, t, hp, hat, htab⟩ := h.pager.exists_tableAt hcap hsmall
  have hstored := hat.storage.tree.toTreeShape.storedTree hat.cap
  have hlow := hstored.height_lt_32 hat.cap hsep
  have hmore := printTree_extends (Nat.le_of_lt (hstored.height_lt hat.cap))
  have hprint := hstored.printTree hat.cap
  rw [Db.lookups, hmore.cost hprint] at hticks
  -- a pin for every level
  have hroom : t.levels.length + 1 ≤ spareFrames := by
    have : spareFrames = 251 := rfl
    omega
  obtain ⟨s', hrun, hshows, hflat⟩ := h.report ((balanced_printTree _).mono hroom) hticks hprint
  have hlines := hat.showsTable s.pager.data.header.nextId
  rw [← htab] at hlines
  refine ⟨.btree s.pager.data.header.rootIndexPageId _, s', ?_, ?_, v, ⟨rfl, _, _, rfl, hlines⟩, hshows⟩
  · rw [Session.step.eq_def]
    dsimp only
    rw [Session.run_extends hmore hrun]
    rfl
  · rw [hflat]
    exact Session.flat_run (hmore.run hprint)

theorem Session.Shows.stats (h : s.Shows pageSize v) (hcap : HoldsTwo pageSize)
    (hsmall : pageSize.toNat < 65536)
    (hticks : s.pager.tick.toNat + s.pager.data.lookups cmdStats < 2 ^ 64) :
    ∃ out s', s.Follows lib pageSize .stats v out s' := by
  obtain ⟨live, t, hp, hat, htab⟩ := h.pager.exists_tableAt hcap hsmall
  obtain ⟨hsize, hstamp⟩ := h.pager.stamp
  have hheader : s.pager.data.header.pageSize = s.pager.data.fields.pageSize :=
    (congrArg Prod.snd hstamp).trans hsize.symm
  have hid := h.pager.table.idFirst
  rw [htab] at hid
  obtain ⟨report, hexec, hreport⟩ := hat.stats hheader hid
  obtain ⟨s', hrun, hshows, hflat⟩ := h.report (balanced_cmdStats.mono (by decide)) hticks hexec
  rw [← htab, hsize] at hreport
  refine ⟨.stats report, s', ?_, ?_, v, ⟨rfl, report, rfl, hreport⟩, hshows⟩
  · rw [Session.step.eq_def]
    dsimp only
    rw [hrun]
    rfl
  · rw [hflat]
    exact Session.flat_run hexec

theorem Session.Shows.pages (h : s.Shows pageSize v) (hcap : HoldsTwo pageSize)
    (hsmall : pageSize.toNat < 65536) (hnext : s.pager.data.header.nextPageId ≠ 0)
    (hticks : s.pager.tick.toNat + s.pager.data.lookups cmdPages < 2 ^ 64) :
    ∃ out s', s.Follows lib pageSize .pages v out s' := by
  obtain ⟨live, t, hp, hat, -⟩ := h.pager.exists_tableAt hcap hsmall
  obtain ⟨report, hexec, hreport⟩ := hat.pages hnext
  obtain ⟨s', hrun, hshows, hflat⟩ := h.report (balanced_cmdPages.mono (by decide)) hticks hexec
  refine ⟨.pages report, s', ?_, ?_, v, ⟨rfl, report, rfl, hreport⟩, hshows⟩
  · rw [Session.step.eq_def]
    dsimp only
    rw [hrun]
    rfl
  · rw [hflat]
    exact Session.flat_run hexec

theorem Session.Shows.flush (h : s.Shows pageSize v) (hroom : dbHeaderC.size ≤ pageSize.toNat) :
    ∃ out s', s.Follows lib pageSize .flush v out s' := by
  obtain ⟨recent, hkept⟩ := h.pager.kept
  obtain ⟨q, hflush, hkept', -, -⟩ := hkept.flushAll rfl hroom
  have hdata : q.data = s.pager.data := by
    apply hkept'.data_eq
    exact data_zero _
  refine ⟨.flushed, { s with pager := q }, ?_, ?_, v, ⟨rfl, rfl⟩,
    ⟨⟨recent, hkept'.data⟩, hdata ▸ h.pager.table, h.pager.ids⟩, h.logFlushes, h.debugMode⟩
  · rw [Session.step.eq_def]
    dsimp only
    rw [hflush]
  · rw [Session.flat, Session.flat, hdata]
    rfl

/-- A line that is no statement, and one with a list of more than sixteen entries -/
theorem Session.Shows.noStatement {line : List UInt8} {err : ParseError} (h : s.Shows pageSize v)
    (hparse : parse lib line = .error err) :
    (∃ out s', s.Follows lib pageSize (.sql line) v out s') ∨
    ∃ e, s.FollowsError lib (.sql line) v e := by
  have hparsed := parse_outcome lib line
  cases err with
  | syntaxError =>
    refine Or.inl ⟨.syntaxError, s, ?_, ?_, v, ?_, h⟩
    · rw [Session.step.eq_def]
      dsimp only
      rw [hparse]
    · rw [FlatSession.step.eq_def]
      dsimp only
      rw [hparse]
      rfl
    · rw [Command.Step, hparse]
      exact ⟨rfl, rfl⟩
  | overrun =>
    refine Or.inr ⟨.outOfBounds, ?_, ?_, line, rfl, Or.inl ⟨rfl, hparsed.overrun.mp hparse⟩⟩
    · rw [Session.step.eq_def]
      dsimp only
      rw [hparse]
    · rw [FlatSession.step.eq_def]
      dsimp only
      rw [hparse]
  | pastNul => exact absurd hparse hparsed.inside
  | nonTermination => exact absurd hparse hparsed.terminates

/-- What a command does to a session that shows a table -/
theorem Session.step_outcome (hcap : HoldsTwo pageSize) (hsmall : pageSize.toNat < 65536)
    (hroom : dbHeaderC.size ≤ pageSize.toNat) {c : Command} (h : s.Shows pageSize v)
    (hfits : CommandFits lib pageSize c s.flat) (hticks : TicksLast lib c s) :
    (∃ out s', s.Follows lib pageSize c v out s') ∨ ∃ e, s.FollowsError lib c v e := by
  cases c with
  | blank => exact Or.inl ⟨.nothing, s, rfl, rfl, v, ⟨rfl, rfl⟩, h⟩
  | unknown line => exact Or.inl ⟨.unknown line, s, rfl, rfl, v, ⟨rfl, rfl⟩, h⟩
  | log =>
    refine Or.inl ⟨_, _, rfl, rfl, { v with logFlushes := !v.logFlushes }, ⟨?_, rfl⟩, h.pager, ?_,
      h.debugMode⟩
    · rw [h.logFlushes]
    · exact congrArg not h.logFlushes
  | debug =>
    refine Or.inl ⟨_, _, rfl, rfl, { v with debugMode := !v.debugMode }, ⟨?_, rfl⟩, h.pager,
      h.logFlushes, ?_⟩
    · rw [h.debugMode]
    · exact congrArg not h.debugMode
  | flush => exact Or.inl (h.flush hroom)
  | btree => exact Or.inl (h.btree hcap hsmall (hfits.separated rfl) hticks)
  | pages => exact Or.inl (h.pages hcap hsmall (hfits.counted rfl) hticks)
  | stats => exact Or.inl (h.stats hcap hsmall hticks)
  | sql line =>
    cases hparse : parse lib line with
    | error err => exact h.noStatement hparse
    | ok stmt =>
      rw [TicksLast, Command.lookups, hparse] at hticks
      exact h.statement hparse hcap hsmall (hfits.statement line stmt rfl hparse) hticks

theorem Session.step_spec (hcap : HoldsTwo pageSize) (hsmall : pageSize.toNat < 65536)
    (hroom : dbHeaderC.size ≤ pageSize.toNat) (c : Command) (v : Screen) (s : Session)
    (h : s.Shows pageSize v) (hok : CommandOk lib pageSize c s) :
    (∀ out s', s.step lib c = .ok (out, s') →
      ∃ v', c.Step lib pageSize v out v' ∧ s'.Shows pageSize v') ∧
    ∀ e, s.step lib c = .error e → c.Fails lib v e := by
  rcases Session.step_outcome hcap hsmall hroom h hok.fits hok.ticks with ⟨out, s', hf⟩ | ⟨e, hf⟩
  · rw [hf.step]
    refine ⟨fun out₁ s₁ hout => ?_, fun e he => ?_⟩
    · obtain ⟨rfl, rfl⟩ := Prod.mk.inj (Except.ok.inj hout)
      exact hf.shows
    · contradiction
  · rw [hf.step]
    refine ⟨fun out₁ s₁ hout => ?_, fun e₁ he => ?_⟩
    · contradiction
    · rw [← Except.error.inj he]
      exact hf.fails

end Command

end MiniDb
