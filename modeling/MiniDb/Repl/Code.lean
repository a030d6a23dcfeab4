import MiniDb.Bptree.Print
import MiniDb.Pager.Files
import MiniDb.Sql.Pins

/-!
# The shell

The functions of `main.c`.  A line of input is the bytes that `readline` returns, without the NUL;
what a line makes the program print is a `Printed`.  The history of the lines and the time a
statement takes are left out.
-/

namespace MiniDb

open Bytes CText Runs

/-! ## Lines -/

/-- The blanks removed at the end of a line -/
def isLineEnd (c : UInt8) : Bool := c = 0x0a || c = 0x0d || c = 0x20 || c = 0x09

/-- The blanks removed at its beginning -/
def isIndent (c : UInt8) : Bool := c = 0x20 || c = 0x09

/-- The line without the blanks around it -/
def trimLine (input : List UInt8) : List UInt8 := (input.rdropWhile isLineEnd).dropWhile isIndent

/-- What a line asks for -/
inductive Command where
  | blank
  | btree
  | pages
  | stats
  | log
  | flush
  | debug
  | unknown (line : List UInt8)
  | sql (line : List UInt8)
  deriving DecidableEq

/-- The command of a line, or nothing for `.exit` and `.quit` -/
def command (input : List UInt8) : Option Command :=
  let line := trimLine input
  if line = [] then some .blank
  else if line.head? = some 0x2e then
    if line = utf8 ".exit" ∨ line = utf8 ".quit" then none
    else if line = utf8 ".btree" then some .btree
    else if line = utf8 ".pages" then some .pages
    else if line = utf8 ".stats" then some .stats
    else if line = utf8 ".log" then some .log
    else if line = utf8 ".flush" then some .flush
    else if line = utf8 ".debug" then some .debug
    else some (.unknown line)
  else some (.sql line)

/-- The commands of the lines before the first `.exit` or the end of the input -/
def commands : List (List UInt8) → List Command
  | [] => []
  | input :: inputs =>
    match command input with
    | none => []
    | some c => c :: commands inputs

/-! ## Commands -/

/-- What `cmd_stats` prints -/
structure StatsReport where
  rowCount : UInt64
  nextId : UInt64
  pageSize : UInt32
  rowSize : UInt16
  rowsPerPage : Option UInt32
  totalPages : UInt32
  height : Nat
  freePageHead : PageId
  deriving DecidableEq

/-- The rows of `rowSize` bytes that a page has room for, in 64 bits -/
def rowsPerPage (hdr : DbHeader) : UInt32 :=
  ((hdr.pageSize.toUInt64 - UInt64.ofNat heapPageHeaderC.size) /
    (hdr.rowSize.toUInt64 + UInt64.ofNat slotC.size)).toUInt32

/-- The lines of `cmd_stats` -/
def statsReport (hdr : DbHeader) (height : Nat) : StatsReport where
  rowCount := hdr.rowCount
  nextId := hdr.nextId
  pageSize := hdr.pageSize
  rowSize := hdr.rowSize
  rowsPerPage := if 0 < hdr.rowSize then some (rowsPerPage hdr) else none
  totalPages := hdr.nextPageId
  height := height
  freePageHead := hdr.freePageHead

/-- `cmd_stats` -/
def cmdStats : Routine StatsReport := do
  let hdr ← getHeader
  let height ← bptreeHeight
  return statsReport hdr height

/-- What a command prints.  A statement prints its result and, in debug mode, the counters. -/
inductive Printed where
  | nothing
  | btree (root : PageId) (lines : List TreeLine)
  | pages (report : PagesReport)
  | stats (report : StatsReport)
  | log (on : Bool)
  | flushed
  | debug (on : Bool)
  | unknown (line : List UInt8)
  | syntaxError
  | result (res : ExecResult) (stats : Option QueryStats)

/-- `pager_t` with the flags that only the shell sets -/
structure Session where
  pager : Pager
  logFlushes : Bool
  debugMode : Bool

/-- `pager_reset_stats` -/
def Pager.resetStats (p : Pager) : Pager := { p with stats := ⟨0, 0, 0, 0⟩ }

namespace Session

/-- The session after a routine over its pager -/
def run {α : Type} (s : Session) (r : Routine α) : Except Fault (α × Session) :=
  match s.pager.exec r with
  | .ok (a, p) => .ok (a, { s with pager := p })
  | .error e => .error e

section Lib

variable (lib : CLib)

/-- A statement; in debug mode the counters are set to zero before it and printed after it. -/
def execute (s : Session) (stmt : Statement) : Except Fault (Printed × Session) := do
  let s := if s.debugMode then { s with pager := s.pager.resetStats } else s
  let (res, s) ← s.run (MiniDb.execute lib stmt)
  return (.result res (if s.debugMode then some s.pager.stats else none), s)

/-- One turn of the loop of `main` -/
def step : Command → Session → Except Fault (Printed × Session)
  | .blank, s => .ok (.nothing, s)
  | .btree, s => do
    let (out, s) ← s.run bptreePrint
    return (.btree out.1 out.2, s)
  | .pages, s => do
    let (report, s) ← s.run cmdPages
    return (.pages report, s)
  | .stats, s => do
    let (report, s) ← s.run cmdStats
    return (.stats report, s)
  | .log, s => .ok (.log (!s.logFlushes), { s with logFlushes := !s.logFlushes })
  | .flush, s =>
    match s.pager.flushAll with
    | some p => .ok (.flushed, { s with pager := p })
    | none => .error .outOfBounds
  | .debug, s => .ok (.debug (!s.debugMode), { s with debugMode := !s.debugMode })
  | .unknown line, s => .ok (.unknown line, s)
  | .sql line, s =>
    match parse lib line with
    | .error .syntaxError => .ok (.syntaxError, s)
    | .error .overrun => .error .outOfBounds
    | .error .pastNul => .error .outOfBounds
    | .error .nonTermination => .error .nonTermination
    | .ok stmt => s.execute lib stmt

end Lib

end Session

/-! ## main -/

/-- A file: its length, and its bytes by offset.  A file that was closed is as long as its pages;
    that it has the first of them is all that counts. -/
structure DbFile where
  size : Nat
  bytes : Nat → UInt8

/-- A call of the program: the page size of the system it runs on, and its input -/
structure Invocation where
  systemPageSize : UInt32
  lines : List (List UInt8)

/-- `main` opens the file, or creates it when there is none. -/
def openOrCreate (systemPageSize : UInt32) : Option DbFile → Except Fault (Option Pager)
  | none =>
    match Pager.create systemPageSize with
    | some p => .ok (some p)
    | none => .error .outOfBounds
  | some file => Pager.openFile file.size file.bytes

/-- `main`: what it prints for each line, or nothing when the file cannot be opened, and the file it leaves -/
def main (lib : CLib) (call : Invocation) (file : Option DbFile) :
    Except Fault (Option (List Printed) × Option DbFile) := do
  match ← openOrCreate call.systemPageSize file with
  | none => return (none, file)
  | some p =>
    let (outs, s) ← runAll (Session.step lib) (commands call.lines) ⟨p, false, false⟩
    match s.pager.close with
    | some bytes => return (some outs, some ⟨s.pager.ps, bytes⟩)
    | none => .error .outOfBounds

end MiniDb
