import MiniDb.Sql.Statement

/-!
# The parser

The functions of `parser.c`.  A pointer into a text is the list of the bytes from there to the
NUL; the loops return it with their results.
-/

namespace MiniDb

open CText

/-- Why there is no statement -/
inductive ParseError where
  /-- the parser returns -1 -/
  | syntaxError
  /-- it would write behind an array of the statement -/
  | overrun
  /-- the cursor would move past the NUL -/
  | pastNul
  /-- a loop goes on for ever -/
  | nonTermination
  deriving DecidableEq

/-! ## Characters and words -/

def space : UInt8 := 0x20
def quote : UInt8 := 0x27
def lparen : UInt8 := 0x28
def rparen : UInt8 := 0x29
def star : UInt8 := 0x2a
def comma : UInt8 := 0x2c
def semicolon : UInt8 := 0x3b
def equals : UInt8 := 0x3d

def createWord : List UInt8 := ['C', 'R', 'E', 'A', 'T', 'E'].map Char.toUInt8
def tableWord : List UInt8 := ['T', 'A', 'B', 'L', 'E'].map Char.toUInt8
def insertWord : List UInt8 := ['I', 'N', 'S', 'E', 'R', 'T'].map Char.toUInt8
def intoWord : List UInt8 := ['I', 'N', 'T', 'O'].map Char.toUInt8
def valuesWord : List UInt8 := ['V', 'A', 'L', 'U', 'E', 'S'].map Char.toUInt8
def selectWord : List UInt8 := ['S', 'E', 'L', 'E', 'C', 'T'].map Char.toUInt8
def deleteWord : List UInt8 := ['D', 'E', 'L', 'E', 'T', 'E'].map Char.toUInt8
def fromWord : List UInt8 := ['F', 'R', 'O', 'M'].map Char.toUInt8
def whereWord : List UInt8 := ['W', 'H', 'E', 'R', 'E'].map Char.toUInt8
def explainWord : List UInt8 := ['E', 'X', 'P', 'L', 'A', 'I', 'N'].map Char.toUInt8
def intWord : List UInt8 := ['I', 'N', 'T'].map Char.toUInt8
def bigintWord : List UInt8 := ['B', 'I', 'G', 'I', 'N', 'T'].map Char.toUInt8
def varcharWord : List UInt8 := ['V', 'A', 'R', 'C', 'H', 'A', 'R'].map Char.toUInt8
def idWord : List UInt8 := ['i', 'd'].map Char.toUInt8

/-- What `trim` removes at the end of a text -/
def isTrailing (c : UInt8) : Bool := isSpace c || c = semicolon

/-- `trim` -/
def trim (s : List UInt8) : List UInt8 := s.rdropWhile isTrailing

/-- `strcasecmp_n` -/
def strcasecmpN : List UInt8 → List UInt8 → Nat → Int
  | _, _, 0 => 0
  | a, b, n + 1 =>
    let d : Int := (toLower (a.headD 0)).toNat - (toLower (b.headD 0)).toNat
    if d ≠ 0 then d
    else if a.headD 0 = 0 then 0
    else strcasecmpN a.tail b.tail n

/-- `strcasecmp_n(p, word, n) == 0`, where `n` is the length of the word -/
def keyword (word p : List UInt8) : Bool := strcasecmpN p word word.length = 0

/-- `skip_ws` -/
def skipWs (p : List UInt8) : List UInt8 := p.dropWhile isSpace

/-- `p + n` -/
def advance (n : Nat) (p : List UInt8) : Except ParseError (List UInt8) :=
  if n ≤ p.length then .ok (p.drop n) else .error .pastNul

/-- `if (*p == c) p++` -/
def skipChar (c : UInt8) (p : List UInt8) : List UInt8 := if p.head? = some c then p.tail else p

/-- The loops that copy a name or a value: at most `n` bytes up to one that `stop` accepts -/
def token (stop : UInt8 → Bool) (n : Nat) (p : List UInt8) : CString (n + 1) × List UInt8 :=
  (⟨(scan (fun c => c = 0 || stop c) n p).1,
    fun hmem => by simpa using scan_not_stop n p 0 hmem,
    Nat.lt_succ_of_le (length_scan_le n p)⟩,
   (scan (fun c => c = 0 || stop c) n p).2)

/-- A value: in quotes, or up to a byte that `stop` accepts -/
def literal (stop : UInt8 → Bool) (p : List UInt8) : CString 256 × List UInt8 :=
  if p.head? = some quote then
    let r := token (· = quote) 255 p.tail
    (r.1, skipChar quote r.2)
  else token stop 255 p

/-- The loops over the items of a list in parentheses; the arrays of a statement have room for
    16 of them. -/
def listLoop {α : Type} (item : List UInt8 → Except ParseError (α × List UInt8)) :
    Nat → List UInt8 → List α → Except ParseError (List α × List UInt8)
  | 0, _, _ => .error .nonTermination
  | n + 1, p, items =>
    if p.head? = none ∨ p.head? = some rparen then .ok (items, p)
    else if (skipWs p).head? = some rparen then .ok (items, skipWs p)
    else if 16 ≤ items.length then .error .overrun
    else do
      let r ← item (skipWs p)
      listLoop item n (skipChar comma (skipWs r.2)) (items ++ [r.1])

/-! ## CREATE TABLE -/

section Lib

variable (lib : CLib)

/-- What follows `VARCHAR`: the width in parentheses, or 32 -/
def varcharSize (p : List UInt8) : UInt16 × List UInt8 :=
  let p := skipWs p
  if p.head? = some lparen then
    let p := p.tail
    ((lib.atoi p).toUInt32.toUInt16, skipChar rparen (p.dropWhile (· ≠ rparen)))
  else (32, p)

/-- The type of a column and its size -/
def columnType (word : CString 32) (p : List UInt8) :
    Except ParseError ((ColumnType × UInt16) × List UInt8) :=
  if keyword intWord word.bytes && word.bytes.length = 3 then .ok ((.int, 4), p)
  else if keyword bigintWord word.bytes then .ok ((.bigint, 8), p)
  else if keyword varcharWord word.bytes then
    let r := varcharSize lib p
    .ok ((.varchar, r.1), r.2)
  else .error .syntaxError

/-- The end of a column name -/
def nameStop (c : UInt8) : Bool := isSpace c || c = comma || c = rparen

/-- The end of a type -/
def typeStop (c : UInt8) : Bool := c = comma || c = rparen || c = lparen || isSpace c

/-- One column definition -/
def columnDef (p : List UInt8) : Except ParseError (ColumnDef × List UInt8) := do
  let name := token nameStop 31 p
  let word := token typeStop 31 (skipWs name.2)
  let r ← columnType lib word.1 word.2
  return (⟨name.1, r.1.1, r.1.2⟩, r.2)

/-- The loop of `parse_create_table` -/
def columnLoop : Nat → List UInt8 → List ColumnDef → Except ParseError (List ColumnDef × List UInt8) :=
  listLoop (columnDef lib)

/-- The end of a table name -/
def tableStop (c : UInt8) : Bool := isSpace c || c = lparen

/-- `parse_create_table` -/
def parseCreateTable (input : List UInt8) (stmt : Statement) : Except ParseError Statement := do
  let name := token tableStop 31 (skipWs input)
  let p := skipWs name.2
  if p.head? ≠ some lparen then .error .syntaxError
  else
    let r ← columnLoop lib (p.length + 1) p.tail []
    return { stmt with tableName := name.1, colDefs := r.1 }

/-! ## INSERT -/

/-- The end of a value in a list -/
def valueStop (c : UInt8) : Bool := c = comma || c = rparen || isSpace c

/-- One value of a list -/
def listValue (p : List UInt8) : Except ParseError (CString 256 × List UInt8) :=
  .ok (literal valueStop p)

/-- The loop of `parse_insert` -/
def valueLoop : Nat → List UInt8 → List (CString 256) →
    Except ParseError (List (CString 256) × List UInt8) := listLoop listValue

/-- `parse_insert` -/
def parseInsert (input : List UInt8) (stmt : Statement) : Except ParseError Statement := do
  let p := skipWs input
  if !keyword intoWord p then .error .syntaxError
  else
    let p ← advance 4 p
    let name := token isSpace 31 (skipWs p)
    let p := skipWs name.2
    if !keyword valuesWord p then .error .syntaxError
    else
      let p ← advance 6 p
      let p := skipWs p
      if p.head? ≠ some lparen then .error .syntaxError
      else
        let r ← valueLoop (p.length + 1) p.tail []
        return { stmt with tableName := name.1, insertValues := r.1 }

/-! ## WHERE -/

/-- The end of a field name -/
def fieldStop (c : UInt8) : Bool := c = equals || isSpace c

/-- The end of a bare value or of a table name -/
def wordStop (c : UInt8) : Bool := isSpace c || c = semicolon

/-- The end of `parse_where`: the field and the value decide the kind of the condition. -/
def withPredicate (stmt : Statement) (field : CString 32) (value : CString 256) : Statement :=
  if keyword idWord field.bytes && field.bytes.length = 2 then
    { stmt with
      predicateKind := .idEq
      predField := field
      predValue := value
      predId := (lib.atoll value.bytes).toUInt64 }
  else { stmt with predicateKind := .fieldEq, predField := field, predValue := value }

/-- `parse_where` -/
def parseWhere (p : List UInt8) (stmt : Statement) : Except ParseError Statement := do
  let p := skipWs p
  if p.head? = none ∨ p.head? = some semicolon then
    return { stmt with predicateKind := .none }
  else if !keyword whereWord p then .error .syntaxError
  else
    let p ← advance 5 p
    let field := token fieldStop 31 (skipWs p)
    let p := skipWs field.2
    if p.head? ≠ some equals then .error .syntaxError
    else
      return withPredicate lib stmt field.1 (literal wordStop (skipWs p.tail)).1

/-! ## SELECT and DELETE -/

/-- What `parse_select` and `parse_delete` share: FROM, the table and the WHERE clause -/
def parseFrom (p : List UInt8) (stmt : Statement) : Except ParseError Statement := do
  if !keyword fromWord p then .error .syntaxError
  else
    let p ← advance 4 p
    let name := token wordStop 31 (skipWs p)
    parseWhere lib (skipWs name.2) { stmt with tableName := name.1 }

/-- `parse_select` -/
def parseSelect (input : List UInt8) (stmt : Statement) : Except ParseError Statement :=
  let p := skipWs input
  if p.head? = some star then parseFrom lib (skipWs p.tail) { stmt with selectAll := true }
  else parseFrom lib p stmt

/-- `parse_delete` -/
def parseDelete (input : List UInt8) (stmt : Statement) : Except ParseError Statement :=
  parseFrom lib (skipWs input) stmt

/-! ## Statements -/

/-- What an EXPLAIN takes over from its inner statement -/
def explainOf (inner : Statement) : Statement :=
  { Statement.zero with
    type := .explain
    predicateKind := inner.predicateKind
    tableName := inner.tableName
    predField := inner.predField
    predValue := inner.predValue
    predId := inner.predId
    innerType := inner.type
    innerPredicate := inner.predicateKind }

/-- The statement in the trimmed text `p`; `inner` is the parser that EXPLAIN calls. -/
def parseStatement (inner : List UInt8 → Except ParseError Statement) (p : List UInt8) :
    Except ParseError Statement := do
  if p.head? = none then .error .syntaxError
  else if keyword createWord p then
    let p ← advance 6 p
    let p := skipWs p
    if !keyword tableWord p then .error .syntaxError
    else
      let p ← advance 5 p
      parseCreateTable lib (skipWs p) { Statement.zero with type := .createTable }
  else if keyword insertWord p then
    let p ← advance 6 p
    parseInsert (skipWs p) { Statement.zero with type := .insert }
  else if keyword selectWord p then
    let p ← advance 6 p
    parseSelect lib (skipWs p) { Statement.zero with type := .select }
  else if keyword deleteWord p then
    let p ← advance 6 p
    parseDelete lib (skipWs p) { Statement.zero with type := .delete }
  else if keyword explainWord p then
    let p ← advance 7 p
    let inner ← inner (skipWs p)
    return explainOf inner
  else .error .syntaxError

/-- The text that `parse` works on: a copy that fits its buffer, trimmed -/
def bufferText (input : List UInt8) : List UInt8 := skipWs (trim ((cString input).take 1023))

/-- `parse` with a bound on the depth of its recursion -/
def parseNested : Nat → List UInt8 → Except ParseError Statement
  | 0, _ => .error .nonTermination
  | n + 1, input => parseStatement lib (parseNested n) (bufferText input)

/-- `parse` -/
def parse (input : List UInt8) : Except ParseError Statement := parseNested lib 1024 input

end Lib

end MiniDb
