import MiniDb.Sql.Parser

/-!
# Texts of statements

A statement as a user writes it: its tokens with the blanks between them, keywords in any case.
`text` is what stands in the input and `statement` what it means.
-/

namespace MiniDb

open CText

/-! ## Tokens -/

/-- A run of blanks -/
structure Blanks where
  bytes : List UInt8
  blank : ∀ c ∈ bytes, isSpace c

/-- A keyword in any case -/
structure Spelling (word : List UInt8) where
  bytes : List UInt8
  spells : bytes.map toLower = word.map toLower

/-- A name of 1 to 31 bytes, none of which ends it -/
structure Name (stop : UInt8 → Bool) where
  str : CString 32
  nonempty : str.bytes ≠ []
  clean : ∀ c ∈ str.bytes, stop c = false

/-- A literal -/
inductive Literal where
  | quoted (s : CString 256) (clean : quote ∉ s.bytes)
  | bare (s : CString 256) (nonempty : s.bytes ≠ []) (unquoted : s.bytes.head? ≠ some quote)
      (clean : ∀ c ∈ s.bytes, isSpace c = false ∧ c ≠ comma ∧ c ≠ rparen ∧ c ≠ semicolon)

/-- A width as a number in decimal -/
structure Width where
  digits : List UInt8
  nonempty : digits ≠ []
  digit : ∀ d ∈ digits, isDigit d
  small : digitsFrom 0 digits < 65536

namespace Literal

def text : Literal → List UInt8
  | quoted s _ => quote :: s.bytes ++ [quote]
  | bare s _ _ _ => s.bytes

def value : Literal → CString 256
  | quoted s _ => s
  | bare s _ _ _ => s

end Literal

def Width.value (w : Width) : UInt16 := UInt16.ofNat (digitsFrom 0 w.digits)

/-! ## Columns and lists -/

/-- The type of a column -/
inductive TypeText where
  | int (word : Spelling intWord)
  | bigint (word : Spelling bigintWord)
  | varchar (word : Spelling varcharWord) (b₁ b₂ : Blanks) (width : Width) (b₃ : Blanks)

namespace TypeText

def text : TypeText → List UInt8
  | int word => word.bytes
  | bigint word => word.bytes
  | varchar word b₁ b₂ width b₃ =>
    word.bytes ++ b₁.bytes ++ lparen :: (b₂.bytes ++ width.digits ++ b₃.bytes ++ [rparen])

def type : TypeText → ColumnType
  | int _ => .int
  | bigint _ => .bigint
  | varchar .. => .varchar

def size : TypeText → UInt16
  | int _ => 4
  | bigint _ => 8
  | varchar _ _ _ width _ => width.value

end TypeText

/-- A column definition -/
structure ColumnText where
  name : Name nameStop
  gap : Blanks
  nonempty : gap.bytes ≠ []
  type : TypeText

namespace ColumnText

def text (c : ColumnText) : List UInt8 := c.name.str.bytes ++ c.gap.bytes ++ c.type.text

def definition (c : ColumnText) : ColumnDef := ⟨c.name.str, c.type.type, c.type.size⟩

end ColumnText

/-- An item of a list with the blanks around it -/
structure Item (α : Type) where
  before : Blanks
  item : α
  after : Blanks

section List

variable {α : Type}

def Item.text (f : α → List UInt8) (i : Item α) : List UInt8 :=
  i.before.bytes ++ f i.item ++ i.after.bytes

/-- The items with commas between them -/
def itemsText (f : α → List UInt8) : List (Item α) → List UInt8
  | [] => []
  | [i] => i.text f
  | i :: j :: is => i.text f ++ comma :: itemsText f (j :: is)

/-- At most 16 items; `blanks` stands in front of the closing parenthesis. -/
structure Items (α : Type) where
  items : List (Item α)
  blanks : Blanks
  room : items.length ≤ 16

/-- The items in parentheses -/
def Items.text (f : α → List UInt8) (l : Items α) : List UInt8 :=
  lparen :: (itemsText f l.items ++ l.blanks.bytes ++ [rparen])

def Items.values (l : Items α) : List α := l.items.map Item.item

end List

/-! ## Conditions -/

/-- A WHERE clause, with the blanks in front of it -/
structure WhereText where
  gap : Blanks
  nonempty : gap.bytes ≠ []
  word : Spelling whereWord
  b₁ : Blanks
  field : Name fieldStop
  b₂ : Blanks
  b₃ : Blanks
  value : Literal

namespace WhereText

def text (w : WhereText) : List UInt8 :=
  w.gap.bytes ++ w.word.bytes ++ w.b₁.bytes ++ w.field.str.bytes ++ w.b₂.bytes ++
    equals :: (w.b₃.bytes ++ w.value.text)

/-- The condition on the column `id` uses the index. -/
def statement (lib : CLib) (w : WhereText) (stmt : Statement) : Statement :=
  if w.field.str.bytes.map toLower = idWord then
    { stmt with
      predicateKind := .idEq
      predField := w.field.str
      predValue := w.value.value
      predId := (lib.atoll w.value.value.bytes).toUInt64 }
  else
    { stmt with
      predicateKind := .fieldEq
      predField := w.field.str
      predValue := w.value.value }

end WhereText

/-- FROM, the table and the condition -/
structure FromText where
  word : Spelling fromWord
  b₁ : Blanks
  table : Name wordStop
  condition : Option WhereText

namespace FromText

def text (f : FromText) : List UInt8 :=
  f.word.bytes ++ f.b₁.bytes ++ f.table.str.bytes ++ (f.condition.map WhereText.text).getD []

def statement (lib : CLib) (f : FromText) (stmt : Statement) : Statement :=
  match f.condition with
  | none => { stmt with tableName := f.table.str }
  | some w => w.statement lib { stmt with tableName := f.table.str }

end FromText

/-! ## Statements -/

/-- A statement other than EXPLAIN -/
inductive StatementText where
  | create (word : Spelling createWord) (b₁ : Blanks) (table : Spelling tableWord) (b₂ : Blanks)
      (name : Name tableStop) (b₃ : Blanks) (columns : Items ColumnText)
  | insert (word : Spelling insertWord) (b₁ : Blanks) (into : Spelling intoWord) (b₂ : Blanks)
      (name : Name isSpace) (b₃ : Blanks) (gap : b₃.bytes ≠ []) (kw : Spelling valuesWord)
      (b₄ : Blanks) (values : Items Literal)
  | select (word : Spelling selectWord) (b₁ b₂ : Blanks) (source : FromText)
  | delete (word : Spelling deleteWord) (b₁ : Blanks) (source : FromText)

namespace StatementText

def text : StatementText → List UInt8
  | create word b₁ table b₂ name b₃ columns =>
    word.bytes ++ b₁.bytes ++ table.bytes ++ b₂.bytes ++ name.str.bytes ++ b₃.bytes ++
      columns.text ColumnText.text
  | insert word b₁ into b₂ name b₃ _ kw b₄ values =>
    word.bytes ++ b₁.bytes ++ into.bytes ++ b₂.bytes ++ name.str.bytes ++ b₃.bytes ++
      kw.bytes ++ b₄.bytes ++ values.text Literal.text
  | select word b₁ b₂ source =>
    word.bytes ++ b₁.bytes ++ star :: (b₂.bytes ++ source.text)
  | delete word b₁ source => word.bytes ++ b₁.bytes ++ source.text

/-- What the statement means -/
def statement (lib : CLib) : StatementText → Statement
  | create _ _ _ _ name _ columns =>
    { Statement.zero with
      type := .createTable, tableName := name.str, colDefs := columns.values.map ColumnText.definition }
  | insert _ _ _ _ name _ _ _ _ values =>
    { Statement.zero with
      type := .insert, tableName := name.str, insertValues := values.values.map Literal.value }
  | select _ _ _ source =>
    source.statement lib { Statement.zero with type := .select, selectAll := true }
  | delete _ _ source => source.statement lib { Statement.zero with type := .delete }

end StatementText

end MiniDb
