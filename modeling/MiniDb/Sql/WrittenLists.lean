import MiniDb.Sql.Cursor
import MiniDb.Sql.RoundTrip

/-!
# Lists as they are written

The loops over a list need no comma between two items, so that a list may be written with some of
its commas or without any.  However it is written, the loops read one item for each item of the
list; a column definition that is refused is the last one they read.

## Key results

- `entryCount_entries`: the items of a list, whatever stands behind it
- `entries_insert`, `entries_create`: the number of items in a statement
- `entries_refused`: the number up to a definition that is refused
-/

namespace MiniDb

open CText

/-! ## Items and commas -/

/-- An item of a list with the blanks around it and the comma behind it, if there is one -/
structure Entry (α : Type) where
  before : Blanks
  item : α
  after : Blanks
  comma : Bool

section Entries

variable {α : Type}

/-- What stands between an item and the next one -/
def Entry.gap (e : Entry α) : List UInt8 := e.after.bytes ++ if e.comma then [MiniDb.comma] else []

def Entry.text (f : α → List UInt8) (e : Entry α) : List UInt8 := e.before.bytes ++ (f e.item ++ e.gap)

/-- The items one after the other -/
def entriesText (f : α → List UInt8) (l : List (Entry α)) : List UInt8 := l.flatMap (Entry.text f)

/-- The items stay apart, and from the text `q` behind them: each one ends where the next text
    begins, and a comma belongs to the item in front of it. -/
def Parted (f : α → List UInt8) (ends : α → List UInt8 → Prop) : List (Entry α) → List UInt8 → Prop
  | [], _ => True
  | e :: l, q => ends e.item (e.gap ++ (entriesText f l ++ q)) ∧
      (e.comma = false → (skipWs (entriesText f l ++ q)).head? ≠ some comma) ∧ Parted f ends l q

theorem entriesText_cons (f : α → List UInt8) (e : Entry α) (l : List (Entry α)) (q : List UInt8) :
    entriesText f (e :: l) ++ q =
      e.before.bytes ++ (f e.item ++ (e.gap ++ (entriesText f l ++ q))) := by
  simp only [entriesText, List.flatMap_cons, Entry.text, List.append_assoc]

/-- Where the loop goes on behind an item -/
theorem Entry.afterItem_gap (e : Entry α) {q : List UInt8}
    (hq : e.comma = false → (skipWs q).head? ≠ some MiniDb.comma) :
    afterItem (e.gap ++ q) = q ∨ afterItem (e.gap ++ q) = skipWs q := by
  cases hcomma : e.comma with
  | true =>
    left
    rw [gap, hcomma, if_pos rfl, List.append_assoc]
    exact skipChar_comma e.after q
  | false =>
    right
    rw [gap, hcomma, if_neg Bool.false_ne_true, List.append_nil, afterItem, e.after.skipWs_append,
      skipChar, if_neg (hq hcomma)]

/-- A list goes on where an item begins. -/
theorem ItemText.not_listEnds {p : List UInt8} (h : ItemText (skipWs p)) : ¬ ListEnds p := by
  obtain ⟨c, t, hskip, hspace, hparen⟩ := h
  rintro (hnil | hhead | hclose)
  · rw [List.head?_eq_none_iff.mp hnil] at hskip
    exact nomatch hskip
  · -- a parenthesis is no blank
    have hself : skipWs p = p := skipWs_of_head fun d hd => by
      rw [hhead, Option.mem_some_iff] at hd
      rw [← hd]
      rfl
    rw [← hself, hskip] at hhead
    exact hparen (Option.some.inj hhead)
  · rw [hskip] at hclose
    exact hparen (Option.some.inj hclose)

theorem ItemText.skipWs_eq {p : List UInt8} (h : ItemText p) : skipWs p = p := by
  obtain ⟨c, t, hp, hspace, -⟩ := h
  exact Solid.skipWs_eq ⟨c, t, hp, hspace⟩

variable {β : Type} {item : List UInt8 → Except ParseError (β × List UInt8)} {f : α → List UInt8}
  {ends : α → List UInt8 → Prop}

/-- The loop reads one item for each item of the list, and then those of the text behind it. -/
theorem entryCount_entries (hf : ∀ a q, ends a q → ItemText (f a ++ q))
    (hitem : ∀ a q, ends a q → ∃ r, item (f a ++ q) = .ok r ∧ afterItem r.2 = afterItem q)
    {l : List (Entry α)} {q : List UInt8} {k : Nat} (hparted : Parted f ends l q)
    (hq : ∀ m, 0 < m → entryCount item m q = k ∧ entryCount item m (skipWs q) = k)
    {n : Nat} (hn : l.length < n) :
    entryCount item n (entriesText f l ++ q) = l.length + k ∧
      entryCount item n (skipWs (entriesText f l ++ q)) = l.length + k := by
  -- on the list; the loop may come with or without the blanks in front of it
  induction l generalizing n with
  | nil =>
    rw [List.length_nil, Nat.zero_add]
    exact hq n hn
  | cons e l ih =>
    obtain ⟨n, rfl⟩ := Nat.exists_eq_add_of_le' (Nat.lt_of_le_of_lt (Nat.zero_le _) hn)
    obtain ⟨hends, hcomma, hrest⟩ := hparted
    have hlen : l.length < n := Nat.lt_of_succ_lt_succ hn
    have htext := hf _ _ hends
    have hskip : skipWs (entriesText f (e :: l) ++ q) =
        f e.item ++ (e.gap ++ (entriesText f l ++ q)) := by
      rw [entriesText_cons, e.before.skipWs_append, htext.skipWs_eq]
    obtain ⟨r, hread, hafter⟩ := hitem _ _ hends
    have hcount : entryCount item n (afterItem r.2) = l.length + k := by
      obtain ⟨h1, h2⟩ := ih hrest hlen
      rw [hafter]
      -- behind the item is a comma or none
      rcases e.afterItem_gap hcomma with h | h
      · rw [h, h1]
      · rw [h, h2]
    -- one turn, with and without the blanks in front of the item
    have hturn (p : List UInt8) (hp : skipWs p = f e.item ++ (e.gap ++ (entriesText f l ++ q))) :
        entryCount item (n + 1) p = (e :: l).length + k := by
      have hmore : ¬ ListEnds p := ItemText.not_listEnds (hp ▸ htext)
      rw [entryCount, if_neg hmore, hp, hread]
      dsimp only
      rw [hcount, List.length_cons]
      omega
    exact ⟨hturn _ hskip, hturn _ (by rw [skipWs_skipWs, hskip])⟩

/-- At the end of a list there is nothing more to read. -/
theorem entryCount_of_ends {q : List UInt8} (h : ListEnds q) (m : Nat) (hm : 0 < m) :
    entryCount item m q = 0 ∧ entryCount item m (skipWs q) = 0 := by
  obtain ⟨m, rfl⟩ := Nat.exists_eq_add_of_le' hm
  have hskip : ListEnds (skipWs q) := by
    rcases h with h | h | h
    · rw [List.head?_eq_none_iff.mp h]
      exact Or.inl rfl
    · have hself : skipWs q = q := skipWs_of_head fun d hd => by
        rw [h, Option.mem_some_iff] at hd
        rw [← hd]
        rfl
      rw [hself]
      exact Or.inr (Or.inl h)
    · exact Or.inr (Or.inl h)
  rw [entryCount, if_pos h, entryCount, if_pos hskip]
  exact ⟨rfl, rfl⟩

/-- An item that is refused is the last one. -/
theorem entryCount_of_refused {q : List UInt8} {e : ParseError} (h : ItemText (skipWs q))
    (hrefused : item (skipWs q) = .error e) (m : Nat) (hm : 0 < m) :
    entryCount item m q = 1 ∧ entryCount item m (skipWs q) = 1 := by
  obtain ⟨m, rfl⟩ := Nat.exists_eq_add_of_le' hm
  have hskip : ItemText (skipWs (skipWs q)) := by rwa [skipWs_skipWs]
  rw [entryCount, if_neg h.not_listEnds, hrefused, entryCount, if_neg hskip.not_listEnds,
    skipWs_skipWs, hrefused]
  exact ⟨rfl, rfl⟩

end Entries

/-! ## Values -/

/-- An item ends in front of blanks, a comma, the closing parenthesis, or the end of the text. -/
def EndsItem (q : List UInt8) : Prop := ∀ c ∈ q.head?, isSpace c ∨ c = comma ∨ c = rparen

/-- A value of a list: a literal, or nothing at all in front of a comma -/
inductive ValueText where
  | literal (l : Literal)
  | empty

namespace ValueText

def text : ValueText → List UInt8
  | literal l => l.text
  | empty => []

/-- The value ends in front of `q`; a quoted literal always does. -/
def Ends : ValueText → List UInt8 → Prop
  | literal (.quoted ..), _ => True
  | literal (.bare ..), q => EndsItem q
  | empty, q => q.head? = some comma

variable {v : ValueText} {q : List UInt8}

theorem itemText (h : v.Ends q) : ItemText (v.text ++ q) := by
  cases v with
  | literal l =>
    obtain ⟨c, t, ht, hspace, hparen⟩ := l.itemText
    exact ⟨c, t ++ q, by rw [text, ht]; rfl, hspace, hparen⟩
  | empty =>
    obtain ⟨c, t, ht⟩ := List.exists_cons_of_ne_nil (show q ≠ [] by
      rintro rfl
      exact nomatch h)
    rw [Ends, ht] at h
    obtain rfl : c = comma := Option.some.inj h
    exact ⟨comma, t, ht, rfl, by decide⟩

theorem listValue_eq (h : v.Ends q) :
    ∃ r, listValue (v.text ++ q) = .ok r ∧ afterItem r.2 = afterItem q := by
  refine ⟨_, rfl, congrArg afterItem ?_⟩
  cases v with
  | literal l =>
    cases l with
    | quoted s clean => exact congrArg Prod.snd (Literal.quoted_eq s clean valueStop q)
    | bare s nonempty unquoted clean =>
      have hstop (c : UInt8) (hc : valueStop c) :
          isSpace c ∨ c = comma ∨ c = rparen ∨ c = semicolon := by
        simp only [valueStop, Bool.or_eq_true, decide_eq_true_eq] at hc
        tauto
      have hq : ∀ c ∈ q.head?, valueStop c := by
        intro c hc
        obtain hspace | rfl | rfl := h c hc
        · simp [valueStop, hspace]
        · rfl
        · rfl
      exact congrArg Prod.snd ((Literal.bare s nonempty unquoted clean).literal_eq hstop hq)
  | empty =>
    -- the comma ends the value before it has begun
    obtain ⟨t, rfl⟩ : ∃ t, q = comma :: t := by
      cases q with
      | nil => exact absurd h.symm (Option.some_ne_none comma)
      | cons c t => exact ⟨t, congrArg (· :: t) (Option.some.inj h)⟩
    rfl

end ValueText

/-! ## Columns -/

/-- A column definition; `VARCHAR` may stand without a width. -/
inductive ColumnItem where
  | column (c : ColumnText)
  | plain (name : Name nameStop) (gap : Blanks) (nonempty : gap.bytes ≠ []) (word : Spelling varcharWord)

namespace ColumnItem

def text : ColumnItem → List UInt8
  | column c => c.text
  | plain name gap _ word => name.str.bytes ++ gap.bytes ++ word.bytes

/-- The definition ends in front of `q`; one with a width always does, and a parenthesis behind
    `VARCHAR` would begin a width. -/
def Ends : ColumnItem → List UInt8 → Prop
  | column c, q => c.type.Closed ∨ EndsItem q
  | plain .., q => EndsItem q ∧ (skipWs q).head? ≠ some lparen

theorem ends_typeStop {q : List UInt8} (h : EndsItem q) : ∀ c ∈ q.head?, typeStop c := by
  intro c hc
  obtain hspace | rfl | rfl := h c hc
  · simp [typeStop, hspace]
  · rfl
  · rfl

variable {c : ColumnItem} {q : List UInt8}

theorem itemText (c : ColumnItem) (q : List UInt8) : ItemText (c.text ++ q) := by
  have hstart (name : Name nameStop) (t : List UInt8) : ItemText (name.str.bytes ++ t) := by
    obtain ⟨d, ds, hds⟩ := List.exists_cons_of_ne_nil name.nonempty
    have hstop := name.clean d (hds ▸ List.mem_cons_self ..)
    simp only [nameStop, Bool.or_eq_false_iff, decide_eq_false_iff_not] at hstop
    exact ⟨d, ds ++ t, by rw [hds]; rfl, hstop.1.1, hstop.2⟩
  cases c with
  | column c =>
    rw [text, ColumnText.text, List.append_assoc, List.append_assoc]
    exact hstart _ _
  | plain name gap _ word =>
    rw [text, List.append_assoc, List.append_assoc]
    exact hstart _ _

theorem columnDef_eq (lib : CLib) (h : c.Ends q) :
    ∃ r, columnDef lib (c.text ++ q) = .ok r ∧ afterItem r.2 = afterItem q := by
  cases c with
  | column c => exact ⟨_, c.columnDef_eq lib (h.imp_right ends_typeStop), rfl⟩
  | plain name gap nonempty word =>
    obtain ⟨hend, hwidth⟩ := h
    obtain ⟨h1, h2⟩ := word.typeToken (by decide +kernel) (by decide) (ends_typeStop hend)
    have hsize : varcharSize lib q = (32, skipWs q) := by
      rw [varcharSize, if_neg hwidth]
    have hsolid : Solid (word.bytes ++ q) := (word.solid (by decide +kernel) (by decide)).append q
    refine ⟨(⟨name.str, .varchar, 32⟩, skipWs q), ?_, by rw [afterItem, skipWs_skipWs, afterItem]⟩
    rw [text, List.append_assoc, columnDef_name lib name gap nonempty hsolid]
    dsimp only
    rw [columnType_varchar lib word h1, h2, hsize]
    rfl

end ColumnItem

/-! ## Statements -/

/-- An INSERT up to the parenthesis in front of its list -/
structure InsertHead where
  word : Spelling insertWord
  b₁ : Blanks
  into : Spelling intoWord
  b₂ : Blanks
  name : Name isSpace
  b₃ : Blanks
  gap : b₃.bytes ≠ []
  kw : Spelling valuesWord
  b₄ : Blanks

/-- The statement with `q` behind the parenthesis -/
def InsertHead.text (h : InsertHead) (q : List UInt8) : List UInt8 :=
  h.word.bytes ++ (h.b₁.bytes ++ (h.into.bytes ++ (h.b₂.bytes ++ (h.name.str.bytes ++
    (h.b₃.bytes ++ (h.kw.bytes ++ (h.b₄.bytes ++ lparen :: q)))))))

/-- A CREATE TABLE up to the parenthesis in front of its list -/
structure CreateHead where
  word : Spelling createWord
  b₁ : Blanks
  table : Spelling tableWord
  b₂ : Blanks
  name : Name tableStop
  b₃ : Blanks

def CreateHead.text (h : CreateHead) (q : List UInt8) : List UInt8 :=
  h.word.bytes ++ (h.b₁.bytes ++ (h.table.bytes ++ (h.b₂.bytes ++ (h.name.str.bytes ++
    (h.b₃.bytes ++ lparen :: q)))))

theorem Spelling.drop_append {word : List UInt8} (w : Spelling word) {n : Nat} (hn : word.length = n)
    (q : List UInt8) : (w.bytes ++ q).drop n = q := by
  rw [← hn, ← w.length, List.drop_left]

theorem InsertHead.valuesText_eq (h : InsertHead) (q : List UInt8) : valuesText (h.text q) = some q := by
  have hname : Solid h.name.str.bytes := h.name.solid fun _ hc => hc
  have hinto : Solid h.into.bytes := h.into.solid (by decide +kernel) (by decide)
  have hkw : Solid h.kw.bytes := h.kw.solid (by decide +kernel) (by decide)
  have hend : ∀ c ∈ (h.b₃.bytes ++ (h.kw.bytes ++ (h.b₄.bytes ++ lparen :: q))).head?, isSpace c := by
    obtain ⟨d, ds, hds⟩ := List.exists_cons_of_ne_nil h.gap
    intro c hc
    rw [hds] at hc
    exact Option.some.inj hc ▸ h.b₃.blank d (hds ▸ List.mem_cons_self ..)
  have hskip : skipWs (h.b₄.bytes ++ lparen :: q) = lparen :: q :=
    h.b₄.skipWs_solid ⟨lparen, q, rfl, rfl⟩
  unfold valuesText InsertHead.text
  simp only [h.word.drop_append (n := 6) rfl, h.b₁.skipWs_solid (hinto.append _),
    h.into.keyword_append (by decide), if_true, h.into.drop_append (n := 4) rfl,
    h.b₂.skipWs_solid (hname.append _), h.name.token_eq hend, h.b₃.skipWs_solid (hkw.append _),
    h.kw.keyword_append (by decide), h.kw.drop_append (n := 6) rfl, hskip]
  rfl

theorem CreateHead.columnsText_eq (h : CreateHead) (q : List UInt8) :
    columnsText (h.text q) = some q := by
  have hname : Solid h.name.str.bytes := h.name.solid fun c hc => by simp [tableStop, hc]
  have htable : Solid h.table.bytes := h.table.solid (by decide +kernel) (by decide)
  have hend : ∀ c ∈ (h.b₃.bytes ++ lparen :: q).head?, tableStop c :=
    h.b₃.head_append (fun d hd => by simp [tableStop, hd]) rfl
  have hskip : skipWs (h.b₃.bytes ++ lparen :: q) = lparen :: q :=
    h.b₃.skipWs_solid ⟨lparen, q, rfl, rfl⟩
  unfold columnsText CreateHead.text
  simp only [h.word.drop_append (n := 6) rfl, h.b₁.skipWs_solid (htable.append _),
    h.table.keyword_append (by decide), if_true, h.table.drop_append (n := 5) rfl,
    h.b₂.skipWs_solid (hname.append _), h.name.token_eq hend, hskip]
  rfl

theorem explained_suffix (n : Nat) (p : List UInt8) : explained n p <:+ p := by
  induction n generalizing p with
  | zero => exact List.suffix_refl p
  | succ n ih =>
    rw [explained]
    split
    next => exact (ih _).trans ((skipWs_suffix _).trans (List.drop_suffix 7 p))
    next => exact List.suffix_refl p

section Counts

variable (lib : CLib) {input q : List UInt8}

/-- The count for a statement that stands behind any number of EXPLAIN, with as many steps as are
    asked for -/
theorem entries_of_insert (head : InsertHead)
    (hinput : explained 1023 (bufferText input) = head.text q) {n : Nat} (hn : q.length < n) :
    entries lib input = entryCount listValue n q := by
  have hsuffix : q <:+ explained 1023 (bufferText input) := by
    rw [hinput]
    exact ⟨head.word.bytes ++ (head.b₁.bytes ++ (head.into.bytes ++ (head.b₂.bytes ++
      (head.name.str.bytes ++ (head.b₃.bytes ++ (head.kw.bytes ++ (head.b₄.bytes ++ [lparen]))))))),
      by simp only [InsertHead.text, List.append_assoc, List.cons_append, List.nil_append]⟩
  have hnul := not_mem_suffix (hsuffix.trans (explained_suffix _ _)) (noNul_bufferText input)
  have hcreate : keyword createWord (head.text q) = false :=
    head.word.other (by decide) (v := createWord) (by decide) (by decide) (by decide) _
  have hinsert : keyword insertWord (head.text q) := head.word.keyword_append (by decide) _
  rw [entries, hinput, listEntries, hcreate, if_neg Bool.false_ne_true, if_pos hinsert,
    head.valuesText_eq]
  exact entryCount_eq listValue_advances hnul (Nat.lt_succ_self _) hn

theorem entries_of_create (head : CreateHead)
    (hinput : explained 1023 (bufferText input) = head.text q) {n : Nat} (hn : q.length < n) :
    entries lib input = entryCount (columnDef lib) n q := by
  have hsuffix : q <:+ explained 1023 (bufferText input) := by
    rw [hinput]
    exact ⟨head.word.bytes ++ (head.b₁.bytes ++ (head.table.bytes ++ (head.b₂.bytes ++
      (head.name.str.bytes ++ (head.b₃.bytes ++ [lparen]))))),
      by simp only [CreateHead.text, List.append_assoc, List.cons_append, List.nil_append]⟩
  have hnul := not_mem_suffix (hsuffix.trans (explained_suffix _ _)) (noNul_bufferText input)
  have hcreate : keyword createWord (head.text q) := head.word.keyword_append (by decide) _
  rw [entries, hinput, listEntries, if_pos hcreate, head.columnsText_eq]
  exact entryCount_eq (columnDef_advances lib) hnul (Nat.lt_succ_self _) hn

/-- An INSERT has one item for each value of its list, with or without commas. -/
theorem entries_insert (head : InsertHead) {l : List (Entry ValueText)}
    (hinput : explained 1023 (bufferText input) = head.text (entriesText ValueText.text l ++ q))
    (hparted : Parted ValueText.text ValueText.Ends l q) (hends : ListEnds q) :
    entries lib input = l.length := by
  let n := (entriesText ValueText.text l ++ q).length + l.length + 1
  have hn : (entriesText ValueText.text l ++ q).length < n := by omega
  have hlen : l.length < n := by omega
  rw [entries_of_insert lib head hinput hn]
  exact (entryCount_entries (fun v _ => ValueText.itemText (v := v)) (fun _ _ => ValueText.listValue_eq)
    hparted (entryCount_of_ends hends) hlen).1

/-- A CREATE TABLE has one item for each definition of its list, with or without commas. -/
theorem entries_create (head : CreateHead) {l : List (Entry ColumnItem)}
    (hinput : explained 1023 (bufferText input) = head.text (entriesText ColumnItem.text l ++ q))
    (hparted : Parted ColumnItem.text ColumnItem.Ends l q) (hends : ListEnds q) :
    entries lib input = l.length := by
  let n := (entriesText ColumnItem.text l ++ q).length + l.length + 1
  have hn : (entriesText ColumnItem.text l ++ q).length < n := by omega
  have hlen : l.length < n := by omega
  rw [entries_of_create lib head hinput hn]
  exact (entryCount_entries (fun c q _ => ColumnItem.itemText c q)
    (fun _ _ => ColumnItem.columnDef_eq lib) hparted (entryCount_of_ends hends) hlen).1

example : entries CLib.wrapping (utf8 "CREATE TABLE t (a INT b VARCHAR(9)c INT, d VARCHAR e BIGINT)") =
    5 := by decide +kernel

/-- A definition that is refused is the last item, whatever follows it. -/
theorem entries_refused (head : CreateHead) {l : List (Entry ColumnItem)} {e : ParseError}
    (hinput : explained 1023 (bufferText input) = head.text (entriesText ColumnItem.text l ++ q))
    (hparted : Parted ColumnItem.text ColumnItem.Ends l q) (hmore : ItemText (skipWs q))
    (hrefused : columnDef lib (skipWs q) = .error e) : entries lib input = l.length + 1 := by
  let n := (entriesText ColumnItem.text l ++ q).length + l.length + 1
  have hn : (entriesText ColumnItem.text l ++ q).length < n := by omega
  have hlen : l.length < n := by omega
  rw [entries_of_create lib head hinput hn]
  exact (entryCount_entries (fun c q _ => ColumnItem.itemText c q)
    (fun _ _ => ColumnItem.columnDef_eq lib) hparted (entryCount_of_refused hmore hrefused) hlen).1

end Counts

end MiniDb
