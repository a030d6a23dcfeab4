import MiniDb.Sql.Executor
import MiniDb.Sql.Parser

/-!
# Words, blanks and nesting

## Key results

- `keyword_iff`: what the comparison with a keyword tests
- `parse_eq`: the depth of the recursion of `parse` is bounded by its buffer
- `explain_iff`: when EXPLAIN shows the plan of its statement
-/

namespace MiniDb

open CText

/-- The steps of a computation that succeeds succeed. -/
theorem exists_of_bind {ε α β : Type} {x : Except ε α} {f : α → Except ε β} {b : β}
    (h : x >>= f = .ok b) : ∃ a, x = .ok a ∧ f a = .ok b := by
  cases x with
  | error e => exact nomatch h
  | ok a => exact ⟨a, rfl, h⟩

theorem exists_of_isSome {ε α : Type} {x : Except ε α} (h : x.toOption.isSome) :
    ∃ a, x = .ok a := by
  cases x with
  | error e => exact nomatch h
  | ok a => exact ⟨a, rfl⟩

/-! ## Words -/

theorem toLower_eq_zero {c : UInt8} : toLower c = 0 ↔ c = 0 := by
  unfold toLower
  split
  next h =>
    simp only [Bool.and_eq_true, decide_eq_true_eq, UInt8.le_iff_toNat_le] at h
    have h41 : (0x41 : UInt8).toNat = 0x41 := rfl
    have h5a : (0x5a : UInt8).toNat = 0x5a := rfl
    have h20 : (0x20 : UInt8).toNat = 0x20 := rfl
    have h0 : (0 : UInt8).toNat = 0 := rfl
    rw [← UInt8.toNat_inj, ← UInt8.toNat_inj, UInt8.toNat_add]
    omega
  next => rfl

theorem strcasecmpN_nil (w : UInt8) (word : List UInt8) (n : Nat) :
    strcasecmpN [] (w :: word) (n + 1) =
      if ((toLower 0).toNat : Int) - (toLower w).toNat ≠ 0
      then ((toLower 0).toNat : Int) - (toLower w).toNat else 0 := rfl

theorem strcasecmpN_cons (c w : UInt8) (p word : List UInt8) (n : Nat) :
    strcasecmpN (c :: p) (w :: word) (n + 1) =
      if ((toLower c).toNat : Int) - (toLower w).toNat ≠ 0
      then ((toLower c).toNat : Int) - (toLower w).toNat
      else if c = 0 then 0 else strcasecmpN p word n := rfl

theorem strcasecmpN_eq_zero {word : List UInt8} (hword : 0 ∉ word) (p : List UInt8) :
    strcasecmpN p word word.length = 0 ↔ word.map toLower <+: p.map toLower := by
  induction word generalizing p with
  | nil => simp [strcasecmpN]
  | cons w word ih =>
    have hw : toLower w ≠ 0 := fun h => hword (toLower_eq_zero.mp h ▸ List.mem_cons_self ..)
    have hrest := ih (fun h => hword (List.mem_cons_of_mem _ h))
    have hdiff (c : UInt8) :
        ((toLower c).toNat : Int) - (toLower w).toNat = 0 ↔ toLower w = toLower c := by
      rw [← UInt8.toNat_inj]
      omega
    rw [List.length_cons]
    cases p with
    | nil =>
      -- the text ends before the word does
      have hend : ((toLower 0).toNat : Int) - (toLower w).toNat ≠ 0 := fun h => hw ((hdiff 0).mp h)
      rw [strcasecmpN_nil, if_pos hend]
      exact iff_of_false hend (by simp)
    | cons c p =>
      rw [strcasecmpN_cons, List.map_cons, List.map_cons, List.cons_prefix_cons]
      by_cases hc : toLower w = toLower c
      · have hc0 : c ≠ 0 := fun h => hw (hc.trans (toLower_eq_zero.mpr h))
        rw [if_neg (not_not.mpr ((hdiff c).mpr hc)), if_neg hc0, hrest]
        exact (and_iff_right hc).symm
      · have hne : ((toLower c).toNat : Int) - (toLower w).toNat ≠ 0 := fun h => hc ((hdiff c).mp h)
        rw [if_pos hne]
        exact iff_of_false hne fun h => hc h.1

/-- The text begins with the word, in any case. -/
theorem keyword_iff {word : List UInt8} (hword : 0 ∉ word) (p : List UInt8) :
    keyword word p ↔ word.map toLower <+: p.map toLower := by
  rw [keyword, decide_eq_true_iff, strcasecmpN_eq_zero hword]

theorem keyword_append {word t : List UInt8} (hword : 0 ∉ word)
    (ht : t.map toLower = word.map toLower) (q : List UInt8) : keyword word (t ++ q) := by
  rw [keyword_iff hword, List.map_append, ht]
  exact List.prefix_append ..

/-- A text does not begin with two different words. -/
theorem keyword_unique {v w p : List UInt8} (hv : 0 ∉ v) (hw : 0 ∉ w) (hp : keyword v p)
    (hvw : ¬ v.map toLower <+: w.map toLower) (hwv : ¬ w.map toLower <+: v.map toLower) :
    keyword w p = false := by
  rw [Bool.eq_false_iff]
  intro h
  rw [keyword_iff hw] at h
  rw [keyword_iff hv] at hp
  exact (List.prefix_or_prefix_of_prefix hp h).elim hvw hwv

theorem length_of_keyword {word p : List UInt8} (hword : 0 ∉ word) (hp : keyword word p) :
    word.length ≤ p.length := by
  have := ((keyword_iff hword p).mp hp).length_le
  rwa [List.length_map, List.length_map] at this

theorem advance_append {n : Nat} {t : List UInt8} (ht : t.length = n) (q : List UInt8) :
    advance n (t ++ q) = .ok q := by
  rw [advance, if_pos (by rw [List.length_append]; omega), List.drop_left' ht]

theorem advance_of_keyword {word p : List UInt8} (hword : 0 ∉ word) (hp : keyword word p) :
    advance word.length p = .ok (p.drop word.length) :=
  if_pos (length_of_keyword hword hp)

theorem eq_drop_of_advance {n : Nat} {p q : List UInt8} (h : advance n p = .ok q) :
    q = p.drop n := by
  unfold advance at h
  split at h
  next => exact (Except.ok.inj h).symm
  next => exact nomatch h

/-! ## Blanks -/

theorem skipWs_append {ws : List UInt8} (hws : ∀ c ∈ ws, isSpace c) (p : List UInt8) :
    skipWs (ws ++ p) = skipWs p := List.dropWhile_append_of_pos hws

theorem skipWs_of_head {p : List UInt8} (hp : ∀ c ∈ p.head?, isSpace c = false) : skipWs p = p := by
  cases p with
  | nil => rfl
  | cons c p => exact List.dropWhile_cons_of_neg (by rw [hp c rfl]; exact Bool.false_ne_true)

theorem head_skipWs (p : List UInt8) : ∀ c ∈ (skipWs p).head?, isSpace c = false := by
  intro c hc
  have hnot := List.head?_dropWhile_not isSpace p
  rw [skipWs, Option.mem_def] at hc
  rw [hc] at hnot
  simpa using hnot

@[simp] theorem skipWs_skipWs (p : List UInt8) : skipWs (skipWs p) = skipWs p :=
  skipWs_of_head (head_skipWs p)

theorem length_skipWs_le (p : List UInt8) : (skipWs p).length ≤ p.length :=
  (List.dropWhile_suffix _).length_le

theorem trim_append {s : List UInt8} (hs : trim s ≠ []) (a : List UInt8) :
    trim (a ++ s) = a ++ trim s := by
  unfold trim at hs ⊢
  induction s using List.reverseRecOn with
  | nil => exact absurd rfl hs
  | append_singleton s c ih =>
    rw [← List.append_assoc, List.rdropWhile_concat, List.rdropWhile_concat]
    rw [List.rdropWhile_concat] at hs
    split
    next hc =>
      rw [if_pos hc] at hs
      exact ih hs
    next => rw [List.append_assoc]

/-- Nothing is left to trim. -/
def Trimmed (s : List UInt8) : Prop := ∀ c ∈ s.getLast?, isTrailing c = false

theorem trim_of_trimmed {s : List UInt8} (hs : Trimmed s) : trim s = s := by
  unfold trim
  rw [List.rdropWhile_eq_self_iff]
  intro hne
  rw [hs _ (List.getLast?_eq_some_getLast hne)]
  exact Bool.false_ne_true

theorem trimmed_trim (s : List UInt8) : Trimmed (trim s) := by
  intro c hc
  have hne : trim s ≠ [] := by
    intro h0
    rw [h0] at hc
    exact nomatch hc
  rw [List.getLast?_eq_some_getLast hne, Option.mem_some_iff] at hc
  rw [← hc]
  exact Bool.eq_false_iff.mpr (List.rdropWhile_last_not _ _ hne)

theorem Trimmed.suffix {s t : List UInt8} (hs : Trimmed s) (h : t <:+ s) : Trimmed t := by
  obtain ⟨a, rfl⟩ := h
  intro c hc
  apply hs
  rw [List.getLast?_append, Option.mem_def.mp hc]
  rfl

/-! ## The text of a statement -/

theorem trim_initial (s : List UInt8) : trim s <+: s := List.rdropWhile_prefix ..

theorem length_bufferText_le (input : List UInt8) :
    (bufferText input).length ≤ min 1023 input.length := by
  have h1 := length_skipWs_le (trim ((cString input).take 1023))
  have h2 := (trim_initial ((cString input).take 1023)).length_le
  have h3 : (cString input).length ≤ input.length := (List.takeWhile_prefix _).length_le
  rw [List.length_take] at h2
  unfold bufferText
  omega

theorem noNul_bufferText (input : List UInt8) : 0 ∉ bufferText input := by
  intro h
  have h1 := (List.dropWhile_suffix _).subset h
  have h2 := (trim_initial _).subset h1
  exact noNul_cString input (List.mem_of_mem_take h2)

theorem trimmed_bufferText (input : List UInt8) : Trimmed (bufferText input) :=
  (trimmed_trim _).suffix (List.dropWhile_suffix _)

/-- A text that is ready for the parser -/
theorem bufferText_of_trimmed {p : List UInt8} (hnul : 0 ∉ p) (hlen : p.length ≤ 1023)
    (htrim : Trimmed p) : bufferText p = skipWs p := by
  rw [bufferText, cString_eq hnul, List.take_of_length_le hlen, trim_of_trimmed htrim]

theorem bufferText_bufferText (input : List UInt8) :
    bufferText (bufferText input) = bufferText input := by
  have hlen := length_bufferText_le input
  rw [bufferText_of_trimmed (noNul_bufferText input) (by omega) (trimmed_bufferText input)]
  exact skipWs_skipWs _

/-! ## Nesting -/

section Lib

variable (lib : CLib)

/-- Only shorter texts are parsed inside. -/
theorem parseStatement_congr {f g : List UInt8 → Except ParseError Statement} {p : List UInt8}
    (h : ∀ q : List UInt8, q.length < p.length → f q = g q) :
    parseStatement lib f p = parseStatement lib g p := by
  unfold parseStatement
  by_cases hexplain : keyword explainWord p
  · have hlen := length_of_keyword (by decide) hexplain
    have hdrop : (skipWs (p.drop 7)).length < p.length := by
      have := length_skipWs_le (p.drop 7)
      rw [List.length_drop] at this
      have : explainWord.length = 7 := rfl
      omega
    have hadv : advance 7 p = .ok (p.drop 7) := advance_of_keyword (by decide) hexplain
    simp only [hadv]
    show (if _ then _ else if _ then _ else if _ then _ else if _ then _ else if _ then _ else
      if _ then (f (skipWs (p.drop 7))).bind _ else _) = _
    rw [h _ hdrop]
    rfl
  · simp only [hexplain, Bool.false_eq_true, if_false]

theorem parseNested_eq {m n : Nat} {input : List UInt8} (hm : (bufferText input).length < m)
    (hn : (bufferText input).length < n) : parseNested lib m input = parseNested lib n input := by
  induction m generalizing n input with
  | zero => exact absurd hm (Nat.not_lt_zero _)
  | succ m ih =>
    obtain ⟨n, rfl⟩ := Nat.exists_eq_add_of_le' (Nat.lt_of_le_of_lt (Nat.zero_le _) hn)
    apply parseStatement_congr
    intro q hq
    have hlen := length_bufferText_le q
    exact ih (by omega) (by omega)

/-- The bound on the depth is never met. -/
theorem parse_eq (input : List UInt8) :
    parse lib input = parseStatement lib (parse lib) (bufferText input) := by
  have hlen := length_bufferText_le input
  apply parseStatement_congr
  intro q hq
  have hq' := length_bufferText_le q
  have hshort : (bufferText q).length < 1023 := by omega
  exact parseNested_eq lib hshort (Nat.lt_succ_of_lt hshort)

theorem parse_bufferText (input : List UInt8) : parse lib (bufferText input) = parse lib input := by
  rw [parse_eq, bufferText_bufferText, ← parse_eq]

/-! ## EXPLAIN -/

theorem parseStatement_nil (inner : List UInt8 → Except ParseError Statement) :
    parseStatement lib inner [] = .error .syntaxError := rfl

/-- A text that begins with EXPLAIN -/
theorem parseStatement_explain (inner : List UInt8 → Except ParseError Statement)
    {p : List UInt8} (hp : keyword explainWord p) :
    parseStatement lib inner p = (inner (skipWs (p.drop 7))).map explainOf := by
  have hother {w : List UInt8} (hw : 0 ∉ w)
      (hew : ¬ explainWord.map toLower <+: w.map toLower)
      (hwe : ¬ w.map toLower <+: explainWord.map toLower) : keyword w p = false :=
    keyword_unique (by decide) hw hp hew hwe
  have hne : p.head? ≠ none := fun h => by
    rw [List.head?_eq_none_iff.mp h] at hp
    exact absurd hp (by decide)
  have hadv : advance 7 p = .ok (p.drop 7) := advance_of_keyword (by decide) hp
  rw [parseStatement, if_neg hne, hother (w := createWord) (by decide) (by decide) (by decide),
    hother (w := insertWord) (by decide) (by decide) (by decide),
    hother (w := selectWord) (by decide) (by decide) (by decide),
    hother (w := deleteWord) (by decide) (by decide) (by decide), if_pos hp, hadv]
  rfl

/-- EXPLAIN parses its statement as it is parsed alone. -/
theorem parse_explain (s : CString 1016) {stmt : Statement} (h : parse lib s.bytes = .ok stmt) :
    parse lib (explainWord ++ space :: s.bytes) = .ok (explainOf stmt) := by
  have hnul : 0 ∉ explainWord ++ space :: s.bytes := by
    rw [List.mem_append, List.mem_cons]
    rintro (h | h | h)
    · exact absurd h (by decide)
    · exact absurd h (by decide)
    · exact s.noNul h
  have hshort := s.short
  have hlen : (explainWord ++ space :: s.bytes).length ≤ 1023 := by
    rw [List.length_append, List.length_cons, show explainWord.length = 7 from rfl]
    omega
  have htext : bufferText s.bytes = skipWs (trim s.bytes) := by
    rw [bufferText, cString_eq s.noNul, List.take_of_length_le (by omega)]
  -- the text is not blank, since it is parsed
  have hne : trim s.bytes ≠ [] := by
    intro h0
    rw [parse_eq, htext, h0, show skipWs [] = [] from rfl, parseStatement_nil] at h
    exact nomatch h
  -- trimming keeps the keyword and its space
  have hbuffer : bufferText (explainWord ++ space :: s.bytes) =
      explainWord ++ space :: trim s.bytes := by
    rw [bufferText, cString_eq hnul, List.take_of_length_le hlen, ← List.singleton_append,
      ← List.append_assoc, trim_append hne, List.append_assoc]
    exact skipWs_of_head fun c hc => by
      obtain rfl : 0x45 = c := Option.some.inj hc
      rfl
  rw [parse_eq, hbuffer, parseStatement_explain lib _ (keyword_append (by decide) rfl _),
    List.drop_left' (by rfl)]
  show (parse lib (skipWs ([space] ++ trim s.bytes))).map explainOf = _
  -- the rest of the statement goes through the buffer once more, which leaves it alone
  have hspace : ∀ c ∈ [space], isSpace c := fun c hc => List.mem_singleton.mp hc ▸ rfl
  rw [skipWs_append hspace, ← htext, parse_bufferText, h]
  rfl

/-! ## What the parsers accept -/

theorem withPredicate_type (stmt : Statement) (field : CString 32) (value : CString 256) :
    (withPredicate lib stmt field value).type = stmt.type := by
  unfold withPredicate
  split <;> rfl

theorem parseWhere_cases {p : List UInt8} {stmt stmt' : Statement}
    (h : parseWhere lib p stmt = .ok stmt') :
    ((skipWs p).head? = none ∨ (skipWs p).head? = some semicolon) ∧
      stmt' = { stmt with predicateKind := .none } ∨
    keyword whereWord (skipWs p) ∧
      (let field := token fieldStop 31 (skipWs ((skipWs p).drop 5))
       (skipWs field.2).head? = some equals ∧
        stmt' = withPredicate lib stmt field.1 (literal wordStop (skipWs (skipWs field.2).tail)).1) := by
  simp only [parseWhere] at h
  split at h
  next hend => exact Or.inl ⟨hend, (Except.ok.inj h).symm⟩
  next =>
    split at h
    next => exact nomatch h
    next hkey =>
      obtain ⟨q, hadv, h⟩ := exists_of_bind h
      obtain rfl := eq_drop_of_advance hadv
      split at h
      next => exact nomatch h
      next heq =>
        exact Or.inr ⟨by simpa using hkey, by simpa using heq, (Except.ok.inj h).symm⟩

theorem parseFrom_cases {p : List UInt8} {stmt stmt' : Statement}
    (h : parseFrom lib p stmt = .ok stmt') :
    keyword fromWord p ∧
      (let name := token wordStop 31 (skipWs (p.drop 4))
       parseWhere lib (skipWs name.2) { stmt with tableName := name.1 } = .ok stmt') := by
  simp only [parseFrom] at h
  split at h
  next => exact nomatch h
  next hkey =>
    obtain ⟨q, hadv, h⟩ := exists_of_bind h
    obtain rfl := eq_drop_of_advance hadv
    exact ⟨by simpa using hkey, h⟩

theorem parseInsert_cases {p : List UInt8} {stmt stmt' : Statement}
    (h : parseInsert p stmt = .ok stmt') :
    keyword intoWord (skipWs p) ∧
      (let name := token isSpace 31 (skipWs ((skipWs p).drop 4))
       keyword valuesWord (skipWs name.2) ∧
        (let q := skipWs ((skipWs name.2).drop 6)
         q.head? = some lparen ∧
          ∃ values r, valueLoop (q.length + 1) q.tail [] = .ok (values, r) ∧
            stmt' = { stmt with tableName := name.1, insertValues := values })) := by
  simp only [parseInsert] at h
  split at h
  next => exact nomatch h
  next hinto =>
    obtain ⟨q, hadv, h⟩ := exists_of_bind h
    obtain rfl := eq_drop_of_advance hadv
    split at h
    next => exact nomatch h
    next hvalues =>
      obtain ⟨q, hadv, h⟩ := exists_of_bind h
      obtain rfl := eq_drop_of_advance hadv
      split at h
      next => exact nomatch h
      next hparen =>
        obtain ⟨⟨values, r⟩, hloop, h⟩ := exists_of_bind h
        exact ⟨by simpa using hinto, by simpa using hvalues, by simpa using hparen, values, r, hloop,
          (Except.ok.inj h).symm⟩

theorem parseCreateTable_cases {p : List UInt8} {stmt stmt' : Statement}
    (h : parseCreateTable lib p stmt = .ok stmt') :
    let name := token tableStop 31 (skipWs p)
    let q := skipWs name.2
    q.head? = some lparen ∧
      ∃ defs r, columnLoop lib (q.length + 1) q.tail [] = .ok (defs, r) ∧
        stmt' = { stmt with tableName := name.1, colDefs := defs } := by
  simp only [parseCreateTable] at h
  split at h
  next => exact nomatch h
  next hparen =>
    obtain ⟨⟨defs, r⟩, hloop, h⟩ := exists_of_bind h
    exact ⟨by simpa using hparen, defs, r, hloop, (Except.ok.inj h).symm⟩

theorem parseSelect_cases {p : List UInt8} {stmt stmt' : Statement}
    (h : parseSelect lib p stmt = .ok stmt') :
    (skipWs p).head? = some star ∧
      parseFrom lib (skipWs (skipWs p).tail) { stmt with selectAll := true } = .ok stmt' ∨
    (skipWs p).head? ≠ some star ∧ parseFrom lib (skipWs p) stmt = .ok stmt' := by
  simp only [parseSelect] at h
  split at h
  next hstar => exact Or.inl ⟨hstar, h⟩
  next hstar => exact Or.inr ⟨hstar, h⟩

/-- The five kinds of statements -/
theorem parseStatement_cases {inner : List UInt8 → Except ParseError Statement} {p : List UInt8}
    {stmt : Statement} (h : parseStatement lib inner p = .ok stmt) :
    (keyword createWord p ∧ keyword tableWord (skipWs (p.drop 6)) ∧
      parseCreateTable lib (skipWs ((skipWs (p.drop 6)).drop 5))
        { Statement.zero with type := .createTable } = .ok stmt) ∨
    (keyword insertWord p ∧
      parseInsert (skipWs (p.drop 6)) { Statement.zero with type := .insert } = .ok stmt) ∨
    (keyword selectWord p ∧
      parseSelect lib (skipWs (p.drop 6)) { Statement.zero with type := .select } = .ok stmt) ∨
    (keyword deleteWord p ∧
      parseDelete lib (skipWs (p.drop 6)) { Statement.zero with type := .delete } = .ok stmt) ∨
    (keyword explainWord p ∧ ∃ s, inner (skipWs (p.drop 7)) = .ok s ∧ stmt = explainOf s) := by
  -- one keyword after the other, in the order of the source
  simp only [parseStatement] at h
  split at h
  next => exact nomatch h
  next =>
    split at h
    next hcreate =>
      obtain ⟨q, hadv, h⟩ := exists_of_bind h
      obtain rfl := eq_drop_of_advance hadv
      split at h
      next => exact nomatch h
      next htable =>
        obtain ⟨q, hadv, h⟩ := exists_of_bind h
        obtain rfl := eq_drop_of_advance hadv
        exact Or.inl ⟨hcreate, by simpa using htable, h⟩
    next =>
      split at h
      next hinsert =>
        obtain ⟨q, hadv, h⟩ := exists_of_bind h
        obtain rfl := eq_drop_of_advance hadv
        exact Or.inr (Or.inl ⟨hinsert, h⟩)
      next =>
        split at h
        next hselect =>
          obtain ⟨q, hadv, h⟩ := exists_of_bind h
          obtain rfl := eq_drop_of_advance hadv
          exact Or.inr (Or.inr (Or.inl ⟨hselect, h⟩))
        next =>
          split at h
          next hdelete =>
            obtain ⟨q, hadv, h⟩ := exists_of_bind h
            obtain rfl := eq_drop_of_advance hadv
            exact Or.inr (Or.inr (Or.inr (Or.inl ⟨hdelete, h⟩)))
          next =>
            split at h
            next hexplain =>
              obtain ⟨q, hadv, h⟩ := exists_of_bind h
              obtain rfl := eq_drop_of_advance hadv
              obtain ⟨s, hs, h⟩ := exists_of_bind h
              exact Or.inr (Or.inr (Or.inr (Or.inr ⟨hexplain, s, hs, (Except.ok.inj h).symm⟩)))
            next => exact nomatch h

theorem parseWhere_type {p : List UInt8} {stmt stmt' : Statement}
    (h : parseWhere lib p stmt = .ok stmt') : stmt'.type = stmt.type := by
  obtain ⟨-, rfl⟩ | ⟨-, -, rfl⟩ := parseWhere_cases lib h
  · rfl
  · exact withPredicate_type ..

theorem parseFrom_type {p : List UInt8} {stmt stmt' : Statement}
    (h : parseFrom lib p stmt = .ok stmt') : stmt'.type = stmt.type :=
  (parseWhere_type lib (parseFrom_cases lib h).2).trans rfl

theorem parseSelect_type {p : List UInt8} {stmt stmt' : Statement}
    (h : parseSelect lib p stmt = .ok stmt') : stmt'.type = stmt.type := by
  obtain ⟨-, h⟩ | ⟨-, h⟩ := parseSelect_cases lib h
  · exact (parseFrom_type lib h).trans rfl
  · exact parseFrom_type lib h

/-- Only a text that begins with EXPLAIN is an EXPLAIN. -/
theorem parse_type_explain {input : List UInt8} {stmt : Statement}
    (h : parse lib input = .ok stmt) :
    stmt.type = .explain ↔ keyword explainWord (bufferText input) := by
  have hunique {v : List UInt8} (hv : 0 ∉ v) (hp : keyword v (bufferText input))
      (hve : ¬ v.map toLower <+: explainWord.map toLower)
      (hev : ¬ explainWord.map toLower <+: v.map toLower) :
      ¬ keyword explainWord (bufferText input) :=
    Bool.eq_false_iff.mp (keyword_unique hv (by decide) hp hve hev)
  rw [parse_eq] at h
  obtain ⟨hkey, -, h⟩ | ⟨hkey, h⟩ | ⟨hkey, h⟩ | ⟨hkey, h⟩ | ⟨hkey, s, -, rfl⟩ :=
    parseStatement_cases lib h
  · obtain ⟨-, defs, r, -, rfl⟩ := parseCreateTable_cases lib h
    exact iff_of_false nofun (hunique (by decide) hkey (by decide) (by decide))
  · obtain ⟨-, -, -, values, r, -, rfl⟩ := parseInsert_cases h
    exact iff_of_false nofun (hunique (by decide) hkey (by decide) (by decide))
  · have htype : stmt.type = .select := parseSelect_type lib h
    exact iff_of_false (htype ▸ nofun) (hunique (by decide) hkey (by decide) (by decide))
  · have htype : stmt.type = .delete := parseFrom_type lib h
    exact iff_of_false (htype ▸ nofun) (hunique (by decide) hkey (by decide) (by decide))
  · exact iff_of_true rfl hkey

/-! ## The plan of an EXPLAIN -/

/-- EXPLAIN accepts the text and shows the plan that its statement runs with, reading only
    fields that are set, and running it changes nothing. -/
def ExplainsTruly (text : List UInt8) (stmt : Statement) : Prop :=
  ∃ e path, parse lib (explainWord ++ space :: text) = .ok e ∧
    plannerCreatePlan e = some path ∧ plannerCreatePlan stmt = some path ∧
    ∀ db, ∃ r, Db.exec (execute lib e) db = .ok (r, db)

/-- Only an EXPLAIN may have no plan. -/
theorem exists_plan {stmt : Statement} (h : stmt.type ≠ .explain) :
    ∃ path, plannerCreatePlan stmt = some path ∧ plannerCreatePlan (explainOf stmt) = some path := by
  have hplan : plannerCreatePlan (explainOf stmt) = planFor stmt.type stmt.predicateKind := rfl
  rw [hplan]
  unfold plannerCreatePlan
  cases htype : stmt.type with
  | explain => exact absurd htype h
  | createTable => exact ⟨_, rfl, rfl⟩
  | insert => exact ⟨_, rfl, rfl⟩
  | select => exact ⟨_, rfl, rfl⟩
  | delete => exact ⟨_, rfl, rfl⟩

theorem exec_explainOf {stmt : Statement} {path : AccessPath}
    (h : plannerCreatePlan (explainOf stmt) = some path) (db : Db) :
    ∃ r, Db.exec (execute lib (explainOf stmt)) db = .ok (r, db) := by
  refine ⟨⟨0, .planPrinted, explainLines (explainOf stmt) path⟩, ?_⟩
  show Db.exec (execExplain (explainOf stmt)) db = _
  rw [execExplain, planOf, h]
  rfl

theorem not_explainsTruly (s : CString 1016) {stmt : Statement}
    (h : parse lib s.bytes = .ok stmt) (htype : stmt.type = .explain) :
    ¬ ExplainsTruly lib s.bytes stmt := by
  rintro ⟨e, path, hparse, hplan, -⟩
  rw [parse_explain lib s h, Except.ok.injEq] at hparse
  have hnone : plannerCreatePlan e = none := by
    rw [← hparse]
    show planFor stmt.type stmt.predicateKind = none
    rw [htype]
    rfl
  rw [hnone] at hplan
  exact nomatch hplan

/-- EXPLAIN tells the truth about every statement but another EXPLAIN. -/
theorem explain_iff (s : CString 1016) {stmt : Statement} (h : parse lib s.bytes = .ok stmt) :
    ExplainsTruly lib s.bytes stmt ↔ ¬ keyword explainWord (bufferText s.bytes) := by
  rw [← parse_type_explain lib h]
  constructor
  · exact fun htrue htype => not_explainsTruly lib s h htype htrue
  · intro htype
    obtain ⟨path, hstmt, he⟩ := exists_plan htype
    exact ⟨explainOf stmt, path, parse_explain lib s h, he, hstmt, exec_explainOf lib he⟩

end Lib

/-- `SELECT * FROM t` -/
def selectText : CString 1016 :=
  ⟨selectWord ++ [space, star, space] ++ fromWord ++ [space, 0x74], by decide, by decide⟩

/-- `EXPLAIN SELECT * FROM t` -/
def explainSelectText : CString 1016 :=
  ⟨explainWord ++ space :: selectText.bytes, by decide, by decide⟩

theorem explain_iff_select : ∃ stmt, parse CLib.wrapping selectText.bytes = .ok stmt ∧
    ExplainsTruly CLib.wrapping selectText.bytes stmt := by
  obtain ⟨stmt, h⟩ := exists_of_isSome (x := parse CLib.wrapping selectText.bytes)
    (by decide +kernel)
  exact ⟨stmt, h, (explain_iff CLib.wrapping selectText h).mpr (by decide +kernel)⟩

/-- The plan of `EXPLAIN EXPLAIN SELECT * FROM t` reads a type that is not set. -/
theorem explain_explain : ¬ ∀ (lib : CLib) (s : CString 1016) (stmt : Statement),
    parse lib s.bytes = .ok stmt → ExplainsTruly lib s.bytes stmt := by
  intro hall
  obtain ⟨stmt, h⟩ := exists_of_isSome (x := parse CLib.wrapping explainSelectText.bytes)
    (by decide +kernel)
  have htype : stmt.type = .explain := (parse_type_explain _ h).mpr (by decide +kernel)
  exact not_explainsTruly _ explainSelectText h htype (hall _ explainSelectText stmt h)

end MiniDb
