import MiniDb.Sql.ParserSpec
import MiniDb.Sql.StatementText

/-!
# Parsing undoes writing

Every parser reads the token in front of it up to the first byte behind it, whatever follows.
The loops go over the items of a list by induction.

## Key results

- `columnLoop_items`, `valueLoop_items`: the loops over lists
- `parse_inputText`: the statement of a text
-/

namespace MiniDb

open CText

/-! ## Characters -/

theorem toNat_eq_of_le {a b : UInt8} (h : a ≤ b) : a.toNat ≤ b.toNat := UInt8.le_iff_toNat_le.mp h

/-- The bytes from `A` on are no blanks, no punctuation of a statement and no NUL. -/
def isLarge (c : UInt8) : Bool := 0x41 ≤ c

theorem isLarge_of_toLower {c : UInt8} (h : isLarge (toLower c)) : isLarge c := by
  unfold toLower at h
  split at h
  next hc => simp only [isLarge, Bool.and_eq_true] at hc ⊢; exact hc.1
  next => exact h

section Large

variable {c : UInt8} (h : isLarge c)

include h

theorem ne_of_isLarge {d : UInt8} (hd : isLarge d = false) : c ≠ d := by
  rintro rfl
  rw [h] at hd
  exact nomatch hd

theorem not_isSpace_of_isLarge : isSpace c = false := by
  have hc : (0x41 : UInt8).toNat ≤ c.toNat := toNat_eq_of_le (by simpa [isLarge] using h)
  have h41 : (0x41 : UInt8).toNat = 0x41 := rfl
  have h20 : (0x20 : UInt8).toNat = 0x20 := rfl
  have h0d : (0x0d : UInt8).toNat = 0x0d := rfl
  simp only [isSpace, Bool.or_eq_false_iff, Bool.and_eq_false_iff, decide_eq_false_iff_not,
    UInt8.le_iff_toNat_le, ← UInt8.toNat_inj]
  omega

theorem not_typeStop_of_isLarge : typeStop c = false := by
  simp only [typeStop, ne_of_isLarge h (d := comma) rfl, ne_of_isLarge h (d := rparen) rfl,
    ne_of_isLarge h (d := lparen) rfl, not_isSpace_of_isLarge h, decide_false, Bool.or_false]

end Large

theorem not_isSpace_zero : isSpace 0 = false := rfl

theorem ne_zero_of_isSpace {c : UInt8} (h : isSpace c) : c ≠ 0 := fun h0 => by
  rw [h0, not_isSpace_zero] at h
  exact nomatch h

/-! ## Tokens -/

section Token

variable {stop : UInt8 → Bool} {n : Nat}

/-- A token that is not too long is read up to the byte that ends it. -/
theorem token_append {t q : List UInt8} (ht : ∀ c ∈ t, c ≠ 0 ∧ stop c = false)
    (hlen : t.length ≤ n) (hq : ∀ c ∈ q.head?, stop c) :
    (token stop n (t ++ q)).1.bytes = t ∧ (token stop n (t ++ q)).2 = q := by
  have hscan : scan (fun c => c = 0 || stop c) n (t ++ q) = (t, q) := by
    apply scan_append _ hlen
    · intro c hc
      rw [hq c hc, Bool.or_true]
    · intro c hc
      rw [(ht c hc).2, Bool.or_false]
      exact decide_eq_false (ht c hc).1
  exact ⟨congrArg Prod.fst hscan, congrArg Prod.snd hscan⟩

theorem Name.token_eq (a : Name stop) {q : List UInt8} (hq : ∀ c ∈ q.head?, stop c) :
    token stop 31 (a.str.bytes ++ q) = (a.str, q) := by
  have hclean : ∀ c ∈ a.str.bytes, c ≠ 0 ∧ stop c = false := fun c hc =>
    ⟨fun h0 => a.str.noNul (h0 ▸ hc), a.clean c hc⟩
  obtain ⟨h1, h2⟩ := token_append hclean (Nat.le_of_lt_succ a.str.short) hq
  exact Prod.ext (CString.ext h1) h2

end Token

theorem Blanks.skipWs_append (b : Blanks) (q : List UInt8) : skipWs (b.bytes ++ q) = skipWs q :=
  MiniDb.skipWs_append b.blank q

/-- Something that is not empty and does not begin with a blank -/
def Solid (p : List UInt8) : Prop := ∃ c q, p = c :: q ∧ isSpace c = false

theorem Solid.skipWs_eq {p : List UInt8} (h : Solid p) : skipWs p = p := by
  obtain ⟨c, q, rfl, hc⟩ := h
  exact skipWs_of_head fun d hd => Option.some.inj hd ▸ hc

theorem Solid.append {p : List UInt8} (h : Solid p) (q : List UInt8) : Solid (p ++ q) := by
  obtain ⟨c, r, rfl, hc⟩ := h
  exact ⟨c, r ++ q, rfl, hc⟩

theorem Blanks.skipWs_solid (b : Blanks) {p : List UInt8} (h : Solid p) :
    skipWs (b.bytes ++ p) = p := (b.skipWs_append p).trans h.skipWs_eq

theorem Name.solid {stop : UInt8 → Bool} (a : Name stop) (hstop : ∀ c, isSpace c → stop c) :
    Solid a.str.bytes := by
  obtain ⟨c, t, ht⟩ := List.exists_cons_of_ne_nil a.nonempty
  refine ⟨c, t, ht, ?_⟩
  rw [Bool.eq_false_iff]
  intro hc
  have hclean := a.clean c (ht ▸ List.mem_cons_self ..)
  rw [hstop c hc] at hclean
  exact nomatch hclean

section Spelling

variable {word : List UInt8} (w : Spelling word)

/-- The letters of a keyword -/
theorem Spelling.large (hword : ∀ c ∈ word.map toLower, isLarge c) : ∀ c ∈ w.bytes, isLarge c := by
  intro c hc
  apply isLarge_of_toLower
  apply hword
  rw [← w.spells]
  exact List.mem_map_of_mem hc

theorem Spelling.length : w.bytes.length = word.length := by
  have := congrArg List.length w.spells
  rwa [List.length_map, List.length_map] at this

theorem Spelling.solid (hword : ∀ c ∈ word.map toLower, isLarge c) (hne : word ≠ []) :
    Solid w.bytes := by
  have hne' : w.bytes ≠ [] := fun h => hne (List.length_eq_zero_iff.mp (by
    rw [← w.length, h, List.length_nil]))
  obtain ⟨c, t, ht⟩ := List.exists_cons_of_ne_nil hne'
  exact ⟨c, t, ht, not_isSpace_of_isLarge (w.large hword c (ht ▸ List.mem_cons_self ..))⟩

theorem Spelling.keyword_append (hword : 0 ∉ word) (q : List UInt8) : keyword word (w.bytes ++ q) :=
  MiniDb.keyword_append hword w.spells q

theorem Spelling.advance_append {n : Nat} (hn : word.length = n) (q : List UInt8) :
    advance n (w.bytes ++ q) = .ok q := MiniDb.advance_append (w.length.trans hn) q

/-- A keyword is not another one. -/
theorem Spelling.other {v : List UInt8} (hword : 0 ∉ word) (hv : 0 ∉ v)
    (hwv : ¬ word.map toLower <+: v.map toLower) (hvw : ¬ v.map toLower <+: word.map toLower)
    (q : List UInt8) : keyword v (w.bytes ++ q) = false :=
  keyword_unique hword hv (w.keyword_append hword q) hwv hvw

end Spelling

/-! ## Literals -/

namespace Literal

/-- A quoted literal ends at its quote, whatever follows. -/
theorem quoted_eq (s : CString 256) (clean : quote ∉ s.bytes) (stop : UInt8 → Bool) (q : List UInt8) :
    literal stop ((quoted s clean).text ++ q) = (s, q) := by
  have hclean : ∀ c ∈ s.bytes, c ≠ 0 ∧ decide (c = quote) = false := fun c hc =>
    ⟨fun h0 => s.noNul (h0 ▸ hc), decide_eq_false fun hquote => clean (hquote ▸ hc)⟩
  have hend : ∀ c ∈ (quote :: q).head?, decide (c = quote) = true := fun c hc =>
    decide_eq_true (Option.some.inj hc).symm
  obtain ⟨h1, h2⟩ := token_append hclean (Nat.le_of_lt_succ s.short) hend
  have htext : (quoted s clean).text ++ q = quote :: (s.bytes ++ quote :: q) := by simp [text]
  rw [htext]
  show (_, skipChar quote (token (fun c => decide (c = quote)) 255 (s.bytes ++ quote :: q)).2) = _
  rw [h2]
  exact Prod.ext (CString.ext h1) rfl

theorem literal_eq (l : Literal) {stop : UInt8 → Bool}
    (hstop : ∀ c, stop c → isSpace c ∨ c = comma ∨ c = rparen ∨ c = semicolon) {q : List UInt8}
    (hq : ∀ c ∈ q.head?, stop c) : literal stop (l.text ++ q) = (l.value, q) := by
  cases l with
  | quoted s clean => exact quoted_eq s clean stop q
  | bare s nonempty unquoted clean =>
    have hclean : ∀ c ∈ s.bytes, c ≠ 0 ∧ stop c = false := by
      intro c hc
      obtain ⟨hspace, hcomma, hrparen, hsemicolon⟩ := clean c hc
      refine ⟨fun h0 => s.noNul (h0 ▸ hc), Bool.eq_false_iff.mpr fun hs => ?_⟩
      obtain h | h | h | h := hstop c hs
      · rw [hspace] at h
        exact nomatch h
      · exact hcomma h
      · exact hrparen h
      · exact hsemicolon h
    have hhead : (s.bytes ++ q).head? ≠ some quote := by
      rw [List.head?_append_of_ne_nil _ nonempty]
      exact unquoted
    obtain ⟨h1, h2⟩ := token_append hclean (Nat.le_of_lt_succ s.short) hq
    show literal stop (s.bytes ++ q) = _
    rw [literal, if_neg hhead]
    exact Prod.ext (CString.ext h1) h2

theorem solid (l : Literal) : ∃ c t, l.text = c :: t ∧ isSpace c = false ∧ c ≠ rparen := by
  cases l with
  | quoted s clean => exact ⟨quote, _, rfl, rfl, by decide⟩
  | bare s nonempty unquoted clean =>
    obtain ⟨c, t, ht⟩ := List.exists_cons_of_ne_nil nonempty
    obtain ⟨hspace, -, hrparen, -⟩ := clean c (ht ▸ List.mem_cons_self ..)
    exact ⟨c, t, ht, hspace, hrparen⟩

end Literal

/-! ## Columns -/

theorem not_isDigit_of_isSpace {c : UInt8} (h : isSpace c) : isDigit c = false := by
  by_contra hdigit
  rw [Bool.not_eq_false] at hdigit
  rw [not_isSpace_of_isDigit hdigit] at h
  exact nomatch h

/-- The first byte of blanks and what follows them -/
theorem Blanks.head_append (b : Blanks) {P : UInt8 → Prop} {c : UInt8} {q : List UInt8}
    (hblank : ∀ d, isSpace d → P d) (hc : P c) : ∀ d ∈ (b.bytes ++ c :: q).head?, P d := by
  intro d hd
  cases hb : b.bytes with
  | nil =>
    rw [hb] at hd
    exact Option.some.inj hd ▸ hc
  | cons e es =>
    rw [hb] at hd
    obtain rfl : e = d := Option.some.inj hd
    exact hblank e (b.blank e (hb ▸ List.mem_cons_self ..))

theorem toUInt16_of_toInt {x : Int32} {n : Nat} (hx : x.toInt = n) (hn : n < 65536) :
    x.toUInt32.toUInt16 = UInt16.ofNat n := by
  have hofNat : x = Int32.ofNat n := by
    apply Int32.toInt_inj.mp
    rw [hx, Int32.toInt_ofNat_of_lt (by omega)]
  rw [hofNat, Int32.toUInt32_ofNat', UInt32.toUInt16_ofNat']

/-- Two runs of blanks are one. -/
def Blanks.append (b b' : Blanks) : Blanks where
  bytes := b.bytes ++ b'.bytes
  blank c hc := (List.mem_append.mp hc).elim (b.blank c) (b'.blank c)

/-- No blanks -/
def Blanks.none : Blanks := ⟨[], List.forall_mem_nil _⟩

section Lib

variable (lib : CLib)

/-- A width in parentheses -/
theorem varcharSize_eq (b₁ b₂ b₃ : Blanks) (w : Width) (q : List UInt8) :
    varcharSize lib (b₁.bytes ++ lparen :: (b₂.bytes ++ w.digits ++ b₃.bytes ++ [rparen]) ++ q) =
      (w.value, q) := by
  have hskip : skipWs (b₁.bytes ++ lparen :: (b₂.bytes ++ w.digits ++ b₃.bytes ++ [rparen]) ++ q) =
      lparen :: (b₂.bytes ++ w.digits ++ (b₃.bytes ++ rparen :: q)) := by
    simp only [List.append_assoc, List.cons_append, List.nil_append]
    exact b₁.skipWs_solid ⟨lparen, _, rfl, rfl⟩
  have hend : ∀ c ∈ (b₃.bytes ++ rparen :: q).head?, isDigit c = false :=
    b₃.head_append (fun _ => not_isDigit_of_isSpace) rfl
  -- `atoi` reads the digits and stops at the blank or the parenthesis behind them
  have hnumeral := numeral_digits b₂.blank w.digit w.nonempty hend
  have hsmall := w.small
  have hatoi : (lib.atoi (b₂.bytes ++ w.digits ++ (b₃.bytes ++ rparen :: q))).toUInt32.toUInt16 =
      w.value := by
    apply toUInt16_of_toInt _ hsmall
    rw [lib.atoi_eq _ (by rw [hnumeral]; omega) (by rw [hnumeral]; omega), hnumeral]
  have hinner : ∀ c ∈ b₂.bytes ++ w.digits ++ b₃.bytes, decide (c ≠ rparen) = true := by
    intro c hc
    apply decide_eq_true
    rintro rfl
    obtain (h | h) | h := (List.mem_append.mp hc).imp_left List.mem_append.mp
    · exact absurd (b₂.blank _ h) (by decide)
    · exact absurd (w.digit _ h) (by decide)
    · exact absurd (b₃.blank _ h) (by decide)
  -- the loop to the parenthesis passes the blanks and the digits, and nothing else
  have hdrop : (b₂.bytes ++ w.digits ++ (b₃.bytes ++ rparen :: q)).dropWhile (· ≠ rparen) =
      rparen :: q := by
    rw [← List.append_assoc, List.dropWhile_append_of_pos hinner]
    rfl
  rw [varcharSize, hskip]
  refine Prod.ext hatoi ?_
  show skipChar rparen ((b₂.bytes ++ w.digits ++ (b₃.bytes ++ rparen :: q)).dropWhile (· ≠ rparen)) = q
  rw [hdrop]
  rfl

/-- The word of a type up to what follows it -/
theorem Spelling.typeToken {word : List UInt8} (w : Spelling word)
    (hlarge : ∀ c ∈ word.map toLower, isLarge c) (hlen : word.length ≤ 31) {q : List UInt8}
    (hq : ∀ c ∈ q.head?, typeStop c) : (token typeStop 31 (w.bytes ++ q)).1.bytes = w.bytes ∧
      (token typeStop 31 (w.bytes ++ q)).2 = q :=
  token_append (fun c hc => ⟨ne_of_isLarge (w.large hlarge c hc) rfl,
    not_typeStop_of_isLarge (w.large hlarge c hc)⟩) (w.length ▸ hlen) hq

/-- What stands behind `VARCHAR` is its width. -/
theorem columnType_varchar (w : Spelling varcharWord) {word : CString 32} (hword : word.bytes = w.bytes)
    (p : List UInt8) :
    columnType lib word p = .ok ((.varchar, (varcharSize lib p).1), (varcharSize lib p).2) := by
  have hkey : keyword varcharWord w.bytes := by
    simpa using w.keyword_append (by decide) []
  have hint : keyword intWord w.bytes = false := by
    simpa using w.other (by decide) (v := intWord) (by decide) (by decide) (by decide) []
  have hbigint : keyword bigintWord w.bytes = false := by
    simpa using w.other (by decide) (v := bigintWord) (by decide) (by decide) (by decide) []
  simp only [columnType, hword, hkey, hint, hbigint, Bool.false_and, Bool.false_eq_true, if_false,
    if_true]

/-- A type that ends with a parenthesis, whatever follows -/
def TypeText.Closed : TypeText → Prop
  | varchar .. => True
  | _ => False

/-- What may follow a type -/
theorem TypeText.columnType_eq (t : TypeText) {q : List UInt8}
    (hq : t.Closed ∨ ∀ c ∈ q.head?, typeStop c) :
    (do
      let word := token typeStop 31 (t.text ++ q)
      columnType lib word.1 word.2) = .ok ((t.type, t.size), q) := by
  cases t with
  -- INT is compared with its length, BIGINT and VARCHAR are not
  | int w =>
    obtain ⟨h1, h2⟩ := w.typeToken (by decide +kernel) (by decide) (hq.resolve_left not_false)
    have hkey : keyword intWord w.bytes := by
      simpa using w.keyword_append (by decide) []
    show columnType lib (token typeStop 31 (w.bytes ++ q)).1 (token typeStop 31 (w.bytes ++ q)).2 = _
    have hlen : w.bytes.length = 3 := w.length
    simp only [columnType, h1, h2, hkey, hlen, decide_true, Bool.and_self, if_true]
    rfl
  | bigint w =>
    obtain ⟨h1, h2⟩ := w.typeToken (by decide +kernel) (by decide) (hq.resolve_left not_false)
    have hkey : keyword bigintWord w.bytes := by
      simpa using w.keyword_append (by decide) []
    have hint : keyword intWord w.bytes = false := by
      simpa using w.other (by decide) (v := intWord) (by decide) (by decide) (by decide) []
    show columnType lib (token typeStop 31 (w.bytes ++ q)).1 (token typeStop 31 (w.bytes ++ q)).2 = _
    simp only [columnType, h1, h2, hkey, hint, Bool.false_and, Bool.false_eq_true, if_false, if_true]
    rfl
  -- the parenthesis stops the word, with or without blanks
  | varchar w b₁ b₂ width b₃ =>
    have hnext : ∀ c ∈ (b₁.bytes ++ lparen ::
        (b₂.bytes ++ width.digits ++ b₃.bytes ++ [rparen]) ++ q).head?, typeStop c := by
      rw [List.append_assoc, List.cons_append]
      exact b₁.head_append (fun d hd => by simp [typeStop, hd]) rfl
    obtain ⟨h1, h2⟩ := w.typeToken (by decide +kernel) (by decide) hnext
    have htext : (varchar w b₁ b₂ width b₃).text ++ q = w.bytes ++
        (b₁.bytes ++ lparen :: (b₂.bytes ++ width.digits ++ b₃.bytes ++ [rparen]) ++ q) := by
      simp only [text, List.append_assoc]
    show columnType lib (token typeStop 31 (_ ++ q)).1 (token typeStop 31 (_ ++ q)).2 = _
    rw [htext, columnType_varchar lib w h1, h2, varcharSize_eq]
    rfl

/-- The name of a column in front of its type -/
theorem columnDef_name (name : Name nameStop) (gap : Blanks) (hgap : gap.bytes ≠ []) {p : List UInt8}
    (hp : Solid p) : columnDef lib (name.str.bytes ++ gap.bytes ++ p) = (do
      let word := token typeStop 31 p
      let r ← columnType lib word.1 word.2
      return (⟨name.str, r.1.1, r.1.2⟩, r.2)) := by
  have hstop : ∀ d ∈ (gap.bytes ++ p).head?, nameStop d := by
    obtain ⟨e, es, hes⟩ := List.exists_cons_of_ne_nil hgap
    intro d hd
    rw [hes] at hd
    obtain rfl : e = d := Option.some.inj hd
    have := gap.blank e (hes ▸ List.mem_cons_self ..)
    simp [nameStop, this]
  have hname : token nameStop 31 (name.str.bytes ++ gap.bytes ++ p) = (name.str, gap.bytes ++ p) := by
    rw [List.append_assoc, name.token_eq hstop]
  unfold columnDef
  simp only [hname, gap.skipWs_solid hp]

/-- What may follow a column -/
theorem ColumnText.columnDef_eq (c : ColumnText) {q : List UInt8}
    (hq : c.type.Closed ∨ ∀ d ∈ q.head?, typeStop d) :
    columnDef lib (c.text ++ q) = .ok (c.definition, q) := by
  have hsolid : Solid (c.type.text ++ q) := by
    apply Solid.append
    cases c.type with
    | int w => exact w.solid (by decide +kernel) (by decide)
    | bigint w => exact w.solid (by decide +kernel) (by decide)
    | varchar w b₁ b₂ width b₃ =>
      show Solid (w.bytes ++ _ ++ _)
      rw [List.append_assoc]
      exact (w.solid (by decide +kernel) (by decide)).append _
  have htext : c.text ++ q = c.name.str.bytes ++ c.gap.bytes ++ (c.type.text ++ q) := by
    simp only [ColumnText.text, List.append_assoc]
  have htype := c.type.columnType_eq lib hq
  rw [htext, columnDef_name lib c.name c.gap c.nonempty hsolid]
  show (columnType lib _ _ >>= _) = _
  rw [show columnType lib (token typeStop 31 (c.type.text ++ q)).1
    (token typeStop 31 (c.type.text ++ q)).2 = _ from htype]
  rfl

/-! ## The loops -/

/-- The text of an item: it does not end a list. -/
def ItemText (p : List UInt8) : Prop := ∃ c t, p = c :: t ∧ isSpace c = false ∧ c ≠ rparen

section Items

variable {α : Type} {f : α → List UInt8}

/-- The beginning of a turn of a loop -/
theorem Item.turn {i : Item α} (hf : ItemText (f i.item)) (q : List UInt8) :
    ¬ ((i.text f ++ q).head? = none ∨ (i.text f ++ q).head? = some rparen) ∧
      skipWs (i.text f ++ q) = f i.item ++ (i.after.bytes ++ q) ∧
      (skipWs (i.text f ++ q)).head? ≠ some rparen := by
  obtain ⟨c, t, ht, hspace, hrparen⟩ := hf
  have htext : i.text f ++ q = i.before.bytes ++ c :: (t ++ (i.after.bytes ++ q)) := by
    simp only [Item.text, ht, List.append_assoc, List.cons_append]
  have hskip : skipWs (i.text f ++ q) = c :: (t ++ (i.after.bytes ++ q)) := by
    rw [htext]
    exact i.before.skipWs_solid ⟨c, _, rfl, hspace⟩
  have hhead : ∀ d ∈ (i.text f ++ q).head?, d ≠ rparen := by
    rw [htext]
    exact i.before.head_append (fun d hd h0 => absurd (h0 ▸ hd) (by decide)) hrparen
  refine ⟨?_, ?_, ?_⟩
  · rintro (h | h)
    · rw [htext, List.head?_eq_none_iff, List.append_eq_nil_iff] at h
      exact nomatch h.2
    · exact hhead rparen h rfl
  · rw [hskip, ht]
    rfl
  · rw [hskip]
    exact fun h => hrparen (Option.some.inj h)

/-- The end of a turn: a comma or the closing parenthesis -/
theorem skipChar_comma (b : Blanks) (q : List UInt8) :
    skipChar comma (skipWs (b.bytes ++ comma :: q)) = q := by
  rw [b.skipWs_solid ⟨comma, q, rfl, rfl⟩]
  rfl

theorem skipChar_rparen (b : Blanks) (q : List UInt8) :
    skipChar comma (skipWs (b.bytes ++ rparen :: q)) = rparen :: q := by
  rw [b.skipWs_solid ⟨rparen, q, rfl, rfl⟩]
  rfl

theorem length_le_itemsText (hf : ∀ a, ItemText (f a)) (l : List (Item α)) :
    l.length ≤ (itemsText f l).length := by
  have hpos (i : Item α) : 0 < (i.text f).length := by
    obtain ⟨c, t, ht, -⟩ := hf i.item
    simp only [Item.text, ht, List.length_append, List.length_cons]
    omega
  fun_induction itemsText f l with
  | case1 => exact Nat.le_refl _
  | case2 i => exact hpos i
  | case3 i j is ih =>
    have := hpos i
    simp only [List.length_append, List.length_cons] at ih ⊢
    omega

/-- In front of the closing parenthesis the loop ends. -/
theorem listLoop_rparen {β : Type} {item : List UInt8 → Except ParseError (β × List UInt8)}
    (b : Blanks) {n : Nat} (hn : 0 < n) (items : List β) (q : List UInt8) :
    listLoop item n (b.bytes ++ rparen :: q) items = .ok (items, rparen :: q) := by
  obtain ⟨n, rfl⟩ := Nat.exists_eq_add_of_le' hn
  have hskip : skipWs (b.bytes ++ rparen :: q) = rparen :: q := b.skipWs_solid ⟨rparen, q, rfl, rfl⟩
  rw [listLoop, hskip]
  split
  next h =>
    -- there are no blanks then
    cases hb : b.bytes with
    | nil => rfl
    | cons c bs =>
      rw [hb] at h
      have hc : c = rparen := by simpa using h
      have hblank := b.blank c (hb ▸ List.mem_cons_self ..)
      rw [hc] at hblank
      exact absurd hblank (by decide)
  next => rfl

/-- The loop reads the items up to the closing parenthesis. -/
theorem listLoop_items {β : Type} {item : List UInt8 → Except ParseError (β × List UInt8)}
    {g : α → β} (hf : ∀ a, ItemText (f a))
    (hitem : ∀ a q, (∀ c ∈ q.head?, isSpace c ∨ c = comma ∨ c = rparen) →
      item (f a ++ q) = .ok (g a, q))
    {l : List (Item α)} {b : Blanks} {n : Nat} (hn : l.length < n) {items : List β}
    (hroom : items.length + l.length ≤ 16) (q : List UInt8) :
    listLoop item n (itemsText f l ++ (b.bytes ++ rparen :: q)) items =
      .ok (items ++ l.map fun i => g i.item, rparen :: q) := by
  -- on the items: each turn appends one
  induction l generalizing n items with
  | nil =>
    rw [List.map_nil, List.append_nil]
    exact listLoop_rparen b hn items q
  | cons i l ih =>
    obtain ⟨n, rfl⟩ := Nat.exists_eq_add_of_le' (Nat.lt_of_le_of_lt (Nat.zero_le _) hn)
    rw [List.length_cons] at hn hroom
    have hfull : ¬ 16 ≤ items.length := by omega
    -- one turn reads the item `i` and leaves what follows it
    have hturn (r : List UInt8)
        (hr : ∀ c ∈ (i.after.bytes ++ r).head?, isSpace c ∨ c = comma ∨ c = rparen) :
        listLoop item (n + 1) (i.text f ++ r) items =
          listLoop item n (skipChar comma (skipWs (i.after.bytes ++ r))) (items ++ [g i.item]) := by
      obtain ⟨hmore, hskip, hparen⟩ := Item.turn (hf i.item) r
      rw [listLoop, if_neg hmore, if_neg hparen, if_neg hfull, hskip, hitem _ _ hr]
      rfl
    cases l with
    | nil =>
      -- the last item: blanks up to the parenthesis
      have hafter : i.after.bytes ++ (b.bytes ++ rparen :: q) =
          (i.after.append b).bytes ++ rparen :: q := (List.append_assoc ..).symm
      have hend : ∀ c ∈ (i.after.bytes ++ (b.bytes ++ rparen :: q)).head?,
          isSpace c ∨ c = comma ∨ c = rparen := by
        rw [hafter]
        exact (i.after.append b).head_append (fun _ => Or.inl) (Or.inr (Or.inr rfl))
      show listLoop item (n + 1) (i.text f ++ (b.bytes ++ rparen :: q)) items = _
      rw [hturn _ hend, hafter, skipChar_rparen]
      exact listLoop_rparen Blanks.none (Nat.lt_of_succ_lt_succ hn) _ q
    | cons j l =>
      -- another item follows, behind a comma
      have hcomma : ∀ c ∈ (i.after.bytes ++
          comma :: (itemsText f (j :: l) ++ (b.bytes ++ rparen :: q))).head?,
          isSpace c ∨ c = comma ∨ c = rparen :=
        i.after.head_append (fun _ => Or.inl) (Or.inr (Or.inl rfl))
      have htext : itemsText f (i :: j :: l) ++ (b.bytes ++ rparen :: q) =
          i.text f ++ comma :: (itemsText f (j :: l) ++ (b.bytes ++ rparen :: q)) := by
        rw [itemsText, List.append_assoc, List.cons_append]
      have hroom' : (items ++ [g i.item]).length + (j :: l).length ≤ 16 := by
        rw [List.length_append, List.length_singleton]
        omega
      rw [htext, hturn _ hcomma, skipChar_comma, ih (Nat.lt_of_succ_lt_succ hn) hroom',
        List.map_cons, List.map_cons, List.append_assoc, List.singleton_append, List.map_cons]

end Items

theorem ColumnText.itemText (c : ColumnText) : ItemText c.text := by
  obtain ⟨d, t, ht⟩ := List.exists_cons_of_ne_nil c.name.nonempty
  have hstop := c.name.clean d (ht ▸ List.mem_cons_self ..)
  simp only [nameStop, Bool.or_eq_false_iff, decide_eq_false_iff_not] at hstop
  refine ⟨d, t ++ c.gap.bytes ++ c.type.text, ?_, hstop.1.1, hstop.2⟩
  simp only [ColumnText.text, ht, List.cons_append]

theorem Literal.itemText (l : Literal) : ItemText l.text := l.solid

/-- The columns in parentheses -/
theorem columnLoop_items (l : Items ColumnText) :
    ∃ r, columnLoop lib ((l.text ColumnText.text).length + 1) (l.text ColumnText.text).tail [] =
      .ok (l.values.map ColumnText.definition, r) := by
  have hlen := length_le_itemsText ColumnText.itemText l.items
  have hn : l.items.length < (l.text ColumnText.text).length + 1 := by
    simp only [Items.text, List.length_cons, List.length_append]
    omega
  have hroom : ([] : List ColumnDef).length + l.items.length ≤ 16 := by
    rw [List.length_nil, Nat.zero_add]
    exact l.room
  have hloop := listLoop_items (b := l.blanks) ColumnText.itemText
    (fun c q hq => c.columnDef_eq lib <| Or.inr fun d hd => by
      obtain h | rfl | rfl := hq d hd
      · simp [typeStop, h]
      · rfl
      · rfl) hn hroom []
  refine ⟨[rparen], ?_⟩
  have htail : (l.text ColumnText.text).tail =
      itemsText ColumnText.text l.items ++ (l.blanks.bytes ++ [rparen]) := by
    rw [Items.text, List.tail_cons, List.append_assoc]
  rw [htail, columnLoop, hloop, Items.values, List.map_map]
  rfl

/-- The values in parentheses -/
theorem valueLoop_items (l : Items Literal) :
    ∃ r, valueLoop ((l.text Literal.text).length + 1) (l.text Literal.text).tail [] =
      .ok (l.values.map Literal.value, r) := by
  have hlen := length_le_itemsText Literal.itemText l.items
  have hn : l.items.length < (l.text Literal.text).length + 1 := by
    simp only [Items.text, List.length_cons, List.length_append]
    omega
  have hroom : ([] : List (CString 256)).length + l.items.length ≤ 16 := by
    rw [List.length_nil, Nat.zero_add]
    exact l.room
  -- an unquoted literal stops where the next item or the end of the list begins
  have hstop (c : UInt8) (hc : valueStop c) :
      isSpace c ∨ c = comma ∨ c = rparen ∨ c = semicolon := by
    simp only [valueStop, Bool.or_eq_true, decide_eq_true_eq] at hc
    obtain (h | h) | h := hc
    · exact Or.inr (Or.inl h)
    · exact Or.inr (Or.inr (Or.inl h))
    · exact Or.inl h
  have hitem (a : Literal) (q : List UInt8)
      (hq : ∀ c ∈ q.head?, isSpace c ∨ c = comma ∨ c = rparen) :
      listValue (a.text ++ q) = .ok (a.value, q) := by
    refine congrArg Except.ok (a.literal_eq hstop fun c hc => ?_)
    obtain h | rfl | rfl := hq c hc
    · simp [valueStop, h]
    · rfl
    · rfl
  have hloop := listLoop_items (b := l.blanks) Literal.itemText hitem hn hroom []
  refine ⟨[rparen], ?_⟩
  have htail : (l.text Literal.text).tail =
      itemsText Literal.text l.items ++ (l.blanks.bytes ++ [rparen]) := by
    rw [Items.text, List.tail_cons, List.append_assoc]
  rw [htail, valueLoop, hloop, Items.values, List.map_map]
  rfl

/-! ## Conditions -/

theorem isIdField_iff (field : CString 32) :
    (keyword idWord field.bytes && decide (field.bytes.length = 2)) = true ↔
      field.bytes.map toLower = idWord := by
  rw [Bool.and_eq_true, decide_eq_true_iff, keyword_iff (by decide)]
  constructor
  · rintro ⟨hpre, hlen⟩
    exact (hpre.eq_of_length (by rw [List.length_map, List.length_map, hlen]; rfl)).symm
  · intro h
    have hlen := congrArg List.length h
    rw [List.length_map] at hlen
    exact ⟨by rw [h]; decide, hlen⟩

theorem WhereText.withPredicate_eq (w : WhereText) (stmt : Statement) :
    withPredicate lib stmt w.field.str w.value.value = w.statement lib stmt := by
  unfold withPredicate WhereText.statement
  by_cases h : w.field.str.bytes.map toLower = idWord
  · rw [if_pos h, if_pos ((isIdField_iff _).mpr h)]
  · rw [if_neg h, if_neg fun h' => h ((isIdField_iff _).mp h')]

theorem WhereText.parseWhere_eq (w : WhereText) (stmt : Statement) :
    parseWhere lib (skipWs w.text) stmt = .ok (w.statement lib stmt) := by
  have hfield : Solid w.field.str.bytes :=
    w.field.solid fun c hc => by simp [fieldStop, hc]
  have hvalue : Solid w.value.text := by
    obtain ⟨c, t, ht, hspace, -⟩ := w.value.solid
    exact ⟨c, t, ht, hspace⟩
  have hword : Solid w.word.bytes := w.word.solid (by decide +kernel) (by decide)
  have hskip : skipWs w.text = w.word.bytes ++ (w.b₁.bytes ++ (w.field.str.bytes ++
      (w.b₂.bytes ++ equals :: (w.b₃.bytes ++ w.value.text)))) := by
    unfold WhereText.text
    simp only [List.append_assoc]
    exact w.gap.skipWs_solid (hword.append _)
  -- the field name may stand right in front of the sign
  have hend : ∀ c ∈ (w.b₂.bytes ++ equals :: (w.b₃.bytes ++ w.value.text)).head?, fieldStop c :=
    w.b₂.head_append (fun d hd => by simp [fieldStop, hd]) rfl
  have htoken := w.field.token_eq hend
  have hequals : skipWs (w.b₂.bytes ++ equals :: (w.b₃.bytes ++ w.value.text)) =
      equals :: (w.b₃.bytes ++ w.value.text) := w.b₂.skipWs_solid ⟨equals, _, rfl, rfl⟩
  -- the value is the end of the text
  have hliteral : literal wordStop w.value.text = (w.value.value, []) := by
    have hstop (c : UInt8) (hc : wordStop c) :
        isSpace c ∨ c = comma ∨ c = rparen ∨ c = semicolon := by
      simp only [wordStop, Bool.or_eq_true, decide_eq_true_eq] at hc
      exact hc.imp_right fun h => Or.inr (Or.inr h)
    have := w.value.literal_eq hstop (q := []) (by simp)
    rwa [List.append_nil] at this
  -- there is a condition: its first byte is that of WHERE
  obtain ⟨c, t, ht, hc⟩ := hword
  have hmore : ¬ ((skipWs w.text).head? = none ∨ (skipWs w.text).head? = some semicolon) := by
    rw [hskip, ht]
    rintro (h | h)
    · exact nomatch h
    · have hlarge := w.word.large (by decide +kernel) c (ht ▸ List.mem_cons_self ..)
      rw [Option.some.inj h] at hlarge
      exact absurd hlarge (by decide)
  have hkey := w.word.keyword_append (by decide) (w.b₁.bytes ++ (w.field.str.bytes ++
      (w.b₂.bytes ++ equals :: (w.b₃.bytes ++ w.value.text))))
  have hadv := w.word.advance_append (n := 5) rfl (w.b₁.bytes ++ (w.field.str.bytes ++
      (w.b₂.bytes ++ equals :: (w.b₃.bytes ++ w.value.text))))
  unfold parseWhere
  dsimp only
  rw [skipWs_skipWs, if_neg hmore, hskip, hkey, hadv]
  show (if (skipWs (token fieldStop 31 (skipWs (w.b₁.bytes ++ _))).2).head? ≠ some equals
    then _ else _) = _
  rw [w.b₁.skipWs_solid (hfield.append _), htoken, hequals]
  show Except.ok (withPredicate lib stmt w.field.str
    (literal wordStop (skipWs (w.b₃.bytes ++ w.value.text))).1) = _
  rw [w.b₃.skipWs_solid hvalue, hliteral, w.withPredicate_eq]

/-! ## Statements -/

theorem FromText.solid (f : FromText) : Solid f.text := by
  unfold FromText.text
  simp only [List.append_assoc]
  exact (f.word.solid (by decide +kernel) (by decide)).append _

theorem FromText.parseFrom_eq (f : FromText) {stmt : Statement}
    (hkind : stmt.predicateKind = .none) : parseFrom lib f.text stmt = .ok (f.statement lib stmt) := by
  have hname : Solid f.table.str.bytes := f.table.solid fun c hc => by simp [wordStop, hc]
  let rest := (f.condition.map WhereText.text).getD []
  have htext : f.text = f.word.bytes ++ (f.b₁.bytes ++ (f.table.str.bytes ++ rest)) := by
    simp only [FromText.text, rest, List.append_assoc]
  -- the name ends at the blank in front of WHERE or with the text
  have hend : ∀ c ∈ rest.head?, wordStop c := by
    intro c hc
    cases hcond : f.condition with
    | none => simp [rest, hcond] at hc
    | some w =>
      obtain ⟨d, ds, hds⟩ := List.exists_cons_of_ne_nil w.nonempty
      have hrest : rest = d :: (ds ++ (w.word.bytes ++ w.b₁.bytes ++ w.field.str.bytes ++ w.b₂.bytes ++
          equals :: (w.b₃.bytes ++ w.value.text))) := by
        simp [rest, hcond, WhereText.text, hds]
      rw [hrest] at hc
      obtain rfl : d = c := Option.some.inj hc
      have := w.gap.blank d (hds ▸ List.mem_cons_self ..)
      simp [wordStop, this]
  have hkey := f.word.keyword_append (by decide) (f.b₁.bytes ++ (f.table.str.bytes ++ rest))
  have hadv := f.word.advance_append (n := 4) rfl (f.b₁.bytes ++ (f.table.str.bytes ++ rest))
  unfold parseFrom
  rw [htext, hkey, hadv]
  show parseWhere lib (skipWs (token wordStop 31 (skipWs (f.b₁.bytes ++ _))).2)
    { stmt with tableName := (token wordStop 31 (skipWs (f.b₁.bytes ++ _))).1 } = _
  rw [f.b₁.skipWs_solid (hname.append _), f.table.token_eq hend]
  cases hcond : f.condition with
  | none =>
    have hrest : rest = [] := by simp [rest, hcond]
    rw [hrest, FromText.statement, hcond, hkind]
    rfl
  | some w =>
    have hrest : rest = w.text := by simp [rest, hcond]
    rw [hrest, FromText.statement, hcond]
    exact w.parseWhere_eq lib _

/-- The columns of a CREATE TABLE -/
theorem parseCreateTable_eq (name : Name tableStop) (b₃ : Blanks) (columns : Items ColumnText)
    (stmt : Statement) :
    parseCreateTable lib (name.str.bytes ++ (b₃.bytes ++ columns.text ColumnText.text)) stmt =
      .ok { stmt with
        tableName := name.str, colDefs := columns.values.map ColumnText.definition } := by
  have hname : Solid name.str.bytes := name.solid fun c hc => by simp [tableStop, hc]
  have hparen : columns.text ColumnText.text = lparen :: (columns.text ColumnText.text).tail := rfl
  have hend : ∀ c ∈ (b₃.bytes ++ columns.text ColumnText.text).head?, tableStop c := by
    rw [hparen]
    exact b₃.head_append (fun d hd => by simp [tableStop, hd]) rfl
  obtain ⟨r, hloop⟩ := columnLoop_items lib columns
  have hskip : skipWs (b₃.bytes ++ columns.text ColumnText.text) = columns.text ColumnText.text :=
    b₃.skipWs_solid ⟨lparen, _, hparen, rfl⟩
  unfold parseCreateTable
  simp only [(hname.append _).skipWs_eq, name.token_eq hend, hskip, hloop]
  rfl

/-- What `parse_insert` reads in front of the list -/
theorem parseInsert_list (into : Spelling intoWord) (b₂ : Blanks) (name : Name isSpace) (b₃ : Blanks)
    (gap : b₃.bytes ≠ []) (kw : Spelling valuesWord) (b₄ : Blanks) (q : List UInt8)
    (stmt : Statement) :
    parseInsert (into.bytes ++ (b₂.bytes ++ (name.str.bytes ++ (b₃.bytes ++ (kw.bytes ++
      (b₄.bytes ++ lparen :: q)))))) stmt = (do
        let r ← valueLoop ((lparen :: q).length + 1) q []
        return { stmt with tableName := name.str, insertValues := r.1 }) := by
  have hname : Solid name.str.bytes := name.solid fun _ hc => hc
  have hinto : Solid into.bytes := into.solid (by decide +kernel) (by decide)
  have hkw : Solid kw.bytes := kw.solid (by decide +kernel) (by decide)
  -- the blanks in front of VALUES are not empty
  have hend : ∀ c ∈ (b₃.bytes ++ (kw.bytes ++ (b₄.bytes ++ lparen :: q))).head?, isSpace c := by
    obtain ⟨d, ds, hds⟩ := List.exists_cons_of_ne_nil gap
    intro c hc
    rw [hds] at hc
    exact Option.some.inj hc ▸ b₃.blank d (hds ▸ List.mem_cons_self ..)
  have hskip : skipWs (b₄.bytes ++ lparen :: q) = lparen :: q :=
    b₄.skipWs_solid ⟨lparen, _, rfl, rfl⟩
  have hkey₁ := into.keyword_append (by decide) (b₂.bytes ++ (name.str.bytes ++ (b₃.bytes ++
    (kw.bytes ++ (b₄.bytes ++ lparen :: q)))))
  have hkey₂ := kw.keyword_append (by decide) (b₄.bytes ++ lparen :: q)
  unfold parseInsert
  simp only [(hinto.append _).skipWs_eq, hkey₁, into.advance_append (n := 4) rfl]
  show (if (!keyword valuesWord (skipWs (token isSpace 31 (skipWs (b₂.bytes ++ _))).2)) = true
    then _ else _) = _
  rw [b₂.skipWs_solid (hname.append _), name.token_eq hend, b₃.skipWs_solid (hkw.append _), hkey₂]
  show (advance 6 (kw.bytes ++ _) >>= _) = _
  rw [kw.advance_append (n := 6) rfl]
  show (if (skipWs (b₄.bytes ++ _)).head? ≠ some lparen then _ else _) = _
  rw [hskip]
  rfl

/-- The values of an INSERT -/
theorem parseInsert_eq (into : Spelling intoWord) (b₂ : Blanks) (name : Name isSpace) (b₃ : Blanks)
    (gap : b₃.bytes ≠ []) (kw : Spelling valuesWord) (b₄ : Blanks) (values : Items Literal)
    (stmt : Statement) :
    parseInsert (into.bytes ++ (b₂.bytes ++ (name.str.bytes ++ (b₃.bytes ++ (kw.bytes ++
      (b₄.bytes ++ values.text Literal.text)))))) stmt =
      .ok { stmt with
        tableName := name.str, insertValues := values.values.map Literal.value } := by
  have hparen : values.text Literal.text = lparen :: (values.text Literal.text).tail := rfl
  obtain ⟨r, hloop⟩ := valueLoop_items values
  rw [hparen, parseInsert_list into b₂ name b₃ gap kw b₄]
  show (valueLoop ((values.text Literal.text).length + 1) (values.text Literal.text).tail [] >>= _) = _
  rw [hloop]
  rfl

/-- A text that begins with INSERT -/
theorem parseStatement_insert (word : Spelling insertWord) (q : List UInt8)
    (inner : List UInt8 → Except ParseError Statement) :
    parseStatement lib inner (word.bytes ++ q) =
      parseInsert (skipWs q) { Statement.zero with type := .insert } := by
  have hmore : ¬ (word.bytes ++ q).head? = none := by
    obtain ⟨c, r, hr, -⟩ := (word.solid (by decide +kernel) (by decide)).append q
    rw [hr]
    exact nofun
  unfold parseStatement
  rw [if_neg hmore, word.other (by decide) (v := createWord) (by decide) (by decide) (by decide),
    word.keyword_append (by decide), word.advance_append (n := 6) rfl]
  rfl

theorem StatementText.solid (t : StatementText) : Solid t.text := by
  cases t with
  | create word =>
    simp only [StatementText.text, List.append_assoc]
    exact (word.solid (by decide +kernel) (by decide)).append _
  | insert word =>
    simp only [StatementText.text, List.append_assoc]
    exact (word.solid (by decide +kernel) (by decide)).append _
  | select word =>
    simp only [StatementText.text, List.append_assoc]
    exact (word.solid (by decide +kernel) (by decide)).append _
  | delete word =>
    simp only [StatementText.text, List.append_assoc]
    exact (word.solid (by decide +kernel) (by decide)).append _

theorem StatementText.parseStatement_eq (t : StatementText)
    (inner : List UInt8 → Except ParseError Statement) :
    parseStatement lib inner t.text = .ok (t.statement lib) := by
  have hmore : ¬ t.text.head? = none := by
    obtain ⟨c, q, ht, -⟩ := t.solid
    rw [ht]
    exact nofun
  cases t with
  -- CREATE comes first
  | create word b₁ table b₂ name b₃ columns =>
    have htext : (create word b₁ table b₂ name b₃ columns).text = word.bytes ++ (b₁.bytes ++
        (table.bytes ++ (b₂.bytes ++ (name.str.bytes ++ (b₃.bytes ++
          columns.text ColumnText.text))))) := by
      simp only [text, List.append_assoc]
    have htable : Solid table.bytes := table.solid (by decide +kernel) (by decide)
    have hname : Solid name.str.bytes := name.solid fun c hc => by simp [tableStop, hc]
    rw [htext] at hmore ⊢
    unfold parseStatement
    rw [if_neg hmore, if_pos (word.keyword_append (by decide) _), word.advance_append (n := 6) rfl]
    show (if (!keyword tableWord (skipWs (b₁.bytes ++ _))) = true then _ else _) = _
    rw [b₁.skipWs_solid (htable.append _), table.keyword_append (by decide)]
    show (advance 5 (table.bytes ++ _) >>= _) = _
    rw [table.advance_append (n := 5) rfl]
    show parseCreateTable lib (skipWs (b₂.bytes ++ _)) _ = _
    rw [b₂.skipWs_solid (hname.append _), parseCreateTable_eq]
    rfl
  -- INSERT has its own lemma
  | insert word b₁ into b₂ name b₃ gap kw b₄ values =>
    have htext : (insert word b₁ into b₂ name b₃ gap kw b₄ values).text = word.bytes ++ (b₁.bytes ++
        (into.bytes ++ (b₂.bytes ++ (name.str.bytes ++ (b₃.bytes ++ (kw.bytes ++
          (b₄.bytes ++ values.text Literal.text))))))) := by
      simp only [text, List.append_assoc]
    have hinto : Solid into.bytes := into.solid (by decide +kernel) (by decide)
    rw [htext, parseStatement_insert, b₁.skipWs_solid (hinto.append _),
      parseInsert_eq _ _ _ _ gap]
    rfl
  -- a SELECT is neither a CREATE nor an INSERT
  | select word b₁ b₂ source =>
    have htext : (select word b₁ b₂ source).text =
        word.bytes ++ (b₁.bytes ++ star :: (b₂.bytes ++ source.text)) := by
      simp only [text, List.append_assoc]
    have hstar : Solid (star :: (b₂.bytes ++ source.text)) := ⟨star, _, rfl, rfl⟩
    rw [htext] at hmore ⊢
    unfold parseStatement
    rw [if_neg hmore, word.other (by decide) (v := createWord) (by decide) (by decide) (by decide),
      word.other (by decide) (v := insertWord) (by decide) (by decide) (by decide),
      word.keyword_append (by decide), word.advance_append (n := 6) rfl]
    show parseSelect lib (skipWs (b₁.bytes ++ _)) _ = _
    rw [b₁.skipWs_solid hstar]
    unfold parseSelect
    rw [hstar.skipWs_eq]
    show parseFrom lib (skipWs (b₂.bytes ++ source.text)) _ = _
    rw [b₂.skipWs_solid source.solid]
    exact source.parseFrom_eq lib rfl
  -- a DELETE is none of the three before it
  | delete word b₁ source =>
    have htext : (delete word b₁ source).text = word.bytes ++ (b₁.bytes ++ source.text) := by
      simp only [text, List.append_assoc]
    rw [htext] at hmore ⊢
    unfold parseStatement
    rw [if_neg hmore, word.other (by decide) (v := createWord) (by decide) (by decide) (by decide),
      word.other (by decide) (v := insertWord) (by decide) (by decide) (by decide),
      word.other (by decide) (v := selectWord) (by decide) (by decide) (by decide),
      word.keyword_append (by decide), word.advance_append (n := 6) rfl]
    show parseDelete lib (skipWs (b₁.bytes ++ source.text)) _ = _
    rw [b₁.skipWs_solid source.solid, parseDelete, source.solid.skipWs_eq]
    exact source.parseFrom_eq lib rfl

end Lib

/-! ## Whole inputs -/

theorem trim_append_trailing (s : List UInt8) {t : List UInt8} (ht : ∀ c ∈ t, isTrailing c) :
    trim (s ++ t) = trim s := by
  induction t using List.reverseRecOn with
  | nil => rw [List.append_nil]
  | append_singleton t c ih =>
    have hc : isTrailing c := ht c (List.mem_append_right _ (List.mem_singleton_self c))
    unfold trim at ih ⊢
    rw [← List.append_assoc, List.rdropWhile_concat, if_pos hc]
    exact ih fun d hd => ht d (List.mem_append_left _ hd)

theorem ne_zero_of_isTrailing {c : UInt8} (h : isTrailing c) : c ≠ 0 := by
  rintro rfl
  exact absurd h (by decide)

section NoNul

theorem Blanks.noNul (b : Blanks) : 0 ∉ b.bytes := fun h => ne_zero_of_isSpace (b.blank 0 h) rfl

theorem Spelling.noNul {word : List UInt8} (w : Spelling word) (hword : 0 ∉ word) :
    0 ∉ w.bytes := by
  intro h
  have hmem : toLower 0 ∈ word.map toLower := w.spells ▸ List.mem_map_of_mem h
  obtain ⟨c, hc, h0⟩ := List.mem_map.mp hmem
  exact hword (toLower_eq_zero.mp h0 ▸ hc)

theorem Literal.noNul (l : Literal) : 0 ∉ l.text := by
  cases l with
  | quoted s clean =>
    have := s.noNul
    simp only [Literal.text, List.mem_append, List.mem_cons, List.not_mem_nil, or_false, not_or]
    exact ⟨⟨by decide, this⟩, by decide⟩
  | bare s => exact s.noNul

theorem TypeText.noNul (t : TypeText) : 0 ∉ t.text := by
  cases t with
  | int w => exact w.noNul (by decide)
  | bigint w => exact w.noNul (by decide)
  | varchar w b₁ b₂ width b₃ =>
    have hdigits : 0 ∉ width.digits := fun h => absurd (width.digit 0 h) (by decide)
    simp only [TypeText.text, List.mem_append, List.mem_cons, List.not_mem_nil, or_false, not_or]
    exact ⟨⟨w.noNul (by decide), b₁.noNul⟩, by decide, ⟨⟨b₂.noNul, hdigits⟩, b₃.noNul⟩, by decide⟩

theorem ColumnText.noNul (c : ColumnText) : 0 ∉ c.text := by
  simp only [ColumnText.text, List.mem_append, not_or]
  exact ⟨⟨c.name.str.noNul, c.gap.noNul⟩, c.type.noNul⟩

theorem Items.noNul {α : Type} {f : α → List UInt8} (hf : ∀ a, 0 ∉ f a) (l : Items α) :
    0 ∉ l.text f := by
  have hitem (i : Item α) : 0 ∉ i.text f := by
    simp only [Item.text, List.mem_append, not_or]
    exact ⟨⟨i.before.noNul, hf i.item⟩, i.after.noNul⟩
  have hitems (is : List (Item α)) : 0 ∉ itemsText f is := by
    fun_induction itemsText f is with
    | case1 => exact List.not_mem_nil
    | case2 i => exact hitem i
    | case3 i j is ih =>
      rw [List.mem_append, List.mem_cons, not_or, not_or]
      exact ⟨hitem i, by decide, ih⟩
  simp only [Items.text, List.mem_cons, List.mem_append, List.not_mem_nil, or_false, not_or]
  exact ⟨by decide, ⟨hitems l.items, l.blanks.noNul⟩, by decide⟩

theorem FromText.noNul (f : FromText) : 0 ∉ f.text := by
  simp only [FromText.text, List.mem_append, not_or]
  refine ⟨⟨⟨f.word.noNul (by decide), f.b₁.noNul⟩, f.table.str.noNul⟩, ?_⟩
  cases f.condition with
  | none => exact List.not_mem_nil
  | some w =>
    show 0 ∉ w.text
    simp only [WhereText.text, List.mem_append, List.mem_cons, not_or]
    exact ⟨⟨⟨⟨⟨w.gap.noNul, w.word.noNul (by decide)⟩, w.b₁.noNul⟩, w.field.str.noNul⟩, w.b₂.noNul⟩,
      by decide, w.b₃.noNul, w.value.noNul⟩

theorem StatementText.noNul (t : StatementText) : 0 ∉ t.text := by
  cases t with
  | create word b₁ table b₂ name b₃ columns =>
    simp only [StatementText.text, List.mem_append, not_or]
    exact ⟨⟨⟨⟨⟨⟨word.noNul (by decide), b₁.noNul⟩, table.noNul (by decide)⟩, b₂.noNul⟩, name.str.noNul⟩,
      b₃.noNul⟩, columns.noNul ColumnText.noNul⟩
  | insert word b₁ into b₂ name b₃ gap kw b₄ values =>
    simp only [StatementText.text, List.mem_append, not_or]
    exact ⟨⟨⟨⟨⟨⟨⟨⟨word.noNul (by decide), b₁.noNul⟩, into.noNul (by decide)⟩, b₂.noNul⟩,
      name.str.noNul⟩, b₃.noNul⟩, kw.noNul (by decide)⟩, b₄.noNul⟩, values.noNul Literal.noNul⟩
  | select word b₁ b₂ source =>
    simp only [StatementText.text, List.mem_append, List.mem_cons, not_or]
    exact ⟨⟨word.noNul (by decide), b₁.noNul⟩, by decide, b₂.noNul, source.noNul⟩
  | delete word b₁ source =>
    simp only [StatementText.text, List.mem_append, not_or]
    exact ⟨⟨word.noNul (by decide), b₁.noNul⟩, source.noNul⟩

end NoNul

/-- What `trim` leaves at the end of a text -/
def EndsSolid (p : List UInt8) : Prop := ∃ q c, p = q ++ [c] ∧ isTrailing c = false

theorem EndsSolid.trimmed {p : List UInt8} (h : EndsSolid p) : Trimmed p := by
  obtain ⟨q, c, rfl, hc⟩ := h
  intro d hd
  rw [List.getLast?_concat] at hd
  exact Option.some.inj hd ▸ hc

theorem EndsSolid.append {p : List UInt8} (h : EndsSolid p) (q : List UInt8) :
    EndsSolid (q ++ p) := by
  obtain ⟨r, c, rfl, hc⟩ := h
  exact ⟨q ++ r, c, (List.append_assoc ..).symm, hc⟩

theorem endsSolid_of_clean {p : List UInt8} (hne : p ≠ []) (h : ∀ c ∈ p, isTrailing c = false) :
    EndsSolid p :=
  ⟨p.dropLast, p.getLast hne, (List.dropLast_append_getLast hne).symm, h _ (List.getLast_mem hne)⟩

theorem Literal.endsSolid (l : Literal) : EndsSolid l.text := by
  cases l with
  | quoted s => exact ⟨quote :: s.bytes, quote, rfl, rfl⟩
  | bare s nonempty unquoted clean =>
    refine endsSolid_of_clean nonempty fun c hc => ?_
    obtain ⟨hspace, -, -, hsemicolon⟩ := clean c hc
    simp [isTrailing, hspace, hsemicolon]

theorem Items.endsSolid {α : Type} (f : α → List UInt8) (l : Items α) : EndsSolid (l.text f) :=
  ⟨lparen :: (itemsText f l.items ++ l.blanks.bytes), rparen, rfl, rfl⟩

theorem FromText.endsSolid (f : FromText) : EndsSolid f.text := by
  cases hcond : f.condition with
  | none =>
    have htext : f.text = (f.word.bytes ++ f.b₁.bytes) ++ f.table.str.bytes := by
      simp [FromText.text, hcond]
    rw [htext]
    exact (endsSolid_of_clean f.table.nonempty f.table.clean).append _
  | some w =>
    have htext : f.text = (f.word.bytes ++ f.b₁.bytes ++ f.table.str.bytes ++ (w.gap.bytes ++
        w.word.bytes ++ w.b₁.bytes ++ w.field.str.bytes ++ w.b₂.bytes ++ equals :: w.b₃.bytes)) ++
          w.value.text := by
      simp [FromText.text, WhereText.text, hcond]
    rw [htext]
    exact w.value.endsSolid.append _

theorem StatementText.endsSolid (t : StatementText) : EndsSolid t.text := by
  cases t with
  | create word b₁ table b₂ name b₃ columns => exact (columns.endsSolid _).append _
  | insert word b₁ into b₂ name b₃ gap kw b₄ values => exact (values.endsSolid _).append _
  | select word b₁ b₂ source =>
    have htext : (select word b₁ b₂ source).text =
        (word.bytes ++ b₁.bytes ++ star :: b₂.bytes) ++ source.text := by
      simp [text]
    rw [htext]
    exact source.endsSolid.append _
  | delete word b₁ source => exact source.endsSolid.append _

/-- What stands around a statement is not parsed. -/
theorem bufferText_around (lead : Blanks) {body tail : List UInt8} (hnul : 0 ∉ body)
    (hsolid : Solid body) (hend : EndsSolid body) (htail : ∀ c ∈ tail, isTrailing c)
    (hshort : (lead.bytes ++ body ++ tail).length ≤ 1023) :
    bufferText (lead.bytes ++ body ++ tail) = body := by
  have hnul' : 0 ∉ lead.bytes ++ body ++ tail := by
    have htail0 : 0 ∉ tail := fun h => ne_zero_of_isTrailing (htail 0 h) rfl
    simp only [List.mem_append, not_or]
    exact ⟨⟨lead.noNul, hnul⟩, htail0⟩
  have htrim : trim (lead.bytes ++ body ++ tail) = lead.bytes ++ body := by
    rw [trim_append_trailing _ htail]
    exact trim_of_trimmed (hend.append _).trimmed
  rw [bufferText, cString_eq hnul', List.take_of_length_le hshort, htrim]
  exact lead.skipWs_solid hsolid

/-- A statement with blanks in front of it, and blanks and semicolons behind it, that fits the
    buffer of the parser -/
structure InputText where
  lead : Blanks
  body : StatementText
  tail : List UInt8
  trailing : ∀ c ∈ tail, isTrailing c
  short : (lead.bytes ++ body.text ++ tail).length ≤ 1023

namespace InputText

def text (i : InputText) : List UInt8 := i.lead.bytes ++ i.body.text ++ i.tail

/-- The parser works on the statement alone. -/
theorem bufferText_eq (i : InputText) : bufferText i.text = i.body.text :=
  bufferText_around i.lead i.body.noNul i.body.solid i.body.endsSolid i.trailing i.short

end InputText

/-- Parsing undoes writing: the parser finds the statement that was written, whatever blanks
    and cases were chosen. -/
theorem parse_inputText (lib : CLib) (i : InputText) :
    parse lib i.text = .ok (i.body.statement lib) := by
  rw [parse_eq, i.bufferText_eq]
  exact i.body.parseStatement_eq lib _

def oneBlank : Blanks := ⟨[space], fun _ hc => List.mem_singleton.mp hc ▸ rfl⟩

theorem oneBlank_ne_nil : oneBlank.bytes ≠ [] := List.cons_ne_nil _ _

/-- The bytes of `users`, `name` and `age` -/
def usersWord : List UInt8 := ['u', 's', 'e', 'r', 's'].map Char.toUInt8
def nameWord : List UInt8 := ['n', 'a', 'm', 'e'].map Char.toUInt8
def ageWord : List UInt8 := ['a', 'g', 'e'].map Char.toUInt8

/-- `CREATE TABLE users (name VARCHAR(32), age INT);` -/
def usersText : InputText where
  lead := Blanks.none
  body := .create ⟨createWord, rfl⟩ oneBlank ⟨tableWord, rfl⟩ oneBlank
    ⟨⟨usersWord, by decide, by decide⟩, by decide, by decide +kernel⟩ oneBlank
    ⟨[⟨Blanks.none, ⟨⟨⟨nameWord, by decide, by decide⟩, by decide, by decide +kernel⟩, oneBlank,
          oneBlank_ne_nil, .varchar ⟨varcharWord, rfl⟩ Blanks.none Blanks.none
            ⟨['3', '2'].map Char.toUInt8, by decide, by decide +kernel, by decide +kernel⟩ Blanks.none⟩, Blanks.none⟩,
      ⟨oneBlank, ⟨⟨⟨ageWord, by decide, by decide⟩, by decide, by decide +kernel⟩, oneBlank,
          oneBlank_ne_nil, .int ⟨intWord, rfl⟩⟩, Blanks.none⟩], Blanks.none, by decide⟩
  tail := [semicolon]
  trailing := List.forall_mem_singleton.mpr rfl
  short := by decide +kernel

theorem parse_usersText : usersText.text = utf8 "CREATE TABLE users (name VARCHAR(32), age INT);" ∧
    parse CLib.wrapping usersText.text = .ok (usersText.body.statement CLib.wrapping) :=
  ⟨by decide +kernel, parse_inputText CLib.wrapping usersText⟩

end MiniDb
