import MiniDb.Sql.Cursor
import MiniDb.Sql.RoundTrip

/-!
# Literals that are too long

A value has room for 255 bytes.  The loop of `parse_insert` stops there and goes on in the middle
of a longer literal as if another value began.

## Key results

- `valueLoop_dividesInto`, `DividesInto.entryCount_eq`: the values of a text and their number
- `dividesInto_listText_iff`: what becomes of a list with a literal that is too long
- `parse_oneValue_iff`: when every literal becomes one value
-/

namespace MiniDb

open CText

/-! ## The values of a text -/

/-- The text of a list divides into these values: at each place the loop takes what `literal`
    reads. -/
inductive DividesInto : List UInt8 → List (List UInt8) → Prop where
  | ends {p : List UInt8} : ListEnds p → DividesInto p []
  | value {p : List UInt8} {vs : List (List UInt8)} : ¬ ListEnds p →
      DividesInto (afterItem (literal valueStop (skipWs p)).2) vs →
      DividesInto p ((literal valueStop (skipWs p)).1.bytes :: vs)

theorem dividesInto_of_ends {p : List UInt8} {vs : List (List UInt8)} (h : ListEnds p) :
    DividesInto p vs ↔ vs = [] := by
  constructor
  · intro hd
    cases hd with
    | ends => rfl
    | value hmore => exact absurd h hmore
  · rintro rfl
    exact .ends h

theorem dividesInto_of_more {p : List UInt8} {vs : List (List UInt8)} (h : ¬ ListEnds p) :
    DividesInto p vs ↔ ∃ vs', vs = (literal valueStop (skipWs p)).1.bytes :: vs' ∧
      DividesInto (afterItem (literal valueStop (skipWs p)).2) vs' := by
  constructor
  · intro hd
    cases hd with
    | ends hends => exact absurd hends h
    | value _ hrest => exact ⟨_, rfl, hrest⟩
  · rintro ⟨vs', rfl, hrest⟩
    exact .value h hrest

/-- No list of values is refused. -/
theorem valueLoop_accepts {n : Nat} {p : List UInt8} {items : List (CString 256)} :
    valueLoop n p items ≠ .error .syntaxError := by
  induction n generalizing p items with
  | zero => simp [valueLoop, listLoop]
  | succ n ih =>
    rw [valueLoop, listLoop_succ]
    split
    next => simp
    next =>
      split
      next => simp
      next => exact ih

/-- The loop of `parse_insert` returns the values that its text divides into. -/
theorem valueLoop_dividesInto {n : Nat} {p : List UInt8} {items : List (CString 256)}
    {vs : List (List UInt8)} (hnul : 0 ∉ p) (hn : p.length < n)
    (hroom : items.length + vs.length ≤ 16) :
    (∃ l r, valueLoop n p items = .ok (l, r) ∧
      l.map CString.bytes = items.map CString.bytes ++ vs) ↔ DividesInto p vs := by
  -- the loop takes one value a turn, as `DividesInto` does
  induction n generalizing p items vs with
  | zero => exact absurd hn (Nat.not_lt_zero _)
  | succ n ih =>
    rw [valueLoop, listLoop_succ]
    by_cases hends : ListEnds p
    · rw [if_pos hends, dividesInto_of_ends hends]
      constructor
      · rintro ⟨l, r, h, hl⟩
        rw [← (Prod.mk.inj (Except.ok.inj h)).1] at hl
        exact List.append_right_eq_self.mp hl.symm
      · rintro rfl
        exact ⟨items, _, rfl, (List.append_nil _).symm⟩
    · rw [if_neg hends, dividesInto_of_more hends]
      have hahead := listValue_advances p _ hnul hends rfl
      have hlen := hahead.2
      by_cases hfull : 16 ≤ items.length
      · -- the array is full, and the text has one more value
        rw [if_pos hfull]
        refine iff_of_false (by simp) ?_
        rintro ⟨vs', rfl, -⟩
        rw [List.length_cons] at hroom
        omega
      · rw [if_neg hfull]
        show (∃ l r, valueLoop n (afterItem (literal valueStop (skipWs p)).2)
          (items ++ [(literal valueStop (skipWs p)).1]) = .ok (l, r) ∧ _) ↔ _
        have hcons (l : List (CString 256)) (vs' : List (List UInt8)) :
            (l.map CString.bytes = (items ++ [(literal valueStop (skipWs p)).1]).map CString.bytes ++
              vs') ↔ l.map CString.bytes = items.map CString.bytes ++
                ((literal valueStop (skipWs p)).1.bytes :: vs') := by
          rw [List.map_append, List.append_assoc]
          rfl
        constructor
        · rintro ⟨l, r, h, hl⟩
          -- the value just read is the next one of the list
          obtain ⟨m, rfl⟩ := listLoop_extends h
          rw [List.map_append, List.map_append, List.append_assoc, List.append_cancel_left_eq] at hl
          subst hl
          refine ⟨m.map CString.bytes, rfl, (ih (not_mem_suffix hahead.1 hnul) (by omega) ?_).mp
            ⟨_, r, h, by rw [List.map_append]⟩⟩
          simp only [List.length_append, List.length_map, List.length_singleton] at hroom ⊢
          omega
        · -- the turn writes the first value, the loop the rest
          rintro ⟨vs', rfl, hrest⟩
          rw [List.length_cons] at hroom
          obtain ⟨l, r, h, hl⟩ := (@ih _ (items ++ [(literal valueStop (skipWs p)).1]) vs'
            (not_mem_suffix hahead.1 hnul) (by omega)
            (by rw [List.length_append, List.length_singleton]; omega)).mpr hrest
          exact ⟨l, r, h, (hcons l vs').mp hl⟩

/-- The items of the list are these values. -/
theorem DividesInto.entryCount_eq {p : List UInt8} {vs : List (List UInt8)} (h : DividesInto p vs)
    (hnul : 0 ∉ p) : entryCount listValue (p.length + 1) p = vs.length := by
  induction h with
  | ends hends =>
    rw [entryCount, if_pos hends]
    rfl
  | @value p vs hmore hrest ih =>
    have hahead := listValue_advances p _ hnul hmore rfl
    have hnul' := not_mem_suffix hahead.1 hnul
    rw [entryCount, if_neg hmore, listValue]
    dsimp only
    rw [MiniDb.entryCount_eq listValue_advances hnul' hahead.2 (Nat.lt_succ_self _), ih hnul',
      List.length_cons]

/-! ## Literals of any length -/

/-- A literal of any length -/
inductive LiteralText where
  | quoted (s : List UInt8) (noNul : 0 ∉ s) (clean : quote ∉ s)
  | bare (s : List UInt8) (nonempty : s ≠ []) (unquoted : s.head? ≠ some quote)
      (clean : ∀ c ∈ s, c ≠ 0 ∧ valueStop c = false)

namespace LiteralText

def text : LiteralText → List UInt8
  | quoted s _ _ => quote :: s ++ [quote]
  | bare s _ _ _ => s

def content : LiteralText → List UInt8
  | quoted s _ _ => s
  | bare s _ _ _ => s

/-- Where the loop stands in front of `q` when it has taken 255 bytes of the literal: behind the
    literal, or inside a longer one -/
def behind (l : LiteralText) (q : List UInt8) : List UInt8 :=
  match l with
  | quoted s _ _ => skipChar quote (s.drop 255 ++ quote :: q)
  | bare s _ _ _ => s.drop 255 ++ q

theorem behind_of_short {l : LiteralText} (h : l.content.length ≤ 255) (q : List UInt8) :
    l.behind q = q := by
  cases l with
  | quoted s =>
    show skipChar quote (s.drop 255 ++ quote :: q) = q
    rw [show s.drop 255 = [] from List.drop_eq_nil_of_le h]
    rfl
  | bare s =>
    show s.drop 255 ++ q = q
    rw [show s.drop 255 = [] from List.drop_eq_nil_of_le h]
    rfl

theorem itemText (l : LiteralText) : ItemText l.text := by
  cases l with
  | quoted s => exact ⟨quote, _, rfl, rfl, by decide⟩
  | bare s nonempty unquoted clean =>
    obtain ⟨c, t, ht⟩ := List.exists_cons_of_ne_nil nonempty
    have hstop := (clean c (ht ▸ List.mem_cons_self ..)).2
    simp only [valueStop, Bool.or_eq_false_iff, decide_eq_false_iff_not] at hstop
    exact ⟨c, t, ht, hstop.2, hstop.1.2⟩

/-- A token takes the first bytes of a text up to its own end. -/
theorem token_cut {stop : UInt8 → Bool} {n : Nat} {t q : List UInt8}
    (ht : ∀ c ∈ t, c ≠ 0 ∧ stop c = false) (hq : ∀ c ∈ q.head?, stop c) :
    (token stop n (t ++ q)).1.bytes = t.take n ∧ (token stop n (t ++ q)).2 = t.drop n ++ q := by
  by_cases hlen : t.length ≤ n
  · obtain ⟨h1, h2⟩ := token_append ht hlen hq
    rw [List.take_of_length_le hlen, List.drop_eq_nil_of_le hlen]
    exact ⟨h1, h2⟩
  · have hclean : ∀ c ∈ t, (decide (c = 0) || stop c) = false := fun c hc => by
      simp [(ht c hc).1, (ht c hc).2]
    have hscan := scan_cut hclean (Nat.le_of_not_le hlen) q
    exact ⟨congrArg Prod.fst hscan, congrArg Prod.snd hscan⟩

/-- What the parser takes for a literal, and where it goes on -/
theorem literal_eq (l : LiteralText) {q : List UInt8} (hq : ∀ c ∈ q.head?, valueStop c) :
    (literal valueStop (l.text ++ q)).1.bytes = l.content.take 255 ∧
      (literal valueStop (l.text ++ q)).2 = l.behind q := by
  cases l with
  | quoted s noNul clean =>
    have hclean : ∀ c ∈ s, c ≠ 0 ∧ decide (c = quote) = false := fun c hc =>
      ⟨fun h0 => noNul (h0 ▸ hc), decide_eq_false fun hquote => clean (hquote ▸ hc)⟩
    obtain ⟨h1, h2⟩ := token_cut (n := 255) (q := quote :: q) hclean
      (fun c hc => decide_eq_true (Option.some.inj hc).symm)
    have htext : (quoted s noNul clean).text ++ q = quote :: (s ++ quote :: q) := by simp [text]
    rw [htext]
    exact ⟨h1, congrArg (skipChar quote) h2⟩
  | bare s nonempty unquoted clean =>
    have hhead : (s ++ q).head? ≠ some quote := by
      rw [List.head?_append_of_ne_nil _ nonempty]
      exact unquoted
    show (literal valueStop (s ++ q)).1.bytes = _ ∧ (literal valueStop (s ++ q)).2 = _
    rw [literal, if_neg hhead]
    exact token_cut clean hq

end LiteralText

/-! ## Lists with a literal that is too long -/

/-- The literals with commas between them and the closing parenthesis -/
def listText (l : List (Item LiteralText)) (b : Blanks) : List UInt8 :=
  itemsText LiteralText.text l ++ (b.bytes ++ [rparen])

/-- What stands behind the first of these literals -/
def restText (i : Item LiteralText) (l : List (Item LiteralText)) (b : Blanks) : List UInt8 :=
  match l with
  | [] => i.after.bytes ++ (b.bytes ++ [rparen])
  | j :: l => i.after.bytes ++ comma :: listText (j :: l) b

/-- One value for each literal of a list: the literal itself, or its first 255 bytes -/
def valuesOf (l : List (Item LiteralText)) : List (List UInt8) :=
  l.map fun i => i.item.content.take 255

variable {i : Item LiteralText} {l : List (Item LiteralText)} {b : Blanks}

theorem listText_cons : listText (i :: l) b =
    i.before.bytes ++ (i.item.text ++ restText i l b) := by
  cases l with
  | nil => simp only [listText, itemsText, Item.text, restText, List.append_assoc]
  | cons j l =>
    simp only [listText, itemsText, Item.text, restText, List.append_assoc, List.cons_append]

theorem restText_stops : ∀ c ∈ (restText i l b).head?, valueStop c := by
  have hblank (d : UInt8) (hd : isSpace d) : valueStop d := by simp [valueStop, hd]
  cases l with
  | nil =>
    show ∀ c ∈ (i.after.bytes ++ (b.bytes ++ [rparen])).head?, valueStop c
    rw [← List.append_assoc]
    exact (i.after.append b).head_append (q := []) hblank rfl
  | cons j l => exact i.after.head_append hblank rfl

theorem listEnds_blanks (b : Blanks) : ListEnds (b.bytes ++ [rparen]) := by
  refine Or.inr (Or.inr ?_)
  rw [b.skipWs_solid ⟨rparen, [], rfl, rfl⟩]
  rfl

/-- Behind a literal that is not too long the rest of the list is read. -/
theorem dividesInto_rest {vs : List (List UInt8)} :
    DividesInto (afterItem (restText i l b)) vs ↔ DividesInto (listText l b) vs := by
  cases l with
  | nil =>
    have hrest : afterItem (restText i [] b) = [rparen] := by
      show skipChar comma (skipWs (i.after.bytes ++ (b.bytes ++ [rparen]))) = [rparen]
      rw [← List.append_assoc]
      exact skipChar_rparen (i.after.append b) []
    rw [hrest, dividesInto_of_ends (Or.inr (Or.inl rfl)), show listText [] b = b.bytes ++ [rparen]
      from rfl, dividesInto_of_ends (listEnds_blanks b)]
  | cons j l => rw [restText, afterItem, skipChar_comma]

/-- One turn of the loop on the text of a list -/
theorem dividesInto_cons {vs : List (List UInt8)} :
    DividesInto (listText (i :: l) b) vs ↔ ∃ vs', vs = i.item.content.take 255 :: vs' ∧
      DividesInto (afterItem (i.item.behind (restText i l b))) vs' := by
  obtain ⟨c, t, ht, hspace, hparen⟩ := i.item.itemText
  have hskip : skipWs (listText (i :: l) b) = i.item.text ++ restText i l b := by
    rw [listText_cons, ht]
    exact i.before.skipWs_solid ⟨c, _, rfl, hspace⟩
  have hmore : ¬ ListEnds (listText (i :: l) b) := by
    have hturn := Item.turn (f := LiteralText.text) (i := i) i.item.itemText
    cases l with
    | nil =>
      obtain ⟨h1, -, h3⟩ := hturn (b.bytes ++ [rparen])
      exact fun h => h.elim (fun h => h1 (Or.inl h)) fun h => h.elim (fun h => h1 (Or.inr h)) h3
    | cons j l =>
      obtain ⟨h1, -, h3⟩ := hturn (comma :: listText (j :: l) b)
      have htext : listText (i :: j :: l) b = i.text LiteralText.text ++ comma :: listText (j :: l) b := by
        simp only [listText, itemsText, List.append_assoc, List.cons_append]
      rw [htext]
      exact fun h => h.elim (fun h => h1 (Or.inl h)) fun h => h.elim (fun h => h1 (Or.inr h)) h3
  obtain ⟨hvalue, hrest⟩ := i.item.literal_eq (restText_stops (i := i) (l := l) (b := b))
  rw [dividesInto_of_more hmore, hskip, hvalue, hrest]

/-- Where a literal is the first that is too long, the text behind its 255th byte divides into
    the literals that follow it. -/
def OverflowHarmless (l : List (Item LiteralText)) (b : Blanks) : Prop :=
  ∀ A i B, l = A ++ i :: B → (∀ a ∈ A, a.item.content.length ≤ 255) →
    255 < i.item.content.length →
    DividesInto (afterItem (i.item.behind (restText i B b))) (valuesOf B)

/-- What becomes of a list, whatever the lengths of its literals -/
theorem dividesInto_listText_iff (l : List (Item LiteralText)) (b : Blanks) :
    DividesInto (listText l b) (valuesOf l) ↔ OverflowHarmless l b := by
  induction l with
  | nil =>
    refine iff_of_true (.ends (listEnds_blanks b)) fun A i B h => ?_
    exact absurd h.symm (List.append_ne_nil_of_right_ne_nil A (List.cons_ne_nil i B))
  | cons i l ih =>
    -- the first value is read in any case; what matters is where it leaves the cursor
    have hcons : DividesInto (listText (i :: l) b) (valuesOf (i :: l)) ↔
        DividesInto (afterItem (i.item.behind (restText i l b))) (valuesOf l) := by
      rw [dividesInto_cons]
      constructor
      · rintro ⟨vs', hvs, h⟩
        obtain ⟨-, rfl⟩ := List.cons.inj hvs
        exact h
      · exact fun h => ⟨_, rfl, h⟩
    rw [hcons]
    by_cases hlong : 255 < i.item.content.length
    · -- `i` is the first literal that is too long
      constructor
      · intro h A j B hl hshort _
        cases A with
        | nil =>
          obtain ⟨rfl, rfl⟩ := List.cons.inj hl
          exact h
        | cons a A =>
          obtain ⟨rfl, -⟩ := List.cons.inj hl
          have := hshort i (List.mem_cons_self ..)
          omega
      · exact fun h => h [] i l rfl (List.forall_mem_nil _) hlong
    · -- a short literal is read up to its end, and what is left is the text of `l`
      rw [LiteralText.behind_of_short (Nat.le_of_not_lt hlong), dividesInto_rest, ih]
      constructor
      · intro h A j B hl hshort hj
        cases A with
        | nil =>
          obtain ⟨rfl, -⟩ := List.cons.inj hl
          exact absurd hj hlong
        | cons a A =>
          obtain ⟨rfl, rfl⟩ := List.cons.inj hl
          exact h A j B rfl (fun x hx => hshort x (List.mem_cons_of_mem _ hx)) hj
      · intro h A j B hl hshort hj
        refine h (i :: A) j B (by rw [hl]; rfl) (fun x hx => ?_) hj
        cases List.mem_cons.mp hx with
        | inl heq => exact heq ▸ Nat.le_of_not_lt hlong
        | inr hmem => exact hshort x hmem

/-! ## INSERT -/

/-- An INSERT of at most 1023 bytes whose list has at most 16 literals of any length -/
structure InsertText where
  lead : Blanks
  word : Spelling insertWord
  b₁ : Blanks
  into : Spelling intoWord
  b₂ : Blanks
  name : Name isSpace
  b₃ : Blanks
  gap : b₃.bytes ≠ []
  kw : Spelling valuesWord
  b₄ : Blanks
  items : List (Item LiteralText)
  blanks : Blanks
  room : items.length ≤ 16
  tail : List UInt8
  trailing : ∀ c ∈ tail, isTrailing c
  short : (lead.bytes ++ (word.bytes ++ (b₁.bytes ++ (into.bytes ++ (b₂.bytes ++ (name.str.bytes ++
    (b₃.bytes ++ (kw.bytes ++ (b₄.bytes ++ lparen :: listText items blanks)))))))) ++
      tail).length ≤ 1023

namespace InsertText

/-- The statement from its first word to the closing parenthesis -/
def body (t : InsertText) : List UInt8 :=
  t.word.bytes ++ (t.b₁.bytes ++ (t.into.bytes ++ (t.b₂.bytes ++ (t.name.str.bytes ++
    (t.b₃.bytes ++ (t.kw.bytes ++ (t.b₄.bytes ++ lparen :: listText t.items t.blanks)))))))

def text (t : InsertText) : List UInt8 := t.lead.bytes ++ t.body ++ t.tail

end InsertText

theorem LiteralText.noNul (l : LiteralText) : 0 ∉ l.text := by
  cases l with
  | quoted s noNul =>
    simp only [text, List.mem_append, List.mem_cons, List.not_mem_nil, or_false, not_or]
    exact ⟨⟨by decide, noNul⟩, by decide⟩
  | bare s nonempty unquoted clean => exact fun h => (clean 0 h).1 rfl

theorem noNul_listText (l : List (Item LiteralText)) (b : Blanks) : 0 ∉ listText l b := by
  have hitem (i : Item LiteralText) : 0 ∉ i.text LiteralText.text := by
    simp only [Item.text, List.mem_append, not_or]
    exact ⟨⟨i.before.noNul, i.item.noNul⟩, i.after.noNul⟩
  have hclose : 0 ∉ b.bytes ++ [rparen] := by
    simp only [List.mem_append, List.mem_singleton, not_or]
    exact ⟨b.noNul, by decide⟩
  rw [listText, List.mem_append, not_or]
  refine ⟨?_, hclose⟩
  fun_induction itemsText LiteralText.text l with
  | case1 => exact List.not_mem_nil
  | case2 i => exact hitem i
  | case3 i j is ih =>
    simp only [List.mem_append, List.mem_cons, not_or]
    exact ⟨hitem i, by decide, ih⟩

namespace InsertText

variable (t : InsertText)

theorem noNul_body : 0 ∉ t.body := by
  simp only [body, List.mem_append, List.mem_cons, not_or]
  exact ⟨t.word.noNul (by decide), t.b₁.noNul, t.into.noNul (by decide), t.b₂.noNul,
    t.name.str.noNul, t.b₃.noNul, t.kw.noNul (by decide), t.b₄.noNul, by decide,
    noNul_listText t.items t.blanks⟩

theorem endsSolid_body : EndsSolid t.body := by
  refine ⟨t.word.bytes ++ (t.b₁.bytes ++ (t.into.bytes ++ (t.b₂.bytes ++ (t.name.str.bytes ++
    (t.b₃.bytes ++ (t.kw.bytes ++ (t.b₄.bytes ++ lparen ::
      (itemsText LiteralText.text t.items ++ t.blanks.bytes)))))))), rparen, ?_, rfl⟩
  simp only [body, listText, List.append_assoc, List.cons_append]

/-- The parser reads the list of the statement and keeps what it divides into. -/
theorem parse_eq (lib : CLib) : parse lib t.text = (do
    let r ← valueLoop ((lparen :: listText t.items t.blanks).length + 1)
      (listText t.items t.blanks) []
    return { Statement.zero with
      type := .insert, tableName := t.name.str, insertValues := r.1 }) := by
  have hsolid : Solid t.body := (t.word.solid (by decide +kernel) (by decide)).append _
  have hinto : Solid t.into.bytes := t.into.solid (by decide +kernel) (by decide)
  rw [MiniDb.parse_eq, text, bufferText_around t.lead t.noNul_body hsolid t.endsSolid_body
    t.trailing t.short, body, parseStatement_insert, t.b₁.skipWs_solid (hinto.append _),
    parseInsert_list t.into t.b₂ t.name t.b₃ t.gap t.kw t.b₄]

/-- The statement is refused, or it has one value for each literal: the literal itself or its
    first 255 bytes. -/
def OneValueEach (lib : CLib) : Prop :=
  parse lib t.text = .error .syntaxError ∨ ∃ stmt, parse lib t.text = .ok stmt ∧
    stmt.insertValues.map CString.bytes = valuesOf t.items

theorem oneValueEach_iff_dividesInto (lib : CLib) :
    t.OneValueEach lib ↔ DividesInto (listText t.items t.blanks) (valuesOf t.items) := by
  have hlt : (listText t.items t.blanks).length <
      (lparen :: listText t.items t.blanks).length + 1 := by rw [List.length_cons]; omega
  have hroom : ([] : List (CString 256)).length + (valuesOf t.items).length ≤ 16 := by
    have := t.room
    rw [valuesOf, List.length_map, List.length_nil]
    omega
  rw [← valueLoop_dividesInto (noNul_listText t.items t.blanks) hlt hroom, OneValueEach, parse_eq]
  have haccept : valueLoop ((lparen :: listText t.items t.blanks).length + 1)
      (listText t.items t.blanks) [] ≠ .error .syntaxError := valueLoop_accepts
  cases hloop : valueLoop ((lparen :: listText t.items t.blanks).length + 1)
      (listText t.items t.blanks) [] with
  | error e =>
    rw [hloop] at haccept
    refine iff_of_false ?_ (fun ⟨_, _, h, _⟩ => nomatch h)
    rintro (h | ⟨stmt, h, -⟩)
    · exact haccept (congrArg _ (Except.error.inj h))
    · exact nomatch h
  | ok r =>
    constructor
    · rintro (h | ⟨stmt, h, hvalues⟩)
      · exact nomatch h
      · rw [← Except.ok.inj h] at hvalues
        exact ⟨r.1, r.2, rfl, hvalues⟩
    · rintro ⟨l, q, h, hvalues⟩
      obtain rfl := Except.ok.inj h
      exact Or.inr ⟨_, rfl, hvalues⟩

/-- Every literal becomes one value exactly when no literal is too long or the first long one
    leaves behind a text that divides into the literals that follow it. -/
theorem parse_oneValue_iff (lib : CLib) :
    t.OneValueEach lib ↔ OverflowHarmless t.items t.blanks :=
  (t.oneValueEach_iff_dividesInto lib).trans (dividesInto_listText_iff t.items t.blanks)

end InsertText

/-- 256 times `a`, in quotes -/
def longLiteral : LiteralText := .quoted (List.replicate 256 0x61) (by decide +kernel) (by decide +kernel)

theorem tName_noNul : (0 : UInt8) ∉ [(0x74 : UInt8)] := by decide

theorem tName_short : [(0x74 : UInt8)].length < 32 := by decide

/-- `INSERT INTO t VALUES ('aa…a',2)` -/
def longText : InsertText where
  lead := Blanks.none
  word := ⟨insertWord, rfl⟩
  b₁ := oneBlank
  into := ⟨intoWord, rfl⟩
  b₂ := oneBlank
  name := ⟨⟨[0x74], tName_noNul, tName_short⟩, by decide, by decide +kernel⟩
  b₃ := oneBlank
  gap := oneBlank_ne_nil
  kw := ⟨valuesWord, rfl⟩
  b₄ := oneBlank
  items := [⟨Blanks.none, longLiteral, Blanks.none⟩,
    ⟨Blanks.none, .bare [0x32] (by decide) (by decide) (by decide +kernel), Blanks.none⟩]
  blanks := Blanks.none
  room := Nat.le_of_ble_eq_true rfl
  tail := []
  trailing := List.forall_mem_nil _
  short := by decide +kernel

/-- The 256th byte and the quote behind it become a value of their own. -/
theorem long_twoValues : ¬ ∀ (lib : CLib) (t : InsertText), t.OneValueEach lib := by
  intro hall
  have hthree : (parse CLib.wrapping longText.text).toOption.map (fun s => s.insertValues.length) =
      some 3 := by decide +kernel
  rcases hall CLib.wrapping longText with h | ⟨stmt, h, hvalues⟩
  · rw [h] at hthree
    exact nomatch hthree
  · rw [h] at hthree
    have hlen := congrArg List.length hvalues
    have hcount : stmt.insertValues.length = 3 := Option.some.inj hthree
    rw [List.length_map, hcount] at hlen
    exact absurd hlen (by decide)

end MiniDb
