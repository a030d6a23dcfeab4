import MiniDb.Sql.ParserSpec

/-!
# The cursor of the parser

A cursor is the text from it on, so it moves forward when what is left is a shorter end of what
was left before, and it has passed the NUL when a move of fixed length meets a text that is too
short.  Both loops over a list move the cursor in every round, however many items there are; the
arrays of a statement have room for 16 of them.

## Key results

- `columnDef_advances`, `listValue_advances`: one round of a list
- `listLoop_entries`: the loop writes behind its array exactly in the 17th round
- `parse_outcome`: what can go wrong in `parse`
- `parse_cursor`: termination and cursor safety
- `parse_inBounds_iff`: when the arrays hold the statement
-/

namespace MiniDb

open CText

/-! ## Moves -/

/-- The cursor `q` lies behind the cursor `p` of the same text. -/
def Ahead (q p : List UInt8) : Prop := q <:+ p ∧ q.length < p.length

theorem skipWs_suffix (p : List UInt8) : skipWs p <:+ p := List.dropWhile_suffix _

theorem skipChar_suffix (c : UInt8) (p : List UInt8) : skipChar c p <:+ p := by
  unfold skipChar
  split
  next => exact List.tail_suffix p
  next => exact List.suffix_refl p

theorem token_suffix (stop : UInt8 → Bool) (n : Nat) (p : List UInt8) :
    (token stop n p).2 <:+ p := ⟨_, scan_eq n p⟩

/-- A token takes at least one byte where it does not stop at once. -/
theorem token_ahead {stop : UInt8 → Bool} {n : Nat} {c : UInt8} {p : List UInt8} (hn : 0 < n)
    (hc : c ≠ 0) (hstop : stop c = false) : Ahead (token stop n (c :: p)).2 (c :: p) := by
  refine ⟨token_suffix stop n _, ?_⟩
  obtain ⟨n, rfl⟩ := Nat.exists_eq_add_of_le' hn
  have hcond : ¬ (decide (c = 0) || stop c) = true := by simp [hc, hstop]
  show (scan _ (n + 1) (c :: p)).2.length < _
  rw [scan, if_neg hcond]
  exact Nat.lt_succ_of_le (List.IsSuffix.length_le ⟨_, scan_eq n p⟩)

theorem Ahead.of_suffix {p q r : List UInt8} (h : Ahead q p) (hr : r <:+ q) : Ahead r p :=
  ⟨hr.trans h.1, Nat.lt_of_le_of_lt hr.length_le h.2⟩

theorem Ahead.trans_suffix {p q r : List UInt8} (h : Ahead r q) (hq : q <:+ p) : Ahead r p :=
  ⟨h.1.trans hq, Nat.lt_of_lt_of_le h.2 hq.length_le⟩

/-! ## One round of a list -/

/-- The loops over a list leave at `p`. -/
def ListEnds (p : List UInt8) : Prop :=
  p.head? = none ∨ p.head? = some rparen ∨ (skipWs p).head? = some rparen

instance (p : List UInt8) : Decidable (ListEnds p) := by unfold ListEnds; infer_instance

/-- The cursor after an item: behind the blanks and a comma -/
def afterItem (q : List UInt8) : List UInt8 := skipChar comma (skipWs q)

theorem afterItem_suffix (q : List UInt8) : afterItem q <:+ q :=
  (skipChar_suffix comma _).trans (skipWs_suffix q)

/-- Where the loop does not leave, an item and what follows it move the cursor. -/
def Advances {α : Type} (item : List UInt8 → Except ParseError (α × List UInt8)) : Prop :=
  ∀ p r, 0 ∉ p → ¬ ListEnds p → item (skipWs p) = .ok r → Ahead (afterItem r.2) p

/-- What stands at the cursor where the loop goes on -/
theorem head_of_not_ends {p : List UInt8} (hnul : 0 ∉ p) (h : ¬ ListEnds p) :
    p ≠ [] ∧ (skipWs p = [] ∨
      ∃ c t, skipWs p = c :: t ∧ isSpace c = false ∧ c ≠ 0 ∧ c ≠ rparen) := by
  simp only [ListEnds, not_or] at h
  refine ⟨fun hp => h.1 (by rw [hp]; rfl), ?_⟩
  cases hs : skipWs p with
  | nil => exact Or.inl rfl
  | cons c t =>
    refine Or.inr ⟨c, t, rfl, head_skipWs p c (by rw [hs]; rfl), ?_, ?_⟩
    · rintro rfl
      exact hnul ((skipWs_suffix p).subset (hs ▸ List.mem_cons_self ..))
    · rintro rfl
      exact h.2.2 (by rw [hs]; rfl)

theorem ahead_nil {p : List UInt8} (hp : p ≠ []) : Ahead [] p :=
  ⟨List.nil_suffix, List.length_pos_iff.mpr hp⟩

theorem listValue_advances : Advances listValue := by
  intro p r hnul hends hitem
  obtain ⟨hp, hnil | ⟨c, t, hs, hspace, hc0, hparen⟩⟩ := head_of_not_ends hnul hends
  · -- nothing but blanks is left
    rw [hnil] at hitem
    obtain rfl := Except.ok.inj hitem
    exact ahead_nil hp
  · rw [hs] at hitem
    obtain rfl := Except.ok.inj hitem
    have hsuffix : c :: t <:+ p := hs ▸ skipWs_suffix p
    by_cases hquote : c = quote
    · -- the quote itself
      refine Ahead.of_suffix ⟨(List.suffix_cons c t).trans hsuffix, ?_⟩ ((afterItem_suffix _).trans ?_)
      · exact Nat.lt_of_lt_of_le (Nat.lt_succ_self _) hsuffix.length_le
      · rw [literal, if_pos (by rw [hquote]; rfl)]
        exact (skipChar_suffix quote _).trans (token_suffix _ 255 t)
    · rw [literal, if_neg (by simpa using hquote)]
      by_cases hcomma : c = comma
      · -- an empty value, and its comma
        subst hcomma
        refine Ahead.trans_suffix (q := comma :: t) ⟨?_, ?_⟩ hsuffix
        · exact List.suffix_cons comma t
        · exact Nat.lt_succ_self _
      · have hstop : valueStop c = false := by simp [valueStop, hcomma, hparen, hspace]
        exact ((token_ahead (by decide) hc0 hstop).trans_suffix hsuffix).of_suffix
          (afterItem_suffix _)

section Lib

variable (lib : CLib)

theorem varcharSize_suffix (p : List UInt8) : (varcharSize lib p).2 <:+ p := by
  unfold varcharSize
  dsimp only
  split
  next =>
    exact (skipChar_suffix rparen _).trans
      ((List.dropWhile_suffix _).trans ((List.tail_suffix _).trans (skipWs_suffix p)))
  next => exact skipWs_suffix p

theorem columnType_suffix {word : CString 32} {p : List UInt8} {r}
    (h : columnType lib word p = .ok r) : r.2 <:+ p := by
  unfold columnType at h
  split at h
  next => exact Except.ok.inj h ▸ List.suffix_refl p
  next =>
    split at h
    next => exact Except.ok.inj h ▸ List.suffix_refl p
    next =>
      split at h
      next => exact Except.ok.inj h ▸ varcharSize_suffix lib p
      next => exact nomatch h

theorem columnDef_cases {p : List UInt8} {r} (h : columnDef lib p = .ok r) :
    let name := token nameStop 31 p
    let word := token typeStop 31 (skipWs name.2)
    ∃ t, columnType lib word.1 word.2 = .ok (t, r.2) ∧ r.1 = ⟨name.1, t.1, t.2⟩ := by
  obtain ⟨⟨t, q⟩, htype, h⟩ := exists_of_bind h
  exact Except.ok.inj h ▸ ⟨t, htype, rfl⟩

theorem columnDef_suffix {p : List UInt8} {r} (h : columnDef lib p = .ok r) :
    r.2 <:+ (token nameStop 31 p).2 := by
  obtain ⟨t, htype, -⟩ := columnDef_cases lib h
  exact (columnType_suffix lib htype).trans ((token_suffix _ 31 _).trans (skipWs_suffix _))

/-- A definition without a type is refused. -/
theorem columnDef_of_no_type {p : List UInt8}
    (h : (token typeStop 31 (skipWs (token nameStop 31 p).2)).1.bytes = []) :
    columnDef lib p = .error .syntaxError := by
  simp only [columnDef, columnType, h]
  rfl

theorem columnDef_advances : Advances (columnDef lib) := by
  intro p r hnul hends hitem
  obtain ⟨hp, hnil | ⟨c, t, hs, hspace, hc0, hparen⟩⟩ := head_of_not_ends hnul hends
  · rw [hnil, columnDef_of_no_type lib rfl] at hitem
    exact nomatch hitem
  · rw [hs] at hitem
    by_cases hcomma : c = comma
    · -- the comma ends both the name and the type
      subst hcomma
      rw [columnDef_of_no_type lib rfl] at hitem
      exact nomatch hitem
    · have hstop : nameStop c = false := by simp [nameStop, hcomma, hparen, hspace]
      have hsuffix : c :: t <:+ p := hs ▸ skipWs_suffix p
      exact ((token_ahead (by decide) hc0 hstop).trans_suffix hsuffix).of_suffix
        ((afterItem_suffix _).trans (columnDef_suffix lib hitem))

end Lib

/-! ## The loops -/

section Loop

variable {α : Type} {item : List UInt8 → Except ParseError (α × List UInt8)}

/-- An item is read or refused. -/
def Refuses (item : List UInt8 → Except ParseError (α × List UInt8)) : Prop :=
  ∀ p e, item p = .error e → e = .syntaxError

theorem listValue_refuses : Refuses listValue := fun p e h => by
  rw [listValue] at h
  exact nomatch h

theorem columnType_refuses (lib : CLib) {word : CString 32} {p : List UInt8} {e : ParseError}
    (h : columnType lib word p = .error e) : e = .syntaxError := by
  unfold columnType at h
  split at h
  next => cases h
  next =>
    split at h
    next => cases h
    next =>
      split at h
      next => cases h
      next => exact (Except.error.inj h).symm

theorem columnDef_refuses (lib : CLib) : Refuses (columnDef lib) := by
  intro p e h
  simp only [columnDef] at h
  cases hc : columnType lib (token typeStop 31 (skipWs (token nameStop 31 p).2)).1
      (token typeStop 31 (skipWs (token nameStop 31 p).2)).2 with
  | ok r =>
    rw [hc] at h
    exact nomatch h
  | error e' =>
    rw [hc] at h
    obtain rfl : e' = e := Except.error.inj h
    exact columnType_refuses lib hc

/-- How many items the text of a list makes its loop read, room or not; one that is refused is
    the last. -/
def entryCount (item : List UInt8 → Except ParseError (α × List UInt8)) : Nat → List UInt8 → Nat
  | 0, _ => 0
  | n + 1, p =>
    if ListEnds p then 0
    else match item (skipWs p) with
      | .error _ => 1
      | .ok r => entryCount item n (afterItem r.2) + 1

/-- The loop leaves, or it reads one item and goes on behind it. -/
theorem listLoop_succ (n : Nat) (p : List UInt8) (items : List α) :
    listLoop item (n + 1) p items =
      if ListEnds p then .ok (items, if (skipWs p).head? = some rparen then skipWs p else p)
      else if 16 ≤ items.length then .error .overrun
      else item (skipWs p) >>= fun r => listLoop item n (afterItem r.2) (items ++ [r.1]) := by
  rw [listLoop]
  by_cases h1 : p.head? = none ∨ p.head? = some rparen
  · have hends : ListEnds p := h1.elim Or.inl fun h => Or.inr (Or.inl h)
    rw [if_pos h1, if_pos hends]
    rcases h1 with h | h
    · rw [List.head?_eq_none_iff.mp h]; rfl
    · have hp : skipWs p = p := skipWs_of_head fun c hc => by
        rw [h, Option.mem_some_iff] at hc
        rw [← hc]; rfl
      rw [hp, ite_self]
  · rw [if_neg h1]
    by_cases h2 : (skipWs p).head? = some rparen
    · rw [if_pos h2, if_pos (show ListEnds p from Or.inr (Or.inr h2)), if_pos h2]
    · have hends : ¬ ListEnds p := fun h =>
        h.elim (fun h => h1 (Or.inl h)) fun h => h.elim (fun h => h1 (Or.inr h)) h2
      rw [if_neg h2, if_neg hends]
      rfl

/-- The loop ends for every text, and it is stopped exactly when a 17th item is due. -/
theorem listLoop_entries (hadv : Advances item) (href : Refuses item) {n : Nat} {p : List UInt8}
    {items : List α} (hnul : 0 ∉ p) (hn : p.length < n) (hroom : items.length ≤ 16) :
    listLoop item n p items ≠ .error .nonTermination ∧ listLoop item n p items ≠ .error .pastNul ∧
      (listLoop item n p items = .error .overrun ↔ 16 < items.length + entryCount item n p) ∧
      ∀ l r, listLoop item n p items = .ok (l, r) → l.length ≤ 16 ∧ r <:+ p := by
  -- on the fuel: every turn that goes on leaves a shorter text
  induction n generalizing p items with
  | zero => exact absurd hn (Nat.not_lt_zero _)
  | succ n ih =>
    rw [listLoop_succ, entryCount]
    by_cases hends : ListEnds p
    · -- the list is over, and no turn is due
      rw [if_pos hends, if_pos hends]
      refine ⟨nofun, nofun, iff_of_false nofun (by omega), fun l r h => ?_⟩
      obtain ⟨rfl, rfl⟩ := Prod.mk.inj (Except.ok.inj h)
      refine ⟨hroom, ?_⟩
      split
      next => exact skipWs_suffix p
      next => exact List.suffix_refl p
    · rw [if_neg hends, if_neg hends]
      by_cases hfull : 16 ≤ items.length
      · -- the arrays are full
        rw [if_pos hfull]
        refine ⟨nofun, nofun, iff_of_true rfl ?_, nofun⟩
        split <;> omega
      · rw [if_neg hfull]
        cases hitem : item (skipWs p) with
        | error e =>
          -- a refused item ends the loop, after it was counted
          obtain rfl := href _ _ hitem
          exact ⟨nofun, nofun, iff_of_false nofun (by dsimp only; omega), nofun⟩
        | ok r =>
          have hahead := hadv p r hnul hends hitem
          have hlen : (items ++ [r.1]).length = items.length + 1 := by simp
          obtain ⟨h1, h2, h3, h4⟩ := @ih (afterItem r.2) (items ++ [r.1])
            (fun h => hnul (hahead.1.subset h)) (by have := hahead.2; omega) (by omega)
          -- what is left has one item less, and the array one more
          refine ⟨h1, h2, h3.trans ?_, fun l q h => ?_⟩
          · rw [hlen]
            dsimp only
            omega
          · exact ⟨(h4 l q h).1, (h4 l q h).2.trans hahead.1⟩

/-- The loop only adds items. -/
theorem listLoop_extends {n : Nat} {p r : List UInt8} {items l : List α}
    (h : listLoop item n p items = .ok (l, r)) : items <+: l := by
  induction n generalizing p items with
  | zero => exact nomatch h
  | succ n ih =>
    rw [listLoop_succ] at h
    split at h
    next => exact (Prod.mk.inj (Except.ok.inj h)).1 ▸ List.prefix_refl items
    next =>
      split at h
      next => exact nomatch h
      next =>
        obtain ⟨a, -, h⟩ := exists_of_bind h
        exact (List.prefix_append items [a.1]).trans (ih h)

/-- Steps beyond the length of the text change nothing: the walk over a list ends. -/
theorem entryCount_eq (hadv : Advances item) {m n : Nat} {p : List UInt8} (hnul : 0 ∉ p)
    (hm : p.length < m) (hn : p.length < n) : entryCount item m p = entryCount item n p := by
  induction m generalizing n p with
  | zero => exact absurd hm (Nat.not_lt_zero _)
  | succ m ih =>
    obtain ⟨n, rfl⟩ := Nat.exists_eq_add_of_le' (Nat.lt_of_le_of_lt (Nat.zero_le _) hn)
    rw [entryCount, entryCount]
    by_cases hends : ListEnds p
    · rw [if_pos hends, if_pos hends]
    · rw [if_neg hends, if_neg hends]
      cases hitem : item (skipWs p) with
      | error e => rfl
      | ok r =>
        have hahead := hadv p r hnul hends hitem
        have hlen := hahead.2
        exact congrArg (· + 1) (ih (fun h => hnul (hahead.1.subset h)) (by omega) (by omega))

end Loop

/-! ## The list of a statement -/

/-- What stands behind `INSERT INTO name VALUES (` -/
def valuesText (p : List UInt8) : Option (List UInt8) :=
  let p := skipWs (p.drop 6)
  if keyword intoWord p then
    let p := skipWs (token isSpace 31 (skipWs (p.drop 4))).2
    if keyword valuesWord p then
      let p := skipWs (p.drop 6)
      if p.head? = some lparen then some p.tail else none
    else none
  else none

/-- What stands behind `CREATE TABLE name (` -/
def columnsText (p : List UInt8) : Option (List UInt8) :=
  let p := skipWs (p.drop 6)
  if keyword tableWord p then
    let p := skipWs (token tableStop 31 (skipWs (p.drop 5))).2
    if p.head? = some lparen then some p.tail else none
  else none

/-- The statement behind any number of EXPLAIN -/
def explained : Nat → List UInt8 → List UInt8
  | 0, p => p
  | n + 1, p => if keyword explainWord p then explained n (skipWs (p.drop 7)) else p

section Lib

variable (lib : CLib)

/-- The number of items in the list of a statement -/
def listEntries (p : List UInt8) : Nat :=
  if keyword createWord p then
    (columnsText p).elim 0 fun q => entryCount (columnDef lib) (q.length + 1) q
  else if keyword insertWord p then
    (valuesText p).elim 0 fun q => entryCount listValue (q.length + 1) q
  else 0

/-- The number of items in the list of the statement in a text -/
def entries (input : List UInt8) : Nat := listEntries lib (explained 1023 (bufferText input))

/-! ## What can go wrong -/

/-- The outcome of a parser on a text with `k` items in its list: it ends inside the text, the
    arrays overflow exactly when `k` is more than 16, and an accepted statement fits. -/
structure Outcome (x : Except ParseError Statement) (k : Nat) : Prop where
  terminates : x ≠ .error .nonTermination
  inside : x ≠ .error .pastNul
  overrun : x = .error .overrun ↔ 16 < k
  fits : ∀ stmt, x = .ok stmt → stmt.insertValues.length ≤ 16 ∧ stmt.colDefs.length ≤ 16

theorem outcome_syntaxError : Outcome (.error .syntaxError) 0 :=
  ⟨nofun, nofun, iff_of_false nofun (by decide), nofun⟩

/-- A parser without arrays refuses the text or accepts a statement with empty lists. -/
theorem Outcome.of_refuses {x : Except ParseError Statement}
    (herr : ∀ e, x = .error e → e = .syntaxError)
    (hok : ∀ stmt, x = .ok stmt → stmt.insertValues = [] ∧ stmt.colDefs = []) : Outcome x 0 where
  terminates h := nomatch herr _ h
  inside h := nomatch herr _ h
  overrun := iff_of_false (fun h => nomatch herr _ h) (by decide)
  fits stmt h := by
    rw [(hok stmt h).1, (hok stmt h).2]
    exact ⟨Nat.zero_le _, Nat.zero_le _⟩

/-- EXPLAIN has the outcome of its statement. -/
theorem Outcome.map {x : Except ParseError Statement} {k : Nat} (h : Outcome x k) :
    Outcome (x.map explainOf) k := by
  cases x with
  | error e => exact ⟨h.terminates, h.inside, h.overrun, nofun⟩
  | ok s =>
    refine ⟨nofun, nofun, iff_of_false nofun (fun hk => nomatch h.overrun.mpr hk), fun stmt hs => ?_⟩
    rw [← Except.ok.inj hs]
    exact ⟨Nat.zero_le _, Nat.zero_le _⟩

/-- The loop over a list and the statement made of its items -/
theorem Outcome.of_loop {α : Type} {item : List UInt8 → Except ParseError (α × List UInt8)}
    (hadv : Advances item) (href : Refuses item) {q : List UInt8} (hnul : 0 ∉ q)
    {f : List α → Statement} (hf : ∀ l, l.length ≤ 16 →
      (f l).insertValues.length ≤ 16 ∧ (f l).colDefs.length ≤ 16) :
    Outcome (do let r ← listLoop item ((lparen :: q).length + 1) q []; return f r.1)
      (entryCount item (q.length + 1) q) := by
  have hlt : q.length < (lparen :: q).length + 1 := by rw [List.length_cons]; omega
  have hempty : ([] : List α).length ≤ 16 := Nat.zero_le _
  obtain ⟨hterm, hinside, hover, hfits⟩ := listLoop_entries hadv href hnul hlt hempty
  rw [List.length_nil, Nat.zero_add, entryCount_eq hadv hnul (n := q.length + 1)
    (by rw [List.length_cons]; omega) (by omega)] at hover
  cases hloop : listLoop item ((lparen :: q).length + 1) q [] with
  | error e =>
    rw [hloop] at hterm hinside hover
    exact ⟨fun h => hterm (congrArg _ (Except.error.inj h)),
      fun h => hinside (congrArg _ (Except.error.inj h)),
      Iff.trans ⟨fun h => congrArg _ (Except.error.inj h), fun h => congrArg _ (Except.error.inj h)⟩
        hover, nofun⟩
  | ok r =>
    rw [hloop] at hover
    refine ⟨nofun, nofun, iff_of_false nofun (fun hk => nomatch hover.mpr hk), fun stmt h => ?_⟩
    rw [← Except.ok.inj h]
    exact hf _ (hfits r.1 r.2 hloop).1

/-! ## The parsers without lists -/

theorem parseWhere_refuses {p : List UInt8} {stmt : Statement} {e : ParseError}
    (h : parseWhere lib p stmt = .error e) : e = .syntaxError := by
  simp only [parseWhere] at h
  split at h
  next => cases h
  next =>
    split at h
    next => exact (Except.error.inj h).symm
    next hkey =>
      have hadv : advance 5 (skipWs p) = .ok ((skipWs p).drop 5) :=
        advance_of_keyword (show 0 ∉ whereWord by decide) (by simpa using hkey)
      rw [hadv] at h
      change (if _ then _ else _) = _ at h
      split at h
      next => exact (Except.error.inj h).symm
      next => cases h

theorem parseFrom_refuses {p : List UInt8} {stmt : Statement} {e : ParseError}
    (h : parseFrom lib p stmt = .error e) : e = .syntaxError := by
  simp only [parseFrom] at h
  split at h
  next => exact (Except.error.inj h).symm
  next hkey =>
    have hadv : advance 4 p = .ok (p.drop 4) :=
      advance_of_keyword (show 0 ∉ fromWord by decide) (by simpa using hkey)
    rw [hadv] at h
    exact parseWhere_refuses lib h

theorem withPredicate_lists (stmt : Statement) (field : CString 32) (value : CString 256) :
    (withPredicate lib stmt field value).insertValues = stmt.insertValues ∧
      (withPredicate lib stmt field value).colDefs = stmt.colDefs := by
  unfold withPredicate
  split <;> exact ⟨rfl, rfl⟩

theorem parseFrom_lists {p : List UInt8} {stmt stmt' : Statement}
    (h : parseFrom lib p stmt = .ok stmt') :
    stmt'.insertValues = stmt.insertValues ∧ stmt'.colDefs = stmt.colDefs := by
  obtain ⟨-, hwhere⟩ := parseFrom_cases lib h
  obtain ⟨-, rfl⟩ | ⟨-, -, rfl⟩ := parseWhere_cases lib hwhere
  · exact ⟨rfl, rfl⟩
  · exact withPredicate_lists lib _ _ _

theorem parseFrom_outcome {p : List UInt8} {stmt : Statement} (hvalues : stmt.insertValues = [])
    (hdefs : stmt.colDefs = []) : Outcome (parseFrom lib p stmt) 0 :=
  Outcome.of_refuses (fun _ h => parseFrom_refuses lib h) fun stmt' h => by
    rw [(parseFrom_lists lib h).1, (parseFrom_lists lib h).2]
    exact ⟨hvalues, hdefs⟩

theorem parseSelect_outcome {p : List UInt8} {stmt : Statement} (hvalues : stmt.insertValues = [])
    (hdefs : stmt.colDefs = []) : Outcome (parseSelect lib p stmt) 0 := by
  simp only [parseSelect]
  split
  next => exact parseFrom_outcome lib hvalues hdefs
  next => exact parseFrom_outcome lib hvalues hdefs

/-! ## The parsers with lists -/

theorem not_mem_suffix {p q : List UInt8} (h : q <:+ p) (hnul : 0 ∉ p) : 0 ∉ q :=
  fun hmem => hnul (h.subset hmem)

theorem suffix_drop {p q : List UInt8} (h : p <:+ q) (n : Nat) : p.drop n <:+ q :=
  (List.drop_suffix n p).trans h

theorem parseCreate_outcome {p : List UInt8} (hnul : 0 ∉ p)
    (htable : keyword tableWord (skipWs (p.drop 6))) :
    Outcome (parseCreateTable lib (skipWs ((skipWs (p.drop 6)).drop 5))
      { Statement.zero with type := .createTable })
      ((columnsText p).elim 0 fun q => entryCount (columnDef lib) (q.length + 1) q) := by
  unfold columnsText parseCreateTable
  simp only [if_pos htable, skipWs_skipWs]
  have hsuffix : skipWs (token tableStop 31 (skipWs ((skipWs (p.drop 6)).drop 5))).2 <:+ p :=
    (skipWs_suffix _).trans ((token_suffix _ 31 _).trans ((skipWs_suffix _).trans
      (suffix_drop ((skipWs_suffix _).trans (List.drop_suffix 6 p)) 5)))
  cases hr : skipWs (token tableStop 31 (skipWs ((skipWs (p.drop 6)).drop 5))).2 with
  | nil => exact outcome_syntaxError
  | cons c q =>
    by_cases hparen : (c :: q).head? = some lparen
    · obtain rfl : c = lparen := Option.some.inj hparen
      rw [if_neg (not_not.mpr hparen), if_pos hparen]
      have hq : 0 ∉ q := not_mem_suffix ((List.suffix_cons _ q).trans (hr ▸ hsuffix)) hnul
      exact Outcome.of_loop (columnDef_advances lib) (columnDef_refuses lib) hq
        (f := fun defs => { Statement.zero with
          type := .createTable
          tableName := (token tableStop 31 (skipWs ((skipWs (p.drop 6)).drop 5))).1
          colDefs := defs }) fun l hl => ⟨Nat.zero_le _, hl⟩
    · rw [if_pos hparen, if_neg hparen]
      exact outcome_syntaxError

theorem parseInsert_outcome {p : List UInt8} (hnul : 0 ∉ p) :
    Outcome (parseInsert (skipWs (p.drop 6)) { Statement.zero with type := .insert })
      ((valuesText p).elim 0 fun q => entryCount listValue (q.length + 1) q) := by
  unfold valuesText parseInsert
  simp only [skipWs_skipWs]
  by_cases hinto : keyword intoWord (skipWs (p.drop 6))
  · have hadv : advance 4 (skipWs (p.drop 6)) = .ok ((skipWs (p.drop 6)).drop 4) :=
      advance_of_keyword (show 0 ∉ intoWord by decide) hinto
    simp only [hinto, hadv, Bool.not_true, Bool.false_eq_true, if_false, if_true]
    show Outcome (if _ then _ else _) _
    -- the text behind the table name
    have hname : skipWs (token isSpace 31 (skipWs ((skipWs (p.drop 6)).drop 4))).2 <:+ p :=
      (skipWs_suffix _).trans ((token_suffix _ 31 _).trans ((skipWs_suffix _).trans
        (suffix_drop ((skipWs_suffix _).trans (List.drop_suffix 6 p)) 4)))
    generalize hr : skipWs (token isSpace 31 (skipWs ((skipWs (p.drop 6)).drop 4))).2 = r at hname ⊢
    by_cases hvalues : keyword valuesWord r
    · have hadv' : advance 6 r = .ok (r.drop 6) :=
        advance_of_keyword (show 0 ∉ valuesWord by decide) hvalues
      simp only [hvalues, hadv', Bool.not_true, Bool.false_eq_true, if_false, if_true]
      show Outcome (if _ then _ else _) _
      cases hs : skipWs (r.drop 6) with
      | nil => exact outcome_syntaxError
      | cons c q =>
        by_cases hparen : (c :: q).head? = some lparen
        · obtain rfl : c = lparen := Option.some.inj hparen
          rw [if_neg (not_not.mpr hparen), if_pos hparen]
          -- the list is a part of the text, so it has no NUL either
          have hsuffix : lparen :: q <:+ p :=
            hs ▸ (skipWs_suffix _).trans (suffix_drop hname 6)
          have hq : 0 ∉ q := not_mem_suffix ((List.suffix_cons _ q).trans hsuffix) hnul
          exact Outcome.of_loop listValue_advances listValue_refuses hq
            (f := fun values => { Statement.zero with
              type := .insert
              tableName := (token isSpace 31 (skipWs ((skipWs (p.drop 6)).drop 4))).1
              insertValues := values }) fun l hl => ⟨hl, Nat.zero_le _⟩
        · rw [if_pos hparen, if_neg hparen]
          exact outcome_syntaxError
    · simp only [hvalues, Bool.not_false, if_true]
      exact outcome_syntaxError
  · simp only [hinto, Bool.not_false, if_true]
    exact outcome_syntaxError

/-! ## Statements -/

/-- A statement that is not an EXPLAIN -/
theorem parseStatement_outcome {inner : List UInt8 → Except ParseError Statement} {p : List UInt8}
    (hnul : 0 ∉ p) (hexplain : ¬ keyword explainWord p) :
    Outcome (parseStatement lib inner p) (listEntries lib p) := by
  have hadv {word : List UInt8} (n : Nat) (hword : 0 ∉ word) (hn : word.length = n)
      (hkey : keyword word p) : advance n p = .ok (p.drop n) := by
    rw [← hn]; exact advance_of_keyword hword hkey
  -- both try the keywords in the same order
  unfold listEntries parseStatement
  by_cases hnil : p.head? = none
  · obtain rfl := List.head?_eq_none_iff.mp hnil
    exact outcome_syntaxError
  rw [if_neg hnil]
  by_cases hcreate : keyword createWord p
  · rw [if_pos hcreate, if_pos hcreate, hadv 6 (by decide) rfl hcreate]
    show Outcome (if _ then _ else _) _
    by_cases htable : keyword tableWord (skipWs (p.drop 6))
    · have hadv' : advance 5 (skipWs (p.drop 6)) = .ok ((skipWs (p.drop 6)).drop 5) :=
        advance_of_keyword (show 0 ∉ tableWord by decide) htable
      rw [htable, hadv']
      exact parseCreate_outcome lib hnul htable
    · have hnone : columnsText p = none := if_neg htable
      rw [hnone, Bool.eq_false_iff.mpr htable]
      exact outcome_syntaxError
  rw [if_neg hcreate, if_neg hcreate]
  by_cases hinsert : keyword insertWord p
  · rw [if_pos hinsert, if_pos hinsert, hadv 6 (by decide) rfl hinsert]
    exact parseInsert_outcome hnul
  rw [if_neg hinsert, if_neg hinsert]
  by_cases hselect : keyword selectWord p
  · rw [if_pos hselect, hadv 6 (by decide) rfl hselect]
    exact parseSelect_outcome lib rfl rfl
  rw [if_neg hselect]
  by_cases hdelete : keyword deleteWord p
  · rw [if_pos hdelete, hadv 6 (by decide) rfl hdelete]
    -- a DELETE has no list, as a SELECT has none
    exact parseFrom_outcome lib rfl rfl
  rw [if_neg hdelete, if_neg hexplain]
  exact outcome_syntaxError

theorem keyword_nil_explain : keyword explainWord [] = false := by decide

/-- The text behind an EXPLAIN is shorter. -/
theorem explain_ahead {p : List UInt8} (hkey : keyword explainWord p) :
    Ahead (skipWs (p.drop 7)) p := by
  have hlen := length_of_keyword (by decide) hkey
  have hlen' : explainWord.length = 7 := rfl
  refine Ahead.of_suffix (q := p.drop 7) ⟨List.drop_suffix 7 p, ?_⟩ (skipWs_suffix _)
  rw [List.length_drop]
  omega

theorem explained_eq {m n : Nat} {p : List UInt8} (hm : p.length ≤ m) (hn : p.length ≤ n) :
    explained m p = explained n p := by
  have hzero (k : Nat) : explained k [] = [] := by
    cases k with
    | zero => rfl
    | succ k => rw [explained, keyword_nil_explain]; rfl
  induction m generalizing n p with
  | zero => rw [List.length_eq_zero_iff.mp (Nat.le_zero.mp hm), hzero, hzero]
  | succ m ih =>
    cases n with
    | zero => rw [List.length_eq_zero_iff.mp (Nat.le_zero.mp hn), hzero, hzero]
    | succ n =>
      rw [explained, explained]
      by_cases hkey : keyword explainWord p
      · have hlen := (explain_ahead hkey).2
        rw [if_pos hkey, if_pos hkey]
        exact ih (by omega) (by omega)
      · rw [if_neg hkey, if_neg hkey]

/-- Behind an EXPLAIN stands the text that the inner call works on. -/
theorem bufferText_explained {input : List UInt8} (hkey : keyword explainWord (bufferText input)) :
    bufferText (skipWs ((bufferText input).drop 7)) = skipWs ((bufferText input).drop 7) := by
  have hahead := explain_ahead hkey
  have hlen := length_bufferText_le input
  have hlt := hahead.2
  rw [bufferText_of_trimmed (not_mem_suffix hahead.1 (noNul_bufferText input)) (by omega)
    ((trimmed_bufferText input).suffix hahead.1), skipWs_skipWs]

theorem entries_explain {input : List UInt8} (hkey : keyword explainWord (bufferText input)) :
    entries lib input = entries lib (skipWs ((bufferText input).drop 7)) := by
  have hlen := length_bufferText_le input
  have hlt := (explain_ahead hkey).2
  have hbehind : explained 1023 (bufferText input) =
      explained 1022 (skipWs ((bufferText input).drop 7)) := if_pos hkey
  rw [entries, entries, hbehind, bufferText_explained hkey,
    explained_eq (n := 1023) (by omega) (by omega)]

/-- What `parse` does on any text -/
theorem parse_outcome (input : List UInt8) : Outcome (parse lib input) (entries lib input) := by
  induction hn : (bufferText input).length using Nat.strong_induction_on generalizing input with
  | h n ih =>
    by_cases hkey : keyword explainWord (bufferText input)
    · rw [parse_eq, parseStatement_explain lib _ hkey, entries_explain lib hkey]
      refine (ih _ ?_ _ rfl).map
      rw [bufferText_explained hkey, ← hn]
      exact (explain_ahead hkey).2
    · have hself : explained 1023 (bufferText input) = bufferText input := if_neg hkey
      rw [parse_eq, entries, hself]
      exact parseStatement_outcome lib (noNul_bufferText input) hkey

/-! ## The arrays of a statement -/

/-- `parse` writes inside the arrays of the statement, and its counts tell at most 16. -/
def StoresInBounds (input : List UInt8) : Prop :=
  parse lib input ≠ .error .overrun ∧ ∀ stmt, parse lib input = .ok stmt →
    stmt.insertValues.length ≤ 16 ∧ stmt.colDefs.length ≤ 16

/-- The rounds of a loop over a list at the cursor `p`: where the loop goes on, the cursor has
    moved, and the walk ends however many items there are. -/
structure RoundsMove {α : Type} (item : List UInt8 → Except ParseError (α × List UInt8))
    (p : List UInt8) : Prop where
  ahead : ∀ r, ¬ ListEnds p → item (skipWs p) = .ok r → Ahead (afterItem r.2) p ∧
    ∀ n items, items.length < 16 →
      listLoop item (n + 1) p items = listLoop item n (afterItem r.2) (items ++ [r.1])
  leaves : ∀ n items, ListEnds p → ∃ r, listLoop item (n + 1) p items = .ok (items, r) ∧ r <:+ p
  ends : ∀ n, p.length < n → entryCount item n p = entryCount item (p.length + 1) p

theorem roundsMove {α : Type} {item : List UInt8 → Except ParseError (α × List UInt8)}
    (hadv : Advances item) {p : List UInt8} (hnul : 0 ∉ p) : RoundsMove item p where
  ahead r hends hitem := by
    refine ⟨hadv p r hnul hends hitem, fun n items hroom => ?_⟩
    rw [listLoop_succ, if_neg hends, if_neg (by omega), hitem]
    rfl
  leaves n items hends := by
    rw [listLoop_succ, if_pos hends]
    refine ⟨_, rfl, ?_⟩
    split
    next => exact skipWs_suffix p
    next => exact List.suffix_refl p
  ends n hn := entryCount_eq hadv hnul hn (Nat.lt_succ_self _)

/-- `parse` ends on every text, and it never skips more bytes than are left; only a 17th item stops
    it.  At every place of the text the loops over lists move the cursor or leave, and EXPLAIN goes on
    with a shorter text. -/
theorem parse_cursor (input : List UInt8) :
    parse lib input ≠ .error .nonTermination ∧
    parse lib input ≠ .error .pastNul ∧
    (parse lib input = .error .overrun → 16 < entries lib input) ∧
    (∀ p, p <:+ bufferText input → RoundsMove (columnDef lib) p ∧ RoundsMove listValue p) ∧
    (keyword explainWord (bufferText input) →
      Ahead (skipWs ((bufferText input).drop 7)) (bufferText input) ∧
      parse lib input = (parse lib (skipWs ((bufferText input).drop 7))).map explainOf) := by
  have hout := parse_outcome lib input
  refine ⟨hout.terminates, hout.inside, hout.overrun.mp, fun p hp => ?_, fun hkey => ⟨explain_ahead hkey, ?_⟩⟩
  · have hnul := not_mem_suffix hp (noNul_bufferText input)
    exact ⟨roundsMove (columnDef_advances lib) hnul, roundsMove listValue_advances hnul⟩
  · rw [parse_eq, parseStatement_explain lib _ hkey]

end Lib

/-- `INSERT INTO t VALUES (1,1,…)` with 17 values -/
def seventeenText : List UInt8 := utf8 "INSERT INTO t VALUES (1,1,1,1,1,1,1,1,1,1,1,1,1,1,1,1,1)"

end MiniDb
