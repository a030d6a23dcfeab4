import MiniDb.Bptree.Node

/-!
# What the in-page functions do

One lemma for each function of `Node.lean`, in terms of the entry list of the page:
searching splits a list, inserting puts an entry at the split, deleting drops one.
Every function keeps the bytes before the entry array and the length of the page
(`SameHead`), which is what the header lemmas need.

## Key results

- `searchLoop_eq`: binary search returns the length of the prefix it looks for
- `leafInsertEntry_spec`, `internalInsertEntry_spec`: insertion into `lo ++ hi`
- `deleteEntryFromLeaf_spec`, `deleteEntryFromInternal_spec`: removal from
  `lo ++ e :: hi`
-/

namespace MiniDb

open Bytes

/-! ## Capacities -/

/-- A leaf and an internal page each hold at least two entries. -/
structure HoldsTwo (pageSize : UInt32) : Prop where
  leaf : leafBase + 2 * leafEntryC.size ≤ pageSize.toNat
  internal : internalBase + 2 * internalEntryC.size ≤ pageSize.toNat

/-- Two entries are more than any page header. -/
theorem HoldsTwo.le_pageSize {pageSize : UInt32} (h : HoldsTwo pageSize) :
    48 ≤ pageSize.toNat := h.leaf

section Capacity

variable {pageSize : UInt32}

/-- `(page_size - base) / size` in `size_t`, cut to 32 bits -/
private theorem toNat_capacity {base size : UInt64} (hb : base.toNat ≤ pageSize.toNat) :
    (((pageSize.toUInt64 - base) / size).toUInt32).toNat =
      (pageSize.toNat - base.toNat) / size.toNat := by
  have hle : base ≤ pageSize.toUInt64 := by
    rw [UInt64.le_iff_toNat_le, UInt32.toNat_toUInt64]; exact hb
  have hlt := pageSize.toNat_lt
  have hdiv : (pageSize.toNat - base.toNat) / size.toNat ≤ pageSize.toNat - base.toNat :=
    Nat.div_le_self _ _
  rw [UInt64.toNat_toUInt32, UInt64.toNat_div, UInt64.toNat_sub_of_le _ _ hle,
    UInt32.toNat_toUInt64]
  exact Nat.mod_eq_of_lt (by omega)

theorem toNat_maxLeafKeys (h : HoldsTwo pageSize) :
    (maxLeafKeys pageSize).toNat = (pageSize.toNat - 20) / 14 :=
  toNat_capacity (by
    have := h.leaf
    simp only [leafBase, leafEntryC_size] at this
    show 20 ≤ _
    omega)

theorem toNat_maxInternalKeys (h : HoldsTwo pageSize) :
    (maxInternalKeys pageSize).toNat = (pageSize.toNat - 16) / 12 :=
  toNat_capacity (by
    have := h.internal
    simp only [internalBase, internalEntryC_size] at this
    show 16 ≤ _
    omega)

theorem toNat_minLeafKeys : (minLeafKeys pageSize).toNat = (maxLeafKeys pageSize).toNat / 2 :=
  UInt32.toNat_div _ _

/-- A leaf page has room for `n` entries exactly up to `max_leaf_keys`. -/
theorem leaf_fits_iff (h : HoldsTwo pageSize) {n : Nat} :
    leafBase + n * leafEntryC.size ≤ pageSize.toNat ↔ n ≤ (maxLeafKeys pageSize).toNat := by
  have := h.leaf
  rw [toNat_maxLeafKeys h, Nat.le_div_iff_mul_le (by decide)]
  simp only [leafBase, leafEntryC_size] at *
  omega

/-- An internal page has room for `n` entries exactly up to `max_internal_keys`. -/
theorem internal_fits_iff (h : HoldsTwo pageSize) {n : Nat} :
    internalBase + n * internalEntryC.size ≤ pageSize.toNat ↔
      n ≤ (maxInternalKeys pageSize).toNat := by
  have := h.internal
  rw [toNat_maxInternalKeys h, Nat.le_div_iff_mul_le (by decide)]
  simp only [internalBase, internalEntryC_size] at *
  omega

theorem two_le_maxLeafKeys (h : HoldsTwo pageSize) : 2 ≤ (maxLeafKeys pageSize).toNat :=
  (leaf_fits_iff h).mp h.leaf

theorem two_le_maxInternalKeys (h : HoldsTwo pageSize) : 2 ≤ (maxInternalKeys pageSize).toNat :=
  (internal_fits_iff h).mp h.internal

theorem one_le_minLeafKeys (h : HoldsTwo pageSize) : 1 ≤ (minLeafKeys pageSize).toNat := by
  have := two_le_maxLeafKeys h
  rw [toNat_minLeafKeys]
  omega

end Capacity

/-! ## Pages that agree up to an offset -/

/-- Same length, same first `b` bytes -/
structure SameHead (b : Nat) (pg pg' : Page) : Prop where
  length : pg'.length = pg.length
  take : pg'.take b = pg.take b

namespace SameHead

theorem refl (b : Nat) (pg : Page) : SameHead b pg pg := ⟨rfl, rfl⟩

theorem trans {b : Nat} {pg pg' pg'' : Page} (h : SameHead b pg pg') (h' : SameHead b pg' pg'') :
    SameHead b pg pg'' := ⟨h'.length.trans h.length, h'.take.trans h.take⟩

/-- A slice inside the common head is the same. -/
theorem slice_eq {b : Nat} {pg pg' : Page} (h : SameHead b pg pg') {off n : Nat}
    (hoff : off + n ≤ b) : slice pg' off n = slice pg off n := by
  have key : ∀ l : Page, slice l off n = slice (l.take b) off n := by
    intro l
    apply List.ext_getElem?
    intro i
    rw [getElem?_slice, getElem?_slice, List.getElem?_take]
    by_cases hi : i < n
    · rw [if_pos hi, if_pos hi, if_pos (by omega)]
    · rw [if_neg hi, if_neg hi]
  rw [key pg', key pg, h.take]

theorem get_eq {α : Type} {b : Nat} {pg pg' : Page} (h : SameHead b pg pg') (c : Codec α)
    {off : Nat} (hoff : off + c.size ≤ b) : c.get pg' off = c.get pg off := by
  simp only [Codec.get, h.slice_eq hoff]

end SameHead

theorem sameHead_put {α : Type} (c : Codec α) (pg : Page) (b off : Nat) (a : α) (hb : b ≤ off)
    (h : off + c.size ≤ pg.length) : SameHead b pg (c.put pg off a) := by
  refine ⟨c.length_put pg off a h, ?_⟩
  simp only [Codec.put, splice, List.append_assoc]
  rw [List.take_append_of_le_length (by rw [List.length_take]; omega), List.take_take,
    Nat.min_eq_left hb]

/-! ## Entry arrays -/

section Entries

variable {α : Type} (c : Codec α) (base : Nat)

theorem readEntries_eq {pg : Page} {n : Nat} (h : base + n * c.size ≤ pg.length) :
    readEntries c base pg n = some (c.listAt base pg n) := if_pos h

theorem putAt?_eq {pg : Page} {i n : Nat} (a : α) (hi : i < n)
    (h : base + n * c.size ≤ pg.length) :
    c.putAt? base pg i a = some (c.putAt base pg i a) :=
  c.put?_eq_some pg _ a (c.record_bound hi h)

theorem getAt?_eq {pg : Page} {i n : Nat} (hi : i < n) (h : base + n * c.size ≤ pg.length) :
    c.getAt? base pg i = some (c.getAt base pg i) :=
  c.get?_eq_some pg _ (c.record_bound hi h)

theorem sameHead_putAt {pg : Page} {i n : Nat} (a : α) (hi : i < n)
    (h : base + n * c.size ≤ pg.length) : SameHead base pg (c.putAt base pg i a) :=
  sameHead_put c pg base _ a (by omega) (c.record_bound hi h)

/-- Writing `l` from index `i` on changes exactly those records. -/
theorem writeEntries_spec (l : List α) {pg : Page} {i : Nat} (n : Nat) (hi : i + l.length ≤ n)
    (h : base + n * c.size ≤ pg.length) :
    ∃ pg', writeEntries c base pg i l = some pg' ∧ SameHead base pg pg' ∧
      ∀ j, c.getAt base pg' j =
        if i ≤ j then (l[j - i]?).getD (c.getAt base pg j) else c.getAt base pg j := by
  induction l generalizing pg i with
  | nil => exact ⟨pg, rfl, SameHead.refl _ _, fun j => by simp⟩
  | cons a l ih =>
    simp only [List.length_cons] at hi
    have hin : i < n := by omega
    have hhead := sameHead_putAt c base a hin h
    have h' : base + n * c.size ≤ (c.putAt base pg i a).length := by
      rw [hhead.length]; exact h
    obtain ⟨pg', hpg', hsame, hget⟩ := ih (i := i + 1) (by omega) h'
    refine ⟨pg', ?_, hhead.trans hsame, fun j => ?_⟩
    · simp only [writeEntries, putAt?_eq c base a hin h, Option.bind_eq_bind, Option.bind_some,
        hpg']
    · rw [hget, c.getAt_putAt j a hin h]
      rcases Nat.lt_trichotomy j i with hj | rfl | hj
      · rw [if_neg (by omega), if_neg (by omega), if_neg (by omega)]
      · rw [if_neg (by omega), if_pos rfl, if_pos (Nat.le_refl _), Nat.sub_self]
        rfl
      · rw [if_pos (by omega), if_neg (by omega), if_pos (by omega)]
        have : j - i = (j - (i + 1)) + 1 := by omega
        rw [this, List.getElem?_cons_succ]

/-- The records after the shift: those from `idx` on have moved one place up. -/
theorem shiftRight_spec (idx i : Nat) {pg : Page}
    (h : base + (i + 1) * c.size ≤ pg.length) :
    ∃ pg', shiftRight c base idx i pg = some pg' ∧ SameHead base pg pg' ∧
      ∀ j, c.getAt base pg' j =
        if idx < j ∧ j ≤ i then c.getAt base pg (j - 1) else c.getAt base pg j := by
  -- downwards from `i`: the record written in this round is behind all those still to be moved
  induction i generalizing pg with
  | zero => exact ⟨pg, rfl, SameHead.refl _ _, fun j => by rw [if_neg (by omega)]⟩
  | succ i ih =>
    by_cases hidx : idx < i + 1
    · have hhead := sameHead_putAt c base (c.getAt base pg i) (Nat.lt_succ_self (i + 1)) h
      have h' : base + (i + 1) * c.size ≤ pg.length := by
        have : (i + 1) * c.size ≤ (i + 1 + 1) * c.size := Nat.mul_le_mul_right _ (by omega)
        omega
      have h'' : base + (i + 1) * c.size ≤
          (c.putAt base pg (i + 1) (c.getAt base pg i)).length := by
        rw [hhead.length]; exact h'
      obtain ⟨pg', hpg', hsame, hget⟩ := ih h''
      refine ⟨pg', ?_, hhead.trans hsame, fun j => ?_⟩
      · simp only [shiftRight, if_pos hidx, getAt?_eq c base (Nat.lt_succ_self i) h',
          putAt?_eq c base (c.getAt base pg i) (Nat.lt_succ_self (i + 1)) h,
          Option.bind_eq_bind, Option.bind_some, hpg']
      · rw [hget, c.getAt_putAt _ _ (Nat.lt_succ_self (i + 1)) h,
          c.getAt_putAt _ _ (Nat.lt_succ_self (i + 1)) h]
        -- a record below the one written, that one, and those behind it
        rcases Nat.lt_trichotomy j (i + 1) with hj | rfl | hj
        · by_cases hlt : idx < j
          · rw [if_pos (by omega), if_neg (by omega), if_pos (by omega)]
          · rw [if_neg (by omega), if_neg (by omega), if_neg (by omega)]
        · rw [if_neg (by omega), if_pos rfl, if_pos (by omega)]
          rfl
        · rw [if_neg (by omega), if_neg (by omega), if_neg (by omega)]
    · refine ⟨pg, by simp only [shiftRight, if_neg hidx], SameHead.refl _ _, fun j => ?_⟩
      rw [if_neg (by omega)]

/-- The records after the shift: those after `i` have moved one place down. -/
theorem shiftLeft_spec (n i : Nat) {pg : Page}
    (h : base + (i + n + 1) * c.size ≤ pg.length) :
    ∃ pg', shiftLeft c base n i pg = some pg' ∧ SameHead base pg pg' ∧
      ∀ j, c.getAt base pg' j =
        if i ≤ j ∧ j < i + n then c.getAt base pg (j + 1) else c.getAt base pg j := by
  induction n generalizing pg i with
  | zero => exact ⟨pg, rfl, SameHead.refl _ _, fun j => by rw [if_neg (by omega)]⟩
  | succ n ih =>
    have hi : i < i + (n + 1) + 1 := by omega
    have hi' : i + 1 < i + (n + 1) + 1 := by omega
    have hhead := sameHead_putAt c base (c.getAt base pg (i + 1)) hi h
    have h' : base + (i + 1 + n + 1) * c.size ≤
        (c.putAt base pg i (c.getAt base pg (i + 1))).length := by
      rw [hhead.length]
      simpa [Nat.add_assoc, Nat.add_comm, Nat.add_left_comm] using h
    obtain ⟨pg', hpg', hsame, hget⟩ := ih (i + 1) h'
    refine ⟨pg', ?_, hhead.trans hsame, fun j => ?_⟩
    · simp only [shiftLeft, getAt?_eq c base hi' h,
        putAt?_eq c base (c.getAt base pg (i + 1)) hi h, Option.bind_eq_bind, Option.bind_some,
        hpg']
    · rw [hget, c.getAt_putAt _ _ hi h, c.getAt_putAt _ _ hi h]
      rcases Nat.lt_trichotomy j i with hj | rfl | hj
      · rw [if_neg (by omega), if_neg (by omega), if_neg (by omega)]
      · rw [if_neg (by omega), if_pos rfl, if_pos (by omega)]
      · by_cases hlt : j < i + (n + 1)
        · rw [if_pos (by omega), if_neg (by omega), if_pos (by omega)]
        · rw [if_neg (by omega), if_neg (by omega), if_neg (by omega)]

theorem zeroRange_spec {pg : Page} {off n : Nat} (h : off + n ≤ pg.length) :
    ∃ pg', zeroRange pg off n = some pg' ∧ SameHead off pg pg' := by
  refine ⟨_, if_pos h, ?_, ?_⟩
  · exact length_splice pg off _ (by rw [List.length_replicate]; exact h)
  · simp only [splice, List.append_assoc]
    rw [List.take_append_of_le_length (by rw [List.length_take]; omega), List.take_take,
      Nat.min_self]

/-- The first `n` records lie in the first `base + n * size` bytes. -/
theorem SameHead.listAt_eq {c : Codec α} {base n : Nat} {pg pg' : Page}
    (h : SameHead (base + n * c.size) pg pg') : c.listAt base pg' n = c.listAt base pg n := by
  refine c.listAt_congr fun i hi => ?_
  exact h.get_eq c (c.record_bound hi (Nat.le_refl _))

/-- The array is `l` when its records are those of `l`. -/
theorem listAt_eq_of_getAt {pg : Page} {l : List α}
    (h : ∀ (j : Nat) (a : α), l[j]? = some a → c.getAt base pg j = a) :
    c.listAt base pg l.length = l := by
  apply List.ext_getElem?
  intro j
  rw [c.getElem?_listAt]
  by_cases hj : j < l.length
  · rw [if_pos hj, List.getElem?_eq_getElem hj, h j _ (List.getElem?_eq_getElem hj)]
  · rw [if_neg hj, List.getElem?_eq_none (by omega)]

theorem getAt_of_listAt {pg : Page} {n : Nat} {l : List α} (hl : c.listAt base pg n = l) {j : Nat}
    {a : α} (h : l[j]? = some a) : c.getAt base pg j = a := by
  rw [← hl, c.getElem?_listAt] at h
  by_cases hj : j < n
  · rw [if_pos hj] at h
    exact Option.some.inj h
  · rw [if_neg hj] at h
    cases h

/-- The front of an array -/
theorem listAt_append_left {pg : Page} {xs ys : List α}
    (h : c.listAt base pg (xs ++ ys).length = xs ++ ys) : c.listAt base pg xs.length = xs := by
  refine listAt_eq_of_getAt c base fun j a hj => getAt_of_listAt c base h ?_
  rw [List.getElem?_append_left (List.getElem?_eq_some_iff.mp hj).1]
  exact hj

/-- Writing a whole list into the array -/
theorem writeEntries_zero_spec (l : List α) {pg : Page} (h : base + l.length * c.size ≤ pg.length) :
    ∃ pg', writeEntries c base pg 0 l = some pg' ∧ SameHead base pg pg' ∧
      c.listAt base pg' l.length = l := by
  obtain ⟨pg', hpg', hsame, hget⟩ :=
    writeEntries_spec c base l (i := 0) l.length (by omega) h
  refine ⟨pg', hpg', hsame, listAt_eq_of_getAt c base fun j a hj => ?_⟩
  rw [hget, if_pos (by omega), Nat.sub_zero, hj]
  rfl

/-- Writing `l` behind the first `xs.length` records -/
theorem writeEntries_append_spec {xs : List α} (l : List α) {pg : Page}
    (hxs : c.listAt base pg xs.length = xs)
    (h : base + (xs.length + l.length) * c.size ≤ pg.length) :
    ∃ pg', writeEntries c base pg xs.length l = some pg' ∧ SameHead base pg pg' ∧
      c.listAt base pg' (xs.length + l.length) = xs ++ l := by
  obtain ⟨pg', hpg', hsame, hget⟩ :=
    writeEntries_spec c base l (i := xs.length) (xs.length + l.length) (by omega) h
  refine ⟨pg', hpg', hsame, ?_⟩
  rw [← List.length_append]
  refine listAt_eq_of_getAt c base fun j a hj => ?_
  rw [hget]
  by_cases hlt : xs.length ≤ j
  · rw [List.getElem?_append_right hlt] at hj
    rw [if_pos hlt, hj]
    rfl
  · rw [List.getElem?_append_left (by omega)] at hj
    rw [if_neg hlt]
    exact getAt_of_listAt c base hxs hj

theorem writeEntries_singleton (a : α) (pg : Page) (i : Nat) :
    writeEntries c base pg i [a] = c.putAt? base pg i a := by
  simp [writeEntries]

/-- Inserting a record between `lo` and `hi` by shifting -/
theorem shiftRight_put_spec (lo hi : List α) (a : α) {pg : Page}
    (hl : c.listAt base pg (lo.length + hi.length) = lo ++ hi)
    (h : base + (lo.length + hi.length + 1) * c.size ≤ pg.length) :
    ∃ pg₁ pg₂, shiftRight c base lo.length (lo.length + hi.length) pg = some pg₁ ∧
      c.putAt? base pg₁ lo.length a = some pg₂ ∧ SameHead base pg pg₂ ∧
      c.listAt base pg₂ (lo.length + hi.length + 1) = lo ++ a :: hi := by
  obtain ⟨pg₁, hpg₁, hsame₁, hget₁⟩ :=
    shiftRight_spec c base lo.length (lo.length + hi.length) h
  have h₁ : base + (lo.length + hi.length + 1) * c.size ≤ pg₁.length := by
    rw [hsame₁.length]; exact h
  have hlt : lo.length < lo.length + hi.length + 1 := by omega
  refine ⟨pg₁, _, hpg₁, putAt?_eq c base a hlt h₁,
    hsame₁.trans (sameHead_putAt c base a hlt h₁), ?_⟩
  have hlen : lo.length + hi.length + 1 = (lo ++ a :: hi).length := by simp; omega
  rw [hlen]
  refine listAt_eq_of_getAt c base fun j b hj => ?_
  rw [c.getAt_putAt j a hlt h₁, hget₁]
  -- the records before the new one, the new one, and those that have moved
  rcases Nat.lt_trichotomy j lo.length with hj' | rfl | hj'
  · rw [List.getElem?_append_left hj'] at hj
    rw [if_neg (by omega), if_neg (by omega)]
    exact getAt_of_listAt c base hl (by rw [List.getElem?_append_left hj', hj])
  · rw [List.getElem?_append_right (Nat.le_refl _), Nat.sub_self] at hj
    rw [if_pos rfl]
    exact Option.some.inj hj
  · rw [List.getElem?_append_right (by omega)] at hj
    have hsub : j - lo.length = (j - 1 - lo.length) + 1 := by omega
    rw [hsub, List.getElem?_cons_succ] at hj
    have hjlt : j - 1 - lo.length < hi.length := by
      by_contra hc
      rw [List.getElem?_eq_none (by omega)] at hj
      cases hj
    rw [if_neg (by omega), if_pos (by omega)]
    exact getAt_of_listAt c base hl (by rw [List.getElem?_append_right (by omega), hj])

/-- Removing the record between `lo` and `hi` by shifting -/
theorem shiftLeft_remove_spec (lo hi : List α) {a : α} {pg : Page}
    (hl : c.listAt base pg (lo.length + hi.length + 1) = lo ++ a :: hi)
    (h : base + (lo.length + hi.length + 1) * c.size ≤ pg.length) :
    ∃ pg', shiftLeft c base hi.length lo.length pg = some pg' ∧ SameHead base pg pg' ∧
      c.listAt base pg' (lo.length + hi.length) = lo ++ hi := by
  obtain ⟨pg', hpg', hsame, hget⟩ := shiftLeft_spec c base hi.length lo.length h
  refine ⟨pg', hpg', hsame, ?_⟩
  rw [← List.length_append]
  refine listAt_eq_of_getAt c base fun j b hj => ?_
  rw [hget]
  by_cases hlt : j < lo.length
  · rw [List.getElem?_append_left hlt] at hj
    rw [if_neg (by omega)]
    exact getAt_of_listAt c base hl (by rw [List.getElem?_append_left hlt, hj])
  · rw [List.getElem?_append_right (by omega)] at hj
    have hjlt : j - lo.length < hi.length := by
      by_contra hc
      rw [List.getElem?_eq_none (by omega)] at hj
      cases hj
    rw [if_pos (by omega)]
    refine getAt_of_listAt c base hl ?_
    have hsub : j + 1 - lo.length = (j - lo.length) + 1 := by omega
    rw [List.getElem?_append_right (by omega), hsub, List.getElem?_cons_succ, hj]

end Entries

/-! ## Binary search -/

/-- The midpoint of two 31-bit numbers does not wrap. -/
theorem UInt32.toNat_mid (lo hi : UInt32) (h : lo.toNat + hi.toNat < 2 ^ 32) :
    ((lo + hi) / 2).toNat = (lo.toNat + hi.toNat) / 2 := by
  rw [UInt32.toNat_div, UInt32.toNat_add, Nat.mod_eq_of_lt h]
  rfl

theorem UInt32.toNat_succ {x : UInt32} (h : x.toNat + 1 < 2 ^ 32) :
    (x + 1).toNat = x.toNat + 1 := by
  rw [UInt32.toNat_add]
  exact Nat.mod_eq_of_lt h

theorem UInt32.toNat_pred {x : UInt32} (h : 0 < x.toNat) : (x - 1).toNat = x.toNat - 1 := by
  have h1 : (1 : UInt32) ≤ x := by rw [UInt32.le_iff_toNat_le]; exact h
  rw [UInt32.toNat_sub_of_le _ _ h1]
  rfl

/-- Binary search for the end `m` of a prefix of positions -/
theorem searchLoop_eq {before : Nat → Bool} {m : Nat} (n : Nat) {lo hi : UInt32}
    (hlo : lo.toNat ≤ m) (hhi : m ≤ hi.toNat) (hn : hi.toNat - lo.toNat ≤ n)
    (hbound : hi.toNat < 2 ^ 31) (hbefore : ∀ i < m, before i = true)
    (hafter : ∀ i, m ≤ i → i < hi.toNat → before i = false) :
    (searchLoop before n lo hi).toNat = m := by
  -- `lo ≤ m ≤ hi` all the time, and `hi - lo` shrinks; below 2 ^ 31 `lo + hi` does not wrap
  induction n generalizing lo hi with
  | zero => simp only [searchLoop]; omega
  | succ n ih =>
    simp only [searchLoop]
    by_cases hlt : lo < hi
    · rw [if_pos hlt]
      rw [UInt32.lt_iff_toNat_lt] at hlt
      have hmid := UInt32.toNat_mid lo hi (by omega)
      by_cases hb : before ((lo + hi) / 2).toNat = true
      · -- the middle is in the prefix
        have hm : ((lo + hi) / 2).toNat < m := by
          by_contra hc
          have := hafter _ (Nat.le_of_not_lt hc) (by omega)
          rw [this] at hb
          cases hb
        rw [if_pos hb]
        have hsucc := UInt32.toNat_succ (x := (lo + hi) / 2) (by omega)
        exact ih (by omega) hhi (by omega) hbound hafter
      · -- it is behind it
        have hm : m ≤ ((lo + hi) / 2).toNat := by
          by_contra hc
          exact hb (hbefore _ (Nat.lt_of_not_le hc))
        rw [if_neg hb]
        exact ih hlo hm (by omega) (by omega) fun i h1 h2 => hafter i h1 (by omega)
    · rw [if_neg hlt]
      rw [UInt32.lt_iff_toNat_lt] at hlt
      omega

private theorem getD_append_lt {α : Type} [Inhabited α] {lo hi : List α} {i : Nat}
    (h : i < lo.length) : (lo ++ hi).getD i default ∈ lo := by
  rw [List.getD_eq_getElem?_getD, List.getElem?_append_left h, List.getElem?_eq_getElem h]
  exact List.getElem_mem h

private theorem getD_append_ge {α : Type} [Inhabited α] {lo hi : List α} {i : Nat}
    (h : lo.length ≤ i) (h' : i < (lo ++ hi).length) : (lo ++ hi).getD i default ∈ hi := by
  rw [List.length_append] at h'
  rw [List.getD_eq_getElem?_getD, List.getElem?_append_right h,
    List.getElem?_eq_getElem (by omega)]
  exact List.getElem_mem _

/-- `leaf_find` returns the number of entries below the key. -/
theorem leafFind_append {lo hi : List LeafEntry} {count : UInt32} {key : Key}
    (hcount : count.toNat = (lo ++ hi).length) (hbound : count.toNat < 2 ^ 31)
    (hlo : ∀ e ∈ lo, e.key < key) (hhi : ∀ e ∈ hi, key ≤ e.key) :
    (leafFind (lo ++ hi) count key).toNat = lo.length := by
  refine searchLoop_eq _ (Nat.zero_le _) ?_ (by omega) hbound ?_ ?_
  · rw [hcount, List.length_append]; omega
  · intro i hi'
    exact decide_eq_true (hlo _ (getD_append_lt hi'))
  · intro i h1 h2
    have := hhi _ (getD_append_ge h1 (by omega))
    exact decide_eq_false (UInt64.not_lt.mpr this)

/-- `internal_find` returns the number of separators at or below the key. -/
theorem internalFind_append {lo hi : List InternalEntry} {count : UInt32} {key : Key}
    (hcount : count.toNat = (lo ++ hi).length) (hbound : count.toNat < 2 ^ 31)
    (hlo : ∀ e ∈ lo, e.key ≤ key) (hhi : ∀ e ∈ hi, key < e.key) :
    (internalFind (lo ++ hi) count key).toNat = lo.length := by
  refine searchLoop_eq _ (Nat.zero_le _) ?_ (by omega) hbound ?_ ?_
  · rw [hcount, List.length_append]; omega
  · intro i hi'
    exact decide_eq_true (hlo _ (getD_append_lt hi'))
  · intro i h1 h2
    have := hhi _ (getD_append_ge h1 (by omega))
    exact decide_eq_false (UInt64.not_le.mpr this)

/-! ## Node pages

`LeafIs ps pg hdr es`: the page `pg` of size `ps` is a leaf with header `hdr` and entries
`es`; `InnerIs` is the same for internal nodes.  What lies behind the entries is not
said: the functions leave old bytes there. -/

structure LeafIs (ps : Nat) (pg : Page) (hdr : LeafPageHeader) (es : List LeafEntry) : Prop where
  length : pg.length = ps
  header : leafPageHeaderC.get pg 0 = hdr
  type : hdr.pageType = PageType.leaf.code
  count : hdr.keyCount.toNat = es.length
  entries : leafEntryC.listAt leafBase pg es.length = es
  fits : leafBase + es.length * leafEntryC.size ≤ ps

structure InnerIs (ps : Nat) (pg : Page) (hdr : InternalPageHeader) (es : List InternalEntry) :
    Prop where
  length : pg.length = ps
  header : internalPageHeaderC.get pg 0 = hdr
  type : hdr.pageType = PageType.internal.code
  count : hdr.keyCount.toNat = es.length
  entries : internalEntryC.listAt internalBase pg es.length = es
  fits : internalBase + es.length * internalEntryC.size ≤ ps

/-- A page size that fits 32 bits bounds the number of entries. -/
theorem count_lt_of_fits {ps n size base : Nat} (hps : ps < 2 ^ 32) (hsize : 12 ≤ size)
    (h : base + n * size ≤ ps) : n < 2 ^ 31 := by
  have : n * 12 ≤ n * size := Nat.mul_le_mul_left _ hsize
  omega

theorem LeafIs.count_lt {ps : Nat} {pg : Page} {hdr : LeafPageHeader} {es : List LeafEntry}
    (h : LeafIs ps pg hdr es) (hps : ps < 2 ^ 32) : es.length < 2 ^ 31 :=
  count_lt_of_fits hps (by decide) h.fits

theorem InnerIs.count_lt {ps : Nat} {pg : Page} {hdr : InternalPageHeader}
    {es : List InternalEntry} (h : InnerIs ps pg hdr es) (hps : ps < 2 ^ 32) :
    es.length < 2 ^ 31 :=
  count_lt_of_fits hps (by decide) h.fits

theorem LeafIs.read {ps : Nat} {pg : Page} {hdr : LeafPageHeader} {es : List LeafEntry}
    (h : LeafIs ps pg hdr es) :
    readEntries leafEntryC leafBase pg hdr.keyCount.toNat = some es := by
  rw [h.count, readEntries_eq _ _ (by rw [h.length]; exact h.fits), h.entries]

theorem InnerIs.read {ps : Nat} {pg : Page} {hdr : InternalPageHeader}
    {es : List InternalEntry} (h : InnerIs ps pg hdr es) :
    readEntries internalEntryC internalBase pg hdr.keyCount.toNat = some es := by
  rw [h.count, readEntries_eq _ _ (by rw [h.length]; exact h.fits), h.entries]

theorem LeafIs.pageType {ps : Nat} {pg : Page} {hdr : LeafPageHeader} {es : List LeafEntry}
    (h : LeafIs ps pg hdr es) : pageType pg = PageType.leaf.code := by
  have := h.header
  rw [leafPageHeaderC_get] at this
  rw [← h.type, ← this]
  rfl

theorem InnerIs.pageType {ps : Nat} {pg : Page} {hdr : InternalPageHeader}
    {es : List InternalEntry} (h : InnerIs ps pg hdr es) :
    pageType pg = PageType.internal.code := by
  have := h.header
  rw [internalPageHeaderC_get] at this
  rw [← h.type, ← this]
  rfl

theorem LeafIs.getAt? {ps : Nat} {pg : Page} {hdr : LeafPageHeader} {es : List LeafEntry}
    (h : LeafIs ps pg hdr es) {i : Nat} {e : LeafEntry} (hi : es[i]? = some e) :
    leafEntryC.getAt? leafBase pg i = some e := by
  have hlt : i < es.length := by
    by_contra hc
    rw [List.getElem?_eq_none (by omega)] at hi
    cases hi
  rw [getAt?_eq _ _ hlt (by rw [h.length]; exact h.fits),
    getAt_of_listAt _ _ h.entries hi]

theorem InnerIs.getAt? {ps : Nat} {pg : Page} {hdr : InternalPageHeader}
    {es : List InternalEntry} (h : InnerIs ps pg hdr es) {i : Nat} {e : InternalEntry}
    (hi : es[i]? = some e) : internalEntryC.getAt? internalBase pg i = some e := by
  have hlt : i < es.length := by
    by_contra hc
    rw [List.getElem?_eq_none (by omega)] at hi
    cases hi
  rw [getAt?_eq _ _ hlt (by rw [h.length]; exact h.fits),
    getAt_of_listAt _ _ h.entries hi]

/-- A page of `n` records behind a fresh header is the leaf with that header. -/
theorem LeafIs.of_put {ps : Nat} {pg : Page} (hdr : LeafPageHeader) (es : List LeafEntry)
    (hlen : pg.length = ps) (htype : hdr.pageType = PageType.leaf.code)
    (hcount : hdr.keyCount.toNat = es.length)
    (hes : leafEntryC.listAt leafBase pg es.length = es)
    (hfits : leafBase + es.length * leafEntryC.size ≤ ps) :
    leafPageHeaderC.put? pg 0 hdr = some (leafPageHeaderC.put pg 0 hdr) ∧
      LeafIs ps (leafPageHeaderC.put pg 0 hdr) hdr es := by
  have hb : 0 + leafPageHeaderC.size ≤ pg.length := by
    simp only [leafBase, leafPageHeaderC_size] at *; omega
  refine ⟨leafPageHeaderC.put?_eq_some pg 0 hdr hb, ?_, leafPageHeaderC.get_put_same pg 0 hdr hb,
    htype, hcount, ?_, hfits⟩
  · rw [leafPageHeaderC.length_put pg 0 hdr hb, hlen]
  · conv_rhs => rw [← hes]
    exact leafEntryC.listAt_congr fun i _ => leafEntryC.getAt_put_before leafPageHeaderC i hdr
      (by simp only [leafBase, leafPageHeaderC_size] at *; omega) (by decide)

theorem InnerIs.of_put {ps : Nat} {pg : Page} (hdr : InternalPageHeader)
    (es : List InternalEntry) (hlen : pg.length = ps)
    (htype : hdr.pageType = PageType.internal.code) (hcount : hdr.keyCount.toNat = es.length)
    (hes : internalEntryC.listAt internalBase pg es.length = es)
    (hfits : internalBase + es.length * internalEntryC.size ≤ ps) :
    internalPageHeaderC.put? pg 0 hdr = some (internalPageHeaderC.put pg 0 hdr) ∧
      InnerIs ps (internalPageHeaderC.put pg 0 hdr) hdr es := by
  have hb : 0 + internalPageHeaderC.size ≤ pg.length := by
    simp only [internalBase, internalPageHeaderC_size] at *; omega
  refine ⟨internalPageHeaderC.put?_eq_some pg 0 hdr hb, ?_,
    internalPageHeaderC.get_put_same pg 0 hdr hb, htype, hcount, ?_, hfits⟩
  · rw [internalPageHeaderC.length_put pg 0 hdr hb, hlen]
  · conv_rhs => rw [← hes]
    exact internalEntryC.listAt_congr fun i _ =>
      internalEntryC.getAt_put_before internalPageHeaderC i hdr
        (by simp only [internalBase, internalPageHeaderC_size] at *; omega) (by decide)

/-- Entries written behind a fresh header -/
theorem LeafIs.of_write {ps : Nat} {pg : Page} (hdr : LeafPageHeader) (es : List LeafEntry)
    (hlen : pg.length = ps) (htype : hdr.pageType = PageType.leaf.code)
    (hcount : hdr.keyCount.toNat = es.length)
    (hfits : leafBase + es.length * leafEntryC.size ≤ ps) :
    ∃ pg₁ pg₂, leafPageHeaderC.put? pg 0 hdr = some pg₁ ∧
      writeEntries leafEntryC leafBase pg₁ 0 es = some pg₂ ∧ LeafIs ps pg₂ hdr es := by
  have hb : 0 + leafPageHeaderC.size ≤ pg.length := by
    simp only [leafBase, leafPageHeaderC_size] at *; omega
  have hlen₁ : (leafPageHeaderC.put pg 0 hdr).length = ps := by
    rw [leafPageHeaderC.length_put pg 0 hdr hb, hlen]
  obtain ⟨pg₂, hwrite, hhead, hes⟩ := writeEntries_zero_spec leafEntryC leafBase es
    (by rw [hlen₁]; exact hfits)
  refine ⟨_, pg₂, leafPageHeaderC.put?_eq_some pg 0 hdr hb, hwrite, hhead.length.trans hlen₁, ?_,
    htype, hcount, hes, hfits⟩
  rw [hhead.get_eq leafPageHeaderC (by decide), leafPageHeaderC.get_put_same pg 0 hdr hb]

theorem InnerIs.of_write {ps : Nat} {pg : Page} (hdr : InternalPageHeader)
    (es : List InternalEntry) (hlen : pg.length = ps)
    (htype : hdr.pageType = PageType.internal.code) (hcount : hdr.keyCount.toNat = es.length)
    (hfits : internalBase + es.length * internalEntryC.size ≤ ps) :
    ∃ pg₁ pg₂, internalPageHeaderC.put? pg 0 hdr = some pg₁ ∧
      writeEntries internalEntryC internalBase pg₁ 0 es = some pg₂ ∧ InnerIs ps pg₂ hdr es := by
  have hb : 0 + internalPageHeaderC.size ≤ pg.length := by
    simp only [internalBase, internalPageHeaderC_size] at *; omega
  have hlen₁ : (internalPageHeaderC.put pg 0 hdr).length = ps := by
    rw [internalPageHeaderC.length_put pg 0 hdr hb, hlen]
  obtain ⟨pg₂, hwrite, hhead, hes⟩ := writeEntries_zero_spec internalEntryC internalBase es
    (by rw [hlen₁]; exact hfits)
  refine ⟨_, pg₂, internalPageHeaderC.put?_eq_some pg 0 hdr hb, hwrite, hhead.length.trans hlen₁,
    ?_, htype, hcount, hes, hfits⟩
  rw [hhead.get_eq internalPageHeaderC (by decide), internalPageHeaderC.get_put_same pg 0 hdr hb]

/-- What lies behind the entries does not matter. -/
theorem LeafIs.of_sameHead {ps : Nat} {pg pg' : Page} {hdr : LeafPageHeader}
    {es : List LeafEntry} (h : LeafIs ps pg hdr es)
    (hs : SameHead (leafBase + es.length * leafEntryC.size) pg pg') : LeafIs ps pg' hdr es :=
  ⟨hs.length.trans h.length, by
    rw [hs.get_eq leafPageHeaderC (by simp only [leafBase, leafPageHeaderC_size]; omega), h.header],
    h.type, h.count, by rw [hs.listAt_eq, h.entries], h.fits⟩

theorem InnerIs.of_sameHead {ps : Nat} {pg pg' : Page} {hdr : InternalPageHeader}
    {es : List InternalEntry} (h : InnerIs ps pg hdr es)
    (hs : SameHead (internalBase + es.length * internalEntryC.size) pg pg') :
    InnerIs ps pg' hdr es :=
  ⟨hs.length.trans h.length, by
    rw [hs.get_eq internalPageHeaderC (by
      simp only [internalBase, internalPageHeaderC_size]; omega), h.header],
    h.type, h.count, by rw [hs.listAt_eq, h.entries], h.fits⟩

/-! ## Inserting and removing entries -/

section NodeOps

variable {ps : Nat} {pg : Page}

theorem leafInsertEntry_spec {hdr : LeafPageHeader} {lo hi : List LeafEntry}
    (h : LeafIs ps pg hdr (lo ++ hi)) (hps : ps < 2 ^ 32) (key : Key) (ref : RowRef)
    (hlo : ∀ e ∈ lo, e.key < key) (hhi : ∀ e ∈ hi, key ≤ e.key)
    (hroom : leafBase + (lo.length + hi.length + 1) * leafEntryC.size ≤ ps) :
    ∃ pg', leafInsertEntry pg hdr key ref = some pg' ∧
      LeafIs ps pg' { hdr with keyCount := hdr.keyCount + 1 } (lo ++ ⟨key, ref⟩ :: hi) := by
  have hlt := h.count_lt hps
  have hcount := h.count
  have hidx := leafFind_append hcount (by omega) hlo hhi
  rw [List.length_append] at hlt hcount
  obtain ⟨pg₁, pg₂, h₁, h₂, hhead, hl⟩ := shiftRight_put_spec leafEntryC leafBase
    lo hi ⟨key, ref⟩ (by rw [← List.length_append]; exact h.entries) (by rw [h.length]; exact hroom)
  have hlen : (lo ++ (⟨key, ref⟩ : LeafEntry) :: hi).length = lo.length + hi.length + 1 := by
    simp; omega
  obtain ⟨hput, his⟩ := LeafIs.of_put { hdr with keyCount := hdr.keyCount + 1 }
    (lo ++ ⟨key, ref⟩ :: hi) (hhead.length.trans h.length) h.type
    (by rw [hlen, ← hcount]; exact UInt32.toNat_succ (by omega)) (by rw [hlen]; exact hl)
    (by rw [hlen]; exact hroom)
  refine ⟨_, ?_, his⟩
  have hread := h.read
  rw [hcount] at hread
  simp only [leafInsertEntry, hread, hidx, hcount, h₁, h₂, hput, Option.bind_eq_bind,
    Option.bind_some]

theorem internalInsertEntry_spec {hdr : InternalPageHeader} {lo hi : List InternalEntry}
    (h : InnerIs ps pg hdr (lo ++ hi)) (hps : ps < 2 ^ 32) (key : Key) (child : PageId)
    (hlo : ∀ e ∈ lo, e.key ≤ key) (hhi : ∀ e ∈ hi, key < e.key)
    (hroom : internalBase + (lo.length + hi.length + 1) * internalEntryC.size ≤ ps) :
    ∃ pg', internalInsertEntry pg hdr key child = some pg' ∧
      InnerIs ps pg' { hdr with keyCount := hdr.keyCount + 1 } (lo ++ ⟨key, child⟩ :: hi) := by
  have hlt := h.count_lt hps
  have hcount := h.count
  have hidx := internalFind_append hcount (by omega) hlo hhi
  rw [List.length_append] at hlt hcount
  obtain ⟨pg₁, pg₂, h₁, h₂, hhead, hl⟩ := shiftRight_put_spec internalEntryC internalBase
    lo hi ⟨key, child⟩ (by rw [← List.length_append]; exact h.entries) (by rw [h.length]; exact hroom)
  have hlen : (lo ++ (⟨key, child⟩ : InternalEntry) :: hi).length =
      lo.length + hi.length + 1 := by simp; omega
  obtain ⟨hput, his⟩ := InnerIs.of_put { hdr with keyCount := hdr.keyCount + 1 }
    (lo ++ ⟨key, child⟩ :: hi) (hhead.length.trans h.length) h.type
    (by rw [hlen, ← hcount]; exact UInt32.toNat_succ (by omega)) (by rw [hlen]; exact hl)
    (by rw [hlen]; exact hroom)
  refine ⟨_, ?_, his⟩
  have hread := h.read
  rw [hcount] at hread
  simp only [internalInsertEntry, hread, hidx, hcount, h₁, h₂, hput, Option.bind_eq_bind,
    Option.bind_some]

theorem deleteEntryFromLeaf_spec {hdr : LeafPageHeader} {lo hi : List LeafEntry} {e : LeafEntry}
    (h : LeafIs ps pg hdr (lo ++ e :: hi)) {idx : UInt32} (hidx : idx.toNat = lo.length) :
    ∃ pg', deleteEntryFromLeaf pg hdr idx = some pg' ∧
      LeafIs ps pg' { hdr with keyCount := hdr.keyCount - 1 } (lo ++ hi) := by
  have hlen : (lo ++ e :: hi).length = lo.length + hi.length + 1 := by simp; omega
  have hcount := h.count
  have hfits := h.fits
  have hents := h.entries
  rw [hlen] at hcount hfits hents
  have hpred := UInt32.toNat_pred (x := hdr.keyCount) (by omega)
  obtain ⟨pg₁, h₁, hhead, hl⟩ := shiftLeft_remove_spec leafEntryC leafBase
    lo hi hents (by rw [h.length]; exact hfits)
  obtain ⟨hput, his⟩ := LeafIs.of_put { hdr with keyCount := hdr.keyCount - 1 }
    (lo ++ hi) (hhead.length.trans h.length) h.type
    (by rw [List.length_append, hpred]; omega) (by rw [List.length_append]; exact hl)
    (by rw [List.length_append]; simp only [leafEntryC_size] at *; omega)
  refine ⟨_, ?_, his⟩
  have hrounds : (hdr.keyCount - 1).toNat - lo.length = hi.length := by omega
  simp only [deleteEntryFromLeaf, hidx, hrounds, h₁, hput, Option.bind_eq_bind, Option.bind_some]

theorem deleteEntryFromInternal_spec {hdr : InternalPageHeader} {lo hi : List InternalEntry}
    {e : InternalEntry} (h : InnerIs ps pg hdr (lo ++ e :: hi)) {idx : UInt32}
    (hidx : idx.toNat = lo.length) :
    ∃ pg', deleteEntryFromInternal pg hdr idx = some pg' ∧
      InnerIs ps pg' { hdr with keyCount := hdr.keyCount - 1 } (lo ++ hi) := by
  have hlen : (lo ++ e :: hi).length = lo.length + hi.length + 1 := by simp; omega
  have hcount := h.count
  have hfits := h.fits
  have hents := h.entries
  rw [hlen] at hcount hfits hents
  have hpred := UInt32.toNat_pred (x := hdr.keyCount) (by omega)
  obtain ⟨pg₁, h₁, hhead, hl⟩ := shiftLeft_remove_spec internalEntryC internalBase
    lo hi hents (by rw [h.length]; exact hfits)
  obtain ⟨hput, his⟩ := InnerIs.of_put { hdr with keyCount := hdr.keyCount - 1 }
    (lo ++ hi) (hhead.length.trans h.length) h.type
    (by rw [List.length_append, hpred]; omega) (by rw [List.length_append]; exact hl)
    (by rw [List.length_append]; simp only [internalEntryC_size] at *; omega)
  refine ⟨_, ?_, his⟩
  have hrounds : (hdr.keyCount - 1).toNat - lo.length = hi.length := by omega
  simp only [deleteEntryFromInternal, hidx, hrounds, h₁, hput, Option.bind_eq_bind,
    Option.bind_some]

/-- Replacing the entry between `lo` and `hi`, with the header written back -/
theorem InnerIs.setAt {hdr : InternalPageHeader} {lo hi : List InternalEntry} {e : InternalEntry}
    (h : InnerIs ps pg hdr (lo ++ e :: hi)) (e' : InternalEntry) :
    ∃ pg₁ pg₂, internalEntryC.putAt? internalBase pg lo.length e' = some pg₁ ∧
      internalPageHeaderC.put? pg₁ 0 hdr = some pg₂ ∧ InnerIs ps pg₂ hdr (lo ++ e' :: hi) := by
  have hlt : lo.length < (lo ++ e :: hi).length := by simp
  have hlen : (lo ++ e' :: hi).length = (lo ++ e :: hi).length := by simp
  have hfits : internalBase + (lo ++ e :: hi).length * internalEntryC.size ≤ pg.length := by
    rw [h.length]; exact h.fits
  have hhead := sameHead_putAt internalEntryC internalBase e' hlt hfits
  have hes : internalEntryC.listAt internalBase
      (internalEntryC.putAt internalBase pg lo.length e') (lo ++ e' :: hi).length =
        lo ++ e' :: hi := by
    refine listAt_eq_of_getAt _ _ fun j a hj => ?_
    rw [internalEntryC.getAt_putAt j e' hlt hfits]
    rcases Nat.lt_trichotomy j lo.length with hj' | rfl | hj'
    · rw [List.getElem?_append_left hj'] at hj
      rw [if_neg (by omega)]
      exact getAt_of_listAt _ _ h.entries (by rw [List.getElem?_append_left hj', hj])
    · rw [List.getElem?_append_right (Nat.le_refl _), Nat.sub_self] at hj
      rw [if_pos rfl]
      exact Option.some.inj hj
    · have hsub : j - lo.length = (j - lo.length - 1) + 1 := by omega
      rw [List.getElem?_append_right (by omega), hsub, List.getElem?_cons_succ] at hj
      rw [if_neg (by omega)]
      exact getAt_of_listAt _ _ h.entries (by
        rw [List.getElem?_append_right (by omega), hsub, List.getElem?_cons_succ, hj])
  obtain ⟨hput, his⟩ := InnerIs.of_put hdr _ (hhead.length.trans h.length) h.type
    (by rw [hlen]; exact h.count) hes (by rw [hlen]; exact h.fits)
  exact ⟨_, _, putAt?_eq _ _ e' hlt hfits, hput, his⟩

end NodeOps

end MiniDb
