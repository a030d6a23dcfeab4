import MiniDb.Bptree.Code
import MiniDb.Bptree.NodeSpec
import MiniDb.Lib.Lists
import MiniDb.Pager.Logic

/-!
# Search and shift loops on sorted nodes

The loops inside one node as a caller sees them: the two binary searches count entries, an
insertion at the position found keeps the array sorted, a removal takes out one entry, and the
child chosen for a key is the only one whose interval holds it.

## Key results

- `leafFind_eq_countP`, `internalFind_eq_countP`: `<` against `≤`
- `insertIdx_increasing`: the position found is where the key belongs
- `internalChildForKey_inSpan`: the child taken, `InSpan.unique`: there is no other
- `node_loops`: all of them for an arbitrary node
-/

namespace MiniDb

/-- Strictly increasing keys -/
def Increasing {α : Type} (key : α → Key) (es : List α) : Prop :=
  es.Pairwise fun a b => key a < key b

/-! ## Counting -/

section Counting

variable {α : Type} {key : α → Key} {es : List α}

/-- The entries at which a downward closed test holds come first. -/
theorem Increasing.cut (h : Increasing key es) (p : Key → Bool)
    (hp : ∀ a b, a < b → p b = true → p a = true) :
    ∃ lo hi, es = lo ++ hi ∧ (∀ e ∈ lo, p (key e) = true) ∧ (∀ e ∈ hi, p (key e) = false) := by
  induction es with
  | nil => exact ⟨[], [], rfl, by simp, by simp⟩
  | cons e es ih =>
    obtain ⟨hhead, htail⟩ := List.pairwise_cons.mp h
    by_cases he : p (key e) = true
    · obtain ⟨lo, hi, rfl, hlo, hhi⟩ := ih htail
      exact ⟨e :: lo, hi, rfl, by simpa [he] using hlo, hhi⟩
    · -- beyond the first failure the test fails for ever
      refine ⟨[], e :: es, rfl, by simp, fun e' he' => ?_⟩
      rcases List.mem_cons.mp he' with rfl | he'
      · simpa using he
      · by_contra hc
        exact he (hp _ _ (hhead e' he') (by simpa using hc))

/-- The length of the first part of such a cut is the number of entries with the property. -/
theorem countP_cut {lo hi : List α} {p : α → Bool} (hlo : ∀ e ∈ lo, p e = true)
    (hhi : ∀ e ∈ hi, p e = false) : (lo ++ hi).countP p = lo.length := by
  rw [List.countP_append, List.countP_eq_length.mpr hlo, List.countP_eq_zero.mpr (by simpa using hhi)]
  rfl

end Counting

/-- `leaf_find` returns the number of entries with a smaller key. -/
theorem leafFind_eq_countP {es : List LeafEntry} {count : UInt32} (key : Key)
    (hcount : count.toNat = es.length) (hbound : count.toNat < 2 ^ 31)
    (h : Increasing LeafEntry.key es) :
    (leafFind es count key).toNat = es.countP fun e => decide (e.key < key) := by
  obtain ⟨lo, hi, rfl, hlo, hhi⟩ := h.cut (fun k => decide (k < key))
    (fun a b hab hb => by simp only [decide_eq_true_eq] at *; exact UInt64.lt_trans hab hb)
  rw [countP_cut hlo hhi]
  exact leafFind_append hcount hbound (fun e he => by simpa using hlo e he)
    (fun e he => by simpa using hhi e he)

/-- `internal_find` returns the number of separators that are not greater than the key. -/
theorem internalFind_eq_countP {es : List InternalEntry} {count : UInt32} (key : Key)
    (hcount : count.toNat = es.length) (hbound : count.toNat < 2 ^ 31)
    (h : Increasing InternalEntry.key es) :
    (internalFind es count key).toNat = es.countP fun e => decide (e.key ≤ key) := by
  obtain ⟨lo, hi, rfl, hlo, hhi⟩ := h.cut (fun k => decide (k ≤ key))
    (fun a b hab hb => by
      simp only [decide_eq_true_eq] at *; exact UInt64.le_trans (UInt64.le_of_lt hab) hb)
  rw [countP_cut hlo hhi]
  exact internalFind_append hcount hbound (fun e he => by simpa using hlo e he)
    (fun e he => by simpa using hhi e he)

/-! ## Insertion and removal -/

section Arrays

variable {ps : UInt32} {pg : Page} {hdr : LeafPageHeader} {es : List LeafEntry}

theorem insertIdx_append {α : Type} (lo hi : List α) (a : α) :
    (lo ++ hi).insertIdx lo.length a = lo ++ a :: hi := by
  induction lo with
  | nil => rfl
  | cons x lo ih => rw [List.cons_append, List.length_cons, List.insertIdx_succ_cons, ih]; rfl

/-- A new key stands where `leaf_find` says. -/
theorem leaf_cut_at_find {count : UInt32} {key : Key} (hcount : count.toNat = es.length)
    (hbound : count.toNat < 2 ^ 31) (h : Increasing LeafEntry.key es)
    (hnew : ∀ e ∈ es, e.key ≠ key) :
    ∃ lo hi, es = lo ++ hi ∧ (leafFind es count key).toNat = lo.length ∧
      (∀ e ∈ lo, e.key < key) ∧ (∀ e ∈ hi, key < e.key) := by
  obtain ⟨lo, hi, rfl, hlo, hhi⟩ := h.cut (fun k => decide (k < key))
    (fun a b hab hb => by simp only [decide_eq_true_eq] at *; exact UInt64.lt_trans hab hb)
  have hlo' : ∀ e ∈ lo, e.key < key := fun e he => by simpa using hlo e he
  have hhi' : ∀ e ∈ hi, key ≤ e.key := fun e he => by simpa using hhi e he
  refine ⟨lo, hi, rfl, leafFind_append hcount hbound hlo' hhi', hlo', fun e he => ?_⟩
  exact UInt64.lt_of_le_of_ne (hhi' e he) (hnew e (List.mem_append_right _ he)).symm

/-- `leaf_insert_entry` of an absent key into a leaf with room adds exactly that entry, at the
    position of `leaf_find`, and the array stays sorted. -/
theorem leafInsertEntry_increasing (his : LeafIs ps.toNat pg hdr es)
    (h : Increasing LeafEntry.key es) (key : Key) (ref : RowRef) (hnew : ∀ e ∈ es, e.key ≠ key)
    (hroom : leafBase + (es.length + 1) * leafEntryC.size ≤ ps.toNat) :
    ∃ pg', leafInsertEntry pg hdr key ref = some pg' ∧
      LeafIs ps.toNat pg' { hdr with keyCount := hdr.keyCount + 1 }
        (es.insertIdx (leafFind es hdr.keyCount key).toNat ⟨key, ref⟩) ∧
      Increasing LeafEntry.key
        (es.insertIdx (leafFind es hdr.keyCount key).toNat ⟨key, ref⟩) := by
  have hbound := his.count_lt ps.toNat_lt
  rw [← his.count] at hbound
  obtain ⟨lo, hi, rfl, hidx, hlo, hhi⟩ := leaf_cut_at_find his.count hbound h hnew
  rw [hidx, insertIdx_append]
  rw [List.length_append] at hroom
  obtain ⟨pg', hrun, his'⟩ := leafInsertEntry_spec his ps.toNat_lt key ref hlo
    (fun e he => UInt64.le_of_lt (hhi e he)) hroom
  refine ⟨pg', hrun, his', ?_⟩
  obtain ⟨hl, hr, hlr⟩ := List.pairwise_append.mp h
  refine List.pairwise_append.mpr ⟨hl, List.pairwise_cons.mpr ⟨hhi, hr⟩, fun a ha b hb => ?_⟩
  rcases List.mem_cons.mp hb with rfl | hb
  · exact hlo a ha
  · exact hlr a ha b hb

/-- `delete_entry_from_leaf` takes out the entry at the index and no other. -/
theorem deleteEntryFromLeaf_eraseIdx (his : LeafIs ps.toNat pg hdr es) {idx : UInt32}
    (hidx : idx < hdr.keyCount) :
    ∃ pg', deleteEntryFromLeaf pg hdr idx = some pg' ∧
      LeafIs ps.toNat pg' { hdr with keyCount := hdr.keyCount - 1 } (es.eraseIdx idx.toNat) := by
  rw [UInt32.lt_iff_toNat_lt, his.count] at hidx
  obtain ⟨lo, e, hi, rfl, hlen, -⟩ := Lists.exists_cut_at hidx
  rw [← hlen, List.eraseIdx_append_of_length_le (Nat.le_refl _), Nat.sub_self]
  exact deleteEntryFromLeaf_spec his hlen.symm

/-- `delete_entry_from_internal` likewise -/
theorem deleteEntryFromInternal_eraseIdx {hdr : InternalPageHeader} {es : List InternalEntry}
    (his : InnerIs ps.toNat pg hdr es) {idx : UInt32} (hidx : idx < hdr.keyCount) :
    ∃ pg', deleteEntryFromInternal pg hdr idx = some pg' ∧
      InnerIs ps.toNat pg' { hdr with keyCount := hdr.keyCount - 1 } (es.eraseIdx idx.toNat) := by
  rw [UInt32.lt_iff_toNat_lt, his.count] at hidx
  obtain ⟨lo, e, hi, rfl, hlen, -⟩ := Lists.exists_cut_at hidx
  rw [← hlen, List.eraseIdx_append_of_length_le (Nat.le_refl _), Nat.sub_self]
  exact deleteEntryFromInternal_spec his hlen.symm

theorem Increasing.eraseIdx {α : Type} {key : α → Key} {es : List α} (h : Increasing key es)
    (i : Nat) : Increasing key (es.eraseIdx i) := List.Pairwise.sublist (List.eraseIdx_sublist ..) h

end Arrays

/-! ## The child of a key -/

/-- Child `i` is for the keys from separator `i - 1` on and below separator `i`; the first
    child has no lower bound and the last one no upper bound. -/
structure InSpan (es : List InternalEntry) (key : Key) (i : Nat) : Prop where
  index : i ≤ es.length
  left : ∀ j s, i = j + 1 → es[j]? = some s → s.key ≤ key
  right : ∀ s, es[i]? = some s → key < s.key

section Child

variable {ps : UInt32} {pg : Page} {hdr : InternalPageHeader} {es : List InternalEntry} {key : Key}

theorem inSpan_of_cut {lo hi : List InternalEntry} (hlo : ∀ e ∈ lo, e.key ≤ key)
    (hhi : ∀ e ∈ hi, key < e.key) : InSpan (lo ++ hi) key lo.length where
  index := by rw [List.length_append]; omega
  left j s hj hs := by
    rw [List.getElem?_append_left (by omega)] at hs
    exact hlo s (List.mem_of_getElem? hs)
  right s hs := by
    rw [List.getElem?_append_right (Nat.le_refl _)] at hs
    exact hhi s (List.mem_of_getElem? hs)

/-- In a sorted node the index of the interval is the number of separators up to the key. -/
theorem InSpan.eq_countP {i : Nat} (hi : InSpan es key i) (h : Increasing InternalEntry.key es) :
    i = es.countP fun e => decide (e.key ≤ key) := by
  have hcut : es.take i ++ es.drop i = es := List.take_append_drop i es
  have hlen : (es.take i).length = i := by rw [List.length_take]; have := hi.index; omega
  rw [← hcut] at h
  obtain ⟨hl, hr, hlr⟩ := List.pairwise_append.mp h
  -- the last separator on the left decides for all on the left, the first on the right for all
  -- on the right
  have hlo : ∀ e ∈ es.take i, decide (e.key ≤ key) = true := by
    intro e he
    rw [decide_eq_true_eq]
    obtain ⟨j, hj, rfl⟩ := List.mem_iff_getElem.mp he
    have hlast := hi.left (i - 1) (es.take i)[i - 1] (by omega)
      (by rw [List.getElem_take]; exact List.getElem?_eq_getElem _)
    by_cases hji : j = i - 1
    · subst hji; exact hlast
    · have hlt := List.pairwise_iff_getElem.mp hl j (i - 1) hj (by omega) (by omega)
      exact UInt64.le_trans (UInt64.le_of_lt hlt) hlast
  have hhi : ∀ e ∈ es.drop i, decide (e.key ≤ key) = false := by
    intro e he
    rw [decide_eq_false_iff_not, UInt64.not_le]
    cases hd : es.drop i with
    | nil => rw [hd] at he; cases he
    | cons s rest =>
      have hfirst := hi.right s (by rw [← List.head?_drop, hd]; rfl)
      rw [hd] at he hr
      rcases List.mem_cons.mp he with rfl | he
      · exact hfirst
      · exact UInt64.lt_trans hfirst ((List.pairwise_cons.mp hr).1 e he)
  calc i = (es.take i).length := hlen.symm
    _ = (es.take i ++ es.drop i).countP _ := (countP_cut hlo hhi).symm
    _ = _ := by rw [hcut]

/-- `internal_child_for_key` takes the child whose interval holds the key. -/
theorem internalChildForKey_inSpan (his : InnerIs ps.toNat pg hdr es)
    (h : Increasing InternalEntry.key es) (pid : PageId) (key : Key) (db : Db) :
    ∃ i child, InSpan es key i ∧ (childIds pg)[i]? = some child ∧
      db.exec (internalChildForKey pid pg key) = .ok (child, db) := by
  have hbound := his.count_lt ps.toNat_lt
  rw [← his.count] at hbound
  -- the separators up to the key, and those above it
  obtain ⟨lo, hi, rfl, hlo, hhi⟩ := h.cut (fun k => decide (k ≤ key)) (fun a b hab hb => by
    simp only [decide_eq_true_eq] at *; exact UInt64.le_trans (UInt64.le_of_lt hab) hb)
  have hlo' : ∀ e ∈ lo, e.key ≤ key := fun e he => by simpa using hlo e he
  have hhi' : ∀ e ∈ hi, key < e.key := fun e he => by simpa using hhi e he
  have hidx := internalFind_append his.count hbound hlo' hhi'
  have hids : childIds pg = hdr.leftmostChildPageId :: (lo ++ hi).map (·.rightChildPageId) := by
    rw [childIds, his.header, show (16 : Nat) = internalBase from rfl, his.count, his.entries]
  -- the child taken has the index that the search returned
  have hrun : ∀ child, (childIds pg)[lo.length]? = some child →
      wpDb (internalChildForKey pid pg key) db (fun c db' => c = child ∧ db' = db)
        fun _ => False := by
    intro child hchild
    rw [hids] at hchild
    simp only [internalChildForKey, his.header, wpDb_bind, wpDb_inBounds_some his.read, wpDb_ite]
    cases hlen : lo.length with
    | zero =>
      -- no separator on the left: the leftmost child
      rw [hlen] at hidx hchild
      have h0 : internalFind (lo ++ hi) hdr.keyCount key = 0 := UInt32.toNat_inj.mp hidx
      rw [if_pos h0]
      exact ⟨Option.some.inj hchild, rfl⟩
    | succ n =>
      rw [hlen] at hidx hchild
      have h0 : internalFind (lo ++ hi) hdr.keyCount key ≠ 0 := fun h0 => by
        rw [h0] at hidx
        exact absurd hidx (by simp)
      have hpred := UInt32.toNat_pred (x := internalFind (lo ++ hi) hdr.keyCount key) (by omega)
      rw [hidx, Nat.add_sub_cancel] at hpred
      rw [if_neg h0]
      simp only [wpDb_note, wpDb_pure, hpred]
      have hn : n < (lo ++ hi).length := by rw [List.length_append]; omega
      refine ⟨?_, ?_, trivial⟩
      · simp only [EventOk, UInt32.lt_iff_toNat_lt, hpred, his.count]
        exact hn
      · rw [List.getElem?_cons_succ, List.getElem?_map, List.getElem?_eq_getElem hn] at hchild
        rw [List.getD_eq_getElem?_getD, List.getElem?_eq_getElem hn]
        exact Option.some.inj hchild
  have hlt : lo.length < (childIds pg).length := by
    rw [hids, List.length_cons, List.length_map, List.length_append]; omega
  have hchild := List.getElem?_eq_getElem hlt
  obtain ⟨c, db', hexec, rfl, rfl⟩ := wpDb_total (hrun _ hchild)
  exact ⟨lo.length, _, inSpan_of_cut hlo' hhi', hchild, hexec⟩

end Child

/-- The node loops of the tree on an arbitrary node with sorted entries: the two searches count
    the entries below, or not above, the key; insertion at the position found and removal at an
    index change the array by one entry and keep it sorted; the child taken for a key is the only
    one whose interval holds it. -/
theorem node_loops (ps : UInt32) (key : Key) :
    (∀ es count, count.toNat = es.length → count.toNat < 2 ^ 31 → Increasing LeafEntry.key es →
      (leafFind es count key).toNat = es.countP fun e => decide (e.key < key)) ∧
    (∀ es count, count.toNat = es.length → count.toNat < 2 ^ 31 →
      Increasing InternalEntry.key es →
      (internalFind es count key).toNat = es.countP fun e => decide (e.key ≤ key)) ∧
    (∀ pg hdr es, LeafIs ps.toNat pg hdr es → Increasing LeafEntry.key es →
      (∀ ref, (∀ e ∈ es, e.key ≠ key) →
        leafBase + (es.length + 1) * leafEntryC.size ≤ ps.toNat →
        ∃ pg', leafInsertEntry pg hdr key ref = some pg' ∧
          LeafIs ps.toNat pg' { hdr with keyCount := hdr.keyCount + 1 }
            (es.insertIdx (leafFind es hdr.keyCount key).toNat ⟨key, ref⟩) ∧
          Increasing LeafEntry.key
            (es.insertIdx (leafFind es hdr.keyCount key).toNat ⟨key, ref⟩)) ∧
      ∀ idx < hdr.keyCount, ∃ pg', deleteEntryFromLeaf pg hdr idx = some pg' ∧
        LeafIs ps.toNat pg' { hdr with keyCount := hdr.keyCount - 1 } (es.eraseIdx idx.toNat) ∧
        Increasing LeafEntry.key (es.eraseIdx idx.toNat)) ∧
    (∀ pg hdr es, InnerIs ps.toNat pg hdr es → Increasing InternalEntry.key es →
      (∀ idx < hdr.keyCount, ∃ pg', deleteEntryFromInternal pg hdr idx = some pg' ∧
        InnerIs ps.toNat pg' { hdr with keyCount := hdr.keyCount - 1 } (es.eraseIdx idx.toNat) ∧
        Increasing InternalEntry.key (es.eraseIdx idx.toNat)) ∧
      ∀ pid (db : Db), ∃ i child, InSpan es key i ∧ (∀ j, InSpan es key j → j = i) ∧
        (childIds pg)[i]? = some child ∧
        db.exec (internalChildForKey pid pg key) = .ok (child, db)) := by
  refine ⟨fun es count => leafFind_eq_countP key, fun es count => internalFind_eq_countP key,
    fun pg hdr es his h => ⟨fun ref hnew hroom => ?_, fun idx hidx => ?_⟩,
    fun pg hdr es his h => ⟨fun idx hidx => ?_, fun pid db => ?_⟩⟩
  · exact leafInsertEntry_increasing his h key ref hnew hroom
  · obtain ⟨pg', hrun, his'⟩ := deleteEntryFromLeaf_eraseIdx his hidx
    exact ⟨pg', hrun, his', h.eraseIdx _⟩
  · obtain ⟨pg', hrun, his'⟩ := deleteEntryFromInternal_eraseIdx his hidx
    exact ⟨pg', hrun, his', h.eraseIdx _⟩
  · -- any interval that holds the key has the index that is counted
    obtain ⟨i, child, hi, hchild, hexec⟩ := internalChildForKey_inSpan his h pid key db
    exact ⟨i, child, hi, fun j hj => (hj.eq_countP h).trans (hi.eq_countP h).symm, hchild, hexec⟩

/-- The key 20 goes between 10 and 30. -/
theorem node_loops_twenty :
    ∃ pg pg' : Page, leafInsertEntry pg ⟨PageType.leaf.code, 0, 2, 0, 0⟩ 20 ⟨3, 2⟩ = some pg' ∧
      LeafIs 64 pg' ⟨PageType.leaf.code, 0, 3, 0, 0⟩
        [⟨10, ⟨3, 0⟩⟩, ⟨20, ⟨3, 2⟩⟩, ⟨30, ⟨3, 1⟩⟩] := by
  have hlen : (zeroPage 64).length = 64 := by decide
  obtain ⟨-, pg, -, -, his⟩ := LeafIs.of_write ⟨PageType.leaf.code, 0, 2, 0, 0⟩
    [⟨10, ⟨3, 0⟩⟩, ⟨30, ⟨3, 1⟩⟩] hlen rfl (by decide) (by decide)
  obtain ⟨pg', hrun, his', -⟩ := ((node_loops 64 20).2.2.1 pg _ _ his (by simp [Increasing])).1 ⟨3, 2⟩
    (by decide) (by decide)
  exact ⟨pg, pg', hrun, his'⟩

end MiniDb
