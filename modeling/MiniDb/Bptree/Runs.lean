import MiniDb.Lib.Runs
import MiniDb.Bptree.DeleteSpec

/-!
# Runs of the tree

Insertions and deletions in any order from the empty root leaf.  As an abstract machine the
tree is a map from keys to rows; the invariant holds along every run in which no
deletion leaves a leaf short below a parent without separators.

## Key results

- `TreeOp.step_spec`: every call acts on the stored map as a map
- `treeRun_events_ok_iff`: everything done in a run is in order exactly if its deletions are
  safe
- `treeRun_underflow`: a run with an unsafe deletion
-/

namespace MiniDb

open Bytes Lists Runs

/-! ## The tree as a map -/

/-- The calls on the tree -/
inductive TreeOp where
  | insert (key : Key) (ref : RowRef)
  | delete (key : Key)
  deriving DecidableEq

namespace TreeOp

def routine : TreeOp → Routine Int
  | insert key ref => bptreeInsert key ref
  | delete key => bptreeDelete key

def step (op : TreeOp) (db : Db) : Except Fault (Int × Db) := db.exec op.routine

/-- A deletion must find a separator where it needs one. -/
def Safe : TreeOp → Db → Prop
  | insert .., _ => True
  | delete key, db => DeleteSafe db key

/-- What a call answers, and what it makes of the map -/
def spec : TreeOp → (Key → Option RowRef) → Int → (Key → Option RowRef) → Prop
  | insert key ref, m, r, m' =>
    (m key ≠ none ∧ r = -1 ∧ m' = m) ∨
    (m key = none ∧ r = 0 ∧ m' = Function.update m key (some ref))
  | delete key, m, r, m' =>
    (m key = none ∧ r = -1 ∧ m' = m) ∨
    (m key ≠ none ∧ r = 0 ∧ m' = Function.update m key none)

end TreeOp

theorem lookup_eq_none_iff {es : List LeafEntry} {key : Key} :
    lookup es key = none ↔ ∀ e ∈ es, e.key ≠ key := by
  simp [lookup]

/-- An entry is found when the keys differ. -/
theorem lookup_append_cons {es es' : List LeafEntry} {e : LeafEntry}
    (h : (es ++ e :: es').Pairwise fun a b => a.key < b.key) :
    lookup (es ++ e :: es') = Function.update (lookup (es ++ es')) e.key (some e.rowRef) := by
  have hes : ∀ a ∈ es, a.key ≠ e.key := fun a ha =>
    UInt64.ne_of_lt ((List.pairwise_append.mp h).2.2 a ha e (List.mem_cons_self ..))
  funext key
  rw [Function.update_apply]
  by_cases hkey : key = e.key
  · have hnone : es.find? (fun a => a.key = e.key) = none :=
      List.find?_eq_none.mpr fun a ha => by simpa using hes a ha
    rw [if_pos hkey, hkey, lookup, List.find?_append, hnone, List.find?_cons_of_pos (by simp)]
    rfl
  · rw [if_neg hkey, lookup, lookup, List.find?_append, List.find?_append,
      List.find?_cons_of_neg (by simpa using Ne.symm hkey)]

theorem lookup_remove {es es' : List LeafEntry} {e : LeafEntry}
    (h : (es ++ e :: es').Pairwise fun a b => a.key < b.key) :
    lookup (es ++ es') = Function.update (lookup (es ++ e :: es')) e.key none := by
  have hnone : lookup (es ++ es') e.key = none := by
    obtain ⟨-, h2, h3⟩ := List.pairwise_append.mp h
    refine lookup_eq_none_iff.mpr fun a ha => ?_
    rcases List.mem_append.mp ha with ha | ha
    · exact UInt64.ne_of_lt (h3 a ha e (List.mem_cons_self ..))
    · exact (UInt64.ne_of_lt ((List.pairwise_cons.mp h2).1 a ha)).symm
  rw [lookup_append_cons h, Function.update_idem, ← hnone, Function.update_eq_self]

/-- The database stores the map `m` in a tree; apart from the tree it agrees with `db₀`. -/
def StoresMap (db₀ : Db) (others : List PageId) (m : Key → Option RowRef) (db : Db) : Prop :=
  ∃ t, TreeStep db₀ db t others ∧ lookup t.entries = m

theorem TreeStep.trans {db db' db'' : Db} {t t' : Tree} {others : List PageId}
    (h : TreeStep db db' t others) (h' : TreeStep db' db'' t' others) :
    TreeStep db db'' t' others :=
  ⟨h'.inv, h'.outside.trans h.outside, fun p hp => (h'.frame p hp).trans (h.frame p hp)⟩

section Step

variable {db₀ db : Db} {others : List PageId} {m : Key → Option RowRef}

/-- Every call acts on the stored map as a map, and everything it does is in order. -/
theorem TreeOp.wp_spec (op : TreeOp) (hcap : HoldsTwo db.fields.pageSize)
    (h : StoresMap db₀ others m db) (hsafe : op.Safe db) :
    wpDb op.routine db fun r db' => ∃ m', op.spec m r m' ∧ StoresMap db₀ others m' db' := by
  obtain ⟨t, hstep, rfl⟩ := h
  have hkeys := hstep.inv.keys_sorted
  have hstored : ∀ key, (∃ e ∈ t.entries, e.key = key) → lookup t.entries key ≠ none := by
    rintro key ⟨e, he, hkey⟩ hnone
    exact lookup_eq_none_iff.mp hnone e he hkey
  cases op with
  | insert key ref =>
    refine wpDb_mono (bptreeInsert_spec hcap hstep.inv key ref) ?_
    rintro r db' (⟨hmem, rfl, rfl⟩ | ⟨hnew, rfl, t', es, es', hstep', hes, hes'⟩)
    · exact ⟨_, Or.inl ⟨hstored key hmem, rfl, rfl⟩, t, hstep, rfl⟩
    · refine ⟨_, Or.inr ⟨lookup_eq_none_iff.mpr hnew, rfl, rfl⟩, t', hstep.trans hstep', ?_⟩
      have hkeys' := hstep'.inv.keys_sorted
      rw [hes'] at hkeys'
      rw [hes', hes]
      exact lookup_append_cons hkeys'
  | delete key =>
    refine wpDb_mono (bptreeDelete_spec hcap hstep.inv key hsafe) ?_
    rintro r db' (⟨hnone, rfl, rfl⟩ | ⟨rfl, t', es, e, es', hstep', rfl, hes, hes'⟩)
    · exact ⟨_, Or.inl ⟨lookup_eq_none_iff.mpr hnone, rfl, rfl⟩, t, hstep, rfl⟩
    · refine ⟨_, Or.inr ⟨hstored _ ⟨e, by rw [hes]; simp, rfl⟩, rfl, rfl⟩, t',
        hstep.trans hstep', ?_⟩
      rw [hes] at hkeys
      rw [hes', hes]
      exact lookup_remove hkeys

theorem TreeOp.step_spec (op : TreeOp) (hcap : HoldsTwo db.fields.pageSize)
    (h : StoresMap db₀ others m db) (hsafe : op.Safe db) :
    (∀ r db', op.step db = .ok (r, db') →
      ∃ m', op.spec m r m' ∧ StoresMap db₀ others m' db') ∧
    ∀ e, op.step db = .error e → e = .idsExhausted :=
  wpDb_exec (op.wp_spec hcap h hsafe)

/-- The tree holds its map in the sense of the abstract machine: a call is safe exactly if
    everything it does is in order. -/
theorem TreeOp.events_ok_iff (op : TreeOp) (hcap : HoldsTwo db.fields.pageSize)
    (h : StoresMap db₀ others m db) :
    (∀ e ∈ db.events op.routine, EventOk e.1 e.2) ↔ op.Safe db := by
  refine ⟨fun hevents => ?_, fun hsafe => wpDb_events (op.wp_spec hcap h hsafe)⟩
  obtain ⟨t, hstep, -⟩ := h
  cases op with
  | insert key ref => trivial
  | delete key => exact deleteSafe_of_wpDb hstep.inv.toTreeShape (wpDb_of_events hevents)

end Step

/-! ## The empty tree -/

/-- The root leaf that `pager_open` writes -/
def emptyTree : Tree := ⟨[⟨none, 2, []⟩], []⟩

/-- In a new database the tree is empty, and page 1 is the first heap page. -/
theorem fresh_treeInv {pageSize : UInt32} (hcap : HoldsTwo pageSize) :
    TreeInv (Db.fresh pageSize) emptyTree [1] := by
  have h48 := hcap.le_pageSize
  have hlen : (zeroPage pageSize).length = pageSize.toNat := length_zeroPage _
  have hleaf : LeafIs pageSize.toNat (freshPage pageSize 2) emptyLeafHeader [] :=
    (LeafIs.of_put emptyLeafHeader [] hlen rfl rfl rfl (by
      simp only [leafBase, List.length_nil]
      omega)).2
  refine ⟨⟨⟨[], rfl, by decide, fun p => ?_⟩, ⟨⟨0, 0, hleaf⟩, trivial⟩, by simp [emptyTree, Leaf.marks],
    ⟨rfl, hleaf.parentOf⟩⟩, fun hlevels => absurd rfl hlevels⟩
  have hbound : idBound (Db.fresh pageSize) = 3 := rfl
  rw [hbound]
  simp only [emptyTree, Tree.pids, Tree.inners, List.map_cons, List.map_nil, List.flatten_nil,
    List.append_nil, List.cons_append, List.nil_append, List.mem_cons, List.not_mem_nil, or_false,
    ne_eq, ← UInt32.toNat_inj]
  show p.toNat = 2 ∨ p.toNat = 1 ↔ ¬ p.toNat = 0 ∧ p.toNat < 3
  omega

theorem fresh_storesMap {pageSize : UInt32} (hcap : HoldsTwo pageSize) :
    StoresMap (Db.fresh pageSize) [1] (fun _ => none) (Db.fresh pageSize) :=
  ⟨emptyTree, ⟨fresh_treeInv hcap, rfl, fun _ _ => rfl⟩, rfl⟩

/-! ## Whole runs -/

section Run

variable {pageSize : UInt32}

/-- The page size never changes. -/
theorem StoresMap.holdsTwo {db₀ db : Db} {others : List PageId} {m : Key → Option RowRef}
    (hcap : HoldsTwo db₀.fields.pageSize) (h : StoresMap db₀ others m db) :
    HoldsTwo db.fields.pageSize := by
  obtain ⟨t, hstep, -⟩ := h
  rw [outside_pageSize hstep.outside]
  exact hcap

/-- The calls of a run whose deletions are safe so far find a tree. -/
theorem calls_storesMap {db₀ : Db} {others : List PageId} (hcap : HoldsTwo db₀.fields.pageSize)
    (ops : List TreeOp) :
    ∀ {m : Key → Option RowRef} {db : Db}, StoresMap db₀ others m db →
      ((∀ c ∈ calls TreeOp.step ops db, ∀ e ∈ c.2.events c.1.routine, EventOk e.1 e.2) ↔
        ∀ c ∈ calls TreeOp.step ops db, c.1.Safe c.2) := by
  induction ops with
  | nil => intro m db _; simp [calls]
  | cons op ops ih =>
    intro m db h
    have hcap' := h.holdsTwo hcap
    simp only [calls, List.forall_mem_cons]
    rw [op.events_ok_iff hcap' h]
    refine and_congr_right fun hsafe => ?_
    cases hop : op.step db with
    | error e => simp
    | ok rs =>
      obtain ⟨m', -, h'⟩ := (op.step_spec hcap' h hsafe).1 rs.1 rs.2 hop
      exact ih h'

/-- Everything done in a run from the empty tree is in order exactly if every deletion is
    safe. -/
theorem treeRun_events_ok_iff (hcap : HoldsTwo pageSize) (ops : List TreeOp) :
    (∀ c ∈ calls TreeOp.step ops (Db.fresh pageSize),
      ∀ e ∈ c.2.events c.1.routine, EventOk e.1 e.2) ↔
    ∀ c ∈ calls TreeOp.step ops (Db.fresh pageSize), c.1.Safe c.2 :=
  calls_storesMap hcap ops (fresh_storesMap hcap)

end Run

/-- Three insertions split the root; the first deletion leaves a leaf empty, which borrows from its
    sibling, and the second one merges the leaves again. -/
def splitMergeRun : List TreeOp :=
  [.insert 1 ⟨1, 0⟩, .insert 2 ⟨1, 1⟩, .insert 3 ⟨1, 2⟩, .delete 1, .delete 2]

theorem treeRun_events_ok_iff_48 :
    ((calls TreeOp.step splitMergeRun (Db.fresh 48)).flatMap
      fun c => (c.2.events c.1.routine).map Prod.fst).count (.underflow 2 4 1) = 2 ∧
    ((∀ c ∈ calls TreeOp.step splitMergeRun (Db.fresh 48),
      ∀ e ∈ c.2.events c.1.routine, EventOk e.1 e.2) ↔
    ∀ c ∈ calls TreeOp.step splitMergeRun (Db.fresh 48), c.1.Safe c.2) :=
  ⟨by decide +kernel, treeRun_events_ok_iff ⟨by decide, by decide⟩ _⟩

/-- Five insertions build a tree of height 3; the first deletion takes the only separator of
    a node below the root, and the second one finds none. -/
def lostSeparatorRun : List TreeOp :=
  [.insert 1 ⟨1, 0⟩, .insert 2 ⟨1, 1⟩, .insert 3 ⟨1, 2⟩, .insert 4 ⟨1, 3⟩, .insert 5 ⟨1, 4⟩,
    .delete 1, .delete 2]

theorem treeRun_underflow : HoldsTwo 48 ∧
    ¬ ∀ c ∈ calls TreeOp.step lostSeparatorRun (Db.fresh 48),
      ∀ e ∈ c.2.events c.1.routine, EventOk e.1 e.2 := by
  refine ⟨⟨by decide, by decide⟩, fun h => ?_⟩
  have hmem : Event.underflow 2 4 0 ∈ (calls TreeOp.step lostSeparatorRun (Db.fresh 48)).flatMap
      fun c => (c.2.events c.1.routine).map Prod.fst := by decide +kernel
  obtain ⟨c, hc, he⟩ := List.mem_flatMap.mp hmem
  obtain ⟨e, he, hev⟩ := List.mem_map.mp he
  have hok := h c hc e he
  rw [hev] at hok
  exact hok rfl

end MiniDb
