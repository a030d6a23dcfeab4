import MiniDb.Bptree.WellFormed

/-!
# Single calls on any well-formed tree

An insertion or a deletion started in any database that holds a well-formed tree, whether a run
of the program leads there or not.  Internal nodes may have any number of separators.

## Key results

- `bptreeInsert_stored`, `bptreeDelete_stored`
-/

namespace MiniDb

open Bytes Lists Runs

/-! ## What a call makes of a tree -/

/-- The pages that are neither in a tree of height `h` nor free, and the header fields of the
    rest of the database, are as before. -/
structure Untouched (db db' : Db) (h : Nat) : Prop where
  fields : db'.outside = db.outside
  pages : ∀ p, p ≠ 0 → p.toNat < idBound db → p ∉ nodesOf db h → p ∉ freePages db →
    db'.pages p = db.pages p

/-- Every other key is mapped to the row it was mapped to. -/
def KeepsOthers (db db' : Db) (key : Key) : Prop :=
  ∀ k, k ≠ key → ∃ r, db.exec (bptreeSearch k) = .ok (r, db) ∧
    db'.exec (bptreeSearch k) = .ok (r, db')

/-- An insertion has put the key into the tree. -/
structure Inserted (db db' : Db) (h h' : Nat) (key : Key) (ref : RowRef) : Prop where
  exec : db.exec (bptreeInsert key ref) = .ok (0, db')
  tree : StoredTree db' h'
  found : db'.exec (bptreeSearch key) = .ok (some ref, db')
  others : KeepsOthers db db' key
  untouched : Untouched db db' h

/-- A deletion has taken the key out of the tree; below the root, the parent of the leaf that
    held the key may have no separator left. -/
structure Deleted (db db' : Db) (h h' : Nat) (key : Key) : Prop where
  exec : db.exec (bptreeDelete key) = .ok (0, db')
  tree : StoredTree db' h'
  gone : db'.exec (bptreeSearch key) = .ok (none, db')
  others : KeepsOthers db db' key
  untouched : Untouched db db' h
  separated : ∃ leaf ∈ leavesOf db h, key ∈ leafKeys (db.pages leaf) ∧
    ∀ pid ∈ nodesOf db' h', pageType (db'.pages pid) = PageType.internal.code →
      (internalPageHeaderC.get (db'.pages pid) 0).keyCount = 0 →
      pid = parentOf (db.pages leaf) ∧ pid ≠ db'.header.rootIndexPageId

section Calls

variable {db : Db} {t : Tree} {others : List PageId}

theorem TreeShape.search_exec (h : TreeShape db t others) (key : Key) :
    db.exec (bptreeSearch key) = .ok (lookup t.entries key, db) := by
  obtain ⟨r, db', hexec, rfl, rfl⟩ := wpDb_total (bptreeSearch_spec h key)
  exact hexec

theorem TreeShape.mem_keysOf_iff (h : TreeShape db t others) {key : Key} :
    key ∈ keysOf db t.levels.length ↔ ∃ e ∈ t.entries, e.key = key := by
  rw [h.keysOf_eq, List.mem_map]

/-- Two trees whose maps differ at one key only -/
theorem keepsOthers_of_lookup {db' : Db} {t' : Tree} {others' : List PageId}
    (h : TreeShape db t others) (h' : TreeShape db' t' others') {key : Key} {r : Option RowRef}
    (hlookup : lookup t'.entries = Function.update (lookup t.entries) key r) :
    KeepsOthers db db' key := by
  intro k hk
  refine ⟨_, h.search_exec k, ?_⟩
  rw [h'.search_exec k, hlookup, Function.update_of_ne hk]

/-- On every well-formed tree an insertion refuses a stored key and adds any other. -/
theorem bptreeInsert_stored {h : Nat} (hcap : HoldsTwo db.fields.pageSize) (hdb : StoredTree db h)
    (hids : h + 2 ≤ (freePages db).length + (2 ^ 32 - idBound db)) (key : Key) (ref : RowRef) :
    (key ∈ keysOf db h → db.exec (bptreeInsert key ref) = .ok (-1, db)) ∧
    (key ∉ keysOf db h → ∃ db' h', Inserted db db' h h' key ref) := by
  obtain ⟨t, others, hshape, rfl, hlen, hothers⟩ := hdb.exists_shape hcap
  -- the nodes, the other pages and the free ones are all the ids below the bound
  have hroom : IdsFor (fun _ => False) ((t.pids ++ others).length + t.levels.length + 2) := by
    have hle := idBound_le db
    refine ⟨id, Or.inr ?_⟩
    omega
  obtain ⟨r, db', hexec, hrun⟩ := wpDb_total (bptreeInsert_shape hcap hshape key ref hroom)
  rw [hshape.mem_keysOf_iff]
  constructor
  · intro hmem
    rcases hrun with ⟨-, rfl, rfl⟩ | ⟨habsent, -⟩
    · exact hexec
    · obtain ⟨e, he, hkey⟩ := hmem
      exact absurd hkey (habsent e he)
  · intro habsent
    rcases hrun with ⟨hmem, -⟩ | ⟨-, rfl, t', es, es', hstep, -, hes, hes'⟩
    · exact absurd hmem habsent
    have hcap' : HoldsTwo db'.fields.pageSize := by
      rw [outside_pageSize hstep.outside]
      exact hcap
    -- the search reads the entries as a map
    have hlookup : lookup t'.entries =
        Function.update (lookup t.entries) key (some ref) := by
      have hkeys := hstep.shape.keys_sorted
      rw [hes'] at hkeys
      rw [hes, hes']
      exact lookup_append_cons hkeys
    refine ⟨db', t'.levels.length, hexec, hstep.shape.storedTree hcap', ?_,
      keepsOthers_of_lookup hshape hstep.shape hlookup, hstep.outside, fun p hp hlt htree hfree => ?_⟩
    · rw [hstep.shape.search_exec, hlookup, Function.update_self]
    · exact hstep.frame p ((hothers p).mpr ⟨hp, hlt, htree, hfree⟩)

/-- On every well-formed tree whose internal nodes have separators a deletion reports an absent
    key and removes any other. -/
theorem bptreeDelete_stored {h : Nat} (hcap : HoldsTwo db.fields.pageSize) (hdb : StoredTree db h)
    (hsep : Separated db) (key : Key) :
    (key ∉ keysOf db h → db.exec (bptreeDelete key) = .ok (-1, db)) ∧
    (key ∈ keysOf db h → ∃ db' h', Deleted db db' h h' key) := by
  obtain ⟨t, others, hshape, rfl, -, hothers⟩ := hdb.exists_shape hcap
  obtain ⟨r, db', hexec, hrun⟩ := wpDb_total
    (bptreeDelete_shape hcap hshape key (hsep.deleteSafe hshape key))
  rw [hshape.mem_keysOf_iff]
  constructor
  · intro habsent
    rcases hrun with ⟨-, rfl, rfl⟩ | ⟨-, t', es, e, es', -, -, -, hkey, hes, -⟩
    · exact hexec
    · exact absurd ⟨e, by rw [hes]; simp, hkey⟩ habsent
  · rintro ⟨e₀, he₀, hkey₀⟩
    rcases hrun with ⟨habsent, -⟩ | ⟨rfl, t', es, e, es', hstep, -, hparent, rfl, hes, hes'⟩
    · exact absurd hkey₀ (habsent e₀ he₀)
    have hcap' : HoldsTwo db'.fields.pageSize := by
      rw [outside_pageSize hstep.outside]
      exact hcap
    -- the search reads the entries as a map
    have hlookup : lookup t'.entries = Function.update (lookup t.entries) e.key none := by
      have hkeys := hshape.keys_sorted
      rw [hes] at hkeys
      rw [hes, hes']
      exact lookup_remove hkeys
    -- every node below the root has a separator to begin with
    have hents : ∀ n ∈ t.inners, n.ents ≠ [] := by
      intro n hn hnil
      obtain ⟨par, cnt, his⟩ := hshape.innerAt hn
      have hcount := his.count
      rw [hnil] at hcount
      refine hsep n.pid (hshape.treeReach_iff.mpr (TreeShape.inner_mem_pids hn)) his.pageType ?_
      rw [his.header]
      exact UInt32.toNat_inj.mp hcount
    obtain ⟨l, hl, hel, hbut⟩ := hparent hents
    obtain ⟨p, n, par, cnt, his⟩ := hshape.leafAt hl
    refine ⟨db', t'.levels.length, hexec, hstep.shape.storedTree hcap', ?_,
      keepsOthers_of_lookup hshape hstep.shape hlookup,
      ⟨hstep.outside, fun p hp hlt htree hfree => hstep.frame p ((hothers p).mpr ⟨hp, hlt, htree, hfree⟩)⟩,
      l.pid, ?_, ?_, fun pid hpid htype hzero => ?_⟩
    · rw [hstep.shape.search_exec, hlookup, Function.update_self]
    · rw [hshape.leavesOf_eq]
      exact List.mem_map_of_mem hl
    · rw [his.leafKeys]
      exact List.mem_map_of_mem hel
    · -- a node without separators is the one the shape allows
      rcases List.mem_append.mp (hstep.shape.nodesOf_perm.mem_iff.mp hpid) with hpid | hpid
      · obtain ⟨l', hl', rfl⟩ := List.mem_map.mp hpid
        rw [hstep.shape.leaf_type hl'] at htype
        exact absurd (PageType.code_injective htype) (by decide)
      · obtain ⟨n', hn', rfl⟩ := List.mem_map.mp hpid
        apply hbut n' hn'
        obtain ⟨par', cnt', his'⟩ := hstep.shape.innerAt hn'
        have hcount := his'.count
        rw [his'.header] at hzero
        have hzero' : cnt' = 0 := hzero
        rw [hzero'] at hcount
        exact List.eq_nil_of_length_eq_zero hcount.symm

end Calls

/-! ## Trees that grow from the empty one -/

/-- The database at the end of a run; a run that fails leaves nothing. -/
def treeAfter (pageSize : UInt32) (ops : List TreeOp) : Db :=
  match runAll TreeOp.step ops (Db.fresh pageSize) with
  | .ok (_, db) => db
  | .error _ => Db.fresh pageSize

/-- A run in which every internal node keeps a separator ends in a well-formed tree. -/
theorem treeAfter_stored {pageSize : UInt32} {ops : List TreeOp} (hcap : HoldsTwo pageSize)
    (hsep : ∀ c ∈ calls TreeOp.step ops (Db.fresh pageSize), Separated c.2) :
    HoldsTwo (treeAfter pageSize ops).fields.pageSize ∧
      ∃ h, (treeAfter pageSize ops).exec bptreeHeight = .ok (h + 1, treeAfter pageSize ops) ∧
        StoredTree (treeAfter pageSize ops) h := by
  unfold treeAfter
  cases hrun : runAll TreeOp.step ops (Db.fresh pageSize) with
  | error e =>
    have hinv := fresh_treeInv hcap
    exact ⟨hcap, 0, bptreeHeight_exec hinv.toTreeShape, hinv.storedTree hcap⟩
  | ok r =>
    obtain ⟨t, hstep, -⟩ := (treeRun_spec hcap hsep).1 r.1 r.2 hrun
    have hcap' : HoldsTwo r.2.fields.pageSize := by
      rw [outside_pageSize hstep.outside]
      exact hcap
    exact ⟨hcap', t.levels.length, bptreeHeight_exec hstep.inv.toTreeShape,
      hstep.inv.storedTree hcap'⟩

theorem exec_value {α : Type} {p : Routine α} {db db' : Db} {a b : α}
    (h : db.exec p = .ok (a, db')) (hb : (db.exec p).map Prod.fst = .ok b) : a = b := by
  rw [h] at hb
  exact Except.ok.inj hb

/-- Five insertions, which make a tree of height 2 -/
def growRun : List TreeOp :=
  [.insert 1 ⟨1, 0⟩, .insert 2 ⟨1, 1⟩, .insert 3 ⟨1, 2⟩, .insert 4 ⟨1, 3⟩, .insert 5 ⟨1, 4⟩]

def grownTree : Db := treeAfter 48 growRun

theorem grownTree_stored : HoldsTwo grownTree.fields.pageSize ∧ StoredTree grownTree 2 := by
  have hcheck : ∀ c ∈ calls TreeOp.step growRun (Db.fresh 48),
      separatedBelow c.2 4 c.2.header.rootIndexPageId = true := by decide +kernel
  have hheight : ((treeAfter 48 growRun).exec bptreeHeight).map Prod.fst = .ok 3 := by
    decide +kernel
  obtain ⟨hcap, h, hexec, hstored⟩ := @treeAfter_stored 48 growRun ⟨by decide, by decide⟩
    fun c hc => Separated.of_check (hcheck c hc)
  obtain rfl : h = 2 := Nat.succ.inj (exec_value hexec hheight)
  rw [grownTree]
  exact ⟨hcap, hstored⟩

theorem bptreeInsert_stored_48 :
    (6 ∈ keysOf grownTree 2 → grownTree.exec (bptreeInsert 6 ⟨1, 5⟩) = .ok (-1, grownTree)) ∧
    (6 ∉ keysOf grownTree 2 → ∃ db' h', Inserted grownTree db' 2 h' 6 ⟨1, 5⟩) :=
  bptreeInsert_stored grownTree_stored.1 grownTree_stored.2 (by decide +kernel) 6 ⟨1, 5⟩

theorem bptreeDelete_stored_48 :
    (1 ∉ keysOf grownTree 2 → grownTree.exec (bptreeDelete 1) = .ok (-1, grownTree)) ∧
    (1 ∈ keysOf grownTree 2 → ∃ db' h', Deleted grownTree db' 2 h' 1) := by
  have hsep : separatedBelow grownTree 4 grownTree.header.rootIndexPageId = true := by
    decide +kernel
  exact bptreeDelete_stored grownTree_stored.1 grownTree_stored.2 (Separated.of_check hsep) 1

end MiniDb
