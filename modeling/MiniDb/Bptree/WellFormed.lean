import MiniDb.Bptree.Invariants

/-!
# Well-formed trees

What a tree is, said of the pages alone: every node is checked against the separators
around it, from the root down.  The shape of the tree, which lists leaves and levels, says the
same.

## Key results

- `StoredTree.exists_shape`: the leaves and the levels of a well-formed tree
- `TreeShape.storedTree`: a tree with leaves and levels is well-formed
-/

namespace MiniDb

open Bytes Lists Chains

/-! ## Nodes between two bounds -/

/-- The entries on a leaf page -/
def leafEntries (pg : Page) : List LeafEntry :=
  leafEntryC.listAt leafBase pg (leafPageHeaderC.get pg 0).keyCount.toNat

/-- The entries on an internal page -/
def internalEntries (pg : Page) : List InternalEntry :=
  internalEntryC.listAt internalBase pg (internalPageHeaderC.get pg 0).keyCount.toNat

/-- The separators on an internal page -/
def separators (pg : Page) : List Key := (internalEntries pg).map (·.key)

/-- The leaf in the page of a child -/
def leafOf (db : Db) (c : Child) : Leaf := ⟨c.fence, c.pid, leafEntries (db.pages c.pid)⟩

/-- The internal node in the page of a child -/
def innerOf (db : Db) (c : Child) : Inner :=
  ⟨c.fence, c.pid, (internalPageHeaderC.get (db.pages c.pid) 0).leftmostChildPageId,
    internalEntries (db.pages c.pid)⟩

/-- The page of `c` is a leaf; its keys increase, from the separator on its left on and below
    the separator `hi` on its right, where there are such separators. -/
structure LeafOk (db : Db) (c : Child) (hi : Option Key) : Prop where
  length : (db.pages c.pid).length = db.ps
  type : pageType (db.pages c.pid) = PageType.leaf.code
  capacity : (leafPageHeaderC.get (db.pages c.pid) 0).keyCount ≤ maxLeafKeys db.fields.pageSize
  sorted : (leafKeys (db.pages c.pid)).Pairwise (· < ·)
  above : ∀ s ∈ c.fence, ∀ k ∈ leafKeys (db.pages c.pid), s ≤ k
  below : ∀ s ∈ hi, ∀ k ∈ leafKeys (db.pages c.pid), k < s

/-- The page of `c` is an internal node; its separators increase, strictly between the
    separators on its left and right, and its children name it as their parent. -/
structure InnerOk (db : Db) (c : Child) (hi : Option Key) : Prop where
  length : (db.pages c.pid).length = db.ps
  type : pageType (db.pages c.pid) = PageType.internal.code
  capacity : (internalPageHeaderC.get (db.pages c.pid) 0).keyCount ≤
    maxInternalKeys db.fields.pageSize
  sorted : (separators (db.pages c.pid)).Pairwise (· < ·)
  above : ∀ s ∈ c.fence, ∀ k ∈ separators (db.pages c.pid), s < k
  below : ∀ s ∈ hi, ∀ k ∈ separators (db.pages c.pid), k < s
  parents : ∀ d ∈ childIds (db.pages c.pid), parentOf (db.pages d) = c.pid

/-- The page of `c` is the root of a tree of height `h` between the separators on its left and
    right.  The first child of a node inherits the bound on its left, the last one the bound on
    its right. -/
def NodeOk (db : Db) : Nat → Child → Option Key → Prop
  | 0, c, hi => LeafOk db c hi
  | h + 1, c, hi => InnerOk db c hi ∧
      ∀ d ∈ spans Child.fence (innerOf db c).children hi, NodeOk db h d.1 d.2

/-- The pages met on the ways down from node `pid`, a node of height below `n` -/
def nodesBelow (db : Db) : Nat → PageId → List PageId
  | 0, _ => []
  | n + 1, pid =>
    if pageType (db.pages pid) = PageType.leaf.code then [pid]
    else pid :: (childIds (db.pages pid)).flatMap (nodesBelow db n)

/-- The pages met on the ways down from the root in a tree of height `h` -/
def nodesOf (db : Db) (h : Nat) : List PageId := nodesBelow db (h + 1) db.header.rootIndexPageId

/-- The leaves of a tree of height `h` from left to right -/
def leavesOf (db : Db) (h : Nat) : List PageId :=
  leavesBelow db (h + 1) db.header.rootIndexPageId

/-- The keys stored in a tree of height `h` -/
def keysOf (db : Db) (h : Nat) : List Key :=
  (leavesOf db h).flatMap fun pid => leafKeys (db.pages pid)

/-- The database holds a tree of height `h`: every node is in order and met once. -/
structure WellFormed (db : Db) (h : Nat) : Prop where
  node : NodeOk db h ⟨none, db.header.rootIndexPageId⟩ none
  root : parentOf (db.pages db.header.rootIndexPageId) = 0
  once : (nodesOf db h).Nodup

/-- The pages are linked in both directions, between `prev` and `next`. -/
def Linked (db : Db) : PageId → List PageId → PageId → Prop
  | _, [], _ => True
  | prev, pid :: pids, next =>
    prevLeaf db pid = prev ∧ nextLeaf db pid = pids.headD next ∧ Linked db pid pids next

/-- The free list ends, and neither a page on it nor an id still to be handed out belongs to
    the tree. -/
structure FreeListOk (db : Db) (tree : List PageId) : Prop where
  chain : FreeChain db.ps db.pages db.header.freePageHead (freePages db)
  disjoint : (tree ++ freePages db).Nodup
  ids : ∀ p ∈ tree ++ freePages db, p ≠ 0 ∧ p.toNat < idBound db

/-- A well-formed tree with linked leaves, and an allocator that keeps off it -/
structure StoredTree (db : Db) (h : Nat) : Prop extends WellFormed db h where
  linked : Linked db 0 (leavesOf db h) 0
  free : FreeListOk db (nodesOf db h)

/-! ## Bounds and marks -/

/-- The marks increase from the fence `lo` on and end before the fence `hi`. -/
structure Between (lo hi : Option Key) (marks : List Nat) : Prop where
  sorted : (fenceMark lo :: marks).Pairwise (· < ·)
  below : ∀ s ∈ hi, ∀ m ∈ marks, m < fenceMark (some s)

/-- The marks along a row increase exactly if the fences do and the marks of each child lie
    between the fences around it. -/
theorem pairwise_iff_between (marks : Child → List Nat) (row : List Child) :
    (row.flatMap fun c => fenceMark c.fence :: marks c).Pairwise (· < ·) ↔
      Ordered (row.map (·.fence)) ∧
        ∀ c ∈ spans Child.fence row none, Between c.1.fence c.2 (marks c.1) := by
  induction row with
  | nil => simp [Ordered, spans]
  | cons c row ih =>
    have hfence : ∀ d ∈ row, fenceMark d.fence ∈
        row.flatMap fun c => fenceMark c.fence :: marks c := fun d hd =>
      List.mem_flatMap.mpr ⟨d, hd, List.mem_cons_self ..⟩
    have hord : Ordered ((c :: row).map (·.fence)) ↔
        (∀ f ∈ row.map (·.fence), fenceMark c.fence < fenceMark f) ∧
          Ordered (row.map (·.fence)) := List.pairwise_cons
    have hspans : (∀ d ∈ spans Child.fence (c :: row) none, Between d.1.fence d.2 (marks d.1)) ↔
        Between c.fence (headBound Child.fence row none) (marks c) ∧
          ∀ d ∈ spans Child.fence row none, Between d.1.fence d.2 (marks d.1) :=
      List.forall_mem_cons
    rw [List.flatMap_cons, List.pairwise_append, ih, hord, hspans]
    constructor
    · rintro ⟨hc, ⟨hord, hrow⟩, hlt⟩
      refine ⟨⟨fun f hf => ?_, hord⟩, ⟨hc, fun s hs m hm => ?_⟩, hrow⟩
      · obtain ⟨d, hd, rfl⟩ := List.mem_map.mp hf
        exact hlt _ (List.mem_cons_self ..) _ (hfence d hd)
      · cases row with
        | nil => exact absurd hs (Option.not_mem_none s)
        | cons d row =>
          have hd : d.fence = some s := hs
          rw [← hd]
          exact hlt m (List.mem_cons_of_mem _ hm) _ (hfence d (List.mem_cons_self ..))
    · rintro ⟨⟨hfirst, hord⟩, hc, hrow⟩
      refine ⟨hc.sorted, ⟨hord, hrow⟩, fun a ha b hb => ?_⟩
      cases row with
      | nil => exact absurd hb (List.not_mem_nil)
      | cons d row =>
        -- all marks behind `c` lie at the fence of `d` or behind it
        have hdb : fenceMark d.fence ≤ b := by
          have hsorted := ih.mpr ⟨hord, hrow⟩
          rw [List.flatMap_cons, List.cons_append, List.pairwise_cons] at hsorted
          rw [List.flatMap_cons, List.cons_append] at hb
          rcases List.mem_cons.mp hb with rfl | hb
          · exact Nat.le_refl _
          · exact Nat.le_of_lt (hsorted.1 b hb)
        have hcd : fenceMark c.fence < fenceMark d.fence := hfirst _ (List.mem_cons_self ..)
        rcases List.mem_cons.mp ha with rfl | ha
        · omega
        · cases hd : d.fence with
          | none =>
            rw [hd] at hcd
            exact absurd hcd (Nat.not_lt_zero _)
          | some s =>
            have := hc.below s (show d.fence = some s from hd) a ha
            rw [hd] at hdb
            omega

/-- Marks that keep the order of the keys, when a mark lies behind the fence of a key exactly
    for the keys in relation `r` to it -/
theorem between_iff {mark : Key → Nat} {r : Key → Key → Prop} (hpos : ∀ k, 0 < mark k)
    (hlt : ∀ {k k' : Key}, mark k < mark k' ↔ k < k')
    (hleft : ∀ {s k : Key}, fenceMark (some s) < mark k ↔ r s k)
    (hright : ∀ {k s : Key}, mark k < fenceMark (some s) ↔ k < s)
    {lo hi : Option Key} {keys : List Key} :
    Between lo hi (keys.map mark) ↔ keys.Pairwise (· < ·) ∧ (∀ s ∈ lo, ∀ k ∈ keys, r s k) ∧
      ∀ s ∈ hi, ∀ k ∈ keys, k < s := by
  have hmarks : (keys.map mark).Pairwise (· < ·) ↔ keys.Pairwise (· < ·) := by
    rw [List.pairwise_map]
    exact ⟨fun h => h.imp hlt.mp, fun h => h.imp hlt.mpr⟩
  have hlo : (∀ m ∈ keys.map mark, fenceMark lo < m) ↔ ∀ s ∈ lo, ∀ k ∈ keys, r s k := by
    rw [List.forall_mem_map]
    cases lo with
    | none => simp [fenceMark, hpos]
    | some s => simp only [hleft, Option.mem_some_iff, forall_eq']
  have hhi : (∀ s ∈ hi, ∀ m ∈ keys.map mark, m < fenceMark (some s)) ↔
      ∀ s ∈ hi, ∀ k ∈ keys, k < s := by
    simp only [List.forall_mem_map, hright]
  constructor
  · rintro ⟨hsorted, hbelow⟩
    rw [List.pairwise_cons, hlo, hmarks] at hsorted
    exact ⟨hsorted.2, hsorted.1, hhi.mp hbelow⟩
  · rintro ⟨hsorted, habove, hbelow⟩
    refine ⟨?_, hhi.mpr hbelow⟩
    rw [List.pairwise_cons, hlo, hmarks]
    exact ⟨habove, hsorted⟩

/-- The marks of the keys on a leaf page -/
def leafMarks (pg : Page) : List Nat := (leafKeys pg).map keyMark

/-- The marks of the separators on an internal page -/
def innerMarks (pg : Page) : List Nat := (separators pg).map fun k => fenceMark (some k)

theorem between_leafMarks_iff {lo hi : Option Key} {pg : Page} :
    Between lo hi (leafMarks pg) ↔ (leafKeys pg).Pairwise (· < ·) ∧
      (∀ s ∈ lo, ∀ k ∈ leafKeys pg, s ≤ k) ∧ ∀ s ∈ hi, ∀ k ∈ leafKeys pg, k < s :=
  between_iff (fun _ => Nat.zero_lt_succ _) keyMark_lt_keyMark fenceMark_lt_keyMark
    keyMark_lt_fenceMark

theorem between_innerMarks_iff {lo hi : Option Key} {pg : Page} :
    Between lo hi (innerMarks pg) ↔ (separators pg).Pairwise (· < ·) ∧
      (∀ s ∈ lo, ∀ k ∈ separators pg, s < k) ∧ ∀ s ∈ hi, ∀ k ∈ separators pg, k < s :=
  between_iff (fun _ => Nat.zero_lt_succ _) fenceMark_lt_fenceMark fenceMark_lt_fenceMark
    fenceMark_lt_fenceMark

/-! ## Nodes in their pages -/

section Nodes

variable {db : Db} {c : Child} {hi : Option Key}

@[simp] theorem leafOf_child (db : Db) (c : Child) : (leafOf db c).child = c := rfl

@[simp] theorem innerOf_child (db : Db) (c : Child) : (innerOf db c).child = c := rfl

theorem leafOf_marks (db : Db) (c : Child) :
    (leafOf db c).marks = fenceMark c.fence :: leafMarks (db.pages c.pid) := by
  simp only [Leaf.marks, leafOf, leafMarks, leafKeys, leafEntries, List.map_map, Function.comp_def]

theorem LeafOk.leafIs (hcap : HoldsTwo db.fields.pageSize) (h : LeafOk db c hi) :
    LeafIs db.ps (db.pages c.pid) (leafPageHeaderC.get (db.pages c.pid) 0)
      (leafEntries (db.pages c.pid)) := by
  have hlen : (leafEntries (db.pages c.pid)).length =
      (leafPageHeaderC.get (db.pages c.pid) 0).keyCount.toNat := Codec.length_listAt ..
  refine ⟨h.length, rfl, ?_, hlen.symm, ?_, ?_⟩
  · rw [leafPageHeaderC_get]
    exact h.type
  · rw [hlen]
    rfl
  · rw [hlen]
    exact (leaf_fits_iff hcap).mpr (UInt32.le_iff_toNat_le.mp h.capacity)

theorem InnerOk.innerAt (hcap : HoldsTwo db.fields.pageSize) (h : InnerOk db c hi) :
    InnerAt db.ps db.pages (innerOf db c) := by
  have hlen : (internalEntries (db.pages c.pid)).length =
      (internalPageHeaderC.get (db.pages c.pid) 0).keyCount.toNat := Codec.length_listAt ..
  have htype : (internalPageHeaderC.get (db.pages c.pid) 0).pageType = PageType.internal.code := by
    rw [internalPageHeaderC_get]
    exact h.type
  refine ⟨(internalPageHeaderC.get (db.pages c.pid) 0).parentPageId,
    (internalPageHeaderC.get (db.pages c.pid) 0).keyCount, h.length, ?_, rfl, hlen.symm, ?_, ?_⟩
  · rw [← htype]
    rfl
  · show internalEntryC.listAt internalBase _ (internalEntries _).length = internalEntries _
    rw [hlen]
    rfl
  · show internalBase + (internalEntries _).length * _ ≤ _
    rw [hlen]
    exact (internal_fits_iff hcap).mpr (UInt32.le_iff_toNat_le.mp h.capacity)

/-- A stored leaf is read back from its page. -/
theorem LeafAt.leafOf_eq {prev next : PageId} {l : Leaf} (h : LeafAt db.ps db.pages prev next l) :
    leafOf db l.child = l := by
  obtain ⟨par, cnt, his⟩ := h
  have hents : leafEntries (db.pages l.pid) = l.ents := by
    rw [leafEntries, his.header, his.count, his.entries]
  rw [leafOf, Leaf.child_pid, hents]
  rfl

theorem InnerAt.innerOf_eq {n : Inner} (h : InnerAt db.ps db.pages n) :
    innerOf db n.child = n := by
  obtain ⟨par, cnt, his⟩ := h
  have hents : internalEntries (db.pages n.pid) = n.ents := by
    rw [internalEntries, his.header, his.count, his.entries]
  rw [innerOf, Inner.child_pid, hents, his.header]
  rfl

/-- The fences of the children of a row of nodes -/
theorem fences_children (db : Db) (row : List Child) :
    ((row.map (innerOf db)).flatMap Inner.children).map (fun c => fenceMark c.fence) =
      row.flatMap fun c => fenceMark c.fence :: innerMarks (db.pages c.pid) := by
  rw [List.flatMap_map, List.map_flatMap]
  refine List.flatMap_congr fun c _ => ?_
  simp only [Inner.children, innerOf, innerMarks, separators, List.map_cons, List.map_map,
    Function.comp_def, entryChild_fence]

theorem spans_children (lv : List Inner) (last : Option Key) :
    spans Child.fence (lv.flatMap Inner.children) last =
      (spans Inner.fence lv last).flatMap fun n => spans Child.fence n.1.children n.2 :=
  spans_flatMap (fun _ _ => rfl) lv last

end Nodes

/-! ## From the root down -/

section Descent

variable {db : Db}

/-- A row of well-formed nodes stands on levels and leaves. -/
theorem exists_rows (hcap : HoldsTwo db.fields.pageSize) (h : Nat) {row : List Child}
    {levels : List (List Inner)} {root : PageId} (hup : Upper db.ps db.pages row levels root)
    (hord : Ordered (row.map (·.fence)))
    (hok : ∀ c ∈ spans Child.fence row none, NodeOk db h c.1 c.2) :
    ∃ (leaves : List Leaf) (lower : List (List Inner)), lower.length = h ∧
      Upper db.ps db.pages (leaves.map Leaf.child) (lower ++ levels) root ∧
      (leaves.flatMap Leaf.marks).Pairwise (· < ·) ∧
      ∀ l ∈ leaves, LeafIs db.ps (db.pages l.pid) (leafPageHeaderC.get (db.pages l.pid) 0) l.ents := by
  -- level by level down: the children of a row are the next row
  induction h generalizing row levels with
  | zero =>
    refine ⟨row.map (leafOf db), [], rfl, ?_, ?_, fun l hl => ?_⟩
    · rw [List.map_map]
      simpa [Function.comp_def] using hup
    · rw [List.flatMap_map]
      simp only [leafOf_marks]
      rw [pairwise_iff_between fun c => leafMarks (db.pages c.pid)]
      refine ⟨hord, fun c hc => between_leafMarks_iff.mpr ?_⟩
      have hleaf : LeafOk db c.1 c.2 := hok c hc
      exact ⟨hleaf.sorted, hleaf.above, hleaf.below⟩
    · obtain ⟨c, hc, rfl⟩ := List.mem_map.mp hl
      obtain ⟨hi, hspan⟩ := exists_mem_spans Child.fence none hc
      exact LeafOk.leafIs hcap (hok _ hspan)
  | succ h ih =>
    -- a well-formed page is a node with the entries it holds
    have hnode : ∀ c ∈ row, InnerAt db.ps db.pages (innerOf db c) ∧
        ∀ d ∈ (innerOf db c).children, parentOf (db.pages d.pid) = c.pid := by
      intro c hc
      obtain ⟨hi, hspan⟩ := exists_mem_spans Child.fence none hc
      obtain ⟨hinner, -⟩ := hok _ hspan
      refine ⟨hinner.innerAt hcap, fun d hd => hinner.parents _ ?_⟩
      have hids := (hinner.innerAt hcap).childIds
      rw [show (innerOf db c).pid = c.pid from rfl] at hids
      rw [hids]
      exact List.mem_map_of_mem hd
    have hup' : Upper db.ps db.pages ((row.map (innerOf db)).flatMap Inner.children)
        (row.map (innerOf db) :: levels) root := by
      refine ⟨rfl, fun n hn => ?_, fun n hn => ?_, ?_⟩
      · obtain ⟨c, hc, rfl⟩ := List.mem_map.mp hn
        exact (hnode c hc).1
      · obtain ⟨c, hc, rfl⟩ := List.mem_map.mp hn
        exact (hnode c hc).2
      · rw [List.map_map]
        simpa [Function.comp_def] using hup
    -- the separators lie between the fence of their node and the next one
    have hord' : Ordered (((row.map (innerOf db)).flatMap Inner.children).map (·.fence)) := by
      rw [Ordered, ← List.pairwise_map, List.map_map]
      show List.Pairwise (· < ·) (List.map (fun c : Child => fenceMark c.fence) _)
      rw [fences_children, pairwise_iff_between fun c => innerMarks (db.pages c.pid)]
      refine ⟨hord, fun c hc => between_innerMarks_iff.mpr ?_⟩
      obtain ⟨hinner, -⟩ := hok c hc
      exact ⟨hinner.sorted, hinner.above, hinner.below⟩
    have hok' : ∀ d ∈ spans Child.fence ((row.map (innerOf db)).flatMap Inner.children) none,
        NodeOk db h d.1 d.2 := by
      intro d hd
      rw [spans_children, spans_map, List.flatMap_map, List.mem_flatMap] at hd
      obtain ⟨c, hc, hd⟩ := hd
      exact (hok c hc).2 d hd
    obtain ⟨leaves, lower, hlen, hup, hsorted, hleaves⟩ := ih hup' hord' hok'
    refine ⟨leaves, lower ++ [row.map (innerOf db)], ?_, ?_, hsorted, hleaves⟩
    · rw [List.length_append, hlen]
      rfl
    · rw [List.append_assoc]
      exact hup

/-- The pages met from the root on, down to a row of nodes -/
theorem nodesBelow_root {levels : List (List Inner)} {lower : List Child} {root : PageId}
    (hup : Upper db.ps db.pages lower levels root) (n : Nat) :
    (nodesBelow db (n + levels.length) root).Perm
      (lower.flatMap (fun c => nodesBelow db n c.pid) ++ levels.flatten.map (·.pid)) := by
  induction levels generalizing lower n with
  | nil => simp [hup.1]
  | cons lv levels ih =>
    obtain ⟨hlv, hat, -, hup⟩ := hup
    have hnode : ∀ nd ∈ lv, nodesBelow db (n + 1) nd.child.pid =
        nd.pid :: nd.children.flatMap fun c => nodesBelow db n c.pid := by
      intro nd hnd
      have hch := (hat nd hnd).childIds
      obtain ⟨par, cnt, his⟩ := hat nd hnd
      have htype : ¬ pageType (db.pages nd.pid) = PageType.leaf.code := by
        rw [his.pageType]
        decide
      rw [nodesBelow, Inner.child_pid, if_neg htype, hch, List.flatMap_map]
    have hrow : ((lv.map Inner.child).flatMap fun c => nodesBelow db (n + 1) c.pid).Perm
        (lv.map (·.pid) ++ lower.flatMap fun c => nodesBelow db n c.pid) := by
      rw [List.flatMap_map, List.flatMap_congr hnode, ← hlv, List.flatMap_assoc]
      exact (List.map_append_flatMap_perm lv _ _).symm
    rw [List.length_cons, show n + (levels.length + 1) = n + 1 + levels.length by omega,
      List.flatten_cons, List.map_append]
    refine (ih hup (n + 1)).trans ?_
    refine (hrow.append_right _).trans ?_
    rw [← List.append_assoc]
    exact List.perm_append_comm.append_right _

section Met

variable {leaves : List Leaf} {levels : List (List Inner)}
  (hup : Upper db.ps db.pages (leaves.map Leaf.child) levels db.header.rootIndexPageId)
  (htype : ∀ l ∈ leaves, pageType (db.pages l.pid) = PageType.leaf.code)
include hup htype

theorem Upper.leavesOf_eq : leavesOf db levels.length = leaves.map (·.pid) := by
  rw [leavesOf, Nat.add_comm, leavesBelow_root hup, List.flatMap_map, List.map_eq_flatMap]
  refine List.flatMap_congr fun l hl => ?_
  rw [leavesBelow, Leaf.child_pid, if_pos (htype l hl)]

theorem Upper.nodesOf_perm :
    (nodesOf db levels.length).Perm (leaves.map (·.pid) ++ levels.flatten.map (·.pid)) := by
  have hleaves : (leaves.map Leaf.child).flatMap (fun c => nodesBelow db 1 c.pid) =
      leaves.map (·.pid) := by
    rw [List.flatMap_map, List.map_eq_flatMap]
    refine List.flatMap_congr fun l hl => ?_
    rw [nodesBelow, Leaf.child_pid, if_pos (htype l hl)]
  have hperm := nodesBelow_root hup 1
  rwa [hleaves, Nat.add_comm] at hperm

end Met

end Descent

/-! ## From the leaves up -/

section Ascent

variable {db : Db} {t : Tree} {others : List PageId}

/-- A row of well-formed nodes makes the levels above it well-formed. -/
theorem Upper.nodeOk (hcap : HoldsTwo db.fields.pageSize) {levels : List (List Inner)}
    {lower : List Child} {root : PageId} (hup : Upper db.ps db.pages lower levels root)
    (hord : Ordered (lower.map (·.fence))) {h : Nat}
    (hok : ∀ c ∈ spans Child.fence lower none, NodeOk db h c.1 c.2) :
    NodeOk db (h + levels.length) ⟨none, root⟩ none := by
  -- level by level up: a node over well-formed children is well-formed
  induction levels generalizing lower h with
  | nil =>
    obtain ⟨rfl, -⟩ := hup
    exact hok (⟨none, root⟩, none) (List.mem_singleton_self _)
  | cons lv levels ih =>
    obtain ⟨rfl, hat, hpar, hup⟩ := hup
    have hread : (lv.map Inner.child).map (innerOf db) = lv := by
      rw [List.map_map]
      exact (List.map_congr_left fun n hn => (hat n hn).innerOf_eq).trans lv.map_id
    -- in the fences of the row each node has its own between its bounds
    have hbetween := hord
    rw [Ordered, ← List.pairwise_map, List.map_map] at hbetween
    change List.Pairwise (· < ·) (List.map (fun c : Child => fenceMark c.fence) _) at hbetween
    rw [← hread, fences_children, pairwise_iff_between fun c => innerMarks (db.pages c.pid)]
      at hbetween
    rw [List.length_cons, show h + (levels.length + 1) = h + 1 + levels.length by omega]
    refine ih hup hord.upper fun c hc => ?_
    obtain ⟨hsorted, habove, hbelow⟩ := between_innerMarks_iff.mp (hbetween.2 c hc)
    rw [spans_map] at hc
    obtain ⟨⟨n, hi⟩, hn, rfl⟩ := List.mem_map.mp hc
    have hmem : n ∈ lv := mem_of_mem_spans hn
    have hch := (hat n hmem).childIds
    have hinner := (hat n hmem).innerOf_eq
    refine ⟨?_, fun d hd => hok d ?_⟩
    · obtain ⟨par, cnt, his⟩ := hat n hmem
      refine ⟨his.length, his.pageType, ?_, hsorted, habove, hbelow, fun d hd => ?_⟩
      · rw [UInt32.le_iff_toNat_le, Inner.child_pid, his.header, his.count]
        exact (internal_fits_iff hcap).mp his.fits
      · rw [Inner.child_pid, hch] at hd
        obtain ⟨e, he, rfl⟩ := List.mem_map.mp hd
        exact hpar n hmem e he
    · rw [spans_children]
      rw [hinner] at hd
      exact List.mem_flatMap.mpr ⟨(n, hi), hn, hd⟩

/-- A tree with leaves and levels is well-formed from the root on. -/
theorem TreeShape.nodeOk (hcap : HoldsTwo db.fields.pageSize) (h : TreeShape db t others) :
    NodeOk db t.levels.length ⟨none, db.header.rootIndexPageId⟩ none := by
  rw [← Nat.zero_add t.levels.length]
  refine h.upper.nodeOk hcap h.ordered fun c hc => ?_
  have hread : (t.leaves.map Leaf.child).map (leafOf db) = t.leaves := by
    rw [List.map_map]
    refine (List.map_congr_left fun l hl => ?_).trans t.leaves.map_id
    obtain ⟨p, n, hat⟩ := h.leafAt hl
    exact hat.leafOf_eq
  have hbetween := h.sorted
  rw [← hread, List.flatMap_map] at hbetween
  simp only [leafOf_marks] at hbetween
  rw [pairwise_iff_between fun c => leafMarks (db.pages c.pid)] at hbetween
  obtain ⟨hsorted, habove, hbelow⟩ := between_leafMarks_iff.mp (hbetween.2 c hc)
  obtain ⟨l, hl, hlc⟩ := List.mem_map.mp (mem_of_mem_spans hc)
  obtain ⟨p, n, par, cnt, his⟩ := h.leafAt hl
  have hpid : c.1.pid = l.pid := by rw [← hlc, Leaf.child_pid]
  refine ⟨?_, ?_, ?_, hsorted, habove, hbelow⟩
  · rw [hpid]
    exact his.length
  · rw [hpid]
    exact his.pageType
  · rw [hpid, UInt32.le_iff_toNat_le, his.header, his.count]
    exact (leaf_fits_iff hcap).mp his.fits

theorem TreeShape.leavesOf_eq (h : TreeShape db t others) :
    leavesOf db t.levels.length = t.leaves.map (·.pid) :=
  h.upper.leavesOf_eq fun _ => h.leaf_type

theorem TreeShape.nodesOf_perm (h : TreeShape db t others) :
    (nodesOf db t.levels.length).Perm t.pids :=
  h.upper.nodesOf_perm fun _ => h.leaf_type

theorem TreeShape.keysOf_eq (h : TreeShape db t others) :
    keysOf db t.levels.length = t.entries.map (·.key) := by
  rw [keysOf, h.leavesOf_eq, List.flatMap_map, Tree.entries, List.map_flatMap]
  refine List.flatMap_congr fun l hl => ?_
  obtain ⟨p, n, par, cnt, his⟩ := h.leafAt hl
  exact his.leafKeys

theorem Upper.root_parent {ps : Nat} {pages : PageId → Page} {levels : List (List Inner)}
    {lower : List Child} {root : PageId} (hup : Upper ps pages lower levels root) :
    parentOf (pages root) = 0 := by
  induction levels generalizing lower with
  | nil => exact hup.2
  | cons lv levels ih => exact ih hup.2.2.2

theorem TreeShape.wellFormed (hcap : HoldsTwo db.fields.pageSize) (h : TreeShape db t others) :
    WellFormed db t.levels.length :=
  ⟨h.nodeOk hcap, h.upper.root_parent, h.nodesOf_perm.nodup_iff.mpr h.nodup⟩

theorem LeafChain.linked {leaves : List Leaf} {prev next : PageId}
    (hchain : LeafChain db.ps db.pages prev leaves next) :
    Linked db prev (leaves.map (·.pid)) next := by
  induction leaves generalizing prev with
  | nil => trivial
  | cons l leaves ih =>
    obtain ⟨hnext, hprev⟩ := hchain.1.links
    refine ⟨hprev, hnext.trans ?_, ih hchain.2⟩
    cases leaves <;> rfl

theorem TreeShape.freeListOk (h : TreeShape db t others) :
    FreeListOk db (nodesOf db t.levels.length) := by
  obtain ⟨free, halloc⟩ := h.alloc
  have hperm := h.nodesOf_perm
  have hsub : (t.pids ++ free).Sublist (t.pids ++ others ++ free) := by
    rw [List.append_assoc]
    exact (List.Sublist.refl _).append (List.sublist_append_right _ _)
  have hperm' : (nodesOf db t.levels.length ++ freePages db).Perm (t.pids ++ free) := by
    rw [halloc.freePages_eq]
    exact hperm.append_right _
  refine ⟨?_, hperm'.nodup_iff.mpr (halloc.nodup.sublist hsub), fun p hp => ?_⟩
  · rw [halloc.freePages_eq]
    exact halloc.chain
  · exact (halloc.ids p).mp (hsub.subset (hperm'.mem_iff.mp hp))

theorem TreeShape.storedTree (hcap : HoldsTwo db.fields.pageSize) (h : TreeShape db t others) :
    StoredTree db t.levels.length := by
  refine ⟨h.wellFormed hcap, ?_, h.freeListOk⟩
  rw [h.leavesOf_eq]
  exact h.chain.linked

end Ascent

/-! ## The shape of a well-formed tree -/

section Shape

variable {db : Db} {h : Nat}

theorem idBound_pos (db : Db) : 0 < idBound db := by
  unfold idBound
  split
  next => decide
  next hn => exact Nat.pos_of_ne_zero fun hz => hn (UInt32.toNat_inj.mp hz)

theorem idBound_le (db : Db) : idBound db ≤ 2 ^ 32 := by
  unfold idBound
  split
  next => exact Nat.le_refl _
  next => exact Nat.le_of_lt db.header.nextPageId.toNat_lt

/-- The pages handed out that are neither in the tree nor free -/
theorem FreeListOk.exists_others {tree : List PageId} (hfree : FreeListOk db tree) :
    ∃ others, AllocWith db (tree ++ others) (freePages db) ∧
      ∀ p ∈ others, p ∉ tree ∧ p ∉ freePages db := by
  have hval : ∀ n, n < idBound db → (UInt32.ofNat n).toNat = n := fun n hn =>
    UInt32.toNat_ofNat_of_lt' (Nat.lt_of_lt_of_le hn (idBound_le db))
  -- all ids handed out, without page 0, the tree and the free pages
  refine ⟨((List.range (idBound db)).map UInt32.ofNat).filter
    fun p => p ≠ 0 ∧ p ∉ tree ++ freePages db, ?_, fun p hp => ?_⟩
  · have hmem : ∀ p, p ∈ ((List.range (idBound db)).map UInt32.ofNat).filter
        (fun p => p ≠ 0 ∧ p ∉ tree ++ freePages db) ↔
        p.toNat < idBound db ∧ p ≠ 0 ∧ p ∉ tree ++ freePages db := by
      intro p
      rw [List.mem_filter, decide_eq_true_iff, List.mem_map]
      refine and_congr_left fun _ => ⟨?_, fun hp => ⟨p.toNat, List.mem_range.mpr hp, UInt32.ofNat_toNat⟩⟩
      rintro ⟨n, hn, rfl⟩
      rw [List.mem_range] at hn
      rw [hval n hn]
      exact hn
    have hnodup : (((List.range (idBound db)).map UInt32.ofNat).filter
        fun p => p ≠ 0 ∧ p ∉ tree ++ freePages db).Nodup := by
      apply List.Nodup.filter
      apply List.Nodup.map_on _ List.nodup_range
      intro a ha b hb hab
      have := congrArg UInt32.toNat hab
      rwa [hval a (List.mem_range.mp ha), hval b (List.mem_range.mp hb)] at this
    have hperm : ∀ l : List PageId, (tree ++ l ++ freePages db).Perm (tree ++ freePages db ++ l) := by
      intro l
      rw [List.append_assoc, List.append_assoc]
      exact List.perm_append_comm.append_left _
    refine ⟨hfree.chain, (hperm _).nodup_iff.mpr ?_, fun p => ?_⟩
    · refine List.nodup_append.mpr ⟨hfree.disjoint, hnodup, fun p hp q hq hpq => ?_⟩
      exact ((hmem q).mp hq).2.2 (hpq ▸ hp)
    · rw [(hperm _).mem_iff, List.mem_append, hmem]
      constructor
      · rintro (hp | hp)
        · exact hfree.ids p hp
        · exact ⟨hp.2.1, hp.1⟩
      · intro hp
        by_cases htree : p ∈ tree ++ freePages db
        · exact Or.inl htree
        · exact Or.inr ⟨hp.2, hp.1, htree⟩
  · have hp' := (List.mem_filter.mp hp).2
    rw [decide_eq_true_iff, List.mem_append, not_or] at hp'
    exact hp'.2

/-- The chain of the leaves, from the links in their pages -/
theorem LeafChain.of_linked {leaves : List Leaf} {prev next : PageId}
    (hleaves : ∀ l ∈ leaves,
      LeafIs db.ps (db.pages l.pid) (leafPageHeaderC.get (db.pages l.pid) 0) l.ents)
    (hlinked : Linked db prev (leaves.map (·.pid)) next) :
    LeafChain db.ps db.pages prev leaves next := by
  induction leaves generalizing prev with
  | nil => trivial
  | cons l leaves ih =>
    obtain ⟨hprev, hnext, hrest⟩ := hlinked
    refine ⟨?_, ih (fun x hx => hleaves x (List.mem_cons_of_mem _ hx)) hrest⟩
    have his := hleaves l (List.mem_cons_self ..)
    have hfirst : firstPid leaves next = (leaves.map (·.pid)).headD next := by
      cases leaves <;> rfl
    refine ⟨(leafPageHeaderC.get (db.pages l.pid) 0).parentPageId,
      (leafPageHeaderC.get (db.pages l.pid) 0).keyCount, ?_⟩
    rw [hfirst, ← hprev, ← hnext, ← his.type]
    exact his

/-- A well-formed tree with linked leaves has leaves and levels. -/
theorem StoredTree.exists_shape (hcap : HoldsTwo db.fields.pageSize) (hstored : StoredTree db h) :
    ∃ t others, TreeShape db t others ∧ t.levels.length = h ∧
      (t.pids ++ others).length + (freePages db).length < idBound db ∧
      ∀ p, p ∈ others ↔ p ≠ 0 ∧ p.toNat < idBound db ∧ p ∉ nodesOf db h ∧ p ∉ freePages db := by
  have hroot : Upper db.ps db.pages [⟨none, db.header.rootIndexPageId⟩] []
      db.header.rootIndexPageId := ⟨rfl, hstored.root⟩
  have hlinked := hstored.linked
  -- the rows below the root
  obtain ⟨leaves, levels, hlen, hup, hsorted, hleaves⟩ := exists_rows hcap h
    hroot (by simp [Ordered]) fun c hc => by
      rw [List.mem_singleton.mp hc]
      exact hstored.node
  rw [List.append_nil] at hup
  obtain ⟨others, halloc, hothers⟩ := hstored.free.exists_others
  have htype : ∀ l ∈ leaves, pageType (db.pages l.pid) = PageType.leaf.code := fun l hl =>
    (hleaves l hl).pageType
  have hpids : (nodesOf db h).Perm (Tree.pids ⟨leaves, levels⟩) := by
    rw [← hlen]
    exact hup.nodesOf_perm htype
  rw [← hlen, hup.leavesOf_eq htype] at hlinked
  have halloc' : Alloc db (Tree.pids ⟨leaves, levels⟩ ++ others) :=
    Alloc.perm ⟨_, halloc⟩ (hpids.symm.append_right _)
  refine ⟨⟨leaves, levels⟩, others, ⟨halloc', LeafChain.of_linked hleaves hlinked, hsorted, hup⟩,
    hlen, ?_, fun p => ⟨fun hp => ?_, fun hp => ?_⟩⟩
  · -- distinct ids below the bound
    have hlt := length_lt_of_ids (idBound_pos db) halloc.nodup fun p hp => (halloc.ids p).mp hp
    rw [List.length_append, (hpids.append_right others).length_eq] at hlt
    exact hlt
  · have hid := (halloc.ids p).mp (by simp [hp])
    exact ⟨hid.1, hid.2, hothers p hp⟩
  · obtain ⟨hne, hlt, htree, hnotFree⟩ := hp
    have hmem := (halloc.ids p).mpr ⟨hne, hlt⟩
    simpa [htree, hnotFree] using hmem

end Shape

end MiniDb
