import MiniDb.Lib.Lists
import MiniDb.Pager.Alloc
import MiniDb.Bptree.NodeSpec
import MiniDb.Bptree.Code

/-!
# The shape of the tree

A tree is described by its leaves from left to right and by its levels of internal
nodes from the bottom up.  Each node has a *fence*: the separator to its left in the
nearest ancestor that has one, or nothing for the leftmost nodes.  Fences are not
stored; with them the order of all keys and separators is one sorted list.

`Upper` says that the levels are stored in the pages and hang together, `LeafChain`
that the leaves are stored and linked; `TreeShape` puts the two together, and `TreeInv` is
the invariant of the tree.

## Key results

- `TreeShape.treeReach_iff`: the pages of the tree are the ones reached from the root
-/

namespace MiniDb

open Bytes

/-! ## The order of keys and fences -/

/-- The place of a key on the number line -/
def keyMark (k : Key) : Nat := 2 * k.toNat + 2

/-- The place of a fence: the start of the line, or just before the key it names -/
def fenceMark : Option Key → Nat
  | none => 0
  | some s => 2 * s.toNat + 1

theorem fenceMark_lt_keyMark {s k : Key} : fenceMark (some s) < keyMark k ↔ s ≤ k := by
  rw [UInt64.le_iff_toNat_le]
  simp only [fenceMark, keyMark]
  omega

theorem keyMark_lt_fenceMark {s k : Key} : keyMark k < fenceMark (some s) ↔ k < s := by
  rw [UInt64.lt_iff_toNat_lt]
  simp only [fenceMark, keyMark]
  omega

theorem fenceMark_lt_fenceMark {s s' : Key} :
    fenceMark (some s) < fenceMark (some s') ↔ s < s' := by
  rw [UInt64.lt_iff_toNat_lt]
  simp only [fenceMark]
  omega

theorem keyMark_lt_keyMark {k k' : Key} : keyMark k < keyMark k' ↔ k < k' := by
  rw [UInt64.lt_iff_toNat_lt]
  simp only [keyMark]
  omega

theorem keyMark_le_keyMark {k k' : Key} : keyMark k ≤ keyMark k' ↔ k ≤ k' := by
  rw [UInt64.le_iff_toNat_le]
  simp only [keyMark]
  omega

theorem keyMark_inj {k k' : Key} : keyMark k = keyMark k' ↔ k = k' := by
  rw [← UInt64.toNat_inj]
  simp only [keyMark]
  omega

/-- No fence is at a key. -/
theorem fenceMark_ne_keyMark (f : Option Key) (k : Key) : fenceMark f ≠ keyMark k := by
  cases f <;> simp only [fenceMark, keyMark] <;> omega

/-- Fences in strictly increasing order -/
def Ordered (fs : List (Option Key)) : Prop := fs.Pairwise fun a b => fenceMark a < fenceMark b

/-! ## Nodes -/

/-- A child pointer, with the fence of the child -/
structure Child where
  fence : Option Key
  pid : PageId

structure Leaf where
  fence : Option Key
  pid : PageId
  ents : List LeafEntry

structure Inner where
  fence : Option Key
  pid : PageId
  first : PageId
  ents : List InternalEntry

def Leaf.child (l : Leaf) : Child := ⟨l.fence, l.pid⟩

/-- The fence of a leaf and its keys, in order -/
def Leaf.marks (l : Leaf) : List Nat := fenceMark l.fence :: l.ents.map (keyMark ·.key)

def Inner.child (n : Inner) : Child := ⟨n.fence, n.pid⟩

/-- The child behind a separator -/
def entryChild (e : InternalEntry) : Child := ⟨some e.key, e.rightChildPageId⟩

def Inner.children (n : Inner) : List Child := ⟨n.fence, n.first⟩ :: n.ents.map entryChild

/-- The leaf with other entries -/
def Leaf.withEnts (l : Leaf) (ents : List LeafEntry) : Leaf := { l with ents := ents }

@[simp] theorem Leaf.withEnts_pid (l : Leaf) (ents : List LeafEntry) :
    (l.withEnts ents).pid = l.pid := rfl
@[simp] theorem Leaf.withEnts_ents (l : Leaf) (ents : List LeafEntry) :
    (l.withEnts ents).ents = ents := rfl
theorem Leaf.withEnts_marks (l : Leaf) (ents : List LeafEntry) :
    (l.withEnts ents).marks = fenceMark l.fence :: ents.map (keyMark ·.key) := rfl
@[simp] theorem Leaf.withEnts_child (l : Leaf) (ents : List LeafEntry) :
    (l.withEnts ents).child = l.child := rfl

/-- A leaf whose fence is its first key -/
def keyedLeaf (pid : PageId) (e : LeafEntry) (es : List LeafEntry) : Leaf :=
  ⟨some e.key, pid, e :: es⟩

@[simp] theorem keyedLeaf_pid (pid : PageId) (e : LeafEntry) (es : List LeafEntry) :
    (keyedLeaf pid e es).pid = pid := rfl
@[simp] theorem keyedLeaf_ents (pid : PageId) (e : LeafEntry) (es : List LeafEntry) :
    (keyedLeaf pid e es).ents = e :: es := rfl
theorem keyedLeaf_marks (pid : PageId) (e : LeafEntry) (es : List LeafEntry) :
    (keyedLeaf pid e es).marks =
      fenceMark (some e.key) :: keyMark e.key :: es.map (keyMark ·.key) := rfl
@[simp] theorem keyedLeaf_child (pid : PageId) (e : LeafEntry) (es : List LeafEntry) :
    (keyedLeaf pid e es).child = ⟨some e.key, pid⟩ := rfl

/-- The node with other entries -/
def Inner.withEnts (n : Inner) (ents : List InternalEntry) : Inner := { n with ents := ents }

@[simp] theorem Inner.withEnts_pid (n : Inner) (ents : List InternalEntry) :
    (n.withEnts ents).pid = n.pid := rfl
@[simp] theorem Inner.withEnts_child (n : Inner) (ents : List InternalEntry) :
    (n.withEnts ents).child = n.child := rfl
theorem Inner.withEnts_children (n : Inner) (ents : List InternalEntry) :
    (n.withEnts ents).children = ⟨n.fence, n.first⟩ :: ents.map entryChild := rfl

@[simp] theorem Leaf.child_pid (l : Leaf) : l.child.pid = l.pid := rfl
@[simp] theorem Leaf.child_fence (l : Leaf) : l.child.fence = l.fence := rfl
@[simp] theorem Inner.child_pid (n : Inner) : n.child.pid = n.pid := rfl
@[simp] theorem Inner.child_fence (n : Inner) : n.child.fence = n.fence := rfl
@[simp] theorem entryChild_pid (e : InternalEntry) : (entryChild e).pid = e.rightChildPageId := rfl
@[simp] theorem entryChild_fence (e : InternalEntry) : (entryChild e).fence = some e.key := rfl

/-- The parent field, at the same place in both kinds of nodes -/
def parentOf (pg : Page) : PageId := u32.get pg 4

/-! ## Pages that differ in the parent field only -/

structure SameButParent (pg pg' : Page) : Prop where
  length : pg'.length = pg.length
  type : pageType pg' = pageType pg
  drop : pg'.drop 8 = pg.drop 8

namespace SameButParent

theorem refl (pg : Page) : SameButParent pg pg := ⟨rfl, rfl, rfl⟩

theorem of_eq {pg pg' : Page} (h : pg' = pg) : SameButParent pg pg' := h ▸ refl pg

theorem trans {pg pg' pg'' : Page} (h : SameButParent pg pg') (h' : SameButParent pg' pg'') :
    SameButParent pg pg'' :=
  ⟨h'.length.trans h.length, h'.type.trans h.type, h'.drop.trans h.drop⟩

theorem get_eq {pg pg' : Page} (h : SameButParent pg pg') {α : Type} (c : Codec α) (off : Nat)
    (hoff : 8 ≤ off) : c.get pg' off = c.get pg off := by
  have key : ∀ l : Page, l.drop off = (l.drop 8).drop (off - 8) := fun l => by
    rw [List.drop_drop]
    congr 1
    omega
  simp only [Codec.get, slice, key pg', key pg, h.drop]

theorem listAt_eq {pg pg' : Page} (h : SameButParent pg pg') {α : Type} (c : Codec α)
    {base : Nat} (hbase : 8 ≤ base) (n : Nat) : c.listAt base pg' n = c.listAt base pg n :=
  c.listAt_congr fun _ _ => h.get_eq c _ (by omega)

end SameButParent

theorem sameButParent_put (pg : Page) (par : PageId) (h : 8 ≤ pg.length) :
    SameButParent pg (u32.put pg 4 par) := by
  refine ⟨u32.length_put pg 4 par h, u32.get_put_disj u32 pg 0 4 par h (Or.inl (by decide)), ?_⟩
  have hlen : (u32.enc par).length = 4 := u32.length_enc par
  have htake : (pg.take 4).length = 4 := by rw [List.length_take]; omega
  have hall : (pg.take 4 ++ u32.enc par).length = 8 := by rw [List.length_append, htake, hlen]
  rw [Codec.put, splice, List.drop_append, List.drop_eq_nil_of_le (Nat.le_of_eq hall),
    List.nil_append, hall, hlen]
  rfl

theorem parentOf_put (pg : Page) (par : PageId) (h : 8 ≤ pg.length) :
    parentOf (u32.put pg 4 par) = par := u32.get_put_same pg 4 par h

theorem LeafIs.parentOf {ps : Nat} {pg : Page} {hdr : LeafPageHeader} {es : List LeafEntry}
    (h : LeafIs ps pg hdr es) : parentOf pg = hdr.parentPageId := by
  have := h.header
  rw [leafPageHeaderC_get] at this
  exact congrArg LeafPageHeader.parentPageId this

theorem InnerIs.parentOf {ps : Nat} {pg : Page} {hdr : InternalPageHeader}
    {es : List InternalEntry} (h : InnerIs ps pg hdr es) : parentOf pg = hdr.parentPageId := by
  have := h.header
  rw [internalPageHeaderC_get] at this
  exact congrArg InternalPageHeader.parentPageId this

theorem LeafIs.reparent {ps : Nat} {pg pg' : Page} {hdr : LeafPageHeader} {es : List LeafEntry}
    (h : LeafIs ps pg hdr es) (hs : SameButParent pg pg') :
    LeafIs ps pg' { hdr with parentPageId := MiniDb.parentOf pg' } es := by
  refine ⟨hs.length.trans h.length, ?_, h.type, h.count, ?_, h.fits⟩
  · have := h.header
    rw [leafPageHeaderC_get] at this ⊢
    rw [hs.get_eq u32 8 (by decide), hs.get_eq u32 12 (by decide),
      hs.get_eq u32 16 (by decide), ← this]
    have ht : u32.get pg' 0 = u32.get pg 0 := hs.type
    rw [ht]
    rfl
  · rw [hs.listAt_eq leafEntryC (by decide), h.entries]

theorem InnerIs.reparent {ps : Nat} {pg pg' : Page} {hdr : InternalPageHeader}
    {es : List InternalEntry} (h : InnerIs ps pg hdr es) (hs : SameButParent pg pg') :
    InnerIs ps pg' { hdr with parentPageId := MiniDb.parentOf pg' } es := by
  refine ⟨hs.length.trans h.length, ?_, h.type, h.count, ?_, h.fits⟩
  · have := h.header
    rw [internalPageHeaderC_get] at this ⊢
    rw [hs.get_eq u32 8 (by decide), hs.get_eq u32 12 (by decide), ← this]
    have ht : u32.get pg' 0 = u32.get pg 0 := hs.type
    rw [ht]
    rfl
  · rw [hs.listAt_eq internalEntryC (by decide), h.entries]

/-! ## The leaf chain -/

section Chain

variable (ps : Nat) (pages : PageId → Page)

/-- The leaf is stored in its page and linked between `prev` and `next`. -/
def LeafAt (prev next : PageId) (l : Leaf) : Prop :=
  ∃ par cnt, LeafIs ps (pages l.pid) ⟨PageType.leaf.code, par, cnt, next, prev⟩ l.ents

/-- The first page of a row of leaves, or what follows it -/
def firstPid : List Leaf → PageId → PageId
  | [], next => next
  | l :: _, _ => l.pid

/-- The last page of a row of leaves, or what precedes it -/
def lastPid : List Leaf → PageId → PageId
  | [], prev => prev
  | l :: ls, _ => lastPid ls l.pid

/-- A row of leaves linked in both directions, between `prev` and `next` -/
def LeafChain : PageId → List Leaf → PageId → Prop
  | _, [], _ => True
  | prev, l :: ls, next => LeafAt ps pages prev (firstPid ls next) l ∧ LeafChain l.pid ls next

variable {ps pages}

theorem firstPid_cons (l : Leaf) (ls : List Leaf) (next : PageId) :
    firstPid (l :: ls) next = l.pid := rfl

theorem firstPid_append (A B : List Leaf) (next : PageId) :
    firstPid (A ++ B) next = firstPid A (firstPid B next) := by
  cases A <;> rfl

theorem LeafChain.append_iff {A B : List Leaf} {prev next : PageId} :
    LeafChain ps pages prev (A ++ B) next ↔
      LeafChain ps pages prev A (firstPid B next) ∧
        LeafChain ps pages (lastPid A prev) B next := by
  induction A generalizing prev with
  | nil => simp [LeafChain, lastPid]
  | cons l A ih =>
    simp only [List.cons_append, LeafChain, lastPid, firstPid_append, ih, and_assoc]

/-- The chain at one of its leaves -/
theorem LeafChain.cut_iff {A B : List Leaf} {l : Leaf} {prev next : PageId} :
    LeafChain ps pages prev (A ++ l :: B) next ↔
      LeafChain ps pages prev A l.pid ∧
        LeafAt ps pages (lastPid A prev) (firstPid B next) l ∧
        LeafChain ps pages l.pid B next := LeafChain.append_iff

theorem LeafChain.leafAt {ls : List Leaf} {prev next : PageId}
    (h : LeafChain ps pages prev ls next) {l : Leaf} (hl : l ∈ ls) :
    ∃ p n, LeafAt ps pages p n l := by
  obtain ⟨A, B, rfl⟩ := List.append_of_mem hl
  exact ⟨_, _, (LeafChain.cut_iff.mp h).2.1⟩

theorem LeafAt.congr {pages' : PageId → Page} {prev next : PageId} {l : Leaf}
    (h : LeafAt ps pages prev next l) (hs : SameButParent (pages l.pid) (pages' l.pid)) :
    LeafAt ps pages' prev next l := by
  obtain ⟨par, cnt, h⟩ := h
  exact ⟨_, cnt, h.reparent hs⟩

theorem LeafChain.congr {pages' : PageId → Page} {prev next : PageId} {ls : List Leaf}
    (h : LeafChain ps pages prev ls next)
    (hs : ∀ l ∈ ls, SameButParent (pages l.pid) (pages' l.pid)) :
    LeafChain ps pages' prev ls next := by
  induction ls generalizing prev with
  | nil => trivial
  | cons l ls ih =>
    exact ⟨h.1.congr (hs l (List.mem_cons_self ..)),
      ih h.2 fun l hl => hs l (List.mem_cons_of_mem _ hl)⟩

end Chain

/-! ## The levels of internal nodes -/

section Levels

variable (ps : Nat) (pages : PageId → Page)

/-- The node is stored in its page. -/
def InnerAt (n : Inner) : Prop :=
  ∃ par cnt, InnerIs ps (pages n.pid) ⟨PageType.internal.code, par, cnt, n.first⟩ n.ents

/-- The levels above the nodes `lower`, bottom up: the children of each level are the
    level below in order, each child knows its parent, and the last level is the root. -/
def Upper : List Child → List (List Inner) → PageId → Prop
  | lower, [], root => lower = [⟨none, root⟩] ∧ parentOf (pages root) = 0
  | lower, lv :: levels, root =>
    lv.flatMap Inner.children = lower ∧ (∀ n ∈ lv, InnerAt ps pages n) ∧
      (∀ n ∈ lv, ∀ c ∈ n.children, parentOf (pages c.pid) = n.pid) ∧
      Upper (lv.map Inner.child) levels root

variable {ps pages}

theorem InnerAt.congr {pages' : PageId → Page} {n : Inner} (h : InnerAt ps pages n)
    (hs : SameButParent (pages n.pid) (pages' n.pid)) : InnerAt ps pages' n := by
  obtain ⟨par, cnt, h⟩ := h
  exact ⟨_, cnt, h.reparent hs⟩

theorem InnerAt.childIds {n : Inner} (h : InnerAt ps pages n) :
    childIds (pages n.pid) = n.children.map (·.pid) := by
  obtain ⟨par, cnt, h⟩ := h
  rw [MiniDb.childIds, h.header]
  simp only [Inner.children, List.map_cons, List.map_map]
  rw [h.count, show (16 : Nat) = internalBase from rfl, h.entries]
  rfl

/-- `Upper` looks at the pages of the internal nodes and at the parent fields below. -/
theorem Upper.congr {pages' : PageId → Page} {lower : List Child} {levels : List (List Inner)}
    {root : PageId} (h : Upper ps pages lower levels root)
    (hparent : ∀ c ∈ lower, parentOf (pages' c.pid) = parentOf (pages c.pid))
    (hpages : ∀ n ∈ levels.flatten, pages' n.pid = pages n.pid) :
    Upper ps pages' lower levels root := by
  induction levels generalizing lower with
  | nil =>
    obtain ⟨rfl, h2⟩ := h
    exact ⟨rfl, (hparent _ (List.mem_singleton_self _)).trans h2⟩
  | cons lv levels ih =>
    obtain ⟨h1, h2, h3, h4⟩ := h
    have hlv : ∀ n ∈ lv, pages' n.pid = pages n.pid := fun n hn =>
      hpages n (List.mem_append_left _ hn)
    refine ⟨h1, fun n hn => (h2 n hn).congr (SameButParent.of_eq (hlv n hn)),
      fun n hn c hc => ?_, ih h4 (fun c hc => ?_) fun n hn => ?_⟩
    · rw [hparent c (h1 ▸ List.mem_flatMap.mpr ⟨n, hn, hc⟩)]
      exact h3 n hn c hc
    · obtain ⟨n, hn, rfl⟩ := List.mem_map.mp hc
      rw [Inner.child_pid, hlv n hn]
    · exact hpages n (List.mem_append_right _ hn)

/-- The leftmost node of every level has no fence. -/
theorem Upper.head_fence {lower : List Child} {levels : List (List Inner)} {root : PageId}
    {c : Child} (h : Upper ps pages (c :: lower) levels root) : c.fence = none := by
  induction levels generalizing c lower with
  | nil => exact congrArg Child.fence (List.cons.inj h.1).1
  | cons lv levels ih =>
    cases lv with
    | nil => exact nomatch h.1
    | cons n lv =>
      have hc : (⟨n.fence, n.first⟩ : Child) = c := (List.cons.inj h.1).1
      have hn : n.child.fence = none := ih h.2.2.2
      rw [← hc]
      exact hn

theorem Upper.ne_nil {lower : List Child} {levels : List (List Inner)} {root : PageId}
    (h : Upper ps pages lower levels root) : lower ≠ [] := by
  induction levels generalizing lower with
  | nil => rw [h.1]; exact List.cons_ne_nil _ _
  | cons lv levels ih =>
    rw [← h.1]
    cases lv with
    | nil => exact absurd rfl (ih h.2.2.2)
    | cons n lv => exact List.cons_ne_nil _ _

/-- The fences of a level are among the fences of the level below. -/
theorem fences_sublist (lv : List Inner) :
    ((lv.map Inner.child).map (·.fence)).Sublist
      ((lv.flatMap Inner.children).map (·.fence)) := by
  induction lv with
  | nil => exact List.Sublist.refl _
  | cons n lv ih =>
    simp only [List.map_cons, List.flatMap_cons, Inner.children, List.cons_append,
      List.map_append]
    exact (ih.trans (List.sublist_append_right _ _)).cons_cons _

theorem Ordered.upper {lv : List Inner} (h : Ordered ((lv.flatMap Inner.children).map (·.fence))) :
    Ordered ((lv.map Inner.child).map (·.fence)) :=
  h.sublist (fences_sublist lv)

end Levels

/-! ## The invariant -/

structure Tree where
  leaves : List Leaf
  levels : List (List Inner)

namespace Tree

/-- The internal nodes -/
def inners (t : Tree) : List Inner := t.levels.flatten

/-- The pages of the tree -/
def pids (t : Tree) : List PageId := t.leaves.map (·.pid) ++ t.inners.map (·.pid)

/-- All entries in key order -/
def entries (t : Tree) : List LeafEntry := t.leaves.flatMap (·.ents)

/-- Every internal node has a separator, but for the node `pid` unless it is the root. -/
def SeparatedBut (pid root : PageId) (t : Tree) : Prop :=
  ∀ n ∈ t.inners, n.ents = [] → n.pid = pid ∧ n.pid ≠ root

/-- Below a root every leaf holds at least `m` entries. -/
def Occupied (m : Nat) (t : Tree) : Prop := t.levels ≠ [] → ∀ l ∈ t.leaves, m ≤ l.ents.length

end Tree

/-- The pages and the header fields of `db` store the tree `t`; the other pages in use
    are `others`. -/
structure TreeShape (db : Db) (t : Tree) (others : List PageId) : Prop where
  alloc : Alloc db (t.pids ++ others)
  chain : LeafChain db.ps db.pages 0 t.leaves 0
  sorted : (t.leaves.flatMap Leaf.marks).Pairwise (· < ·)
  upper : Upper db.ps db.pages (t.leaves.map Leaf.child) t.levels db.header.rootIndexPageId

/-- The invariant of the tree: every leaf below a root holds at least `min_leaf_keys`
    entries.  Nothing is said about the number of entries of internal nodes. -/
structure TreeInv (db : Db) (t : Tree) (others : List PageId) : Prop
    extends TreeShape db t others where
  occupancy : t.levels ≠ [] →
    ∀ l ∈ t.leaves, (minLeafKeys db.fields.pageSize).toNat ≤ l.ents.length

/-- The fields the tree and the allocator leave alone -/
def Db.outside (db : Db) : PagerFields :=
  { db.core with header := { db.core.header with rootIndexPageId := 0 } }

section Outside

variable {db db' : Db}

theorem outside_of_core (h : db'.core = db.core) : db'.outside = db.outside := by
  simp only [Db.outside, h]

theorem outside_pageSize (h : db'.outside = db.outside) :
    db'.fields.pageSize = db.fields.pageSize := congrArg (fun f => f.pageSize) h

theorem outside_ps (h : db'.outside = db.outside) : db'.ps = db.ps :=
  congrArg UInt32.toNat (outside_pageSize h)

end Outside

/-- The pages store the tree `t` now; what does not belong to the tree is as it was. -/
structure ShapeStep (db db' : Db) (t : Tree) (others : List PageId) : Prop where
  shape : TreeShape db' t others
  outside : db'.outside = db.outside
  frame : ∀ p ∈ others, db'.pages p = db.pages p

theorem ShapeStep.trans {db db' db'' : Db} {t t' : Tree} {others : List PageId}
    (h : ShapeStep db db' t others) (h' : ShapeStep db' db'' t' others) :
    ShapeStep db db'' t' others :=
  ⟨h'.shape, h'.outside.trans h.outside, fun p hp => (h'.frame p hp).trans (h.frame p hp)⟩

/-- A tree operation has ended with the tree `t`; what does not belong to the tree is as it
    was. -/
structure TreeStep (db db' : Db) (t : Tree) (others : List PageId) : Prop where
  inv : TreeInv db' t others
  outside : db'.outside = db.outside
  frame : ∀ p ∈ others, db'.pages p = db.pages p

/-- A step that keeps the leaves occupied keeps the invariant. -/
theorem ShapeStep.treeStep {db db' : Db} {t : Tree} {others : List PageId}
    (h : ShapeStep db db' t others)
    (hocc : t.Occupied (minLeafKeys db.fields.pageSize).toNat) : TreeStep db db' t others := by
  refine ⟨⟨h.shape, ?_⟩, h.outside, h.frame⟩
  rw [outside_pageSize h.outside]
  exact hocc

/-! ## What is reached from the root -/

/-- The nodes of each level are reached from the root. -/
theorem Upper.reach {db : Db} {lower : List Child} {levels : List (List Inner)}
    (h : Upper db.ps db.pages lower levels db.header.rootIndexPageId) :
    (∀ c ∈ lower, TreeReach db c.pid) ∧ ∀ n ∈ levels.flatten, TreeReach db n.pid := by
  induction levels generalizing lower with
  | nil =>
    refine ⟨fun c hc => ?_, by simp⟩
    rw [h.1, List.mem_singleton] at hc
    rw [hc]
    exact TreeReach.root
  | cons lv levels ih =>
    obtain ⟨h1, h2, -, h4⟩ := h
    obtain ⟨ih1, ih2⟩ := ih h4
    have hlv : ∀ n ∈ lv, TreeReach db n.pid := fun n hn => ih1 _ (List.mem_map_of_mem hn)
    refine ⟨fun c hc => ?_, fun n hn => ?_⟩
    · rw [← h1, List.mem_flatMap] at hc
      obtain ⟨n, hn, hc⟩ := hc
      have hat := h2 n hn
      refine TreeReach.child (hlv n hn) ?_ ?_
      · obtain ⟨par, cnt, his⟩ := hat
        exact his.pageType
      · rw [hat.childIds]
        exact List.mem_map_of_mem hc
    · rcases List.mem_append.mp hn with hn | hn
      · exact hlv n hn
      · exact ih2 n hn

/-- The root and the children of every internal node are nodes of the tree. -/
theorem Upper.closed {ps : Nat} {pages : PageId → Page} {lower : List Child}
    {levels : List (List Inner)} {root : PageId} (h : Upper ps pages lower levels root) :
    (root ∈ lower.map (·.pid) ∨ root ∈ levels.flatten.map (·.pid)) ∧
      ∀ n ∈ levels.flatten, InnerAt ps pages n ∧
        ∀ c ∈ n.children, c.pid ∈ lower.map (·.pid) ∨ c.pid ∈ levels.flatten.map (·.pid) := by
  induction levels generalizing lower with
  | nil => exact ⟨Or.inl (by rw [h.1]; exact List.mem_singleton_self _), by simp⟩
  | cons lv levels ih =>
    obtain ⟨h1, h2, -, h4⟩ := h
    obtain ⟨ih1, ih2⟩ := ih h4
    have hup : ∀ p : PageId, p ∈ (lv.map Inner.child).map (·.pid) ∨
        p ∈ levels.flatten.map (·.pid) → p ∈ (lv :: levels).flatten.map (·.pid) := by
      intro p hp
      rw [List.flatten_cons, List.map_append, List.mem_append]
      rw [List.map_map] at hp
      exact hp
    refine ⟨Or.inr (hup _ ih1), fun n hn => ?_⟩
    rcases List.mem_append.mp hn with hn | hn
    · refine ⟨h2 n hn, fun c hc => Or.inl ?_⟩
      rw [← h1]
      exact List.mem_map_of_mem (List.mem_flatMap.mpr ⟨n, hn, hc⟩)
    · obtain ⟨h5, h6⟩ := ih2 n hn
      exact ⟨h5, fun c hc => Or.inr (hup _ (h6 c hc))⟩

namespace TreeShape

variable {db : Db} {t : Tree} {others : List PageId}

theorem leafAt (h : TreeShape db t others) {l : Leaf} (hl : l ∈ t.leaves) :
    ∃ p n, LeafAt db.ps db.pages p n l := h.chain.leafAt hl

theorem innerAt (h : TreeShape db t others) {n : Inner} (hn : n ∈ t.inners) :
    InnerAt db.ps db.pages n := (h.upper.closed.2 n hn).1

theorem leaf_type (h : TreeShape db t others) {l : Leaf} (hl : l ∈ t.leaves) :
    pageType (db.pages l.pid) = PageType.leaf.code := by
  obtain ⟨p, n, par, cnt, his⟩ := h.leafAt hl
  exact his.pageType

theorem inner_type (h : TreeShape db t others) {n : Inner} (hn : n ∈ t.inners) :
    pageType (db.pages n.pid) = PageType.internal.code := by
  obtain ⟨par, cnt, his⟩ := h.innerAt hn
  exact his.pageType

/-- The pages of the tree are the ones reached from the root. -/
theorem treeReach_iff (h : TreeShape db t others) {p : PageId} :
    TreeReach db p ↔ p ∈ t.pids := by
  have hmem : ∀ p : PageId, p ∈ (t.leaves.map Leaf.child).map (·.pid) ∨
      p ∈ t.levels.flatten.map (·.pid) ↔ p ∈ t.pids := by
    intro p
    rw [Tree.pids, List.mem_append, List.map_map]
    rfl
  constructor
  · intro hr
    induction hr with
    | root => exact (hmem _).mp h.upper.closed.1
    | child _ htype hc ih =>
      rcases List.mem_append.mp ih with hp | hp
      · obtain ⟨l, hl, rfl⟩ := List.mem_map.mp hp
        rw [h.leaf_type hl] at htype
        exact absurd (PageType.code_injective htype) (by decide)
      · obtain ⟨n, hn, rfl⟩ := List.mem_map.mp hp
        obtain ⟨hat, hchildren⟩ := h.upper.closed.2 n hn
        rw [hat.childIds] at hc
        obtain ⟨ch, hch, rfl⟩ := List.mem_map.mp hc
        exact (hmem _).mp (hchildren ch hch)
  · intro hp
    rcases List.mem_append.mp hp with hp | hp
    · obtain ⟨l, hl, rfl⟩ := List.mem_map.mp hp
      exact h.upper.reach.1 _ (List.mem_map_of_mem hl)
    · obtain ⟨n, hn, rfl⟩ := List.mem_map.mp hp
      exact h.upper.reach.2 n hn

theorem leaf_mem_pids {l : Leaf} (hl : l ∈ t.leaves) : l.pid ∈ t.pids :=
  List.mem_append_left _ (List.mem_map_of_mem hl)

theorem inner_mem_pids {n : Inner} (hn : n ∈ t.inners) : n.pid ∈ t.pids :=
  List.mem_append_right _ (List.mem_map_of_mem hn)

theorem liveLeaf (h : TreeShape db t others) {l : Leaf} (hl : l ∈ t.leaves) :
    LiveLeaf db l.pid :=
  ⟨h.upper.reach.1 _ (List.mem_map_of_mem hl), h.leaf_type hl⟩

theorem nodup (h : TreeShape db t others) : t.pids.Nodup :=
  (List.nodup_append.mp h.alloc.nodup).1

theorem ne_zero (h : TreeShape db t others) {p : PageId} (hp : p ∈ t.pids) : p ≠ 0 :=
  h.alloc.ne_zero (List.mem_append_left _ hp)

theorem leaf_ne_inner (h : TreeShape db t others) {l : Leaf} {n : Inner} (hl : l ∈ t.leaves)
    (hn : n ∈ t.inners) : l.pid ≠ n.pid :=
  (List.nodup_append.mp h.nodup).2.2 _ (List.mem_map_of_mem hl) _ (List.mem_map_of_mem hn)

theorem pids_ne_others (h : TreeShape db t others) {p q : PageId} (hp : p ∈ t.pids)
    (hq : q ∈ others) : p ≠ q := (List.nodup_append.mp h.alloc.nodup).2.2 p hp q hq

end TreeShape

end MiniDb
