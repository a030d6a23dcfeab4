import MiniDb.Bptree.InsertSpec

/-!
# Neighbouring leaves

An underfull leaf is repaired together with a neighbour below the same parent: entries
move between the two and the separator follows, or the right one is merged into the left
one and the separator goes away.  Both directions of the source are the same change of
the tree, seen from the left or from the right leaf.

## Key results

- `Siblings.spread`: the entries of two neighbours are distributed anew
- `Siblings.merge_spec`: the right neighbour is merged into the left one
- `fixInternalAfterDelete_spec`: a root without separators gives way to its child
-/

namespace MiniDb

open Bytes Lists

/-- The leaves `x` and `y` are neighbours below the node `nd` of the lowest level, and the
    entry `e` of `nd` leads to `y`. -/
structure Siblings (db : Db) (t : Tree) (others : List PageId) (A B : List Leaf) (x y : Leaf)
    (L R : List Inner) (nd : Inner) (rest : List (List Inner)) (lo : List InternalEntry)
    (e : InternalEntry) (hi : List InternalEntry) : Prop where
  shape : TreeShape db t others
  leaves : t.leaves = A ++ x :: y :: B
  levels : t.levels = (L ++ nd :: R) :: rest
  ents : nd.ents = lo ++ e :: hi
  entry : entryChild e = y.child
  before : A.map Leaf.child ++ [x.child] =
    L.flatMap Inner.children ++ ⟨nd.fence, nd.first⟩ :: lo.map entryChild
  after : B.map Leaf.child = hi.map entryChild ++ R.flatMap Inner.children

namespace Siblings

variable {db : Db} {t : Tree} {others : List PageId} {A B : List Leaf} {x y : Leaf}
  {L R : List Inner} {nd : Inner} {rest : List (List Inner)} {lo hi : List InternalEntry}
  {e : InternalEntry}

theorem x_mem (h : Siblings db t others A B x y L R nd rest lo e hi) : x ∈ t.leaves := by
  rw [h.leaves]; simp

theorem y_mem (h : Siblings db t others A B x y L R nd rest lo e hi) : y ∈ t.leaves := by
  rw [h.leaves]; simp

theorem A_mem (h : Siblings db t others A B x y L R nd rest lo e hi) {z : Leaf} (hz : z ∈ A) :
    z ∈ t.leaves := by rw [h.leaves]; simp [hz]

theorem B_mem (h : Siblings db t others A B x y L R nd rest lo e hi) {z : Leaf} (hz : z ∈ B) :
    z ∈ t.leaves := by rw [h.leaves]; simp [hz]

theorem inners_eq (h : Siblings db t others A B x y L R nd rest lo e hi) :
    t.inners = (L ++ nd :: R) ++ rest.flatten := by
  rw [Tree.inners, h.levels, List.flatten_cons]

theorem nd_mem (h : Siblings db t others A B x y L R nd rest lo e hi) : nd ∈ t.inners := by
  rw [h.inners_eq]; simp

theorem inner_mem (h : Siblings db t others A B x y L R nd rest lo e hi) {m : Inner}
    (hm : m ∈ (L ++ R) ++ rest.flatten) : m ∈ t.inners := by
  rw [h.inners_eq]
  simp only [List.mem_append, List.mem_cons] at hm ⊢
  tauto

theorem upper (h : Siblings db t others A B x y L R nd rest lo e hi) :
    Upper db.ps db.pages ((A ++ x :: y :: B).map Leaf.child) ((L ++ nd :: R) :: rest)
      db.header.rootIndexPageId := by
  have := h.shape.upper
  rwa [h.leaves, h.levels] at this

theorem chain (h : Siblings db t others A B x y L R nd rest lo e hi) :
    LeafChain db.ps db.pages 0 (A ++ x :: y :: B) 0 := h.leaves ▸ h.shape.chain

theorem sorted (h : Siblings db t others A B x y L R nd rest lo e hi) :
    ((A ++ x :: y :: B).flatMap Leaf.marks).Pairwise (· < ·) := h.leaves ▸ h.shape.sorted

/-! The pages are all different. -/

theorem leaf_nodup (h : Siblings db t others A B x y L R nd rest lo e hi) :
    ((A ++ x :: y :: B).map (·.pid)).Nodup :=
  h.leaves ▸ (List.nodup_append.mp h.shape.nodup).1

theorem A_ne (h : Siblings db t others A B x y L R nd rest lo e hi) {z : Leaf} (hz : z ∈ A) :
    z.pid ≠ x.pid ∧ z.pid ≠ y.pid ∧ ∀ w ∈ B, z.pid ≠ w.pid := by
  have hne : ∀ w ∈ x :: y :: B, z.pid ≠ w.pid := fun w hw => ne_of_nodup_map h.leaf_nodup hz hw
  exact ⟨hne x (by simp), hne y (by simp), fun w hw => hne w (by simp [hw])⟩

theorem x_ne (h : Siblings db t others A B x y L R nd rest lo e hi) :
    x.pid ≠ y.pid ∧ ∀ w ∈ B, x.pid ≠ w.pid := by
  have hnodup := h.leaf_nodup
  rw [show A ++ x :: y :: B = (A ++ [x]) ++ y :: B by simp] at hnodup
  have hne : ∀ w ∈ y :: B, x.pid ≠ w.pid := fun w hw => ne_of_nodup_map hnodup (by simp) hw
  exact ⟨hne y (by simp), fun w hw => hne w (by simp [hw])⟩

theorem y_ne (h : Siblings db t others A B x y L R nd rest lo e hi) {w : Leaf} (hw : w ∈ B) :
    y.pid ≠ w.pid := by
  have hnodup := h.leaf_nodup
  rw [show A ++ x :: y :: B = (A ++ [x, y]) ++ B by simp] at hnodup
  exact ne_of_nodup_map hnodup (by simp) hw

theorem inner_ne (h : Siblings db t others A B x y L R nd rest lo e hi) {m : Inner}
    (hm : m ∈ (L ++ R) ++ rest.flatten) : m.pid ≠ nd.pid := by
  have hnodup := (List.nodup_append.mp h.shape.nodup).2.1
  rw [h.inners_eq] at hnodup
  have hperm : (((L ++ nd :: R) ++ rest.flatten).map (·.pid)).Perm
      (([nd] ++ ((L ++ R) ++ rest.flatten)).map (·.pid)) := by
    refine List.Perm.map _ ?_
    simp only [List.append_assoc, List.cons_append]
    exact List.perm_middle
  exact (ne_of_nodup_map (hperm.nodup_iff.mp hnodup) (List.mem_singleton_self _) hm).symm

theorem pid_ne_zero (h : Siblings db t others A B x y L R nd rest lo e hi) :
    x.pid ≠ 0 ∧ y.pid ≠ 0 ∧ nd.pid ≠ 0 :=
  ⟨h.shape.ne_zero (TreeShape.leaf_mem_pids h.x_mem),
    h.shape.ne_zero (TreeShape.leaf_mem_pids h.y_mem),
    h.shape.ne_zero (TreeShape.inner_mem_pids h.nd_mem)⟩

/-! What the pages hold. -/

theorem children (h : Siblings db t others A B x y L R nd rest lo e hi) :
    nd.children = ⟨nd.fence, nd.first⟩ :: (lo.map entryChild ++ y.child :: hi.map entryChild) := by
  rw [Inner.children, h.ents, List.map_append, List.map_cons, h.entry]

/-- The left neighbour is a child of `nd`, too. -/
theorem x_child (h : Siblings db t others A B x y L R nd rest lo e hi) : x.child ∈ nd.children := by
  have hlast := congrArg List.getLast? h.before
  rw [List.getLast?_concat] at hlast
  have hmem : x.child ∈ (⟨nd.fence, nd.first⟩ : Child) :: lo.map entryChild := by
    rw [List.getLast?_append_of_ne_nil _ (List.cons_ne_nil _ _)] at hlast
    exact List.mem_of_getLast? hlast.symm
  rw [h.children]
  simp only [List.mem_cons, List.mem_append] at hmem ⊢
  tauto

theorem parent (h : Siblings db t others A B x y L R nd rest lo e hi) :
    parentOf (db.pages x.pid) = nd.pid ∧ parentOf (db.pages y.pid) = nd.pid := by
  have hp := h.upper.2.2.1 nd (by simp)
  exact ⟨hp _ h.x_child, hp y.child (by rw [h.children]; simp)⟩

theorem xAt (h : Siblings db t others A B x y L R nd rest lo e hi) :
    ∃ cnt, LeafIs db.ps (db.pages x.pid)
      ⟨PageType.leaf.code, nd.pid, cnt, y.pid, lastPid A 0⟩ x.ents := by
  obtain ⟨par, cnt, his⟩ := (LeafChain.cut_iff.mp h.chain).2.1
  have hpar : par = nd.pid := his.parentOf.symm.trans h.parent.1
  exact ⟨cnt, hpar ▸ his⟩

theorem yAt (h : Siblings db t others A B x y L R nd rest lo e hi) :
    ∃ cnt, LeafIs db.ps (db.pages y.pid)
      ⟨PageType.leaf.code, nd.pid, cnt, firstPid B 0, x.pid⟩ y.ents := by
  obtain ⟨par, cnt, his⟩ := (LeafChain.cut_iff.mp h.chain).2.2.1
  have hpar : par = nd.pid := his.parentOf.symm.trans h.parent.2
  exact ⟨cnt, hpar ▸ his⟩

theorem ndAt (h : Siblings db t others A B x y L R nd rest lo e hi) :
    ∃ par cnt, InnerIs db.ps (db.pages nd.pid)
      ⟨PageType.internal.code, par, cnt, nd.first⟩ (lo ++ e :: hi) := by
  obtain ⟨par, cnt, his⟩ := h.upper.2.1 nd (by simp)
  exact ⟨par, cnt, h.ents ▸ his⟩

end Siblings

/-- The leaves `M` have taken the place of two neighbours, and their parent has the
    entries `es`. -/
theorem Siblings.replace {db db' : Db} {t : Tree} {others : List PageId} {A B M : List Leaf}
    {x y : Leaf} {L R : List Inner} {nd : Inner} {rest : List (List Inner)}
    {lo hi : List InternalEntry} {e : InternalEntry} {es : List InternalEntry}
    (h : Siblings db t others A B x y L R nd rest lo e hi)
    (hps : db'.ps = db.ps) (hroot : db'.header.rootIndexPageId = db.header.rootIndexPageId)
    (halloc : Alloc db' (Tree.pids ⟨A ++ M ++ B, (L ++ [nd.withEnts es] ++ R) :: rest⟩ ++ others))
    (hchain : LeafChain db.ps db'.pages 0 (A ++ M ++ B) 0)
    (hsorted : ((A ++ M ++ B).flatMap Leaf.marks).Pairwise (· < ·))
    (hnd : ∃ cnt, InnerIs db.ps (db'.pages nd.pid)
      ⟨PageType.internal.code, parentOf (db.pages nd.pid), cnt, nd.first⟩ es)
    (hM : (A ++ M ++ B).map Leaf.child =
      (L ++ [nd.withEnts es] ++ R).flatMap Inner.children)
    (hMparent : ∀ c ∈ (nd.withEnts es).children, parentOf (db'.pages c.pid) = nd.pid)
    (hparent : ∀ m ∈ L ++ R, ∀ c ∈ m.children,
      parentOf (db'.pages c.pid) = parentOf (db.pages c.pid))
    (hframe : ∀ m ∈ (L ++ R) ++ rest.flatten, db'.pages m.pid = db.pages m.pid) :
    TreeShape db' ⟨A ++ M ++ B, (L ++ [nd.withEnts es] ++ R) :: rest⟩ others := by
  obtain ⟨cnt, hnd⟩ := hnd
  refine ⟨halloc, by rw [hps]; exact hchain, hsorted, ?_⟩
  rw [hps, hroot, hM]
  refine h.upper.replace (fun m hm => ?_) (fun m hm => ?_) ?_
  · rw [List.mem_singleton.mp hm]
    exact ⟨⟨_, cnt, hnd⟩, hMparent⟩
  · exact ⟨SameButParent.of_eq (hframe m (List.mem_append_left _ hm)), hparent m hm⟩
  · -- the node keeps its page and its fence, so the levels above see no change
    have hmap : (L ++ [nd.withEnts es] ++ R).map Inner.child =
        (L ++ nd :: R).map Inner.child := by simp
    rw [hmap]
    refine h.upper.2.2.2.congr (fun c hc => ?_) fun m hm =>
      hframe m (List.mem_append_right _ hm)
    obtain ⟨m, hm, rfl⟩ := List.mem_map.mp hc
    rw [Inner.child_pid]
    by_cases hmnd : m = nd
    · rw [hmnd, hnd.parentOf]
    · have hm' : m ∈ (L ++ R) ++ rest.flatten := by
        simp only [List.mem_append, List.mem_cons] at hm ⊢
        tauto
      rw [hframe m hm']

/-! ## Moving entries -/

/-- The marks when the entries of `y` join those of `x` -/
theorem marks_merge {A B : List Leaf} {x y : Leaf}
    (h : ((A ++ x :: y :: B).flatMap Leaf.marks).Pairwise (· < ·)) :
    ((A ++ x.withEnts (x.ents ++ y.ents) :: B).flatMap Leaf.marks).Pairwise (· < ·) := by
  have hold : (A ++ x :: y :: B).flatMap Leaf.marks = A.flatMap Leaf.marks ++ fenceMark x.fence ::
      (x.ents.map (keyMark ·.key) ++ fenceMark y.fence ::
        (y.ents.map (keyMark ·.key) ++ B.flatMap Leaf.marks)) := by simp [Leaf.marks]
  have hnew : (A ++ x.withEnts (x.ents ++ y.ents) :: B).flatMap Leaf.marks =
      A.flatMap Leaf.marks ++ fenceMark x.fence :: (x.ents.map (keyMark ·.key) ++
        (y.ents.map (keyMark ·.key) ++ B.flatMap Leaf.marks)) := by simp [Leaf.withEnts_marks]
  refine h.sublist ?_
  rw [hold, hnew]
  exact (List.Sublist.refl _).append (((List.Sublist.refl _).append
    (List.sublist_cons_self _ _)).cons_cons _)

namespace Siblings

variable {db db' : Db} {t : Tree} {others : List PageId} {A B : List Leaf} {x y : Leaf}
  {L R : List Inner} {nd : Inner} {rest : List (List Inner)} {lo hi : List InternalEntry}
  {e : InternalEntry}

/-- The nodes of the lowest level have leaves as children. -/
theorem child_leaf (h : Siblings db t others A B x y L R nd rest lo e hi) {m : Inner}
    (hm : m ∈ L ++ nd :: R) {c : Child} (hc : c ∈ m.children) : ∃ z ∈ t.leaves, z.child = c := by
  have hc' : c ∈ (A ++ x :: y :: B).map Leaf.child := by
    rw [← h.upper.1]
    exact List.mem_flatMap.mpr ⟨m, hm, hc⟩
  obtain ⟨z, hz, hzc⟩ := List.mem_map.mp hc'
  exact ⟨z, h.leaves ▸ hz, hzc⟩

/-- Entries have moved between the two neighbours, and the separator has followed. -/
theorem spread (h : Siblings db t others A B x y L R nd rest lo e hi)
    (hfields : db'.fields = db.fields) {xs ys : List LeafEntry} {f : LeafEntry} {cx cy : UInt32}
    (hxs : xs ≠ []) (hents : xs ++ f :: ys = x.ents ++ y.ents)
    (hx : LeafIs db.ps (db'.pages x.pid)
      ⟨PageType.leaf.code, nd.pid, cx, y.pid, lastPid A 0⟩ xs)
    (hy : LeafIs db.ps (db'.pages y.pid)
      ⟨PageType.leaf.code, nd.pid, cy, firstPid B 0, x.pid⟩ (f :: ys))
    (hnd : ∃ cnt, InnerIs db.ps (db'.pages nd.pid)
      ⟨PageType.internal.code, parentOf (db.pages nd.pid), cnt, nd.first⟩
      (lo ++ { e with key := f.key } :: hi))
    (hframe : ∀ q, q ≠ x.pid → q ≠ y.pid → q ≠ nd.pid → db'.pages q = db.pages q) :
    TreeShape db' ⟨A ++ [x.withEnts xs, keyedLeaf y.pid f ys] ++ B,
      (L ++ [nd.withEnts (lo ++ { e with key := f.key } :: hi)] ++ R) :: rest⟩ others := by
  -- the three pages belong to neighbours and their parent, and to nothing else of the tree
  have hleaf_frame : ∀ z ∈ A ++ B, db'.pages z.pid = db.pages z.pid := by
    intro z hz
    rcases List.mem_append.mp hz with hz | hz
    · obtain ⟨h1, h2, -⟩ := h.A_ne hz
      exact hframe _ h1 h2 (h.shape.leaf_ne_inner (h.A_mem hz) h.nd_mem)
    · exact hframe _ (h.x_ne.2 z hz).symm (h.y_ne hz).symm
        (h.shape.leaf_ne_inner (h.B_mem hz) h.nd_mem)
  have hinner_frame : ∀ m ∈ (L ++ R) ++ rest.flatten, db'.pages m.pid = db.pages m.pid :=
    fun m hm => hframe _ (h.shape.leaf_ne_inner h.x_mem (h.inner_mem hm)).symm
      (h.shape.leaf_ne_inner h.y_mem (h.inner_mem hm)).symm (h.inner_ne hm)
  have hparent : ∀ m ∈ L ++ nd :: R, ∀ c ∈ m.children,
      parentOf (db'.pages c.pid) = parentOf (db.pages c.pid) := by
    intro m hm c hc
    obtain ⟨z, hz, rfl⟩ := h.child_leaf hm hc
    rw [Leaf.child_pid]
    by_cases hzx : z.pid = x.pid
    · rw [hzx, hx.parentOf, h.parent.1]
    by_cases hzy : z.pid = y.pid
    · rw [hzy, hy.parentOf, h.parent.2]
    rw [hframe _ hzx hzy (h.shape.leaf_ne_inner hz h.nd_mem)]
  have hold : ∀ m ∈ L ++ R, m ∈ L ++ nd :: R := by
    intro m hm
    simp only [List.mem_append, List.mem_cons] at hm ⊢
    tauto
  have hentry : (entryChild { e with key := f.key }).pid = y.pid :=
    congrArg Child.pid h.entry
  refine h.replace (congrArg (fun f => f.pageSize.toNat) hfields)
    (congrArg (fun f => f.header.rootIndexPageId) hfields) ?_ ?_ ?_ hnd ?_ (fun c hc => ?_)
    (fun m hm c hc => hparent m (hold m hm) c hc) hinner_frame
  · -- no page has come or gone
    have hpids : (Tree.mk (A ++ [x.withEnts xs, keyedLeaf y.pid f ys] ++ B)
        ((L ++ [nd.withEnts (lo ++ { e with key := f.key } :: hi)] ++ R) :: rest)).pids =
        t.pids := by
      simp [Tree.pids, Tree.inners, h.leaves, h.levels]
    rw [hpids]
    refine h.shape.alloc.congr (congrArg (fun f => f.header.nextPageId) hfields)
      (congrArg (fun f => f.header.freePageHead) hfields)
      (congrArg (fun f => f.pageSize.toNat) hfields) fun q hq => ?_
    have hne : ∀ p ∈ t.pids, q ≠ p := fun p hp he => hq (he ▸ List.mem_append_left _ hp)
    exact hframe q (hne _ (TreeShape.leaf_mem_pids h.x_mem))
      (hne _ (TreeShape.leaf_mem_pids h.y_mem)) (hne _ (TreeShape.inner_mem_pids h.nd_mem))
  · -- both leaves keep their links
    obtain ⟨hA, -, -, hB⟩ := LeafChain.cut_iff.mp h.chain
    rw [List.append_assoc]
    refine LeafChain.cut_iff.mpr ⟨hA.congr fun z hz => SameButParent.of_eq
      (hleaf_frame z (List.mem_append_left _ hz)), ⟨nd.pid, cx, hx⟩, ⟨nd.pid, cy, hy⟩, ?_⟩
    exact hB.congr fun z hz => SameButParent.of_eq (hleaf_frame z (List.mem_append_right _ hz))
  · -- all the entries in one leaf are in order, and so they are when it is cut before `f`
    have hsorted := marks_merge h.sorted
    rw [← hents] at hsorted
    rw [List.append_assoc]
    exact marks_split y.pid hxs hsorted
  · -- the separator has become the fence of the right leaf
    have hnew : entryChild { e with key := f.key } = ⟨some f.key, y.pid⟩ := by
      rw [← hentry]; rfl
    calc (A ++ [x.withEnts xs, keyedLeaf y.pid f ys] ++ B).map Leaf.child
        = (A.map Leaf.child ++ [x.child]) ++ ⟨some f.key, y.pid⟩ :: B.map Leaf.child := by simp
      _ = _ := by rw [h.before, h.after]; simp [Inner.withEnts_children, hnew]
  · rw [Inner.withEnts_children, List.map_append, List.map_cons] at hc
    by_cases hce : c = entryChild { e with key := f.key }
    · rw [hce, hentry, hy.parentOf]
    · have hc' : c ∈ nd.children := by
        rw [h.children]
        simp only [List.mem_cons, List.mem_append] at hc ⊢
        tauto
      rw [hparent nd (by simp) c hc']
      exact h.upper.2.2.1 nd (by simp) c hc'

end Siblings

/-! ## The parent after a merge -/

/-- The root lies in the last level. -/
theorem TreeShape.root_level {db : Db} {t : Tree} {others : List PageId}
    (h : TreeShape db t others) {L R : List Inner} {nd : Inner} {rest : List (List Inner)}
    (hlevels : t.levels = (L ++ nd :: R) :: rest) (hroot : nd.pid = db.header.rootIndexPageId) :
    L = [] ∧ R = [] ∧ rest = [] ∧ nd.fence = none := by
  have hup := h.upper
  rw [hlevels] at hup
  have hup := hup.2.2.2
  cases rest with
  | nil =>
    have hrow := hup.1
    rw [List.map_append, List.map_cons] at hrow
    rcases L with _ | ⟨a, L⟩
    · obtain ⟨hnd, hR⟩ := List.cons.inj hrow
      exact ⟨rfl, List.map_eq_nil_iff.mp hR, rfl, congrArg Child.fence hnd⟩
    · exact absurd (congrArg List.length hrow) (by simp)
  | cons lv rest =>
    have hclosed := hup.2.2.2.closed.1
    have hmem : nd.pid ∈ ((lv :: rest).flatten).map (·.pid) := by
      rw [hroot, List.flatten_cons, List.map_append, List.mem_append]
      rwa [List.map_map] at hclosed
    have hnodup := (List.nodup_append.mp h.nodup).2.1
    rw [Tree.inners, hlevels, List.flatten_cons] at hnodup
    obtain ⟨m, hm, hmp⟩ := List.mem_map.mp hmem
    exact absurd hmp.symm (ne_of_nodup_map hnodup (by simp) hm)

section Fix

variable {db : Db} {t : Tree} {others : List PageId} {L R : List Inner} {nd : Inner}
  {rest : List (List Inner)}

/-- `fix_internal_after_delete` replaces a root without separators by its child and leaves
    every other node as it is. -/
theorem fixInternalAfterDelete_spec (hcap : HoldsTwo db.fields.pageSize)
    (h : TreeShape db t others) (hlevels : t.levels = (L ++ nd :: R) :: rest)
    {tol : Fault → Prop} :
    wpDb (fixInternalAfterDelete nd.pid) db (fun _ db' =>
      ∃ levels, ShapeStep db db' ⟨t.leaves, levels⟩ others ∧
        (levels = [] ∨ levels = t.levels ∧ db' = db ∧
          (nd.pid = db.header.rootIndexPageId → nd.ents ≠ []))) tol := by
  have hps8 : 8 ≤ db.ps := Nat.le_trans (by decide) hcap.le_pageSize
  have hnd_mem : nd ∈ t.inners := by rw [Tree.inners, hlevels]; simp
  have hnd0 : nd.pid ≠ 0 := h.ne_zero (TreeShape.inner_mem_pids hnd_mem)
  obtain ⟨par, cnt, his⟩ := h.innerAt hnd_mem
  have hkeep : ShapeStep db db ⟨t.leaves, t.levels⟩ others := ⟨h, rfl, fun _ _ => rfl⟩
  simp only [fixInternalAfterDelete, wpDb_bind, wpDb_getHeader, wpDb_ite]
  split
  next hroot =>
    simp only [wpDb_getPage_of hnd0, wpDb_load, his.header]
    split
    next hcnt =>
      -- the root has no separators: its only child is a leaf
      obtain ⟨rfl, rfl, rfl, hfence⟩ := h.root_level hlevels hroot
      have hents : nd.ents = [] := List.length_eq_zero_iff.mp (by
        rw [← his.count]; exact congrArg UInt32.toNat hcnt)
      have hleaves : ∃ z, t.leaves = [z] ∧ z.child = ⟨none, nd.first⟩ := by
        have hup := h.upper
        rw [hlevels] at hup
        have hrow : nd.children ++ [] = t.leaves.map Leaf.child := hup.1
        rw [List.append_nil, Inner.children, hents, hfence] at hrow
        obtain ⟨z, zs, hz, hzc, hzs⟩ := List.map_eq_cons_iff.mp hrow.symm
        exact ⟨z, by rw [hz, List.map_eq_nil_iff.mp hzs], hzc⟩
      obtain ⟨z, hz, hzc⟩ := hleaves
      have hzp : z.pid = nd.first := congrArg Child.pid hzc
      have hz_mem : z ∈ t.leaves := by rw [hz]; simp
      have hznd : z.pid ≠ nd.pid := h.leaf_ne_inner hz_mem hnd_mem
      have halloc : Alloc db (nd.pid :: z.pid :: others) := by
        refine h.alloc.perm ?_
        rw [Tree.pids, Tree.inners, hz, hlevels]
        exact List.Perm.swap ..
      simp only [wpDb_unpin]
      refine wpDb_mono (pagerFreePage_spec halloc hps8) ?_
      rintro - db₁ ⟨halloc₁, hcore₁, hpages₁⟩
      have hz₁ : db₁.pages z.pid = db.pages z.pid := by
        rw [hpages₁, Function.update_of_ne hznd]
      obtain ⟨p, n, par', cnt', hzis⟩ := h.leafAt hz_mem
      have hlen : 8 ≤ (db.pages z.pid).length := by rw [hzis.length]; exact hps8
      rw [wpDb_modifyHeader, ← hzp, wpDb_setParent (h.ne_zero (TreeShape.leaf_mem_pids hz_mem))
        (by rw [Db.setHeader_pages, hz₁]; exact hlen), Db.setHeader_pages, hz₁]
      have hps₁ : db₁.ps = db.ps := core_ps hcore₁
      refine ⟨[], ⟨⟨?_, ?_, h.sorted, ?_⟩, ?_, fun q hq => ?_⟩, Or.inl rfl⟩
      · -- one page has gone to the free list
        refine Alloc.setPage (Alloc.setHeader ?_ _ ?_ ?_) _ ?_
        · simpa [Tree.pids, Tree.inners, hz] using halloc₁
        · rfl
        · rfl
        · rw [Tree.pids, hz]
          simp
      · -- only the parent field of the leaf is written
        have hchain := h.chain
        rw [hz] at hchain ⊢
        rw [Db.setPage_ps, Db.setHeader_ps, hps₁]
        refine hchain.congr fun w hw => ?_
        rw [List.mem_singleton.mp hw, Db.setPage_pages_same]
        exact sameButParent_put _ _ hlen
      · rw [hz]
        refine ⟨?_, ?_⟩
        · rw [List.map_singleton, hzc, ← hzp]
          rfl
        · rw [Db.setPage_header, Db.setHeader_header, Db.setPage_pages_same, parentOf_put _ _ hlen]
      · have := outside_of_core hcore₁
        exact this
      · have hqz : q ≠ z.pid := (h.pids_ne_others (TreeShape.leaf_mem_pids hz_mem) hq).symm
        have hqnd : q ≠ nd.pid := (h.pids_ne_others (TreeShape.inner_mem_pids hnd_mem) hq).symm
        rw [Db.setPage_pages_ne _ _ hqz, Db.setHeader_pages, hpages₁, Function.update_of_ne hqnd]
    -- the root still has a separator
    next hcnt =>
      refine (wpDb_unpin _ _).mpr ⟨t.levels, hkeep, Or.inr ⟨rfl, rfl, fun _ hnil => hcnt ?_⟩⟩
      apply UInt32.toNat_inj.mp
      have hcount := his.count
      rwa [hnil, List.length_nil] at hcount
  -- a node below the root is left as it is, whatever it holds
  next hroot =>
    simp only [wpDb_getPage_of hnd0, wpDb_unpin]
    exact ⟨t.levels, hkeep, Or.inr ⟨rfl, trivial, fun hr => absurd hr hroot⟩⟩

end Fix

/-! ## Merging -/

/-- The entries of the leaf `src` are appended to the leaf `dst`. -/
theorem appendLeaf_spec {db : Db} (hcap : HoldsTwo db.fields.pageSize) {dst src : PageId}
    {dh sh : LeafPageHeader} {xs ys : List LeafEntry} (hx : LeafIs db.ps (db.pages dst) dh xs)
    (hy : LeafIs db.ps (db.pages src) sh ys)
    (hlen : xs.length + ys.length ≤ (maxLeafKeys db.fields.pageSize).toNat)
    {tol : Fault → Prop} {Q : Unit → Db → Prop}
    (hQ : ∀ pg, LeafIs db.ps pg
      { dh with keyCount := dh.keyCount + sh.keyCount, nextLeafPageId := sh.nextLeafPageId }
      (xs ++ ys) → Q () (db.setPage dst pg)) :
    wpDb (appendLeaf dst src) db Q tol := by
  have hfits := (leaf_fits_iff hcap).mpr hlen
  obtain ⟨pg₁, hwrite, hhead, hes⟩ := writeEntries_append_spec leafEntryC leafBase ys hx.entries
    (by rw [hx.length]; exact hfits)
  have hcount : (dh.keyCount + sh.keyCount).toNat = (xs ++ ys).length := by
    have h1 := hx.count
    have h2 := hy.count
    have h3 := hx.count_lt db.ps_lt
    have h4 := hy.count_lt db.ps_lt
    rw [UInt32.toNat_add, h1, h2, List.length_append]
    exact Nat.mod_eq_of_lt (by omega)
  obtain ⟨hput, his⟩ := LeafIs.of_put
    { dh with keyCount := dh.keyCount + sh.keyCount, nextLeafPageId := sh.nextLeafPageId }
    (xs ++ ys) (hhead.length.trans hx.length) hx.type hcount
    (by rw [List.length_append]; exact hes) (by rw [List.length_append]; exact hfits)
  rw [← hx.count] at hwrite
  simp only [appendLeaf, wpDb_bind, wpDb_load, hx.header, hy.header, wpDb_inBounds_some hy.read,
    wpDb_inBounds_some hwrite, wpDb_inBounds_some hput, wpDb_store, wpDb_markDirty]
  exact hQ _ his

namespace Siblings

variable {db : Db} {t : Tree} {others : List PageId} {A B : List Leaf} {x y : Leaf}
  {L R : List Inner} {nd : Inner} {rest : List (List Inner)} {lo hi : List InternalEntry}
  {e : InternalEntry}

/-- The right neighbour is merged into the left one. -/
theorem merge_spec (hcap : HoldsTwo db.fields.pageSize)
    (h : Siblings db t others A B x y L R nd rest lo e hi)
    (hlen : x.ents.length + y.ents.length ≤ (maxLeafKeys db.fields.pageSize).toNat)
    {idx : UInt32} (hidx : idx.toNat = lo.length) {tol : Fault → Prop} :
    wpDb (do
      appendLeaf x.pid y.pid
      splitLeaf.setPrevLeaf (firstPid B 0) x.pid
      pagerFreePage y.pid
      removeSeparator nd.pid idx) db (fun _ db' =>
      ∃ levels, ShapeStep db db' ⟨A ++ [x.withEnts (x.ents ++ y.ents)] ++ B, levels⟩ others ∧
        ((∀ n ∈ t.inners, n.ents ≠ []) → Tree.SeparatedBut nd.pid db'.header.rootIndexPageId
          ⟨A ++ [x.withEnts (x.ents ++ y.ents)] ++ B, levels⟩)) tol := by
  have hps8 : 8 ≤ db.ps := Nat.le_trans (by decide) hcap.le_pageSize
  obtain ⟨cx, hx⟩ := h.xAt
  obtain ⟨cy, hy⟩ := h.yAt
  obtain ⟨par, cnt, hnd⟩ := h.ndAt
  obtain ⟨hx0, hy0, hnd0⟩ := h.pid_ne_zero
  have hB_nodup : (B.map (·.pid)).Nodup := by
    have hnodup := h.leaf_nodup
    rw [show A ++ x :: y :: B = (A ++ [x, y]) ++ B by simp, List.map_append] at hnodup
    exact (List.nodup_append.mp hnodup).2.1
  have hnotB : ∀ q, (∀ z ∈ B, q ≠ z.pid) → q ∉ B.map (·.pid) := by
    intro q hq hm
    obtain ⟨z, hz, hzq⟩ := List.mem_map.mp hm
    exact hq z hz hzq.symm
  simp only [wpDb_bind]
  refine appendLeaf_spec hcap hx hy hlen fun pgx hx₁ => ?_
  -- the leaf on the right gets its new predecessor
  obtain ⟨hchainA, -, -, hchainB⟩ := LeafChain.cut_iff.mp h.chain
  have hchainB₁ : LeafChain (db.setPage x.pid pgx).ps (db.setPage x.pid pgx).pages y.pid B 0 :=
    hchainB.congr fun z hz => SameButParent.of_eq (Db.setPage_pages_ne _ _ (h.x_ne.2 z hz).symm)
  refine wpDb_mono (setPrevLeaf_spec x.pid hchainB₁ hB_nodup fun z hz =>
    h.shape.ne_zero (TreeShape.leaf_mem_pids (h.B_mem hz))) ?_
  rintro - db₂ ⟨hfields₂, hchainB₂, hframe₂, hparent₂⟩
  have hpages₂ : ∀ q, q ≠ x.pid → q ∉ B.map (·.pid) → db₂.pages q = db.pages q := by
    intro q h1 h2
    rw [hframe₂ q h2, Db.setPage_pages_ne _ _ h1]
  have hx₂ : db₂.pages x.pid = pgx := by
    rw [hframe₂ _ (hnotB _ h.x_ne.2), Db.setPage_pages_same]
  -- the page of the right leaf is freed
  have halloc₂ : Alloc db₂ (y.pid :: (Tree.pids ⟨A ++ [x.withEnts (x.ents ++ y.ents)] ++ B,
      (L ++ [nd.withEnts (lo ++ hi)] ++ R) :: rest⟩ ++ others)) := by
    have hbase : Alloc db₂ (t.pids ++ others) := by
      refine h.shape.alloc.congr (congrArg (fun f => f.header.nextPageId) hfields₂)
        (congrArg (fun f => f.header.freePageHead) hfields₂)
        (congrArg (fun f => f.pageSize.toNat) hfields₂) fun q hq => ?_
      have hne : ∀ z ∈ t.leaves, q ≠ z.pid := fun z hz he =>
        hq (he ▸ List.mem_append_left _ (TreeShape.leaf_mem_pids hz))
      exact hpages₂ q (hne x h.x_mem) (hnotB q fun z hz => hne z (h.B_mem hz))
    refine hbase.perm (List.perm_iff_count.mpr fun a => ?_)
    simp only [Tree.pids, Tree.inners, h.leaves, h.levels, List.map_append, List.map_cons,
      List.map_nil, List.flatten_cons, List.count_append, List.count_cons, List.count_nil,
      Leaf.withEnts_pid, Inner.withEnts_pid]
    omega
  have hps₂ : db₂.ps = db.ps := congrArg (fun f => f.pageSize.toNat) hfields₂
  refine wpDb_mono (pagerFreePage_spec halloc₂ (by rw [hps₂]; exact hps8)) ?_
  rintro - db₃ ⟨halloc₃, hcore₃, hpages₃⟩
  have hpages₃' : ∀ q, q ≠ y.pid → db₃.pages q = db₂.pages q := fun q hq => by
    rw [hpages₃, Function.update_of_ne hq]
  have hps₃ : db₃.ps = db.ps := (core_ps hcore₃).trans hps₂
  have hnd_leaf : ∀ z ∈ t.leaves, nd.pid ≠ z.pid := fun z hz => (h.shape.leaf_ne_inner hz h.nd_mem).symm
  have hnd₃ : db₃.pages nd.pid = db.pages nd.pid := by
    rw [hpages₃' _ (hnd_leaf y h.y_mem), hpages₂ _ (hnd_leaf x h.x_mem)
      (hnotB _ fun z hz => hnd_leaf z (h.B_mem hz))]
  -- the separator is removed from the parent
  obtain ⟨pgn, hdel, hnd₄⟩ := deleteEntryFromInternal_spec hnd hidx
  -- the parent has the entry of the right leaf, so its count does not wrap
  have hcnt0 : cnt ≠ 0 := by
    intro hc
    have hcount := hnd.count
    rw [hc] at hcount
    simp at hcount
  simp only [removeSeparator, wpDb_bind, wpDb_getPage_of hnd0, wpDb_load, hnd₃, hnd.header,
    wpDb_note, wpDb_inBounds_some hdel, wpDb_store, wpDb_markDirty, wpDb_unpin]
  refine ⟨hcnt0, ?_⟩
  -- what the pages hold now
  have hpages₄ : ∀ q, q ≠ nd.pid → q ≠ y.pid → (db₃.setPage nd.pid pgn).pages q = db₂.pages q :=
    fun q h1 h2 => by rw [Db.setPage_pages_ne _ _ h1, hpages₃' q h2]
  have hA₄ : ∀ z ∈ A, (db₃.setPage nd.pid pgn).pages z.pid = db.pages z.pid := by
    intro z hz
    obtain ⟨h1, h2, h3⟩ := h.A_ne hz
    rw [hpages₄ _ (hnd_leaf z (h.A_mem hz)).symm h2, hpages₂ _ h1 (hnotB _ h3)]
  have hB₄ : ∀ z ∈ B, (db₃.setPage nd.pid pgn).pages z.pid = db₂.pages z.pid := fun z hz =>
    hpages₄ _ (hnd_leaf z (h.B_mem hz)).symm (h.y_ne hz).symm
  have hx₄ : (db₃.setPage nd.pid pgn).pages x.pid = pgx := by
    rw [hpages₄ _ (hnd_leaf x h.x_mem).symm h.x_ne.1, hx₂]
  have hinner₄ : ∀ m ∈ (L ++ R) ++ rest.flatten,
      (db₃.setPage nd.pid pgn).pages m.pid = db.pages m.pid := by
    intro m hm
    have hne : ∀ z ∈ t.leaves, m.pid ≠ z.pid := fun z hz =>
      (h.shape.leaf_ne_inner hz (h.inner_mem hm)).symm
    rw [hpages₄ _ (h.inner_ne hm) (hne y h.y_mem), hpages₂ _ (hne x h.x_mem)
      (hnotB _ fun z hz => hne z (h.B_mem hz))]
  have hparent₄ : ∀ c ∈ (A.map Leaf.child ++ [x.child]) ++ B.map Leaf.child,
      parentOf ((db₃.setPage nd.pid pgn).pages c.pid) = parentOf (db.pages c.pid) := by
    intro c hc
    rcases List.mem_append.mp hc with hc | hc
    · rcases List.mem_append.mp hc with hc | hc
      · obtain ⟨z, hz, rfl⟩ := List.mem_map.mp hc
        rw [Leaf.child_pid, hA₄ z hz]
      · rw [List.mem_singleton.mp hc, Leaf.child_pid, hx₄, hx₁.parentOf, hx.parentOf]
    · obtain ⟨z, hz, rfl⟩ := List.mem_map.mp hc
      rw [Leaf.child_pid, hB₄ z hz, hparent₂, Db.setPage_pages_ne _ _ (h.x_ne.2 z hz).symm]
  -- the children of the parent without the right leaf
  have hrow : (A.map Leaf.child ++ [x.child]) ++ B.map Leaf.child =
      (L ++ [nd.withEnts (lo ++ hi)] ++ R).flatMap Inner.children := by
    rw [h.before, h.after]
    simp [Inner.withEnts_children]
  have hmem_row : ∀ m ∈ L ++ [nd.withEnts (lo ++ hi)] ++ R, ∀ c ∈ m.children,
      c ∈ (A.map Leaf.child ++ [x.child]) ++ B.map Leaf.child := fun m hm c hc => by
    rw [hrow]
    exact List.mem_flatMap.mpr ⟨m, hm, hc⟩
  have hshape : TreeShape (db₃.setPage nd.pid pgn) ⟨A ++ [x.withEnts (x.ents ++ y.ents)] ++ B,
      (L ++ [nd.withEnts (lo ++ hi)] ++ R) :: rest⟩ others := by
    refine h.replace hps₃ ?_ ?_ ?_ ?_ ⟨cnt - 1, ?_⟩ ?_ (fun c hc => ?_) (fun m hm c hc => ?_) hinner₄
    · exact (core_root hcore₃).trans (congrArg (fun f => f.header.rootIndexPageId) hfields₂)
    · refine halloc₃.setPage pgn (List.mem_append_left _ ?_)
      simp [Tree.pids, Tree.inners]
    · rw [List.append_assoc]
      refine LeafChain.cut_iff.mpr ⟨hchainA.congr fun z hz => SameButParent.of_eq (hA₄ z hz),
        ⟨nd.pid, cx + cy, ?_⟩, ?_⟩
      · rw [Leaf.withEnts_pid, hx₄]
        exact hx₁
      · exact hchainB₂.congr fun z hz => SameButParent.of_eq (hB₄ z hz)
    · rw [List.append_assoc]
      exact marks_merge h.sorted
    · rw [Db.setPage_pages_same, hnd.parentOf]
      exact hnd₄
    · rw [← hrow]
      simp
    · have hc' : c ∈ nd.children := by
        rw [Inner.withEnts_children, List.map_append] at hc
        rw [h.children]
        simp only [List.mem_cons, List.mem_append] at hc ⊢
        tauto
      rw [hparent₄ c (hmem_row _ (by simp) c hc)]
      exact h.upper.2.2.1 nd (by simp) c hc'
    · refine hparent₄ c (hmem_row m ?_ c hc)
      simp only [List.mem_append] at hm ⊢
      tauto
  have hstep : ShapeStep db (db₃.setPage nd.pid pgn) ⟨A ++ [x.withEnts (x.ents ++ y.ents)] ++ B,
      (L ++ [nd.withEnts (lo ++ hi)] ++ R) :: rest⟩ others := by
    refine ⟨hshape, ?_, fun p hp => ?_⟩
    · have houtside := outside_of_core hcore₃
      rw [show db₂.outside = db.outside by simp only [Db.outside, Db.core, Db.header, hfields₂,
        Db.setPage_fields]] at houtside
      exact houtside
    · have hne : ∀ q ∈ t.pids, p ≠ q := fun q hq => (h.shape.pids_ne_others hq hp).symm
      have hleaf : ∀ z ∈ t.leaves, p ≠ z.pid := fun z hz => hne _ (TreeShape.leaf_mem_pids hz)
      rw [hpages₄ p (hne _ (TreeShape.inner_mem_pids h.nd_mem)) (hleaf y h.y_mem),
        hpages₂ p (hleaf x h.x_mem) (hnotB p fun z hz => hleaf z (h.B_mem hz))]
  have hcap₄ : HoldsTwo (db₃.setPage nd.pid pgn).fields.pageSize := by
    rw [outside_pageSize hstep.outside]
    exact hcap
  have hlevels : (L ++ [nd.withEnts (lo ++ hi)] ++ R) :: rest =
      (L ++ nd.withEnts (lo ++ hi) :: R) :: rest := by simp
  refine wpDb_mono (fixInternalAfterDelete_spec hcap₄ hshape hlevels) ?_
  -- `fix_internal_after_delete` takes away the root or leaves all as it is
  rintro - db₅ ⟨levels, hfix, hcase⟩
  refine ⟨levels, hstep.trans hfix, fun hsep n hn hnil => ?_⟩
  rcases hcase with rfl | ⟨rfl, rfl, hroot⟩
  · exact absurd hn List.not_mem_nil
  · -- only the parent has lost a separator
    have hn' : n ∈ (L ++ [nd.withEnts (lo ++ hi)] ++ R) ++ rest.flatten := hn
    have hcases : n = nd.withEnts (lo ++ hi) ∨ n ∈ (L ++ R) ++ rest.flatten := by
      simp only [List.mem_append, List.mem_singleton] at hn' ⊢
      tauto
    rcases hcases with rfl | hold
    · exact ⟨rfl, fun he => hroot he hnil⟩
    · exact absurd hnil (hsep n (h.inner_mem hold))

end Siblings

end MiniDb
