import MiniDb.Bptree.RepairSpec

/-!
# Deletion

A leaf that has lost an entry and is left with too few is repaired: it borrows from the
right sibling, else from the left one, else it is merged with a sibling.  The repair
needs a sibling, so the parent must have a separator.

## Key results

- `fixLeafAfterDelete_spec`: the repair keeps the entries and the shape of the tree
- `bptreeDelete_shape`: the entry is removed, provided the leaf is not left short below a
  parent without separators
- `bptreeDelete_spec`: the invariant of the tree is kept, too
-/

namespace MiniDb

open Bytes Lists

/-! ## A leaf with too few entries -/

/-- The leaf `l`, a child of `nd`, holds too few entries. -/
structure Underflow (db : Db) (t : Tree) (others : List PageId) (A B : List Leaf) (l : Leaf)
    (L R : List Inner) (nd : Inner) (rest : List (List Inner)) (A' B' : List Child) : Prop where
  shape : TreeShape db t others
  leaves : t.leaves = A ++ l :: B
  levels : t.levels = (L ++ nd :: R) :: rest
  children : nd.children = A' ++ l.child :: B'
  before : A.map Leaf.child = L.flatMap Inner.children ++ A'
  after : B.map Leaf.child = B' ++ R.flatMap Inner.children
  short : l.ents.length < (minLeafKeys db.fields.pageSize).toNat

/-- What the repair of the leaf `l` below the node `nd` makes of the tree: the entries are the
    same, `nd` alone may have lost its last separator, and every leaf holds enough when `l` was
    one entry short and the other leaves `rest` held enough. -/
structure Repaired (db db' : Db) (t t' : Tree) (others : List PageId) (l : Leaf)
    (rest : List Leaf) (nd : PageId) : Prop where
  step : ShapeStep db db' t' others
  entries : t'.entries = t.entries
  separated : (∀ n ∈ t.inners, n.ents ≠ []) → t'.SeparatedBut nd db'.header.rootIndexPageId
  enough : (t.levels ≠ [] → (minLeafKeys db.fields.pageSize).toNat ≤ l.ents.length + 1 ∧
      ∀ z ∈ rest, (minLeafKeys db.fields.pageSize).toNat ≤ z.ents.length) →
    t'.Occupied (minLeafKeys db.fields.pageSize).toNat

/-- A leaf below a root is a child of a node of the lowest level. -/
theorem TreeShape.exists_parent {db : Db} {t : Tree} {others : List PageId}
    (h : TreeShape db t others) {A B : List Leaf} {l : Leaf} (hleaves : t.leaves = A ++ l :: B)
    (hlevels : t.levels ≠ []) :
    ∃ L R nd rest A' B', t.levels = (L ++ nd :: R) :: rest ∧ nd.children = A' ++ l.child :: B' ∧
      A.map Leaf.child = L.flatMap Inner.children ++ A' ∧
      B.map Leaf.child = B' ++ R.flatMap Inner.children := by
  obtain ⟨lv, rest, hlv⟩ := List.exists_cons_of_ne_nil hlevels
  have hrow := h.upper
  rw [hlv] at hrow
  have hrow := hrow.1
  rw [hleaves, List.map_append, List.map_cons] at hrow
  obtain ⟨L, nd, R, A', B', rfl, hnd, hA, hB⟩ := exists_flatMap_cut hrow
  exact ⟨L, R, nd, rest, A', B', hlv, hnd, hA, hB⟩

namespace Underflow

variable {db : Db} {t : Tree} {others : List PageId} {A B : List Leaf} {l : Leaf}
  {L R : List Inner} {nd : Inner} {rest : List (List Inner)} {A' B' : List Child}

theorem nd_mem (h : Underflow db t others A B l L R nd rest A' B') : nd ∈ t.inners := by
  rw [Tree.inners, h.levels]; simp

theorem ents_length (h : Underflow db t others A B l L R nd rest A' B') :
    nd.ents.length = A'.length + B'.length := by
  have := congrArg List.length h.children
  simp only [Inner.children, List.length_cons, List.length_map, List.length_append] at this
  omega

/-- The next child of `nd` is the right sibling. -/
theorem right (h : Underflow db t others A B l L R nd rest A' B') (hB' : B' ≠ []) :
    ∃ r B₁ lo e hi, B = r :: B₁ ∧ lo.length = A'.length ∧
      Siblings db t others A B₁ l r L R nd rest lo e hi := by
  obtain ⟨c, B'', rfl⟩ := List.exists_cons_of_ne_nil hB'
  have hafter := h.after
  rw [List.cons_append] at hafter
  obtain ⟨r, B₁, rfl, hrc, hB₁⟩ := List.map_eq_cons_iff.mp hafter
  have hch := h.children
  rw [show A' ++ l.child :: c :: B'' = (A' ++ [l.child]) ++ c :: B'' by simp] at hch
  rcases Inner.children_cut hch with ⟨hnil, -, -⟩ | ⟨lo, e, hi, hents, hc, hB'', hA'⟩
  · exact absurd hnil (by simp)
  · refine ⟨r, B₁, lo, e, hi, rfl, ?_, h.shape, h.leaves, h.levels, hents, ?_, ?_, ?_⟩
    · have := congrArg List.length hA'
      simp only [List.length_append, List.length_cons, List.length_map, List.length_nil] at this
      omega
    · rw [hrc, hc]
    · rw [h.before, List.append_assoc, hA']
    · rw [hB₁, hB'']

/-- The child of `nd` before the leaf is the left sibling. -/
theorem left (h : Underflow db t others A B l L R nd rest A' B') (hA' : A' ≠ []) :
    ∃ A₁ x lo e hi, A = A₁ ++ [x] ∧ lo.length + 1 = A'.length ∧
      Siblings db t others A₁ B x l L R nd rest lo e hi := by
  obtain ⟨A'', c, rfl⟩ := eq_append_singleton hA'
  have hbefore := h.before
  rw [← List.append_assoc] at hbefore
  obtain ⟨A₁, last, rfl, hA₁, hlast⟩ := List.map_eq_append_iff.mp hbefore
  obtain ⟨x, hx, rfl⟩ := List.map_eq_singleton_iff.mp hlast
  rcases Inner.children_cut h.children with ⟨hnil, -, -⟩ | ⟨lo, e, hi, hents, hc, hB', hA''⟩
  · exact absurd hnil (by simp)
  · refine ⟨A₁, x, lo, e, hi, by rw [hx], ?_, h.shape, ?_, h.levels, hents, hc.symm, ?_, ?_⟩
    · rw [hA'', List.length_cons, List.length_map]
    · rw [h.leaves, hx, List.append_assoc, List.singleton_append]
    · rw [hA₁, List.append_assoc, hA'']
    · rw [h.after, hB']

/-- The position found for the leaf in its parent -/
theorem childIndex_eq (h : Underflow db t others A B l L R nd rest A' B')
    {iph : InternalPageHeader} (hiph : iph.leftmostChildPageId = nd.first) :
    childIndex iph nd.ents l.pid = some A'.length := by
  have hA' : ∀ c ∈ A', c.pid ≠ l.pid := by
    intro c hc hp
    have hmem : c ∈ A.map Leaf.child := by rw [h.before]; exact List.mem_append_right _ hc
    obtain ⟨z, hz, rfl⟩ := List.mem_map.mp hmem
    have hnodup := (List.nodup_append.mp h.shape.nodup).1
    rw [h.leaves] at hnodup
    exact ne_of_nodup_map hnodup hz (List.mem_cons_self ..) hp
  rw [childIndex, hiph]
  rcases Inner.children_cut h.children with ⟨rfl, hl, -⟩ | ⟨lo, e, hi, hents, hl, -, rfl⟩
  · have hfirst : nd.first = l.pid := (congrArg Child.pid hl).symm
    rw [if_pos hfirst, List.length_nil]
  · have hfirst : nd.first ≠ l.pid := hA' ⟨nd.fence, nd.first⟩ (List.mem_cons_self ..)
    have hlo : lo.findIdx? (fun e => e.rightChildPageId = l.pid) = none := by
      rw [List.findIdx?_eq_none_iff]
      intro e' he'
      exact decide_eq_false (hA' (entryChild e') (List.mem_cons_of_mem _ (List.mem_map_of_mem he')))
    have hel : e.rightChildPageId = l.pid := (congrArg Child.pid hl).symm
    rw [if_neg hfirst, hents, List.findIdx?_append, hlo, List.findIdx?_cons]
    simp [hel]

end Underflow

/-! ## Steps on the pages -/

section Steps

variable {db : Db} {tol : Fault → Prop}

/-- `pentries[idx].right_child_page_id` is the right child of entry `idx`. -/
theorem readChild_spec {nd : PageId} {hdr : InternalPageHeader} {lo hi : List InternalEntry}
    {e : InternalEntry} (his : InnerIs db.ps (db.pages nd) hdr (lo ++ e :: hi)) {idx : Nat}
    (hidx : idx = lo.length) {Q : PageId → Db → Prop} (hQ : Q e.rightChildPageId db) :
    wpDb (readChild nd idx hdr.keyCount) db Q tol := by
  subst hidx
  have hlt := his.count_lt db.ps_lt
  have hcount := his.count
  rw [List.length_append, List.length_cons] at hlt hcount
  have hget : (lo ++ e :: hi)[lo.length]? = some e := by simp
  simp only [readChild, wpDb_bind, wpDb_note, wpDb_load, wpDb_inBounds_some (his.getAt? hget),
    wpDb_pure, EventOk]
  refine ⟨?_, hQ⟩
  rw [UInt32.lt_iff_toNat_lt, hcount, UInt32.toNat_ofNat_of_lt' (by
    show lo.length < 2 ^ 32
    omega)]
  omega

/-- The child on the left of the right child of `e` -/
theorem leftSibling_spec {nd : PageId} {hdr : InternalPageHeader} {lo hi : List InternalEntry}
    {e : InternalEntry} (his : InnerIs db.ps (db.pages nd) hdr (lo ++ e :: hi)) {x : PageId}
    (hx : some x = (hdr.leftmostChildPageId :: lo.map (·.rightChildPageId)).getLast?)
    {childIdx : Nat} (hidx : childIdx = lo.length + 1) {Q : PageId → Db → Prop} (hQ : Q x db) :
    wpDb (leftSibling nd hdr childIdx) db Q tol := by
  subst hidx
  rcases List.eq_nil_or_concat lo with rfl | ⟨lo', a, rfl⟩
  · have hx' : x = hdr.leftmostChildPageId := Option.some.inj hx
    rw [leftSibling, if_pos (by rfl), wpDb_pure]
    exact hx' ▸ hQ
  · rw [List.concat_eq_append] at *
    rw [List.map_append, ← List.cons_append, List.map_singleton, List.getLast?_concat] at hx
    have hx' : x = a.rightChildPageId := Option.some.inj hx
    rw [leftSibling, if_neg (by simp)]
    rw [List.append_assoc, List.singleton_append] at his
    exact readChild_spec his (by simp) (hx' ▸ hQ)

/-- An entry with a new key joins the leaf. -/
theorem insertBorrowed_spec (hcap : HoldsTwo db.fields.pageSize) {p : PageId} (hp : p ≠ 0)
    {hdr : LeafPageHeader} {lo hi : List LeafEntry} {b : LeafEntry}
    (his : LeafIs db.ps (db.pages p) hdr (lo ++ hi)) (hlo : ∀ e ∈ lo, e.key < b.key)
    (hhi : ∀ e ∈ hi, b.key ≤ e.key)
    (hroom : lo.length + hi.length + 1 ≤ (maxLeafKeys db.fields.pageSize).toNat)
    {Q : Unit → Db → Prop}
    (hQ : ∀ pg, LeafIs db.ps pg { hdr with keyCount := hdr.keyCount + 1 } (lo ++ b :: hi) →
      Q () (db.setPage p pg)) :
    wpDb (insertBorrowed p b) db Q tol := by
  obtain ⟨pg, hins, his'⟩ := leafInsertEntry_spec his db.ps_lt b.key b.rowRef hlo hhi
    ((leaf_fits_iff hcap).mpr hroom)
  simp only [insertBorrowed, wpDb_bind, wpDb_getPage_of hp, wpDb_load, his.header,
    wpDb_inBounds_some hins, wpDb_store, wpDb_markDirty, wpDb_unpin]
  exact hQ pg his'

/-- The separator takes the first key of the leaf. -/
theorem setSeparator_spec {nd p : PageId} (hnd : nd ≠ 0) (hp : p ≠ 0)
    {hdr : InternalPageHeader} {lo hi : List InternalEntry} {e : InternalEntry}
    (his : InnerIs db.ps (db.pages nd) hdr (lo ++ e :: hi)) {lhdr : LeafPageHeader} {f : LeafEntry}
    {ys : List LeafEntry} (hleaf : LeafIs db.ps (db.pages p) lhdr (f :: ys)) {idx : Nat}
    (hidx : idx = lo.length) {Q : Unit → Db → Prop}
    (hQ : ∀ pg, InnerIs db.ps pg hdr (lo ++ { e with key := f.key } :: hi) →
      Q () (db.setPage nd pg)) :
    wpDb (setSeparator nd idx p) db Q tol := by
  subst hidx
  have hfirst := hleaf.getAt? (i := 0) (e := f) rfl
  have hsep := his.getAt? (i := lo.length) (e := e) (by simp)
  obtain ⟨pg₁, pg₂, hput, hhdr, his'⟩ := his.setAt { e with key := f.key }
  simp only [setSeparator, wpDb_bind, wpDb_getPage_of hnd, wpDb_getPage_of hp, wpDb_load,
    wpDb_inBounds_some hfirst, his.header, wpDb_inBounds_some hsep, wpDb_inBounds_some hput,
    wpDb_unpin, wpDb_inBounds_some hhdr, wpDb_store, wpDb_markDirty]
  exact hQ pg₂ his'

end Steps

/-! ## Moving one entry -/

namespace Siblings

variable {db db' : Db} {t : Tree} {others : List PageId} {A B : List Leaf} {x y : Leaf}
  {L R : List Inner} {nd : Inner} {rest : List (List Inner)} {lo hi : List InternalEntry}
  {e : InternalEntry}

/-- The child before the right child of `e` -/
theorem x_last (h : Siblings db t others A B x y L R nd rest lo e hi) :
    some x.pid = (nd.first :: lo.map (·.rightChildPageId)).getLast? := by
  have hlast := congrArg (fun cs => (cs.map Child.pid).getLast?) h.before
  rw [List.map_append, List.map_singleton, List.getLast?_concat, List.map_append,
    List.getLast?_append_of_ne_nil _ (by simp)] at hlast
  simpa [Function.comp_def] using hlast

/-- The keys of the left leaf are smaller. -/
theorem keys_lt (h : Siblings db t others A B x y L R nd rest lo e hi) {a b : LeafEntry}
    (ha : a ∈ x.ents) (hb : b ∈ y.ents) : a.key < b.key := by
  refine keyMark_lt_keyMark.mp ((marks_cut h.sorted).2.2.2.2.2 _ (Leaf.key_mem_marks ha) _ ?_)
  exact key_mem_flatMap (List.mem_append_left _ hb)

/-- Entries have moved between two neighbours. -/
theorem spread_step (h : Siblings db t others A B x y L R nd rest lo e hi)
    (hfields : db'.fields = db.fields) {xs ys : List LeafEntry} {f : LeafEntry}
    (hents : xs ++ f :: ys = x.ents ++ y.ents)
    (hx : ∃ cnt, LeafIs db.ps (db'.pages x.pid)
      ⟨PageType.leaf.code, nd.pid, cnt, y.pid, lastPid A 0⟩ xs)
    (hy : ∃ cnt, LeafIs db.ps (db'.pages y.pid)
      ⟨PageType.leaf.code, nd.pid, cnt, firstPid B 0, x.pid⟩ (f :: ys))
    (hnd : ∃ cnt, InnerIs db.ps (db'.pages nd.pid)
      ⟨PageType.internal.code, parentOf (db.pages nd.pid), cnt, nd.first⟩
      (lo ++ { e with key := f.key } :: hi))
    (hframe : ∀ q, q ≠ x.pid → q ≠ y.pid → q ≠ nd.pid → db'.pages q = db.pages q)
    (hne : xs ≠ []) {l : Leaf} {others' : List Leaf} (hothers : ∀ z ∈ A ++ B, z ∈ others')
    (henough : (minLeafKeys db.fields.pageSize).toNat ≤ l.ents.length + 1 →
      (minLeafKeys db.fields.pageSize).toNat ≤ xs.length ∧
        (minLeafKeys db.fields.pageSize).toNat ≤ ys.length + 1) :
    ∃ t', Repaired db db' t t' others l others' nd.pid := by
  obtain ⟨cx, hx⟩ := hx
  obtain ⟨cy, hy⟩ := hy
  have hshape := h.spread hfields hne hents hx hy hnd hframe
  refine ⟨_, ⟨hshape, ?_, fun p hp => ?_⟩, ?_, fun hsep n hn hnil => ?_, fun hocc _ z hz => ?_⟩
  · simp only [Db.outside, Db.core, Db.header, hfields]
  · -- the pages of the others are none of the three that changed
    have hne : ∀ q ∈ t.pids, p ≠ q := fun q hq => (h.shape.pids_ne_others hq hp).symm
    exact hframe p (hne _ (TreeShape.leaf_mem_pids h.x_mem))
      (hne _ (TreeShape.leaf_mem_pids h.y_mem)) (hne _ (TreeShape.inner_mem_pids h.nd_mem))
  · -- the entries are the same, in the same order
    have hflat : t.entries = A.flatMap (·.ents) ++ (x.ents ++ y.ents) ++ B.flatMap (·.ents) := by
      simp [Tree.entries, h.leaves]
    rw [hflat, ← hents]
    simp [Tree.entries]
  · -- the parent has as many separators as before
    have hn' : n ∈ (L ++ [nd.withEnts (lo ++ { e with key := f.key } :: hi)] ++ R) ++
      rest.flatten := hn
    have hcases : n = nd.withEnts (lo ++ { e with key := f.key } :: hi) ∨
        n ∈ (L ++ R) ++ rest.flatten := by
      simp only [List.mem_append, List.mem_singleton] at hn' ⊢
      tauto
    rcases hcases with rfl | hold
    · exact absurd hnil (by simp [Inner.withEnts])
    · exact absurd hnil (hsep n (h.inner_mem hold))
  · -- the two leaves have enough entries, the others are as they were
    obtain ⟨hl, hmin⟩ := hocc (by rw [h.levels]; simp)
    obtain ⟨hxs, hys⟩ := henough hl
    simp only [List.append_assoc, List.cons_append, List.nil_append, List.mem_append,
      List.mem_cons] at hz
    rcases hz with hz | rfl | rfl | hz
    · exact hmin z (hothers z (List.mem_append_left _ hz))
    · exact hxs
    · exact hys
    · exact hmin z (hothers z (List.mem_append_right _ hz))

/-- The first entry of the right leaf has been taken out; it joins the left leaf. -/
theorem lendRight_spec (h : Siblings db t others A B x y L R nd rest lo e hi)
    (hcap : HoldsTwo db.fields.pageSize) {b f : LeafEntry} {ys : List LeafEntry}
    (hents : y.ents = b :: f :: ys) {pg : Page} {cnt : UInt32}
    (hpg : LeafIs db.ps pg ⟨PageType.leaf.code, nd.pid, cnt, firstPid B 0, x.pid⟩ (f :: ys))
    (hshort : x.ents.length < (minLeafKeys db.fields.pageSize).toNat)
    (hlend : (minLeafKeys db.fields.pageSize).toNat ≤ ys.length + 1)
    {idx : Nat} (hidx : idx = lo.length) (tol : Fault → Prop) :
    wpDb (do insertBorrowed x.pid b; setSeparator nd.pid idx y.pid) (db.setPage y.pid pg)
      (fun _ db' => ∃ t', Repaired db db' t t' others x (A ++ y :: B) nd.pid) tol := by
  obtain ⟨cx, hx⟩ := h.xAt
  obtain ⟨par, cn, hnd⟩ := h.ndAt
  obtain ⟨hx0, hy0, hnd0⟩ := h.pid_ne_zero
  have hxy := h.x_ne.1
  have hndx := (h.shape.leaf_ne_inner h.x_mem h.nd_mem).symm
  have hndy := (h.shape.leaf_ne_inner h.y_mem h.nd_mem).symm
  have hmax : (minLeafKeys db.fields.pageSize).toNat ≤ (maxLeafKeys db.fields.pageSize).toNat := by
    rw [toNat_minLeafKeys]
    exact Nat.div_le_self _ _
  -- the entry goes behind all those of the left leaf
  have hkeys : ∀ a ∈ x.ents, a.key < b.key := fun a ha => h.keys_lt ha (by rw [hents]; simp)
  rw [wpDb_bind]
  -- the right leaf has been written, the left one and the parent not yet
  have hx₁ : LeafIs (db.setPage y.pid pg).ps ((db.setPage y.pid pg).pages x.pid)
      ⟨PageType.leaf.code, nd.pid, cx, y.pid, lastPid A 0⟩ (x.ents ++ []) := by
    rw [Db.setPage_pages_ne _ _ hxy, List.append_nil]
    exact hx
  have hcap₁ : HoldsTwo (db.setPage y.pid pg).fields.pageSize := hcap
  refine insertBorrowed_spec hcap₁ hx0 hx₁ hkeys (by simp) (by
    rw [List.length_nil]
    exact Nat.le_trans hshort hmax) fun pgx hx₂ => ?_
  have hnd₂ : InnerIs ((db.setPage y.pid pg).setPage x.pid pgx).ps
      (((db.setPage y.pid pg).setPage x.pid pgx).pages nd.pid)
      ⟨PageType.internal.code, par, cn, nd.first⟩ (lo ++ e :: hi) := by
    rw [Db.setPage_pages_ne _ _ hndx, Db.setPage_pages_ne _ _ hndy]
    exact hnd
  have hy₂ : LeafIs ((db.setPage y.pid pg).setPage x.pid pgx).ps
      (((db.setPage y.pid pg).setPage x.pid pgx).pages y.pid)
      ⟨PageType.leaf.code, nd.pid, cnt, firstPid B 0, x.pid⟩ (f :: ys) := by
    rw [Db.setPage_pages_ne _ _ hxy.symm, Db.setPage_pages_same]
    exact hpg
  refine setSeparator_spec hnd0 hy0 hnd₂ hy₂ hidx fun pgn hnd₃ => ?_
  -- together the two leaves hold what they held
  have hall : (x.ents ++ [b]) ++ f :: ys = x.ents ++ y.ents := by rw [hents]; simp
  have hfields : (((db.setPage y.pid pg).setPage x.pid pgx).setPage nd.pid pgn).fields =
      db.fields := rfl
  refine h.spread_step hfields hall ?_ ?_ ?_ ?_ (by simp) (fun z hz => ?_) fun hl => ⟨?_, hlend⟩
  · rw [Db.setPage_pages_ne _ _ hndx.symm, Db.setPage_pages_same]
    exact ⟨_, hx₂⟩
  · rw [Db.setPage_pages_ne _ _ hndy.symm]
    exact ⟨_, hy₂⟩
  · rw [Db.setPage_pages_same, hnd.parentOf]
    exact ⟨cn, hnd₃⟩
  · intro q h1 h2 h3
    rw [Db.setPage_pages_ne _ _ h3, Db.setPage_pages_ne _ _ h1, Db.setPage_pages_ne _ _ h2]
  · simp only [List.mem_append, List.mem_cons] at hz ⊢
    tauto
  · rw [List.length_append, List.length_singleton]
    exact hl

/-- The last entry of the left leaf has been taken out; it joins the right leaf. -/
theorem lendLeft_spec (h : Siblings db t others A B x y L R nd rest lo e hi)
    (hcap : HoldsTwo db.fields.pageSize) {b : LeafEntry} {xs : List LeafEntry}
    (hents : x.ents = xs ++ [b]) {pg : Page} {cnt : UInt32}
    (hpg : LeafIs db.ps pg ⟨PageType.leaf.code, nd.pid, cnt, y.pid, lastPid A 0⟩ xs)
    (hshort : y.ents.length < (minLeafKeys db.fields.pageSize).toNat)
    (hlend : (minLeafKeys db.fields.pageSize).toNat ≤ xs.length)
    {idx : Nat} (hidx : idx = lo.length) (tol : Fault → Prop) :
    wpDb (do insertBorrowed y.pid b; setSeparator nd.pid idx y.pid) (db.setPage x.pid pg)
      (fun _ db' => ∃ t', Repaired db db' t t' others y ((A ++ [x]) ++ B) nd.pid) tol := by
  obtain ⟨cy, hy⟩ := h.yAt
  obtain ⟨par, cn, hnd⟩ := h.ndAt
  obtain ⟨hx0, hy0, hnd0⟩ := h.pid_ne_zero
  have hxy := h.x_ne.1
  have hndx := (h.shape.leaf_ne_inner h.x_mem h.nd_mem).symm
  have hndy := (h.shape.leaf_ne_inner h.y_mem h.nd_mem).symm
  have hmax : (minLeafKeys db.fields.pageSize).toNat ≤ (maxLeafKeys db.fields.pageSize).toNat := by
    rw [toNat_minLeafKeys]
    exact Nat.div_le_self _ _
  -- the entry goes before all those of the right leaf
  have hkeys : ∀ a ∈ y.ents, b.key ≤ a.key := fun a ha =>
    UInt64.le_of_lt (h.keys_lt (by rw [hents]; simp) ha)
  rw [wpDb_bind]
  -- the left leaf has been written, the right one and the parent not yet
  have hy₁ : LeafIs (db.setPage x.pid pg).ps ((db.setPage x.pid pg).pages y.pid)
      ⟨PageType.leaf.code, nd.pid, cy, firstPid B 0, x.pid⟩ ([] ++ y.ents) := by
    rw [Db.setPage_pages_ne _ _ hxy.symm]
    exact hy
  have hcap₁ : HoldsTwo (db.setPage x.pid pg).fields.pageSize := hcap
  refine insertBorrowed_spec hcap₁ hy0 hy₁ (by simp) hkeys (by
    rw [List.length_nil, Nat.zero_add]
    exact Nat.le_trans hshort hmax) fun pgy hy₂ => ?_
  have hnd₂ : InnerIs ((db.setPage x.pid pg).setPage y.pid pgy).ps
      (((db.setPage x.pid pg).setPage y.pid pgy).pages nd.pid)
      ⟨PageType.internal.code, par, cn, nd.first⟩ (lo ++ e :: hi) := by
    rw [Db.setPage_pages_ne _ _ hndy, Db.setPage_pages_ne _ _ hndx]
    exact hnd
  have hy₃ : LeafIs ((db.setPage x.pid pg).setPage y.pid pgy).ps
      (((db.setPage x.pid pg).setPage y.pid pgy).pages y.pid)
      ⟨PageType.leaf.code, nd.pid, cy + 1, firstPid B 0, x.pid⟩ (b :: y.ents) := by
    rw [Db.setPage_pages_same]
    exact hy₂
  refine setSeparator_spec hnd0 hy0 hnd₂ hy₃ hidx fun pgn hnd₃ => ?_
  have hall : xs ++ b :: y.ents = x.ents ++ y.ents := by rw [hents]; simp
  have hmin := one_le_minLeafKeys hcap
  -- the left leaf keeps an entry, so its first key is still its fence
  have hne : xs ≠ [] := fun hnil => by rw [hnil, List.length_nil] at hlend; omega
  have hfields : (((db.setPage x.pid pg).setPage y.pid pgy).setPage nd.pid pgn).fields =
      db.fields := rfl
  refine h.spread_step hfields hall ?_ ?_ ?_ ?_ hne (fun z hz => ?_) fun hl => ⟨hlend, hl⟩
  · rw [Db.setPage_pages_ne _ _ hndx.symm, Db.setPage_pages_ne _ _ hxy, Db.setPage_pages_same]
    exact ⟨_, hpg⟩
  · rw [Db.setPage_pages_ne _ _ hndy.symm]
    exact ⟨_, hy₃⟩
  · rw [Db.setPage_pages_same, hnd.parentOf]
    exact ⟨cn, hnd₃⟩
  · intro q h1 h2 h3
    rw [Db.setPage_pages_ne _ _ h3, Db.setPage_pages_ne _ _ h2, Db.setPage_pages_ne _ _ h1]
  · simp only [List.mem_append, List.mem_singleton] at hz ⊢
    tauto

end Siblings

section Borrow

variable {db : Db} {t : Tree} {others : List PageId} {A B : List Leaf} {l : Leaf}
  {L R : List Inner} {nd : Inner} {rest : List (List Inner)} {A' B' : List Child}
  {tol : Fault → Prop}

/-- The leaf borrows from its right sibling, or there is none that can lend. -/
theorem borrowFromRight_spec (hcap : HoldsTwo db.fields.pageSize)
    (h : Underflow db t others A B l L R nd rest A' B') {iph : InternalPageHeader}
    (hnd : InnerIs db.ps (db.pages nd.pid) iph nd.ents) :
    wpDb (borrowFromRight l.pid nd.pid A'.length iph) db (fun b db' =>
      (b = true ∧ ∃ t', Repaired db db' t t' others l (A ++ B) nd.pid) ∨
      (b = false ∧ db' = db ∧ (B' = [] ∨ ∃ r B₁ lo e hi, B = r :: B₁ ∧ lo.length = A'.length ∧
        Siblings db t others A B₁ l r L R nd rest lo e hi ∧
        r.ents.length ≤ (minLeafKeys db.fields.pageSize).toNat))) tol := by
  have hcount := hnd.count
  rw [h.ents_length] at hcount
  simp only [borrowFromRight, wpDb_bind, wpDb_getPageSize, wpDb_ite]
  split
  -- `child_idx < key_count`: the node has a child to the right
  next hcond =>
    have hB' : B' ≠ [] := by
      rintro rfl
      rw [UInt32.lt_iff_toNat_lt, UInt32.toNat_zero, hcount, List.length_nil] at hcond
      omega
    obtain ⟨r, B₁, lo, e, hi, rfl, hlo, hsib⟩ := h.right hB'
    obtain ⟨cl, hl⟩ := hsib.xAt
    obtain ⟨cr, hr⟩ := hsib.yAt
    obtain ⟨hl0, hr0, hnd0⟩ := hsib.pid_ne_zero
    rw [hsib.ents] at hnd
    have hentry : e.rightChildPageId = r.pid := congrArg Child.pid hsib.entry
    -- the entry at the index of the leaf points at the right sibling
    refine readChild_spec hnd hlo.symm ?_
    rw [hentry]
    simp only [wpDb_note, wpDb_getPage_of hr0, wpDb_load, hr.header, EventOk]
    refine ⟨h.shape.liveLeaf hsib.y_mem, ?_⟩
    have hrcount := hr.count
    dsimp only at hrcount
    split
    -- more than the minimum: at least two entries, since the minimum is at least one
    next hlend =>
      rw [UInt32.lt_iff_toNat_lt, hrcount] at hlend
      have hmin := one_le_minLeafKeys hcap
      obtain ⟨b, f, ys, hrents⟩ : ∃ b f ys, r.ents = b :: f :: ys := by
        cases hre : r.ents with
        | nil =>
          rw [hre, List.length_nil] at hlend
          omega
        | cons b ys =>
          cases ys with
          | nil =>
            rw [hre, List.length_singleton] at hlend
            omega
          | cons f ys => exact ⟨b, f, ys, rfl⟩
      rw [hrents, ← List.nil_append (b :: f :: ys)] at hr
      obtain ⟨pgr, hdel, hr'⟩ := deleteEntryFromLeaf_spec hr (UInt32.toNat_zero)
      simp only [wpDb_inBounds_some (hr.getAt? (i := 0) rfl), wpDb_inBounds_some hdel,
        wpDb_store, wpDb_markDirty, wpDb_unpin, wpDb_pure]
      have hlent := hsib.lendRight_spec hcap hrents hr' h.short
        (by rw [hrents] at hlend; simpa using hlend) hlo.symm tol
      rw [wpDb_bind] at hlent
      refine wpDb_mono hlent fun _ db₁ hsep => wpDb_mono hsep ?_
      exact fun _ db₂ hstep => Or.inl ⟨trivial, hstep⟩
    -- the sibling has none to spare
    next hlend =>
      rw [UInt32.lt_iff_toNat_lt, hrcount] at hlend
      simp only [wpDb_unpin, wpDb_pure]
      exact Or.inr ⟨trivial, trivial, Or.inr ⟨r, B₁, lo, e, hi, rfl, hlo, hsib, by omega⟩⟩
  -- the leaf is the last child
  next hcond =>
    refine Or.inr ⟨rfl, rfl, Or.inl ?_⟩
    rw [UInt32.lt_iff_toNat_lt, UInt32.toNat_zero, hcount] at hcond
    exact List.length_eq_zero_iff.mp (by omega)

/-- The leaf borrows from its left sibling, or there is none that can lend. -/
theorem borrowFromLeft_spec (hcap : HoldsTwo db.fields.pageSize)
    (h : Underflow db t others A B l L R nd rest A' B') {iph : InternalPageHeader}
    (hnd : InnerIs db.ps (db.pages nd.pid) iph nd.ents) (hfirst : iph.leftmostChildPageId = nd.first) :
    wpDb (borrowFromLeft l.pid nd.pid A'.length iph) db (fun b db' =>
      (b = true ∧ ∃ t', Repaired db db' t t' others l (A ++ B) nd.pid) ∨
      (b = false ∧ db' = db ∧ (A' = [] ∨ ∃ A₁ x lo e hi, A = A₁ ++ [x] ∧
        lo.length + 1 = A'.length ∧ Siblings db t others A₁ B x l L R nd rest lo e hi ∧
        x.ents.length ≤ (minLeafKeys db.fields.pageSize).toNat))) tol := by
  simp only [borrowFromLeft, wpDb_bind, wpDb_getPageSize, wpDb_ite]
  split
  -- `child_idx > 0`: the node has a child to the left
  next hcond =>
    obtain ⟨A₁, x, lo, e, hi, rfl, hlo, hsib⟩ := h.left (List.length_pos_iff.mp hcond)
    obtain ⟨cx, hx⟩ := hsib.xAt
    obtain ⟨hx0, hl0, hnd0⟩ := hsib.pid_ne_zero
    rw [hsib.ents] at hnd
    have hlast := hsib.x_last
    rw [← hfirst] at hlast
    refine leftSibling_spec hnd hlast hlo.symm ?_
    simp only [wpDb_note, wpDb_getPage_of hx0, wpDb_load, hx.header, EventOk]
    refine ⟨h.shape.liveLeaf hsib.x_mem, ?_⟩
    have hxcount := hx.count
    dsimp only at hxcount
    split
    -- the last entry is dropped by the count alone, so the bytes before it stay
    next hlend =>
      rw [UInt32.lt_iff_toNat_lt, hxcount] at hlend
      obtain ⟨xs, b, hxents⟩ := eq_append_singleton (l := x.ents) (fun hnil => by
        rw [hnil, List.length_nil] at hlend
        omega)
      have hlen : x.ents.length = xs.length + 1 := by rw [hxents]; simp
      have hpred := UInt32.toNat_pred (x := cx) (by omega)
      rw [hxcount, hlen, Nat.add_sub_cancel] at hpred
      rw [hxents] at hx
      obtain ⟨hput, hx'⟩ := LeafIs.of_put
        (⟨PageType.leaf.code, nd.pid, cx - 1, l.pid, lastPid A₁ 0⟩ : LeafPageHeader) xs hx.length
        rfl hpred (listAt_append_left _ _ hx.entries) (by
          have := hx.fits
          rw [List.length_append, Nat.add_mul] at this
          omega)
      simp only [hpred, wpDb_inBounds_some (hx.getAt? (i := xs.length) (e := b) (by simp)),
        wpDb_inBounds_some hput, wpDb_store, wpDb_markDirty, wpDb_unpin, wpDb_pure]
      have hlent := hsib.lendLeft_spec hcap hxents hx' h.short (by omega)
        (show A'.length - 1 = lo.length by omega) tol
      rw [wpDb_bind] at hlent
      refine wpDb_mono hlent fun _ db₁ hsep => wpDb_mono hsep ?_
      exact fun _ db₂ hstep => Or.inl ⟨trivial, hstep⟩
    -- the sibling has none to spare
    next hlend =>
      rw [UInt32.lt_iff_toNat_lt, hxcount] at hlend
      simp only [wpDb_unpin, wpDb_pure]
      exact Or.inr ⟨trivial, trivial, Or.inr ⟨A₁, x, lo, e, hi, rfl, hlo, hsib, by omega⟩⟩
  -- the leaf is the leftmost child
  next hcond =>
    exact Or.inr ⟨rfl, rfl, Or.inl (List.length_eq_zero_iff.mp (by omega))⟩

end Borrow

/-! ## Merging two leaves -/

/-- Two neighbours that fit one page are merged. -/
theorem Siblings.merge_step {db : Db} {t : Tree} {others : List PageId} {A B : List Leaf}
    {x y : Leaf} {L R : List Inner} {nd : Inner} {rest : List (List Inner)}
    {lo hi : List InternalEntry} {e : InternalEntry}
    (h : Siblings db t others A B x y L R nd rest lo e hi) (hcap : HoldsTwo db.fields.pageSize)
    (hmax : x.ents.length + y.ents.length ≤ (maxLeafKeys db.fields.pageSize).toNat)
    {idx : UInt32} (hidx : idx.toNat = lo.length) (l : Leaf) {w : Leaf} (rest' : List Leaf)
    (hw : w ∈ rest') (hlen : w.ents.length ≤ x.ents.length + y.ents.length)
    (hothers : ∀ z ∈ A ++ B, z ∈ rest') (tol : Fault → Prop) :
    wpDb (do
      appendLeaf x.pid y.pid
      splitLeaf.setPrevLeaf (firstPid B 0) x.pid
      pagerFreePage y.pid
      removeSeparator nd.pid idx) db
      (fun _ db' => ∃ t', Repaired db db' t t' others l rest' nd.pid) tol := by
  refine wpDb_mono (h.merge_spec hcap hmax hidx) ?_
  rintro - db' ⟨levels, hstep, hsep⟩
  refine ⟨_, hstep, ?_, hsep, fun hocc _ z hz => ?_⟩
  · simp [Tree.entries, h.leaves]
  · obtain ⟨-, hmin⟩ := hocc (by rw [h.levels]; simp)
    simp only [List.append_assoc, List.cons_append, List.nil_append, List.mem_append,
      List.mem_cons] at hz
    rcases hz with hz | rfl | hz
    · exact hmin z (hothers z (List.mem_append_left _ hz))
    · rw [Leaf.withEnts_ents, List.length_append]
      exact Nat.le_trans (hmin w hw) hlen
    · exact hmin z (hothers z (List.mem_append_right _ hz))

section Fix

variable {db : Db} {t : Tree} {others : List PageId} {A B : List Leaf} {l : Leaf}
  {L R : List Inner} {nd : Inner} {rest : List (List Inner)} {A' B' : List Child}
  {tol : Fault → Prop}

/-- A leaf with too few entries and a sibling that cannot lend are merged. -/
theorem mergeLeaf_spec (hcap : HoldsTwo db.fields.pageSize)
    (h : Underflow db t others A B l L R nd rest A' B') {iph : InternalPageHeader}
    (hnd : InnerIs db.ps (db.pages nd.pid) iph nd.ents) (hfirst : iph.leftmostChildPageId = nd.first)
    (hleft : A' = [] ∨ ∃ A₁ x lo e hi, A = A₁ ++ [x] ∧
      lo.length + 1 = A'.length ∧ Siblings db t others A₁ B x l L R nd rest lo e hi ∧
      x.ents.length ≤ (minLeafKeys db.fields.pageSize).toNat)
    (hright : A' = [] → ∃ r B₁ lo e hi, B = r :: B₁ ∧ lo.length = A'.length ∧
      Siblings db t others A B₁ l r L R nd rest lo e hi ∧
      r.ents.length ≤ (minLeafKeys db.fields.pageSize).toNat) :
    wpDb (mergeLeaf l.pid nd.pid A'.length iph) db
      (fun _ db' => ∃ t', Repaired db db' t t' others l (A ++ B) nd.pid) tol := by
  have hshort := h.short
  -- neither of the two has more than the minimum, so they fit one page
  have hmax : 2 * (minLeafKeys db.fields.pageSize).toNat ≤
      (maxLeafKeys db.fields.pageSize).toNat := by
    rw [toNat_minLeafKeys]
    omega
  rcases hleft with hnil | ⟨A₁, x, lo, e, hi, rfl, hlo, hsib, hfew⟩
  · -- the leftmost leaf takes over its right sibling
    obtain ⟨r, B₁, lo, e, hi, rfl, hlo, hsib, hfew⟩ := hright hnil
    obtain ⟨cr, hr⟩ := hsib.yAt
    obtain ⟨hl0, hr0, hnd0⟩ := hsib.pid_ne_zero
    rw [hnil, List.length_nil] at hlo
    have hr_mem : r ∈ A ++ r :: B₁ := by simp
    have hmerge := hsib.merge_step hcap (by omega) (show (0 : UInt32).toNat = lo.length from hlo.symm)
      l (A ++ r :: B₁) hr_mem (Nat.le_add_left ..) (fun z hz => by
        simp only [List.mem_append, List.mem_cons] at hz ⊢
        tauto) tol
    have hentry : e.rightChildPageId = r.pid := congrArg Child.pid hsib.entry
    rw [hsib.ents] at hnd
    rw [hnil, mergeLeaf, if_neg (by simp), wpDb_bind]
    refine readChild_spec hnd hlo.symm ?_
    rw [hentry]
    simp only [wpDb_bind, wpDb_note, wpDb_getPage_of hl0, wpDb_getPage_of hr0, wpDb_load, hr.header,
      wpDb_unpin, EventOk]
    simp only [wpDb_bind] at hmerge
    exact ⟨h.shape.liveLeaf hsib.y_mem, hmerge⟩
  · -- the left sibling takes over the leaf
    obtain ⟨cl, hl⟩ := hsib.yAt
    obtain ⟨hx0, hl0, hnd0⟩ := hsib.pid_ne_zero
    have hidx : (UInt32.ofNat (A'.length - 1)).toNat = lo.length := by
      have hlt := hnd.count_lt db.ps_lt
      rw [h.ents_length] at hlt
      rw [UInt32.toNat_ofNat_of_lt' (by
        show A'.length - 1 < 2 ^ 32
        omega)]
      omega
    have hx_mem : x ∈ (A₁ ++ [x]) ++ B := by simp
    have hmerge := hsib.merge_step hcap (by omega) hidx l ((A₁ ++ [x]) ++ B) hx_mem
      (Nat.le_add_right ..) (fun z hz => by
        simp only [List.mem_append] at hz ⊢
        tauto) tol
    have hlast := hsib.x_last
    rw [← hfirst] at hlast
    rw [hsib.ents] at hnd
    rw [mergeLeaf, if_pos (by omega), wpDb_bind]
    refine leftSibling_spec hnd hlast hlo.symm ?_
    simp only [wpDb_bind, wpDb_note, wpDb_getPage_of hx0, wpDb_getPage_of hl0, wpDb_load, hl.header,
      wpDb_unpin, EventOk]
    simp only [wpDb_bind] at hmerge
    exact ⟨h.shape.liveLeaf hsib.x_mem, hmerge⟩

/-- The repair of a leaf with too few entries -/
theorem Underflow.repair_spec (h : Underflow db t others A B l L R nd rest A' B')
    (hcap : HoldsTwo db.fields.pageSize) (hents : nd.ents ≠ []) {iph : InternalPageHeader}
    (hnd : InnerIs db.ps (db.pages nd.pid) iph nd.ents)
    (hfirst : iph.leftmostChildPageId = nd.first) :
    wpDb (do
      if ← borrowFromRight l.pid nd.pid A'.length iph then return ()
      else if ← borrowFromLeft l.pid nd.pid A'.length iph then return ()
      else mergeLeaf l.pid nd.pid A'.length iph) db
      (fun _ db' => ∃ t', Repaired db db' t t' others l (A ++ B) nd.pid) tol := by
  rw [wpDb_bind]
  refine wpDb_mono (borrowFromRight_spec hcap h hnd) ?_
  rintro b db₁ (⟨rfl, hstep⟩ | ⟨rfl, rfl, hright⟩)
  · simpa using hstep
  simp only [Bool.false_eq_true, if_false, wpDb_bind]
  refine wpDb_mono (borrowFromLeft_spec hcap h hnd hfirst) ?_
  rintro b db₂ (⟨rfl, hstep⟩ | ⟨rfl, rfl, hleft⟩)
  · simpa using hstep
  simp only [Bool.false_eq_true, if_false]
  refine mergeLeaf_spec hcap h hnd hfirst hleft fun hA' => hright.resolve_left fun hB' => hents ?_
  have hlen := h.ents_length
  rw [hA', hB'] at hlen
  exact List.length_eq_zero_iff.mp hlen

/-- The number of separators the parent of the leaf page `pid` holds -/
def parentKeyCount (db : Db) (pid : PageId) : UInt32 :=
  (internalPageHeaderC.get (db.pages (parentOf (db.pages pid))) 0).keyCount

/-- The one tree whose leaf is the root has no levels. -/
theorem TreeShape.levels_eq_nil (h : TreeShape db t others) (hl : l ∈ t.leaves)
    (hroot : l.pid = db.header.rootIndexPageId) : t.levels = [] := by
  by_contra hlevels
  obtain ⟨lv, rest, hlv⟩ := List.exists_cons_of_ne_nil hlevels
  have hup := h.upper
  rw [hlv] at hup
  have hmem : l.pid ∈ t.inners.map (·.pid) := by
    rw [hroot, Tree.inners, hlv]
    have := hup.2.2.2.closed.1
    rwa [List.map_map, show (Child.pid ∘ Inner.child) = Inner.pid from rfl, ← List.mem_append,
      ← List.map_append, ← List.flatten_cons] at this
  obtain ⟨n, hn, hnl⟩ := List.mem_map.mp hmem
  exact h.leaf_ne_inner hl hn hnl.symm

theorem TreeShape.root_of_levels_eq_nil (h : TreeShape db t others) (hl : l ∈ t.leaves)
    (hlevels : t.levels = []) : l.pid = db.header.rootIndexPageId := by
  have hup := h.upper
  rw [hlevels] at hup
  have hmem : l.child ∈ [(⟨none, db.header.rootIndexPageId⟩ : Child)] := by
    rw [← hup.1]
    exact List.mem_map_of_mem hl
  exact congrArg Child.pid (List.mem_singleton.mp hmem)

/-- After a leaf has lost an entry it is repaired by `fix_leaf_after_delete`. -/
theorem fixLeafAfterDelete_spec (hcap : HoldsTwo db.fields.pageSize) (h : TreeShape db t others)
    (hleaves : t.leaves = A ++ l :: B)
    (hsafe : l.pid = db.header.rootIndexPageId ∨
      (minLeafKeys db.fields.pageSize).toNat ≤ l.ents.length ∨ parentKeyCount db l.pid ≠ 0) :
    wpDb (fixLeafAfterDelete l.pid) db (fun _ db' =>
      ∃ t', Repaired db db' t t' others l (A ++ B) (parentOf (db.pages l.pid))) tol := by
  have hl_mem : l ∈ t.leaves := by rw [hleaves]; simp
  obtain ⟨p, n, par, cnt, his⟩ := h.leafAt hl_mem
  have hcount := his.count
  dsimp only at hcount
  simp only [fixLeafAfterDelete, wpDb_bind, wpDb_getPageSize,
    wpDb_getPage_of (h.ne_zero (TreeShape.leaf_mem_pids hl_mem)), wpDb_load, his.header,
    wpDb_unpin, wpDb_getHeader, wpDb_ite]
  -- the function returns at once: at the root, or with enough entries left
  have hdone : (t.levels ≠ [] → (minLeafKeys db.fields.pageSize).toNat ≤ l.ents.length) →
      ∃ t', Repaired db db t t' others l (A ++ B) (parentOf (db.pages l.pid)) := by
    refine fun hl => ⟨t, ⟨h, rfl, fun _ _ => rfl⟩, rfl, fun hsep n hn hnil => absurd hnil (hsep n hn),
      fun hocc hlevels z hz => ?_⟩
    obtain ⟨-, hmin⟩ := hocc hlevels
    rw [hleaves, List.mem_append, List.mem_cons] at hz
    rcases hz with hz | rfl | hz
    · exact hmin z (List.mem_append_left _ hz)
    · exact hl hlevels
    · exact hmin z (List.mem_append_right _ hz)
  split
  next hroot =>
    exact hdone fun hlevels => absurd (h.levels_eq_nil hl_mem hroot) hlevels
  next hroot =>
    split
    next hmany =>
      rw [UInt32.le_iff_toNat_le, hcount] at hmany
      exact hdone fun _ => hmany
    -- an underflow: the parent page names the node the leaf hangs from
    next hfew =>
      rw [UInt32.le_iff_toNat_le, hcount] at hfew
      have hlevels : t.levels ≠ [] := fun hnil => hroot (h.root_of_levels_eq_nil hl_mem hnil)
      obtain ⟨L, R, nd, rest, A', B', hlv, hch, hA, hB⟩ := h.exists_parent hleaves hlevels
      have hunder : Underflow db t others A B l L R nd rest A' B' :=
        ⟨h, hleaves, hlv, hch, hA, hB, by omega⟩
      have hup := h.upper
      rw [hlv] at hup
      have hpar : par = nd.pid := his.parentOf.symm.trans
        (hup.2.2.1 nd (by simp) l.child (by rw [hch]; simp))
      obtain ⟨npar, ncnt, hnd⟩ := h.innerAt hunder.nd_mem
      -- this is where the safety of the deletion is needed
      have hcnt : ncnt ≠ 0 := by
        have hsafe' := (hsafe.resolve_left hroot).resolve_left hfew
        rwa [parentKeyCount, his.parentOf, hpar, hnd.header] at hsafe'
      have hents : nd.ents ≠ [] := fun hnil => hcnt (UInt32.toNat_inj.mp (by
        have := hnd.count
        rwa [hnil, List.length_nil] at this))
      subst hpar
      simp only [wpDb_getPage_of (h.ne_zero (TreeShape.inner_mem_pids hunder.nd_mem)), hnd.header,
        wpDb_note, EventOk, wpDb_inBounds_some hnd.read]
      refine ⟨hcnt, ?_⟩
      rw [hunder.childIndex_eq rfl, his.parentOf]
      exact hunder.repair_spec hcap hents hnd rfl

/-- A run of `fix_leaf_after_delete` that does everything right has a separator in the parent
    of a leaf with too few entries. -/
theorem fixLeafAfterDelete_note (h : TreeShape db t others) (hl_mem : l ∈ t.leaves)
    {Q : Unit → Db → Prop} {tol : Fault → Prop} (hrun : wpDb (fixLeafAfterDelete l.pid) db Q tol) :
    l.pid = db.header.rootIndexPageId ∨
      (minLeafKeys db.fields.pageSize).toNat ≤ l.ents.length ∨ parentKeyCount db l.pid ≠ 0 := by
  obtain ⟨p, n, par, cnt, his⟩ := h.leafAt hl_mem
  have hcount := his.count
  dsimp only at hcount
  simp only [fixLeafAfterDelete, wpDb_bind, wpDb_getPageSize,
    wpDb_getPage_of (h.ne_zero (TreeShape.leaf_mem_pids hl_mem)), wpDb_load, his.header,
    wpDb_unpin, wpDb_getHeader, wpDb_ite] at hrun
  by_cases hroot : l.pid = db.header.rootIndexPageId
  · exact Or.inl hroot
  by_cases hmany : minLeafKeys db.fields.pageSize ≤ cnt
  · rw [UInt32.le_iff_toNat_le, hcount] at hmany
    exact Or.inr (Or.inl hmany)
  -- the function reads the parent and notes the number of its separators
  refine Or.inr (Or.inr ?_)
  have hlevels : t.levels ≠ [] := fun hnil => hroot (h.root_of_levels_eq_nil hl_mem hnil)
  obtain ⟨A, B, hleaves⟩ := List.append_of_mem hl_mem
  obtain ⟨L, R, nd, rest, A', B', hlv, hch, -, -⟩ := h.exists_parent hleaves hlevels
  have hup := h.upper
  rw [hlv] at hup
  have hpar : par = nd.pid := his.parentOf.symm.trans
    (hup.2.2.1 nd (by simp) l.child (by rw [hch]; simp))
  have hnd0 : par ≠ 0 := hpar ▸ h.ne_zero (TreeShape.inner_mem_pids (n := nd) (by
    rw [Tree.inners, hlv]
    simp))
  rw [if_neg hroot, if_neg hmany] at hrun
  simp only [wpDb_getPage_of hnd0, wpDb_note, EventOk] at hrun
  rw [parentKeyCount, his.parentOf]
  exact hrun.1

end Fix

/-! ## Deletion from the tree -/

/-- The keys on a leaf page -/
def leafKeys (pg : Page) : List Key :=
  (leafEntryC.listAt leafBase pg (leafPageHeaderC.get pg 0).keyCount.toNat).map (·.key)

theorem LeafIs.leafKeys {ps : Nat} {pg : Page} {hdr : LeafPageHeader} {es : List LeafEntry}
    (h : LeafIs ps pg hdr es) : leafKeys pg = es.map (·.key) := by
  rw [MiniDb.leafKeys, h.header, h.count, h.entries]

/-- A leaf that holds the key is the root, or can spare an entry, or has a parent with a
    separator. -/
def DeleteSafe (db : Db) (key : Key) : Prop :=
  ∀ pid, LiveLeaf db pid → key ∈ leafKeys (db.pages pid) →
    pid = db.header.rootIndexPageId ∨
      minLeafKeys db.fields.pageSize < (leafPageHeaderC.get (db.pages pid) 0).keyCount ∨
      parentKeyCount db pid ≠ 0

/-- The marks when an entry goes away -/
theorem marks_remove {A B : List Leaf} {l : Leaf} {lo hi : List LeafEntry} {e : LeafEntry}
    (h : ((A ++ l :: B).flatMap Leaf.marks).Pairwise (· < ·)) (hents : l.ents = lo ++ e :: hi) :
    ((A ++ l.withEnts (lo ++ hi) :: B).flatMap Leaf.marks).Pairwise (· < ·) := by
  have hsub : (l.withEnts (lo ++ hi)).marks.Sublist l.marks := by
    rw [Leaf.withEnts_marks, Leaf.marks, hents]
    exact (((List.Sublist.refl lo).append (List.sublist_cons_self e hi)).map _).cons_cons _
  refine h.sublist ?_
  rw [List.flatMap_append, List.flatMap_cons, List.flatMap_append, List.flatMap_cons]
  exact (List.Sublist.refl _).append (hsub.append (List.Sublist.refl _))

section Delete

variable {db : Db} {t : Tree} {others : List PageId} {A B : List Leaf} {l : Leaf} {key : Key}
  {lo hi : List LeafEntry} {e : LeafEntry} {tol : Fault → Prop}

/-- The leaf pages are the leaves of the tree. -/
theorem TreeShape.exists_leaf (h : TreeShape db t others) {pid : PageId} (hlive : LiveLeaf db pid) :
    ∃ l ∈ t.leaves, l.pid = pid := by
  rcases List.mem_append.mp (h.treeReach_iff.mp hlive.1) with hp | hp
  · obtain ⟨l, hl, hlp⟩ := List.mem_map.mp hp
    exact ⟨l, hl, hlp⟩
  · obtain ⟨n, hn, rfl⟩ := List.mem_map.mp hp
    have htype := h.inner_type hn
    rw [hlive.2] at htype
    exact absurd (PageType.code_injective htype) (by decide)

/-- The descent ends in the leaf the key belongs to, whatever is asked of the run. -/
theorem findLeaf_iff (h : TreeShape db t others) (hcut : KeyCut t key A B l lo hi)
    {Q : PageId → Db → Prop} : wpDb (findLeaf key) db Q tol ↔ Q l.pid db := by
  refine ⟨fun hrun => ?_, findLeaf_spec h hcut⟩
  have hend : wpDb (findLeaf key) db (fun pid db' => pid = l.pid ∧ db' = db) fun _ => False :=
    findLeaf_spec h hcut ⟨rfl, rfl⟩
  obtain ⟨pid, db', hexec, rfl, rfl⟩ := wpDb_total hend
  exact (wpDb_exec hrun).1 _ _ hexec

/-- The entry is taken out of its leaf; the rest is `fix_leaf_after_delete`. -/
theorem bptreeDelete_iff (h : TreeShape db t others) (hcut : KeyCut t key A B l lo (e :: hi))
    (hkey : e.key = key) :
    ∃ par cnt pg, parentOf (db.pages l.pid) = par ∧ cnt.toNat = (lo ++ e :: hi).length ∧
      LeafIs db.ps (db.pages l.pid)
        ⟨PageType.leaf.code, par, cnt, firstPid B 0, lastPid A 0⟩ (lo ++ e :: hi) ∧
      LeafIs db.ps pg ⟨PageType.leaf.code, par, cnt - 1, firstPid B 0, lastPid A 0⟩ (lo ++ hi) ∧
      ∀ Q : Int → Db → Prop, wpDb (bptreeDelete key) db Q tol ↔
        wpDb (fixLeafAfterDelete l.pid) (db.setPage l.pid pg) (fun _ => Q 0) tol := by
  obtain ⟨par, cnt, his, hidx⟩ := leafFind_cut h hcut
  have hcount := his.count
  obtain ⟨pg, hdel, his'⟩ := deleteEntryFromLeaf_spec his hidx
  refine ⟨par, cnt, pg, his.parentOf, hcount, his, his', fun Q => ?_⟩
  have hhit : leafFind (lo ++ e :: hi) cnt key < cnt ∧
      ((lo ++ e :: hi).getD (leafFind (lo ++ e :: hi) cnt key).toNat default).key = key :=
    (hit_iff hcount hidx).mpr ⟨e, hi, rfl, hkey⟩
  have hmiss : ¬ (cnt ≤ leafFind (lo ++ e :: hi) cnt key ∨
      ((lo ++ e :: hi).getD (leafFind (lo ++ e :: hi) cnt key).toNat default).key ≠ key) := by
    rintro (hle | hne)
    · exact absurd hhit.1 (UInt32.not_lt.mpr hle)
    · exact hne hhit.2
  simp only [bptreeDelete, wpDb_bind, findLeaf_iff h hcut,
    wpDb_getPage_of (h.ne_zero (TreeShape.leaf_mem_pids hcut.mem)), wpDb_load, his.header,
    wpDb_inBounds_some his.read, wpDb_ite, if_neg hmiss, wpDb_inBounds_some hdel, wpDb_store,
    wpDb_markDirty, wpDb_unpin, wpDb_pure]

/-- The state after an entry has been taken out of its leaf -/
theorem TreeShape.removeEntry (h : TreeShape db t others)
    (hcut : KeyCut t key A B l lo (e :: hi)) {pg : Page} {cnt : UInt32}
    (his : LeafIs db.ps pg ⟨PageType.leaf.code, parentOf (db.pages l.pid), cnt, firstPid B 0,
      lastPid A 0⟩ (lo ++ hi)) :
    TreeShape (db.setPage l.pid pg) ⟨A ++ l.withEnts (lo ++ hi) :: B, t.levels⟩ others := by
  have hsorted := h.sorted
  rw [hcut.leaves] at hsorted
  exact h.setLeaf hcut.leaves his (marks_remove hsorted hcut.ents)

/-- The number of separators of the parent is the same when only the leaf changes. -/
theorem TreeShape.parentKeyCount_setPage (h : TreeShape db t others) (hl : l ∈ t.leaves)
    {pg : Page} (hpar : parentOf pg = parentOf (db.pages l.pid))
    (hroot : l.pid ≠ db.header.rootIndexPageId) :
    parentKeyCount (db.setPage l.pid pg) l.pid = parentKeyCount db l.pid := by
  have hlevels : t.levels ≠ [] := fun hnil => hroot (h.root_of_levels_eq_nil hl hnil)
  obtain ⟨A, B, hleaves⟩ := List.append_of_mem hl
  obtain ⟨L, R, nd, rest, A', B', hlv, hch, -, -⟩ := h.exists_parent hleaves hlevels
  have hup := h.upper
  rw [hlv] at hup
  have hnd : parentOf (db.pages l.pid) = nd.pid :=
    hup.2.2.1 nd (by simp) l.child (by rw [hch]; simp)
  have hnd_mem : nd ∈ t.inners := by rw [Tree.inners, hlv]; simp
  rw [parentKeyCount, parentKeyCount, Db.setPage_pages_same, hpar, hnd,
    Db.setPage_pages_ne _ _ (h.leaf_ne_inner hl hnd_mem).symm]

/-- `bptree_delete` reports an absent key and removes the entry of any other. -/
theorem bptreeDelete_shape (hcap : HoldsTwo db.fields.pageSize) (h : TreeShape db t others)
    (key : Key) (hsafe : DeleteSafe db key) :
    wpDb (bptreeDelete key) db (fun r db' =>
      ((∀ e ∈ t.entries, e.key ≠ key) ∧ r = -1 ∧ db' = db) ∨
      (r = 0 ∧ ∃ t' es e es', ShapeStep db db' t' others ∧
        (t.Occupied (minLeafKeys db.fields.pageSize).toNat →
          t'.Occupied (minLeafKeys db.fields.pageSize).toNat) ∧
        ((∀ n ∈ t.inners, n.ents ≠ []) → ∃ l ∈ t.leaves, e ∈ l.ents ∧
          t'.SeparatedBut (parentOf (db.pages l.pid)) db'.header.rootIndexPageId) ∧
        e.key = key ∧ t.entries = es ++ e :: es' ∧ t'.entries = es ++ es')) tol := by
  obtain ⟨A, B, l, lo, hi, hcut⟩ := h.exists_cut key
  have hl_mem := hcut.mem
  -- the entry is in the leaf the descent ends in, or nowhere
  by_cases hhit : ∃ e hi', hi = e :: hi' ∧ e.key = key
  · obtain ⟨e, hi, rfl, hkey⟩ := hhit
    obtain ⟨par, cnt, pg, rfl, hcount, his, his', hiff⟩ := bptreeDelete_iff h hcut hkey
    rw [hiff]
    have hshape := h.removeEntry hcut his'
    rw [List.length_append, List.length_cons] at hcount
    -- the hypothesis is about this leaf before the entry is taken out
    have hsafe' := hsafe l.pid (h.liveLeaf hl_mem) (by
      rw [his.leafKeys, ← hkey]
      simp)
    rw [his.header, UInt32.lt_iff_toNat_lt] at hsafe'
    dsimp only at hsafe'
    have hcap' : HoldsTwo (db.setPage l.pid pg).fields.pageSize := hcap
    refine wpDb_mono (fixLeafAfterDelete_spec hcap' hshape rfl (l := l.withEnts (lo ++ hi)) ?_) ?_
    · -- and so the repair has a separator to work with after it
      rw [Leaf.withEnts_pid, Leaf.withEnts_ents, Db.setPage_header, List.length_append]
      by_cases hroot : l.pid = db.header.rootIndexPageId
      · exact Or.inl hroot
      rw [h.parentKeyCount_setPage hl_mem his'.parentOf hroot]
      rcases hsafe'.resolve_left hroot with hmany | hparent
      · refine Or.inr (Or.inl ?_)
        rw [Db.setPage_fields]
        omega
      · exact Or.inr (Or.inr hparent)
    · -- the repair gives the tree, its frame and what it keeps
      rintro - db' ⟨t', hrep⟩
      refine Or.inr ⟨rfl, t', A.flatMap (·.ents) ++ lo, e, hi ++ B.flatMap (·.ents),
        ⟨hrep.step.shape, hrep.step.outside, fun p hp => ?_⟩, fun hocc => hrep.enough fun hlevels => ?_,
        fun hsep => ⟨l, hl_mem, by rw [hcut.ents]; simp, ?_⟩, hkey, ?_, ?_⟩
      · rw [hrep.step.frame p hp, Db.setPage_pages_ne _ _
          (h.pids_ne_others (TreeShape.leaf_mem_pids hl_mem) hp).symm]
      · -- the leaf has lost one entry, the others none
        constructor
        · have := hocc hlevels l hl_mem
          rw [hcut.ents, List.length_append, List.length_cons] at this
          rw [Leaf.withEnts_ents, List.length_append]
          exact this
        · intro z hz
          apply hocc hlevels z
          rw [hcut.leaves]
          simp only [List.mem_append, List.mem_cons] at hz ⊢
          tauto
      · have hsep' := hrep.separated hsep
        rwa [Leaf.withEnts_pid, Db.setPage_pages_same, his'.parentOf] at hsep'
      · rw [hcut.entries]
        simp
      · rw [hrep.entries]
        simp [Tree.entries]
  · obtain ⟨par, cnt, his, hidx⟩ := leafFind_cut h hcut
    have hcount := his.count
    -- the search in the leaf misses, and nothing is written
    have hmiss : cnt ≤ leafFind (lo ++ hi) cnt key ∨
        ((lo ++ hi).getD (leafFind (lo ++ hi) cnt key).toNat default).key ≠ key := by
      by_contra hc
      rw [not_or, not_not, UInt32.not_le] at hc
      exact hhit ((hit_iff hcount hidx).mp hc)
    simp only [bptreeDelete, wpDb_bind, findLeaf_iff h hcut,
      wpDb_getPage_of (h.ne_zero (TreeShape.leaf_mem_pids hl_mem)), wpDb_load, his.header,
      wpDb_inBounds_some his.read, wpDb_ite, if_pos hmiss, wpDb_unpin, wpDb_pure]
    refine Or.inl ⟨fun e he hk => hhit ?_, trivial, trivial⟩
    exact hcut.mem_keys_iff.mp ⟨e, he, hk⟩

/-- The deletion keeps the invariant. -/
theorem bptreeDelete_spec (hcap : HoldsTwo db.fields.pageSize) (h : TreeInv db t others)
    (key : Key) (hsafe : DeleteSafe db key) :
    wpDb (bptreeDelete key) db fun r db' =>
      ((∀ e ∈ t.entries, e.key ≠ key) ∧ r = -1 ∧ db' = db) ∨
      (r = 0 ∧ ∃ t' es e es', TreeStep db db' t' others ∧ e.key = key ∧
        t.entries = es ++ e :: es' ∧ t'.entries = es ++ es') := by
  apply wpDb_mono (bptreeDelete_shape hcap h.toTreeShape key hsafe)
  rintro r db' (habsent | ⟨hr, t', es, e, es', hstep, hocc, -, hkey, hes, hes'⟩)
  · exact Or.inl habsent
  · exact Or.inr ⟨hr, t', es, e, es', hstep.treeStep (hocc h.occupancy), hkey, hes, hes'⟩

/-- A deletion that does everything right was safe. -/
theorem deleteSafe_of_wpDb (h : TreeShape db t others) {Q : Int → Db → Prop}
    (hrun : wpDb (bptreeDelete key) db Q tol) : DeleteSafe db key := by
  intro pid hlive hkeys
  obtain ⟨z, hz, rfl⟩ := h.exists_leaf hlive
  obtain ⟨p, n, zpar, zcnt, hzis⟩ := h.leafAt hz
  rw [hzis.leafKeys] at hkeys
  obtain ⟨e', he', hkey'⟩ := List.mem_map.mp hkeys
  obtain ⟨A, B, l, lo, hi, hcut⟩ := h.exists_cut key
  -- the leaf is the one the descent ends in
  have hzl : z = l := by
    rw [hcut.leaves, List.mem_append, List.mem_cons] at hz
    rcases hz with hz | rfl | hz
    · exact absurd hkey' (UInt64.ne_of_lt (hcut.before e' (List.mem_flatMap.mpr ⟨z, hz, he'⟩)))
    · rfl
    · exact absurd hkey' (UInt64.ne_of_lt (hcut.after e' (List.mem_flatMap.mpr ⟨z, hz, he'⟩))).symm
  subst hzl
  obtain ⟨e, hi, rfl, hkey⟩ := hcut.mem_keys_iff.mp
    ⟨e', List.mem_flatMap.mpr ⟨z, hcut.mem, he'⟩, hkey'⟩
  obtain ⟨par, cnt, pg, rfl, hcount, his, his', hiff⟩ := bptreeDelete_iff h hcut hkey
  have hshape := h.removeEntry hcut his'
  rw [hiff] at hrun
  -- a run that passes the note in the repair has seen a separator
  have hnote := fixLeafAfterDelete_note (l := z.withEnts (lo ++ hi)) hshape (by simp) hrun
  rw [Leaf.withEnts_pid, Leaf.withEnts_ents, Db.setPage_header, List.length_append,
    Db.setPage_fields] at hnote
  rw [List.length_append, List.length_cons] at hcount
  by_cases hroot : z.pid = db.header.rootIndexPageId
  · exact Or.inl hroot
  rw [his.header, UInt32.lt_iff_toNat_lt]
  rw [h.parentKeyCount_setPage hcut.mem his'.parentOf hroot] at hnote
  rcases hnote.resolve_left hroot with hmany | hparent
  · refine Or.inr (Or.inl ?_)
    dsimp only
    omega
  · exact Or.inr (Or.inr hparent)

end Delete

end MiniDb
