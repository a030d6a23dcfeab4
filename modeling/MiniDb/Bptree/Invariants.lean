import MiniDb.Lib.Chains
import MiniDb.Bptree.Runs

/-!
# What holds in every run of the tree

The invariant in terms of the pages alone: the leaves from left to right, the links between
them, their occupancy, and the length of the paths.  The runs are those in which every
internal node keeps a separator; then every deletion is safe.

## Key results

- `treeRun_leafChain`: the links visit the leaves in key order
- `treeRun_balance`: occupancy and height
-/

namespace MiniDb

open Bytes Lists Chains Runs

/-! ## Separators -/

/-- Every internal node of the tree has a separator. -/
def Separated (db : Db) : Prop :=
  ∀ pid, TreeReach db pid → pageType (db.pages pid) = PageType.internal.code →
    (internalPageHeaderC.get (db.pages pid) 0).keyCount ≠ 0

theorem Separated.deleteSafe {db : Db} {t : Tree} {others : List PageId} (hsep : Separated db)
    (h : TreeShape db t others) (key : Key) : DeleteSafe db key := by
  intro pid hlive _
  obtain ⟨l, hl, rfl⟩ := h.exists_leaf hlive
  by_cases hlevels : t.levels = []
  · exact Or.inl (h.root_of_levels_eq_nil hl hlevels)
  · obtain ⟨A, B, hleaves⟩ := List.append_of_mem hl
    obtain ⟨L, R, nd, rest, A', B', hlv, hch, -, -⟩ := h.exists_parent hleaves hlevels
    have hup := h.upper
    rw [hlv] at hup
    have hpar : parentOf (db.pages l.pid) = nd.pid :=
      hup.2.2.1 nd (by simp) l.child (by rw [hch]; simp)
    have hnd : nd ∈ t.inners := by rw [Tree.inners, hlv]; simp
    refine Or.inr (Or.inr ?_)
    rw [parentKeyCount, hpar]
    exact hsep _ (h.treeReach_iff.mpr (TreeShape.inner_mem_pids hnd)) (h.inner_type hnd)

theorem Separated.safe {db : Db} {t : Tree} {others : List PageId} (hsep : Separated db)
    (h : TreeShape db t others) (op : TreeOp) : op.Safe db := by
  cases op with
  | insert key ref => trivial
  | delete key => exact hsep.deleteSafe h key

/-- The test of all nodes below `pid`, a node of height at most `n` -/
def separatedBelow (db : Db) : Nat → PageId → Bool
  | 0, _ => false
  | n + 1, pid =>
    pageType (db.pages pid) ≠ PageType.internal.code ||
      ((internalPageHeaderC.get (db.pages pid) 0).keyCount ≠ 0 &&
        (childIds (db.pages pid)).all (separatedBelow db n))

theorem Separated.of_check {db : Db} {n : Nat}
    (h : separatedBelow db n db.header.rootIndexPageId = true) : Separated db := by
  have hbelow : ∀ pid, TreeReach db pid → ∃ m, separatedBelow db m pid = true := by
    intro pid hreach
    induction hreach with
    | root => exact ⟨n, h⟩
    | @child p c _ htype hc ih =>
      obtain ⟨m, hm⟩ := ih
      cases m with
      | zero => exact nomatch hm
      | succ m =>
        simp only [separatedBelow, htype, ne_eq, not_true_eq_false, decide_false, Bool.false_or,
          Bool.and_eq_true, List.all_eq_true] at hm
        exact ⟨m, hm.2 c hc⟩
  intro pid hreach htype
  obtain ⟨m, hm⟩ := hbelow pid hreach
  cases m with
  | zero => exact nomatch hm
  | succ m =>
    simp only [separatedBelow, htype, ne_eq, not_true_eq_false, decide_false, Bool.false_or,
      Bool.and_eq_true, decide_eq_true_eq] at hm
    exact hm.1

/-! ## The leaves from left to right -/

/-- The leaves below node `pid`, a node of height at most `n`, from left to right -/
def leavesBelow (db : Db) : Nat → PageId → List PageId
  | 0, _ => []
  | n + 1, pid =>
    if pageType (db.pages pid) = PageType.leaf.code then [pid]
    else (childIds (db.pages pid)).flatMap (leavesBelow db n)

/-- The leaves of the tree from left to right -/
def treeLeaves (db : Db) : List PageId := leavesBelow db maxPages db.header.rootIndexPageId

/-- `next_leaf_page_id` of a leaf -/
def nextLeaf (db : Db) (pid : PageId) : PageId :=
  (leafPageHeaderC.get (db.pages pid) 0).nextLeafPageId

/-- `prev_leaf_page_id` of a leaf -/
def prevLeaf (db : Db) (pid : PageId) : PageId :=
  (leafPageHeaderC.get (db.pages pid) 0).prevLeafPageId

section Leaves

variable {db : Db} {t : Tree} {others : List PageId}

theorem leavesBelow_root {levels : List (List Inner)} {lower : List Child} {root : PageId}
    (hup : Upper db.ps db.pages lower levels root) (n : Nat) :
    leavesBelow db (n + levels.length) root = lower.flatMap fun c => leavesBelow db n c.pid := by
  induction levels generalizing lower n with
  | nil => simp [hup.1]
  | cons lv levels ih =>
    obtain ⟨hlv, hat, -, hup⟩ := hup
    have hnode : ∀ nd ∈ lv, leavesBelow db (n + 1) nd.child.pid =
        nd.children.flatMap fun c => leavesBelow db n c.pid := by
      intro nd hnd
      have hch := (hat nd hnd).childIds
      obtain ⟨par, cnt, his⟩ := hat nd hnd
      have htype : ¬ pageType (db.pages nd.pid) = PageType.leaf.code := by
        rw [his.pageType]
        decide
      rw [leavesBelow, Inner.child_pid, if_neg htype, hch, List.flatMap_map]
    rw [List.length_cons, show n + (levels.length + 1) = n + 1 + levels.length by omega, ih hup,
      List.flatMap_map, ← hlv, List.flatMap_assoc]
    exact List.flatMap_congr hnode

/-- The leaves found from the root are the leaves of the tree in order. -/
theorem TreeShape.treeLeaves_eq (h : TreeShape db t others) :
    treeLeaves db = t.leaves.map (·.pid) := by
  have hlt := h.levels_lt
  rw [treeLeaves, show maxPages = (maxPages - t.levels.length - 1 + 1) + t.levels.length by omega,
    leavesBelow_root h.upper, List.flatMap_map]
  rw [List.map_eq_flatMap]
  refine List.flatMap_congr fun l hl => ?_
  rw [leavesBelow, Leaf.child_pid, if_pos (h.leaf_type hl)]

theorem TreeShape.mem_treeLeaves_iff (h : TreeShape db t others) {pid : PageId} :
    pid ∈ treeLeaves db ↔ LiveLeaf db pid := by
  rw [h.treeLeaves_eq]
  constructor
  · intro hp
    obtain ⟨l, hl, rfl⟩ := List.mem_map.mp hp
    exact h.liveLeaf hl
  · intro hp
    obtain ⟨l, hl, rfl⟩ := h.exists_leaf hp
    exact List.mem_map_of_mem hl

theorem LeafAt.links {prev next : PageId} {l : Leaf} (h : LeafAt db.ps db.pages prev next l) :
    nextLeaf db l.pid = next ∧ prevLeaf db l.pid = prev := by
  obtain ⟨par, cnt, his⟩ := h
  rw [nextLeaf, prevLeaf, his.header]
  exact ⟨rfl, rfl⟩

theorem LeafChain.visits {ls : List Leaf} {prev : PageId}
    (h : LeafChain db.ps db.pages prev ls 0) (h0 : ∀ l ∈ ls, l.pid ≠ 0) :
    Visits (nextLeaf db) 0 (firstPid ls 0) (ls.map (·.pid)) := by
  induction ls generalizing prev with
  | nil => rfl
  | cons l ls ih =>
    refine ⟨rfl, h0 l (List.mem_cons_self ..), ?_⟩
    rw [h.1.links.1]
    exact ih h.2 fun l hl => h0 l (List.mem_cons_of_mem _ hl)

theorem lastPid_concat (A : List Leaf) (l : Leaf) (prev : PageId) :
    lastPid (A ++ [l]) prev = l.pid := by
  induction A generalizing prev with
  | nil => rfl
  | cons a A ih => exact ih a.pid

/-- A leaf is the successor of another exactly if that one is its predecessor. -/
theorem LeafChain.links_inverse {ls : List Leaf} (h : LeafChain db.ps db.pages 0 ls 0)
    (h0 : ∀ l ∈ ls, l.pid ≠ 0) {a b : Leaf} (ha : a ∈ ls)
    (hb : b ∈ ls) : nextLeaf db a.pid = b.pid ↔ prevLeaf db b.pid = a.pid := by
  constructor
  · intro hnext
    obtain ⟨A, B, hAB⟩ := List.append_of_mem ha
    rw [hAB] at h
    obtain ⟨-, hat, hB⟩ := LeafChain.cut_iff.mp h
    rw [hat.links.1] at hnext
    cases B with
    | nil => exact absurd hnext.symm (h0 b hb)
    | cons b' B =>
      rw [← hnext]
      exact hB.1.links.2
  · intro hprev
    obtain ⟨C, D, hCD⟩ := List.append_of_mem hb
    rw [hCD] at h
    rw [(LeafChain.cut_iff.mp h).2.1.links.2] at hprev
    rcases List.eq_nil_or_concat C with rfl | ⟨C, c, rfl⟩
    · exact absurd hprev.symm (h0 a ha)
    · rw [List.concat_eq_append, lastPid_concat] at hprev
      rw [List.concat_eq_append, List.append_assoc, List.singleton_append] at h
      rw [← hprev, (LeafChain.cut_iff.mp h).2.1.links.1]
      rfl

/-- The keys along the leaves -/
def treeKeys (db : Db) : List Key := (treeLeaves db).flatMap fun pid => leafKeys (db.pages pid)

theorem TreeShape.treeKeys_eq (h : TreeShape db t others) :
    treeKeys db = t.entries.map (·.key) := by
  rw [treeKeys, h.treeLeaves_eq, List.flatMap_map, Tree.entries, List.map_flatMap]
  refine List.flatMap_congr fun l hl => ?_
  obtain ⟨p, n, par, cnt, his⟩ := h.leafAt hl
  exact his.leafKeys

end Leaves

/-! ## Occupancy and height -/

/-- There is a path with `n` nodes from `pid` down to a leaf. -/
inductive PathToLeaf (db : Db) : PageId → Nat → Prop where
  | leaf {pid : PageId} : pageType (db.pages pid) = PageType.leaf.code → PathToLeaf db pid 1
  | node {pid c : PageId} {n : Nat} : pageType (db.pages pid) = PageType.internal.code →
      c ∈ childIds (db.pages pid) → PathToLeaf db c n → PathToLeaf db pid (n + 1)

section Balance

variable {db : Db} {t : Tree} {others : List PageId}

/-- All paths from the root are as long as the levels are many. -/
theorem Upper.path_length {levels : List (List Inner)} {lower : List Child} {root : PageId}
    (hup : Upper db.ps db.pages lower levels root) {d : Nat}
    (hlower : ∀ c ∈ lower, ∀ n, PathToLeaf db c.pid n → n = d) {n : Nat}
    (hn : PathToLeaf db root n) : n = d + levels.length := by
  induction levels generalizing lower d with
  | nil => exact hlower _ (by rw [hup.1]; exact List.mem_singleton_self _) n hn
  | cons lv levels ih =>
    obtain ⟨hlv, hat, -, hup⟩ := hup
    rw [List.length_cons, show d + (levels.length + 1) = d + 1 + levels.length by omega]
    refine ih hup fun c hc n hn => ?_
    obtain ⟨nd, hnd, rfl⟩ := List.mem_map.mp hc
    have hch := (hat nd hnd).childIds
    obtain ⟨par, cnt, his⟩ := hat nd hnd
    cases hn with
    | leaf htype =>
      rw [Inner.child_pid, his.pageType] at htype
      exact absurd (PageType.code_injective htype) (by decide)
    | node _ hmem hn =>
      rw [Inner.child_pid, hch] at hmem
      obtain ⟨c, hc, rfl⟩ := List.mem_map.mp hmem
      rw [hlower c (hlv ▸ List.mem_flatMap.mpr ⟨nd, hnd, hc⟩) _ hn]

theorem TreeShape.path_length (h : TreeShape db t others) {n : Nat}
    (hn : PathToLeaf db db.header.rootIndexPageId n) : n = t.levels.length + 1 := by
  rw [Nat.add_comm]
  refine h.upper.path_length (fun c hc n hn => ?_) hn
  obtain ⟨l, hl, rfl⟩ := List.mem_map.mp hc
  cases hn with
  | leaf => rfl
  | node htype =>
    rw [Leaf.child_pid, h.leaf_type hl] at htype
    exact absurd (PageType.code_injective htype) (by decide)

/-- `bptree_height` returns and changes nothing. -/
theorem bptreeHeight_exec (h : TreeShape db t others) :
    db.exec bptreeHeight = .ok (t.levels.length + 1, db) := by
  obtain ⟨r, db', hexec, rfl, rfl⟩ := wpDb_total (bptreeHeight_spec h)
  exact hexec

theorem TreeInv.leaf_occupancy (h : TreeInv db t others) (hcap : HoldsTwo db.fields.pageSize)
    {pid : PageId} (hlive : LiveLeaf db pid) :
    (leafPageHeaderC.get (db.pages pid) 0).keyCount ≤ maxLeafKeys db.fields.pageSize ∧
      (pid ≠ db.header.rootIndexPageId →
        minLeafKeys db.fields.pageSize ≤ (leafPageHeaderC.get (db.pages pid) 0).keyCount) := by
  obtain ⟨l, hl, rfl⟩ := h.exists_leaf hlive
  obtain ⟨p, n, par, cnt, his⟩ := h.leafAt hl
  have hcount := his.count
  dsimp only at hcount
  simp only [his.header, UInt32.le_iff_toNat_le, hcount]
  refine ⟨(leaf_fits_iff hcap).mp his.fits, fun hroot => ?_⟩
  exact h.occupancy (fun hnil => hroot (h.root_of_levels_eq_nil hl hnil)) l hl

theorem TreeInv.inner_occupancy (h : TreeInv db t others) (hcap : HoldsTwo db.fields.pageSize)
    {pid : PageId} (hreach : TreeReach db pid)
    (htype : pageType (db.pages pid) = PageType.internal.code) :
    (internalPageHeaderC.get (db.pages pid) 0).keyCount ≤ maxInternalKeys db.fields.pageSize := by
  rcases List.mem_append.mp (h.treeReach_iff.mp hreach) with hp | hp
  · obtain ⟨l, hl, rfl⟩ := List.mem_map.mp hp
    rw [h.leaf_type hl] at htype
    exact absurd (PageType.code_injective htype) (by decide)
  · obtain ⟨n, hn, rfl⟩ := List.mem_map.mp hp
    obtain ⟨par, cnt, his⟩ := h.innerAt hn
    have hcount := his.count
    dsimp only at hcount
    rw [his.header, UInt32.le_iff_toNat_le, hcount]
    exact (internal_fits_iff hcap).mp his.fits

/-- The keys fill the leaves. -/
theorem TreeInv.leaves_count (h : TreeInv db t others) (hcap : HoldsTwo db.fields.pageSize) :
    (treeLeaves db).length ≤
      max 1 (t.entries.length / (minLeafKeys db.fields.pageSize).toNat) := by
  rw [h.treeLeaves_eq, List.length_map]
  by_cases hlevels : t.levels = []
  · have hup := h.upper
    rw [hlevels] at hup
    have hone := congrArg List.length hup.1
    rw [List.length_map, List.length_singleton] at hone
    rw [hone]
    exact le_max_left _ _
  · have hmin := one_le_minLeafKeys hcap
    refine le_max_of_le_right ((Nat.le_div_iff_mul_le (by omega)).mpr ?_)
    rw [Tree.entries, List.length_flatMap]
    refine (Nat.le_of_eq ?_).trans (List.card_nsmul_le_sum _
      (minLeafKeys db.fields.pageSize).toNat fun n hn => ?_)
    · rw [List.length_map, smul_eq_mul]
    · obtain ⟨l, hl, rfl⟩ := List.mem_map.mp hn
      exact h.occupancy hlevels l hl

end Balance

/-! ## The keys of a run -/

/-- The keys that a run has stored and not deleted -/
def storedKeys (ops : List TreeOp) : Finset Key :=
  ops.foldl (fun s op => match op with
    | .insert key _ => insert key s
    | .delete key => s.erase key) ∅

theorem specRun_keys {ops : List TreeOp} {m m' : Key → Option RowRef} {rs : List Int}
    (h : SpecRun TreeOp.spec ops m rs m') {s : Finset Key} (hs : ∀ key, key ∈ s ↔ m key ≠ none)
    (key : Key) :
    key ∈ ops.foldl (fun s op => match op with
      | .insert key _ => insert key s
      | .delete key => s.erase key) s ↔ m' key ≠ none := by
  induction h generalizing s with
  | nil => exact hs key
  | @cons op ops m m₁ m₂ r rs hspec _ ih =>
    refine ih fun k => ?_
    cases op with
    | insert k' ref =>
      rcases hspec with ⟨hmem, -, rfl⟩ | ⟨-, -, rfl⟩
      · rw [Finset.mem_insert, hs]
        refine ⟨fun hk => hk.elim (fun he => he ▸ hmem) id, Or.inr⟩
      · rw [Finset.mem_insert, hs, Function.update_apply]
        split <;> simp_all
    | delete k' =>
      rcases hspec with ⟨hnone, -, rfl⟩ | ⟨-, -, rfl⟩
      · rw [Finset.mem_erase, hs]
        refine ⟨And.right, fun hk => ⟨fun he => hk (he ▸ hnone), hk⟩⟩
      · rw [Finset.mem_erase, hs, Function.update_apply]
        split <;> simp_all

section Runs

variable {pageSize : UInt32} {ops : List TreeOp}

/-- A run in which every internal node keeps a separator ends in a tree with the keys of the
    run; it can only fail for want of page ids. -/
theorem treeRun_spec (hcap : HoldsTwo pageSize)
    (hsep : ∀ c ∈ calls TreeOp.step ops (Db.fresh pageSize), Separated c.2) :
    (∀ rs db, runAll TreeOp.step ops (Db.fresh pageSize) = .ok (rs, db) →
      ∃ t, TreeStep (Db.fresh pageSize) db t [1] ∧
        ∀ key, key ∈ storedKeys ops ↔ ∃ e ∈ t.entries, e.key = key) ∧
    ∀ e, runAll TreeOp.step ops (Db.fresh pageSize) = .error e → e = .idsExhausted := by
  have hstep : ∀ op m db, StoresMap (Db.fresh pageSize) [1] m db → Separated db →
      (∀ r db', TreeOp.step op db = .ok (r, db') →
        ∃ m', op.spec m r m' ∧ StoresMap (Db.fresh pageSize) [1] m' db') ∧
      ∀ e, TreeOp.step op db = .error e → e = .idsExhausted := by
    intro op m db hrel hsep
    have hcap' := hrel.holdsTwo hcap
    obtain ⟨t, hstep, hm⟩ := hrel
    exact op.step_spec hcap' ⟨t, hstep, hm⟩ (hsep.safe hstep.inv.toTreeShape op)
  have hrun := runAll_spec hstep (fresh_storesMap hcap) hsep
  refine ⟨fun rs db hok => ?_, hrun.2⟩
  obtain ⟨m, hspec, t, hstep, rfl⟩ := hrun.1 rs db hok
  refine ⟨t, hstep, fun key => ?_⟩
  rw [storedKeys, specRun_keys hspec (by simp) key, ne_eq, lookup_eq_none_iff]
  simp

/-- The links between the leaves visit them from left to right, in both directions, and the
    keys along them are the stored ones in increasing order. -/
theorem treeRun_leafChain (hcap : HoldsTwo pageSize)
    (hsep : ∀ c ∈ calls TreeOp.step ops (Db.fresh pageSize), Separated c.2) :
    (∀ rs db, runAll TreeOp.step ops (Db.fresh pageSize) = .ok (rs, db) →
      (∃ first rest, treeLeaves db = first :: rest ∧ prevLeaf db first = 0 ∧
        Visits (nextLeaf db) 0 first (treeLeaves db)) ∧
      (∀ pid, pid ∈ treeLeaves db ↔ LiveLeaf db pid) ∧
      (∀ p ∈ treeLeaves db, ∀ q ∈ treeLeaves db, nextLeaf db p = q ↔ prevLeaf db q = p) ∧
      (treeKeys db).Pairwise (· < ·) ∧
      ∀ key, key ∈ treeKeys db ↔ key ∈ storedKeys ops) ∧
    ∀ e, runAll TreeOp.step ops (Db.fresh pageSize) = .error e → e = .idsExhausted := by
  obtain ⟨hrun, hfault⟩ := treeRun_spec hcap hsep
  refine ⟨fun rs db hok => ?_, hfault⟩
  obtain ⟨t, hstep, hkeys⟩ := hrun rs db hok
  have hinv := hstep.inv
  have h0 : ∀ l ∈ t.leaves, l.pid ≠ 0 := fun l hl => hinv.ne_zero (TreeShape.leaf_mem_pids hl)
  refine ⟨?_, fun pid => hinv.mem_treeLeaves_iff, fun p hp q hq => ?_, ?_, fun key => ?_⟩
  · -- there is a leaf, and from the first one the links visit all
    have hne : t.leaves ≠ [] := fun hnil => hinv.upper.ne_nil (by rw [hnil]; rfl)
    obtain ⟨l, ls, hleaves⟩ := List.exists_cons_of_ne_nil hne
    have hchain := hinv.chain
    have hvisits := hchain.visits h0
    rw [hinv.treeLeaves_eq]
    rw [hleaves] at hchain hvisits ⊢
    exact ⟨l.pid, ls.map (·.pid), rfl, hchain.1.links.2, hvisits⟩
  · rw [hinv.treeLeaves_eq] at hp hq
    obtain ⟨a, ha, rfl⟩ := List.mem_map.mp hp
    obtain ⟨b, hb, rfl⟩ := List.mem_map.mp hq
    exact hinv.chain.links_inverse h0 ha hb
  · rw [hinv.treeKeys_eq]
    exact List.pairwise_map.mpr hinv.keys_sorted
  · -- the keys of the leaves are those that the operations have stored
    rw [hinv.treeKeys_eq, hkeys, List.mem_map]

theorem splitMergeRun_separated :
    ∀ c ∈ calls TreeOp.step splitMergeRun (Db.fresh 48), Separated c.2 := by
  have hcheck : ∀ c ∈ calls TreeOp.step splitMergeRun (Db.fresh 48),
      separatedBelow c.2 2 c.2.header.rootIndexPageId = true := by decide +kernel
  exact fun c hc => Separated.of_check (hcheck c hc)

theorem treeRun_leafChain_48 :
    (∀ rs db, runAll TreeOp.step splitMergeRun (Db.fresh 48) = .ok (rs, db) →
      (∃ first rest, treeLeaves db = first :: rest ∧ prevLeaf db first = 0 ∧
        Visits (nextLeaf db) 0 first (treeLeaves db)) ∧
      (∀ pid, pid ∈ treeLeaves db ↔ LiveLeaf db pid) ∧
      (∀ p ∈ treeLeaves db, ∀ q ∈ treeLeaves db, nextLeaf db p = q ↔ prevLeaf db q = p) ∧
      (treeKeys db).Pairwise (· < ·) ∧
      ∀ key, key ∈ treeKeys db ↔ key ∈ storedKeys splitMergeRun) ∧
    ∀ e, runAll TreeOp.step splitMergeRun (Db.fresh 48) = .error e → e = .idsExhausted :=
  treeRun_leafChain ⟨by decide, by decide⟩ splitMergeRun_separated

/-- Every leaf but a root leaf is at least half full, no node is overfull, all leaves are at
    the depth that `bptree_height` returns, and there are at most as many leaves as the keys
    fill. -/
theorem treeRun_balance (hcap : HoldsTwo pageSize)
    (hsep : ∀ c ∈ calls TreeOp.step ops (Db.fresh pageSize), Separated c.2) :
    (∀ rs db, runAll TreeOp.step ops (Db.fresh pageSize) = .ok (rs, db) →
      (∀ pid, LiveLeaf db pid →
        (leafPageHeaderC.get (db.pages pid) 0).keyCount ≤ maxLeafKeys pageSize ∧
        (pid ≠ db.header.rootIndexPageId →
          minLeafKeys pageSize ≤ (leafPageHeaderC.get (db.pages pid) 0).keyCount)) ∧
      (∀ pid, TreeReach db pid → pageType (db.pages pid) = PageType.internal.code →
        (internalPageHeaderC.get (db.pages pid) 0).keyCount ≤ maxInternalKeys pageSize) ∧
      (∃ height, db.exec bptreeHeight = .ok (height, db) ∧
        ∀ n, PathToLeaf db db.header.rootIndexPageId n → n = height) ∧
      (treeLeaves db).length ≤ max 1 ((storedKeys ops).card / (minLeafKeys pageSize).toNat)) ∧
    ∀ e, runAll TreeOp.step ops (Db.fresh pageSize) = .error e → e = .idsExhausted := by
  obtain ⟨hrun, hfault⟩ := treeRun_spec hcap hsep
  refine ⟨fun rs db hok => ?_, hfault⟩
  obtain ⟨t, hstep, hkeys⟩ := hrun rs db hok
  have hinv := hstep.inv
  have hsize : db.fields.pageSize = pageSize := outside_pageSize hstep.outside
  have hcap' : HoldsTwo db.fields.pageSize := by rw [hsize]; exact hcap
  refine ⟨fun pid hlive => ?_, fun pid hreach htype => ?_, ?_, ?_⟩
  · have hocc := hinv.leaf_occupancy hcap' hlive
    rwa [hsize] at hocc
  · have hmax := hinv.inner_occupancy hcap' hreach htype
    rwa [hsize] at hmax
  · exact ⟨_, bptreeHeight_exec hinv.toTreeShape, fun n hn => hinv.path_length hn⟩
  · -- the leaves hold every stored key once
    have hcard : (storedKeys ops).card = t.entries.length := by
      have hnodup : (t.entries.map (·.key)).Nodup :=
        (List.pairwise_map.mpr hinv.keys_sorted).imp fun hab => UInt64.ne_of_lt hab
      rw [← List.length_map (f := (·.key)), ← List.toFinset_card_of_nodup hnodup]
      congr 1
      ext key
      rw [hkeys, List.mem_toFinset, List.mem_map]
    have hcount := hinv.leaves_count hcap'
    rwa [hsize, ← hcard] at hcount

theorem treeRun_balance_48 :
    (∀ rs db, runAll TreeOp.step splitMergeRun (Db.fresh 48) = .ok (rs, db) →
      (∀ pid, LiveLeaf db pid →
        (leafPageHeaderC.get (db.pages pid) 0).keyCount ≤ maxLeafKeys 48 ∧
        (pid ≠ db.header.rootIndexPageId →
          minLeafKeys 48 ≤ (leafPageHeaderC.get (db.pages pid) 0).keyCount)) ∧
      (∀ pid, TreeReach db pid → pageType (db.pages pid) = PageType.internal.code →
        (internalPageHeaderC.get (db.pages pid) 0).keyCount ≤ maxInternalKeys 48) ∧
      (∃ height, db.exec bptreeHeight = .ok (height, db) ∧
        ∀ n, PathToLeaf db db.header.rootIndexPageId n → n = height) ∧
      (treeLeaves db).length ≤
        max 1 ((storedKeys splitMergeRun).card / (minLeafKeys 48).toNat)) ∧
    ∀ e, runAll TreeOp.step splitMergeRun (Db.fresh 48) = .error e → e = .idsExhausted :=
  treeRun_balance ⟨by decide, by decide⟩ splitMergeRun_separated

end Runs

end MiniDb
