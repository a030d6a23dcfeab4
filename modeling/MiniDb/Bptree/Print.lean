import MiniDb.Bptree.Pins
import MiniDb.Bptree.WellFormed

/-!
# Printing the tree

`bptree_print` goes down from the root and prints a line for every node before those of its
children.  It keeps a page pinned for every level above the node it is at.

## Key results

- `StoredTree.bptreePrint`, `StoredTree.shows`: what is printed about a tree
- `bptreePrint_cached`: on the cache, with a pin for every level
-/

namespace MiniDb

open Bytes Free Ledger Lists Pager

/-- What `print_node` prints about a page -/
inductive TreeLine where
  | leaf (depth : Nat) (page : PageId) (keyCount : UInt32) (keys : List Key)
  | internal (depth : Nat) (page : PageId) (keyCount : UInt32) (keys : List Key)
  /-- nothing but the indentation, for a page of another type -/
  | indent (depth : Nat)
  deriving DecidableEq

/-- The loop of `print_node` over the entries of node `pid`, from entry `i` on -/
def printChildren (print : PageId → Routine (List TreeLine)) (pid : PageId) :
    Nat → Nat → Routine (List TreeLine)
  | 0, _ => return []
  | n + 1, i => do
    let page ← load pid
    let e ← inBounds (internalEntryC.getAt? internalBase page i)
    let lines ← print e.rightChildPageId
    let rest ← printChildren print pid n (i + 1)
    return lines ++ rest

/-- `print_node`; at most five keys of a node are printed. -/
def printNode : Nat → PageId → Nat → Routine (List TreeLine)
  | 0, _, _ => .throw .nonTermination
  | n + 1, pid, depth => do
    pagerGetPage pid
    let page ← load pid
    if pageType page = PageType.leaf.code then
      let lph := leafPageHeaderC.get page 0
      let entries ← inBounds (readEntries leafEntryC leafBase page (min lph.keyCount.toNat 5))
      pagerUnpin pid
      return [.leaf depth pid lph.keyCount (entries.map (·.key))]
    else if pageType page = PageType.internal.code then
      let iph := internalPageHeaderC.get page 0
      let entries ← inBounds (readEntries internalEntryC internalBase page (min iph.keyCount.toNat 5))
      pagerUnpin pid
      -- the page is requested once more for its children
      pagerGetPage pid
      let page ← load pid
      let iph' := internalPageHeaderC.get page 0
      let first ← printNode n iph'.leftmostChildPageId (depth + 1)
      let rest ← printChildren (fun c => printNode n c (depth + 1)) pid iph'.keyCount.toNat 0
      pagerUnpin pid
      return .internal depth pid iph.keyCount (entries.map (·.key)) :: (first ++ rest)
    else
      pagerUnpin pid
      return [.indent depth]

/-- The id of the root and the lines below it, for a tree of fewer than `n` levels -/
def printTree (n : Nat) : Routine (PageId × List TreeLine) := do
  let root := (← getHeader).rootIndexPageId
  let lines ← printNode n root 1
  return (root, lines)

/-- `bptree_print` -/
def bptreePrint : Routine (PageId × List TreeLine) := printTree maxPages

/-! ## The lines of a tree -/

/-- The line about the node in a page -/
def nodeLine (db : Db) (depth : Nat) (pid : PageId) : TreeLine :=
  if pageType (db.pages pid) = PageType.leaf.code then
    .leaf depth pid (leafPageHeaderC.get (db.pages pid) 0).keyCount ((leafKeys (db.pages pid)).take 5)
  else
    .internal depth pid (internalPageHeaderC.get (db.pages pid) 0).keyCount
      ((separators (db.pages pid)).take 5)

/-- The lines about node `pid`, a node of height below `n`, and the nodes under it -/
def linesBelow (db : Db) : Nat → Nat → PageId → List TreeLine
  | 0, _, _ => []
  | n + 1, depth, pid => nodeLine db depth pid ::
    if pageType (db.pages pid) = PageType.leaf.code then []
    else (childIds (db.pages pid)).flatMap (linesBelow db n (depth + 1))

section Lines

variable {db : Db} {pid : PageId} {tol : Fault → Prop}

theorem linesBelow_leaf (n depth : Nat) (h : pageType (db.pages pid) = PageType.leaf.code) :
    linesBelow db (n + 1) depth pid = [.leaf depth pid (leafPageHeaderC.get (db.pages pid) 0).keyCount
      ((leafKeys (db.pages pid)).take 5)] := by
  rw [linesBelow, nodeLine, if_pos h, if_pos h]

theorem linesBelow_internal (n depth : Nat) (h : ¬ pageType (db.pages pid) = PageType.leaf.code) :
    linesBelow db (n + 1) depth pid =
      .internal depth pid (internalPageHeaderC.get (db.pages pid) 0).keyCount
        ((separators (db.pages pid)).take 5) ::
        (childIds (db.pages pid)).flatMap (linesBelow db n (depth + 1)) := by
  rw [linesBelow, nodeLine, if_neg h, if_neg h]

theorem listAt_min {α : Type} (c : Codec α) (base : Nat) (pg : Page) (n m : Nat) :
    c.listAt base pg (min n m) = (c.listAt base pg n).take m := by
  rw [Codec.listAt, Codec.listAt, ← List.map_take, List.take_range, Nat.min_comm]

theorem readEntries_min {α : Type} {c : Codec α} {base : Nat} {pg : Page} {n : Nat} (m : Nat)
    (h : base + n * c.size ≤ pg.length) :
    readEntries c base pg (min n m) = some ((c.listAt base pg n).take m) := by
  have hmin : min n m * c.size ≤ n * c.size := Nat.mul_le_mul_right _ (Nat.min_le_left n m)
  rw [readEntries_eq _ _ (by omega), listAt_min]

/-- The loop over the entries prints what is below each of them. -/
theorem printChildren_spec (print : PageId → Routine (List TreeLine)) (f : PageId → List TreeLine)
    {hdr : InternalPageHeader} {es : List InternalEntry}
    (his : InnerIs db.ps (db.pages pid) hdr es)
    (hprint : ∀ e ∈ es, wpDb (print e.rightChildPageId) db
      (fun r db' => db' = db ∧ r = f e.rightChildPageId) tol) {n i : Nat} (hn : i + n = es.length) :
    wpDb (printChildren print pid n i) db
      (fun r db' => db' = db ∧ r = ((es.drop i).map (·.rightChildPageId)).flatMap f) tol := by
  induction n generalizing i with
  | zero =>
    rw [List.drop_of_length_le (show es.length ≤ i by omega)]
    exact ⟨rfl, rfl⟩
  | succ n ih =>
    have hi : i < es.length := by omega
    have hget := his.getAt? (List.getElem?_eq_getElem hi)
    simp only [printChildren, wpDb_bind, wpDb_load, wpDb_inBounds_some hget]
    apply wpDb_mono (hprint es[i] (List.getElem_mem hi))
    rintro lines db' ⟨rfl, rfl⟩
    apply wpDb_mono (ih (show i + 1 + n = es.length by omega))
    rintro rest db' ⟨rfl, rfl⟩
    rw [List.drop_eq_getElem_cons hi, List.map_cons, List.flatMap_cons]
    exact ⟨rfl, rfl⟩

/-- `print_node` prints the node and all that is below it, and changes nothing. -/
theorem printNode_spec (hcap : HoldsTwo db.fields.pageSize) {h : Nat} {c : Child} {hi : Option Key}
    (hnode : NodeOk db h c hi) (hne : ∀ p ∈ nodesBelow db (h + 1) c.pid, p ≠ 0) (depth n : Nat)
    (hn : h < n) : wpDb (printNode n c.pid depth) db
      (fun r db' => db' = db ∧ r = linesBelow db (h + 1) depth c.pid) tol := by
  -- by the height of the node; `n` is the fuel
  induction h generalizing c hi depth n with
  | zero =>
    obtain ⟨n, rfl⟩ := Nat.exists_eq_add_of_le' hn
    have his := hnode.leafIs hcap
    have htype := hnode.type
    have hc : c.pid ≠ 0 := hne _ (by
      rw [nodesBelow, if_pos htype]
      exact List.mem_singleton_self _)
    have hfits : leafBase + (leafPageHeaderC.get (db.pages c.pid) 0).keyCount.toNat * leafEntryC.size ≤
        (db.pages c.pid).length := by
      rw [his.length, his.count]
      exact his.fits
    simp only [printNode, wpDb_bind, wpDb_getPage_of hc, wpDb_load, wpDb_ite, if_pos htype,
      wpDb_inBounds_some (readEntries_min 5 hfits), wpDb_unpin, wpDb_pure, linesBelow_leaf _ _ htype,
      true_and, List.map_take]
    rfl
  | succ h ih =>
    obtain ⟨n, rfl⟩ := Nat.exists_eq_add_of_le' (Nat.lt_of_le_of_lt (Nat.zero_le _) hn)
    obtain ⟨hok, hchildren⟩ := hnode
    obtain ⟨par, cnt, his⟩ := hok.innerAt hcap
    have his : InnerIs db.ps (db.pages c.pid) _ (internalEntries (db.pages c.pid)) := his
    have hids : childIds (db.pages c.pid) = (innerOf db c).children.map (·.pid) :=
      (hok.innerAt hcap).childIds
    have htype := hok.type
    have hleaf : ¬ pageType (db.pages c.pid) = PageType.leaf.code := by
      rw [htype]
      decide
    rw [nodesBelow, if_neg hleaf] at hne
    have hc : c.pid ≠ 0 := hne _ (List.mem_cons_self ..)
    -- every child prints what is below it
    have hprint : ∀ d ∈ (innerOf db c).children, wpDb (printNode n d.pid (depth + 1)) db
        (fun r db' => db' = db ∧ r = linesBelow db (h + 1) (depth + 1) d.pid) tol := by
      intro d hd
      obtain ⟨b, hb⟩ := exists_mem_spans Child.fence hi hd
      refine ih (hchildren _ hb) (fun p hp => hne p ?_) _ _ (Nat.lt_of_succ_lt_succ hn)
      refine List.mem_cons_of_mem _ (List.mem_flatMap.mpr ⟨d.pid, ?_, hp⟩)
      rw [hids]
      exact List.mem_map_of_mem hd
    have hcount : (internalPageHeaderC.get (db.pages c.pid) 0).keyCount.toNat =
        (internalEntries (db.pages c.pid)).length := (Codec.length_listAt ..).symm
    have hfits : internalBase + (internalPageHeaderC.get (db.pages c.pid) 0).keyCount.toNat *
        internalEntryC.size ≤ (db.pages c.pid).length := by
      rw [his.length, hcount]
      exact his.fits
    have hrest := printChildren_spec (fun c => printNode n c (depth + 1))
      (linesBelow db (h + 1) (depth + 1)) his
      (fun e he => hprint (entryChild e) (List.mem_cons_of_mem _ (List.mem_map_of_mem he)))
      (show 0 + (internalPageHeaderC.get (db.pages c.pid) 0).keyCount.toNat = _ by
        rw [Nat.zero_add]
        exact hcount)
    simp only [printNode, wpDb_bind, wpDb_getPage_of hc, wpDb_load, wpDb_ite, if_neg hleaf, if_pos htype,
      wpDb_inBounds_some (readEntries_min 5 hfits), wpDb_unpin, wpDb_pure]
    apply wpDb_mono (hprint _ (List.mem_cons_self ..))
    rintro first db' ⟨rfl, rfl⟩
    apply wpDb_mono hrest
    rintro rest db' ⟨rfl, rfl⟩
    rw [linesBelow_internal _ _ hleaf, separators, List.map_take]
    exact ⟨rfl, rfl⟩

end Lines

/-! ## What is printed -/

/-- The page a line is about -/
def TreeLine.page? : TreeLine → Option PageId
  | .leaf _ pid _ _ => some pid
  | .internal _ pid _ _ => some pid
  | .indent _ => none

/-- The page of a leaf and the depth it is printed at -/
def TreeLine.leaf? : TreeLine → Option (Nat × PageId)
  | .leaf depth pid _ _ => some (depth, pid)
  | _ => none

section Printed

variable {db : Db} {h : Nat}

theorem nodeLine_page (depth : Nat) (pid : PageId) : (nodeLine db depth pid).page? = some pid := by
  rw [nodeLine]
  split <;> rfl

/-- The nodes are printed on the way down. -/
theorem linesBelow_pages (n depth : Nat) (pid : PageId) :
    (linesBelow db n depth pid).filterMap TreeLine.page? = nodesBelow db n pid := by
  induction n generalizing depth pid with
  | zero => rfl
  | succ n ih =>
    rw [linesBelow, nodesBelow, List.filterMap_cons_some (nodeLine_page depth pid)]
    split
    next => rfl
    next =>
      rw [List.filterMap_flatMap]
      simp only [ih]

/-- What the lines of the leaves tell, whatever their depth is, they tell from left to right. -/
theorem linesBelow_filterMap {β : Type} {f : TreeLine → Option β} {g : PageId → β}
    (hinner : ∀ depth pid n keys, f (.internal depth pid n keys) = none)
    (hleaf : ∀ depth pid, pageType (db.pages pid) = PageType.leaf.code →
      f (nodeLine db depth pid) = some (g pid)) (n depth : Nat) (pid : PageId) :
    (linesBelow db n depth pid).filterMap f = (leavesBelow db n pid).map g := by
  induction n generalizing depth pid with
  | zero => rfl
  | succ n ih =>
    rw [leavesBelow]
    by_cases htype : pageType (db.pages pid) = PageType.leaf.code
    · rw [linesBelow, if_pos htype, if_pos htype, List.filterMap_cons_some (hleaf depth pid htype)]
      rfl
    · rw [linesBelow_internal _ _ htype, if_neg htype, List.filterMap_cons_none (hinner _ _ _ _),
        List.filterMap_flatMap, List.map_flatMap]
      exact List.flatMap_congr fun c _ => ih (depth + 1) c

/-- The leaves are printed from left to right, all of them as deep as the tree is high. -/
theorem linesBelow_leaves {c : Child} {hi : Option Key} (hcap : HoldsTwo db.fields.pageSize)
    (hnode : NodeOk db h c hi) (depth : Nat) :
    (linesBelow db (h + 1) depth c.pid).filterMap TreeLine.leaf? =
      (leavesBelow db (h + 1) c.pid).map fun pid => (depth + h, pid) := by
  induction h generalizing c hi depth with
  | zero => rw [linesBelow_leaf _ _ hnode.type, leavesBelow, if_pos hnode.type]; rfl
  | succ h ih =>
    obtain ⟨hok, hchildren⟩ := hnode
    have hids : childIds (db.pages c.pid) = (innerOf db c).children.map (·.pid) :=
      (hok.innerAt hcap).childIds
    have hleaf : ¬ pageType (db.pages c.pid) = PageType.leaf.code := by
      rw [hok.type]
      decide
    rw [linesBelow_internal _ _ hleaf, leavesBelow, if_neg hleaf, List.filterMap_cons_none rfl,
      List.filterMap_flatMap, List.map_flatMap, hids, List.flatMap_map, List.flatMap_map]
    apply List.flatMap_congr
    intro d hd
    obtain ⟨b, hb⟩ := exists_mem_spans Child.fence hi hd
    rw [ih (hchildren _ hb), show depth + 1 + h = depth + (h + 1) by omega]

/-- Every line shows the node it is about. -/
theorem linesBelow_shows {n depth : Nat} {pid : PageId} {line : TreeLine}
    (h : line ∈ linesBelow db n depth pid) : ∃ depth pid, line = nodeLine db depth pid := by
  induction n generalizing depth pid with
  | zero => exact absurd h List.not_mem_nil
  | succ n ih =>
    rw [linesBelow] at h
    rcases List.mem_cons.mp h with rfl | h
    · exact ⟨depth, pid, rfl⟩
    · split at h
      next => exact absurd h List.not_mem_nil
      next =>
        obtain ⟨c, -, hc⟩ := List.mem_flatMap.mp h
        exact ih hc

/-- The lines show every node of a tree of height `h` once, a node before those under it, and the
    leaves from left to right at one depth. -/
structure Shows (db : Db) (h : Nat) (lines : List TreeLine) : Prop where
  pages : lines.filterMap TreeLine.page? = nodesOf db h
  once : (nodesOf db h).Nodup
  leaves : lines.filterMap TreeLine.leaf? = (leavesOf db h).map fun pid => (h + 1, pid)
  nodes : ∀ line ∈ lines, ∃ depth pid, line = nodeLine db depth pid

theorem StoredTree.shows (hcap : HoldsTwo db.fields.pageSize) (hdb : StoredTree db h) :
    Shows db h (linesBelow db (h + 1) 1 db.header.rootIndexPageId) := by
  refine ⟨linesBelow_pages _ _ _, hdb.once, ?_, fun line hline => linesBelow_shows hline⟩
  rw [linesBelow_leaves hcap hdb.node, Nat.add_comm]
  rfl

theorem StoredTree.printTree (hcap : HoldsTwo db.fields.pageSize) (hdb : StoredTree db h) :
    db.exec (MiniDb.printTree (h + 1)) = .ok
      ((db.header.rootIndexPageId, linesBelow db (h + 1) 1 db.header.rootIndexPageId), db) := by
  have hne : ∀ p ∈ nodesOf db h, p ≠ 0 := fun p hp =>
    (hdb.free.ids p (List.mem_append_left _ hp)).1
  obtain ⟨lines, db', hexec, hsame, hlines⟩ := wpDb_total
    (printNode_spec hcap hdb.node hne 1 (h + 1) (Nat.lt_succ_self h))
  rw [hsame, hlines] at hexec
  show (Free.run Db.step (getHeader >>= _) db : Except Fault _) = _
  rw [run_bind]
  show Free.run Db.step (MiniDb.printNode (h + 1) db.header.rootIndexPageId 1 >>= _) db = _
  rw [run_bind, show Free.run Db.step _ db = _ from hexec]
  rfl

end Printed

/-! ## How high a tree is -/

section Height

variable {db : Db} {h : Nat}

/-- Every internal node with a separator has two children, so the leaves double with every level. -/
theorem Upper.two_pow_le {levels : List (List Inner)} {lower : List Child} {root : PageId}
    (hup : Upper db.ps db.pages lower levels root) (hents : ∀ n ∈ levels.flatten, n.ents ≠ []) :
    2 ^ levels.length ≤ lower.length := by
  induction levels generalizing lower with
  | nil =>
    rw [hup.1]
    exact Nat.le_refl 1
  | cons lv levels ih =>
    obtain ⟨hlv, -, -, hup⟩ := hup
    rw [List.flatten_cons] at hents
    have habove := ih hup fun n hn => hents n (List.mem_append_right _ hn)
    rw [List.length_map] at habove
    have htwo : lv.length * 2 ≤ lower.length := by
      rw [← hlv, List.length_flatMap, ← smul_eq_mul]
      have hall := List.card_nsmul_le_sum (lv.map fun n => n.children.length) 2 fun m hm => by
        obtain ⟨n, hn, rfl⟩ := List.mem_map.mp hm
        have hpos := List.length_pos_iff.mpr (hents n (List.mem_append_left _ hn))
        simp only [Inner.children, List.length_cons, List.length_map]
        omega
      rwa [List.length_map] at hall
    rw [List.length_cons, Nat.pow_succ]
    omega

theorem TreeShape.ents_ne_nil {t : Tree} {others : List PageId} (hshape : TreeShape db t others)
    (hsep : Separated db) : ∀ n ∈ t.levels.flatten, n.ents ≠ [] := by
  intro n hn hnil
  obtain ⟨par, cnt, his⟩ := hshape.innerAt hn
  apply hsep n.pid (hshape.treeReach_iff.mpr (TreeShape.inner_mem_pids hn)) (hshape.inner_type hn)
  rw [← UInt32.toNat_inj, his.header]
  exact his.count.trans (congrArg List.length hnil)

/-- A tree whose internal nodes have separators is at most as high as the logarithm of the pages. -/
theorem StoredTree.two_pow_lt (hcap : HoldsTwo db.fields.pageSize) (hsep : Separated db)
    (hdb : StoredTree db h) : 2 ^ h < idBound db := by
  obtain ⟨t, others, hshape, rfl, hroom, -⟩ := hdb.exists_shape hcap
  have hpow := hshape.upper.two_pow_le (hshape.ents_ne_nil hsep)
  rw [Tree.pids, List.append_assoc, List.length_append, List.length_map] at hroom
  rw [List.length_map] at hpow
  omega

theorem StoredTree.height_lt_32 (hcap : HoldsTwo db.fields.pageSize) (hsep : Separated db)
    (hdb : StoredTree db h) : h < 32 :=
  (Nat.pow_lt_pow_iff_right (by decide)).mp
    (Nat.lt_of_lt_of_le (hdb.two_pow_lt hcap hsep) (idBound_le db))

end Height

/-! ## Printing on the cache -/

variable {file : FileId}

theorem balanced_printChildren {print : PageId → Routine (List TreeLine)} {k : Nat}
    (hprint : ∀ c, Balanced file k (print c)) {cap : Nat} {pins recent : List PageId}
    {pid : PageId} (hk : pins.length + 1 + k ≤ cap) (n i : Nat) :
    Obeys file cap (printChildren print pid n i) ⟨pid :: pins, recent, []⟩ fun _ t =>
      ∃ recent', t = ⟨pid :: pins, recent', []⟩ := by
  induction n generalizing i recent with
  | zero => exact ⟨recent, rfl⟩
  | succ n ih =>
    simp only [printChildren, obeys_bind, obeys_load, obeys_inBounds]
    refine ⟨Or.inl (List.mem_cons_self ..), fun page _ e _ => ?_⟩
    apply (hprint _).call hk
    intro lines recent'
    apply obeys_mono (ih (i + 1))
    rintro rest _ ⟨recent'', rfl⟩
    exact ⟨recent'', rfl⟩

/-- A page is pinned for every node on the way down. -/
theorem balanced_printNode (n : Nat) (pid : PageId) (depth : Nat) :
    Balanced file n (printNode n pid depth) := by
  induction n generalizing pid depth with
  | zero => exact fun cap pins recent _ => obeys_throw _
  | succ n ih =>
    intro cap pins recent hpins
    have hroom : pins.length < cap := by omega
    have hbelow : pins.length + 1 + n ≤ cap := by omega
    simp only [printNode, obeys_bind, obeys_getPage, obeys_load, obeys_inBounds, obeys_ite, obeys_unpin,
      obeys_pure, pin_mk]
    refine ⟨hroom, Or.inl (List.mem_cons_self ..), fun page _ => ⟨fun _ entries _ => ?_, fun _ => ⟨?_, ?_⟩⟩⟩
    · exact unpin_head ⟨_, rfl⟩
    · intro _ entries _
      refine unpin_head ⟨hroom, Or.inl (List.mem_cons_self ..), fun page _ => ?_⟩
      apply (ih _ _).call hbelow
      intro first recent'
      apply obeys_mono (balanced_printChildren (fun c => ih c _) hbelow _ _)
      rintro rest _ ⟨recent'', rfl⟩
      exact unpin_head ⟨_, rfl⟩
    · intro _
      exact unpin_head ⟨_, rfl⟩

theorem printChildren_extends {print print' : PageId → Routine (List TreeLine)} {e : Fault}
    (h : ∀ c, Extends e (print c) (print' c)) (pid : PageId) (n i : Nat) :
    Extends e (printChildren print pid n i) (printChildren print' pid n i) := by
  induction n generalizing i with
  | zero => exact Extends.refl e _
  | succ n ih =>
    rw [printChildren, printChildren]
    apply (Extends.refl e _).bind
    intro page
    apply (Extends.refl e _).bind
    intro entry
    exact (h _).bind fun lines => (ih _).bind fun rest => Extends.refl e _

/-- More fuel does not change what is printed. -/
theorem printNode_extends {n m : Nat} (hnm : n ≤ m) (pid : PageId) (depth : Nat) :
    Extends .nonTermination (printNode n pid depth) (printNode m pid depth) := by
  induction n generalizing m pid depth with
  | zero => exact .giveUp _
  | succ n ih =>
    obtain ⟨m, rfl⟩ := Nat.exists_eq_add_of_le' (Nat.lt_of_lt_of_le (Nat.succ_pos n) hnm)
    have hsub := fun c => ih (Nat.le_of_succ_le_succ hnm) c (depth + 1)
    rw [printNode, printNode]
    apply (Extends.refl _ _).bind
    intro _
    apply (Extends.refl _ _).bind
    intro page
    split
    next => exact Extends.refl _ _
    split
    next =>
      apply (Extends.refl _ _).bind
      intro entries
      apply (Extends.refl _ _).bind
      intro _
      apply (Extends.refl _ _).bind
      intro _
      apply (Extends.refl _ _).bind
      intro page'
      apply (hsub _).bind
      intro first
      exact (printChildren_extends hsub pid _ _).bind fun rest => Extends.refl _ _
    next => exact Extends.refl _ _

theorem balanced_printTree (n : Nat) : Balanced file n (printTree n) := by
  intro cap pins recent hpins
  simp only [printTree, obeys_bind, obeys_getHeader]
  intro hdr _
  apply (balanced_printNode n _ _).call hpins
  intro lines recent'
  exact ⟨recent', rfl⟩

theorem printTree_extends {n : Nat} (hn : n ≤ maxPages) :
    Extends .nonTermination (printTree n) bptreePrint := by
  apply (Extends.refl _ _).bind
  intro hdr
  apply (printNode_extends hn _ _).bind
  intro lines
  exact Extends.refl _ _

section Cache

variable {db : Db} {h : Nat}

theorem StoredTree.height_lt (hcap : HoldsTwo db.fields.pageSize) (hdb : StoredTree db h) :
    h + 1 < maxPages := by
  obtain ⟨t, others, hshape, rfl, -⟩ := hdb.exists_shape hcap
  exact hshape.levels_lt

/-- `bptree_print` of a tree of height `h` prints its nodes and changes nothing. -/
theorem StoredTree.bptreePrint (hcap : HoldsTwo db.fields.pageSize) (hdb : StoredTree db h) :
    db.exec MiniDb.bptreePrint = .ok
      ((db.header.rootIndexPageId, linesBelow db (h + 1) 1 db.header.rootIndexPageId), db) :=
  (printTree_extends (Nat.le_of_lt (hdb.height_lt hcap))).run (hdb.printTree hcap)

/-- On the cache `bptree_print` prints the same when there are frames for the nodes on a path: it
    pins one page for every level, shows each node once, and leaves the database as it is. -/
theorem bptreePrint_cached {n : Nat} {p : Pager} {recent : List PageId}
    (hcap : HoldsTwo file.pageSize) (hdb : StoredTree db h)
    (hp : Kept file (h + 1) (db.lookups MiniDb.bptreePrint + n) db p ⟨[], recent, []⟩) :
    ∃ lines q recent', Shows db h lines ∧
      p.exec MiniDb.bptreePrint = .ok ((db.header.rootIndexPageId, lines), q) ∧
      Kept file (h + 1) n db q ⟨[], recent', []⟩ ∧
      Always Pager.step (fun s => s.pinnedCount ≤ h + 1) MiniDb.bptreePrint p := by
  have hsize : db.fields.pageSize = file.pageSize := hp.caches.fields ▸ hp.pageSize
  rw [← hsize] at hcap
  have hmore := printTree_extends (Nat.le_of_lt (hdb.height_lt hcap))
  have hflat := hdb.printTree hcap
  rw [Db.lookups, hmore.cost hflat] at hp
  obtain ⟨⟨q, recent', hrun, hq⟩, halways⟩ := hp.run (balanced_printTree (h + 1)) hflat
  exact ⟨_, q, recent', hdb.shows hcap, hmore.run hrun, hq, hmore.always hrun halways⟩

end Cache

end MiniDb
