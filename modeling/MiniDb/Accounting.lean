import MiniDb.Storage

/-!
# Page accounting

Every page id handed out belongs to the tree, to the chain of heap pages or to the free
list, and to only one of them.

## Key results

- `storageRun_pages`: the partition after every run
- `cmdPages_spec`: what `.pages` counts
-/

namespace MiniDb

open Bytes Lists Chains Runs

/-! ## The counts of `.pages` -/

/-- The counters of `cmd_pages` -/
structure PageCounts where
  heap : UInt32
  leaf : UInt32
  internal : UInt32
  free : UInt32
  deriving DecidableEq

/-- The `switch` over the type of a page -/
def PageCounts.count (c : PageCounts) (ptype : UInt32) : PageCounts :=
  if ptype = PageType.heap.code then { c with heap := c.heap + 1 }
  else if ptype = PageType.leaf.code then { c with leaf := c.leaf + 1 }
  else if ptype = PageType.internal.code then { c with internal := c.internal + 1 }
  else if ptype = PageType.free.code then { c with free := c.free + 1 }
  else c

/-- The loop of `cmd_pages` over all pages -/
def cmdPagesLoop (nextPageId : PageId) : Nat → PageId → PageCounts → Routine PageCounts
  | 0, _, _ => .throw .nonTermination
  | n + 1, i, c =>
    if i < nextPageId then do
      pagerGetPage i
      let page ← load i
      pagerUnpin i
      cmdPagesLoop nextPageId n (i + 1) (c.count (pageType page))
    else return c

/-- The loop that prints the free list, at most `n` ids of it, and the id it stops at -/
def cmdPagesFree : Nat → PageId → Routine (List PageId × PageId)
  | 0, fp => return ([], fp)
  | n + 1, fp =>
    if fp = 0 then return ([], 0)
    else do
      pagerGetPage fp
      let page ← load fp
      let fph ← inBounds (freePageHeaderC.get? page 0)
      pagerUnpin fp
      let rest ← cmdPagesFree n fph.nextFreePage
      return (fp :: rest.1, rest.2)

/-- What `cmd_pages` prints: the number of pages with the header page, the counts, the first
    free pages, and whether there are more. -/
structure PagesReport where
  total : UInt32
  counts : PageCounts
  freeList : List PageId
  more : Bool

/-- `cmd_pages` -/
def cmdPages : Routine PagesReport := do
  let hdr ← getHeader
  let counts ← cmdPagesLoop hdr.nextPageId maxPages 1 ⟨0, 0, 0, 0⟩
  if hdr.freePageHead ≠ 0 then
    let fps ← cmdPagesFree 20 hdr.freePageHead
    return ⟨hdr.nextPageId, counts, fps.1, fps.2 ≠ 0⟩
  else return ⟨hdr.nextPageId, counts, [], false⟩

/-- The page ids from `i` up to `next` -/
def idsFrom (i next : PageId) : List PageId :=
  (List.range' i.toNat (next.toNat - i.toNat)).map UInt32.ofNat

theorem mem_idsFrom {i next pid : PageId} : pid ∈ idsFrom i next ↔ i ≤ pid ∧ pid < next := by
  unfold idsFrom
  rw [List.mem_map, UInt32.le_iff_toNat_le, UInt32.lt_iff_toNat_lt]
  constructor
  · rintro ⟨n, hn, rfl⟩
    have hrange := List.mem_range'_1.mp hn
    have hlt := next.toNat_lt
    rw [UInt32.toNat_ofNat_of_lt' (by show n < 4294967296; omega)]
    omega
  · intro hpid
    exact ⟨pid.toNat, List.mem_range'_1.mpr (by omega), UInt32.ofNat_toNat⟩

theorem idsFrom_nodup (i next : PageId) : (idsFrom i next).Nodup := by
  unfold idsFrom
  apply List.Nodup.map_on _ List.nodup_range'
  intro a ha b hb hab
  have hlt := next.toNat_lt
  have harange := List.mem_range'_1.mp ha
  have hbrange := List.mem_range'_1.mp hb
  have hval := congrArg UInt32.toNat hab
  rw [UInt32.toNat_ofNat_of_lt' (by show a < 4294967296; omega),
    UInt32.toNat_ofNat_of_lt' (by show b < 4294967296; omega)] at hval
  exact hval

theorem idsFrom_step {i next : PageId} (h : i < next) :
    idsFrom i next = i :: idsFrom (i + 1) next := by
  have hlt := next.toNat_lt
  rw [UInt32.lt_iff_toNat_lt] at h
  have hsucc : (i + 1).toNat = i.toNat + 1 := by
    rw [UInt32.toNat_add]
    apply Nat.mod_eq_of_lt
    show i.toNat + 1 < 4294967296
    omega
  unfold idsFrom
  rw [hsucc, show next.toNat - i.toNat = next.toNat - (i.toNat + 1) + 1 by omega, List.range'_succ,
    List.map_cons, UInt32.ofNat_toNat]

theorem idsFrom_stop {i next : PageId} (h : ¬ i < next) : idsFrom i next = [] := by
  rw [UInt32.lt_iff_toNat_lt] at h
  unfold idsFrom
  rw [show next.toNat - i.toNat = 0 by omega]
  rfl

section Counts

variable {db : Db} {tol : Fault → Prop}

/-- The loop counts the types of the pages one after the other. -/
theorem cmdPagesLoop_spec {next : PageId} {n : Nat} (i : PageId) (hi : i ≠ 0)
    (hn : next.toNat - i.toNat < n) (c : PageCounts) :
    wpDb (cmdPagesLoop next n i c) db (fun r db' => db' = db ∧
      r = ((idsFrom i next).map fun pid => pageType (db.pages pid)).foldl PageCounts.count c) tol := by
  induction n generalizing i c with
  | zero => omega
  | succ n ih =>
    rw [cmdPagesLoop, wpDb_ite]
    split
    next hlt =>
      have hids := idsFrom_step hlt
      have hnext := next.toNat_lt
      rw [UInt32.lt_iff_toNat_lt] at hlt
      have hsucc : (i + 1).toNat = i.toNat + 1 := by
        rw [UInt32.toNat_add]
        apply Nat.mod_eq_of_lt
        show i.toNat + 1 < 4294967296
        omega
      have hne : i + 1 ≠ 0 := by
        intro he
        rw [he] at hsucc
        exact absurd hsucc (by simp)
      simp only [wpDb_bind, wpDb_getPage_of hi, wpDb_load, wpDb_unpin, hids, List.map_cons,
        List.foldl_cons]
      exact ih (i + 1) hne (by omega) _
    next hge =>
      rw [idsFrom_stop hge]
      exact ⟨rfl, rfl⟩

/-- The counters count, in 32 bits. -/
theorem foldl_count (l : List UInt32) (c : PageCounts) :
    l.foldl PageCounts.count c =
      ⟨c.heap + UInt32.ofNat (l.count PageType.heap.code),
        c.leaf + UInt32.ofNat (l.count PageType.leaf.code),
        c.internal + UInt32.ofNat (l.count PageType.internal.code),
        c.free + UInt32.ofNat (l.count PageType.free.code)⟩ := by
  have hsucc : ∀ (x : UInt32) (n : Nat), x + 1 + UInt32.ofNat n = x + UInt32.ofNat (n + 1) := by
    intro x n
    rw [UInt32.ofNat_add, add_assoc, add_comm (UInt32.ofNat n)]
    rfl
  have hzero : ∀ x : UInt32, x + UInt32.ofNat 0 = x := fun x => add_zero x
  induction l generalizing c with
  | nil => simp only [List.foldl_nil, List.count_nil, hzero]
  | cons a l ih =>
    rw [List.foldl_cons, ih, PageCounts.count]
    -- the codes differ, so one counter goes on at most
    by_cases hheap : a = PageType.heap.code
    · subst hheap
      rw [if_pos rfl, List.count_cons_self, List.count_cons_of_ne (by decide),
        List.count_cons_of_ne (by decide), List.count_cons_of_ne (by decide), hsucc]
    by_cases hleaf : a = PageType.leaf.code
    · subst hleaf
      rw [if_neg hheap, if_pos rfl, List.count_cons_self, List.count_cons_of_ne (by decide),
        List.count_cons_of_ne (by decide), List.count_cons_of_ne (by decide), hsucc]
    by_cases hinternal : a = PageType.internal.code
    · subst hinternal
      rw [if_neg hheap, if_neg hleaf, if_pos rfl, List.count_cons_self,
        List.count_cons_of_ne (by decide), List.count_cons_of_ne (by decide),
        List.count_cons_of_ne (by decide), hsucc]
    by_cases hfree : a = PageType.free.code
    · subst hfree
      rw [if_neg hheap, if_neg hleaf, if_neg hinternal, if_pos rfl, List.count_cons_self,
        List.count_cons_of_ne (by decide), List.count_cons_of_ne (by decide),
        List.count_cons_of_ne (by decide), hsucc]
    · rw [if_neg hheap, if_neg hleaf, if_neg hinternal, if_neg hfree, List.count_cons_of_ne hheap,
        List.count_cons_of_ne hleaf, List.count_cons_of_ne hinternal, List.count_cons_of_ne hfree]

/-- The free list as the loop finds it, cut after `n` pages -/
theorem cmdPagesFree_spec {head : PageId} {l : List PageId} (n : Nat)
    (h : FreeChain db.ps db.pages head l) (h8 : 8 ≤ db.ps) :
    wpDb (cmdPagesFree n head) db (fun r db' => db' = db ∧
      r.1 = l.take n ∧ (r.2 ≠ 0 ↔ n < l.length)) tol := by
  -- page after page: the loop ends with the list or after 20 of them
  induction n generalizing head l with
  | zero =>
    refine ⟨rfl, rfl, ?_⟩
    cases l with
    | nil =>
      have hzero : head = 0 := h
      simp [hzero]
    | cons p l => simpa [h.1] using h.2.1
  | succ n ih =>
    cases l with
    | nil =>
      have hzero : head = 0 := h
      rw [cmdPagesFree, if_pos hzero]
      exact ⟨rfl, rfl, by simp⟩
    | cons p l =>
      obtain ⟨rfl, hne, -, hlen, hrest⟩ := h
      have hget : freePageHeaderC.get? (db.pages head) 0 =
          some (freePageHeaderC.get (db.pages head) 0) := by
        apply freePageHeaderC.get?_eq_some
        rw [hlen]
        exact h8
      rw [cmdPagesFree, if_neg hne]
      simp only [wpDb_bind, wpDb_getPage_of hne, wpDb_load, wpDb_inBounds_some hget, wpDb_unpin]
      apply wpDb_mono (ih hrest)
      rintro ⟨fps, last⟩ db' ⟨rfl, rfl, hmore⟩
      exact ⟨rfl, rfl, hmore.trans (by simp)⟩

end Counts

/-! ## The partition -/

/-- Every page id handed out is in exactly one of the tree, the chain of heap pages and the
    free list; the chains end, the types tell where a page belongs, and `.pages` counts
    them all. -/
structure PagesPartitioned (db : Db) : Prop where
  ids : ∀ pid, (TreeReach db pid ∨ pid ∈ heapPages db ∨ pid ∈ freePages db) ↔
    1 ≤ pid ∧ pid < db.header.nextPageId
  tree_heap : ∀ pid, TreeReach db pid → pid ∉ heapPages db
  tree_free : ∀ pid, TreeReach db pid → pid ∉ freePages db
  heap_free : ∀ pid ∈ heapPages db, pid ∉ freePages db
  heap_chain : Visits (nextHeap db) 0 db.header.firstHeapPageId (heapPages db)
  heap_nodup : (heapPages db).Nodup
  free_chain : Visits (nextFree db) 0 db.header.freePageHead (freePages db)
  free_nodup : (freePages db).Nodup
  tree_type : ∀ pid, TreeReach db pid → pageType (db.pages pid) = PageType.leaf.code ∨
    pageType (db.pages pid) = PageType.internal.code
  heap_type : ∀ pid ∈ heapPages db, pageType (db.pages pid) = PageType.heap.code
  free_type : ∀ pid ∈ freePages db, pageType (db.pages pid) = PageType.free.code
  report : ∃ c fps more,
    db.exec cmdPages = .ok (⟨db.header.nextPageId, c, fps, more⟩, db) ∧
    c.heap.toNat + c.leaf.toNat + c.internal.toNat + c.free.toNat =
      db.header.nextPageId.toNat - 1 ∧
    c.heap.toNat = (heapPages db).length ∧ c.free.toNat = (freePages db).length ∧
    fps = (freePages db).take 20 ∧ (more = true ↔ 20 < (freePages db).length)

section Partition

variable {db : Db} {rs : Nat} {t : Tree} {hp : List HeapPage}

/-- The pages of the tree, the heap and the free list are the page ids handed out. -/
theorem AllocWith.perm_ids {used free : List PageId} (h : AllocWith db used free)
    (hnext : db.header.nextPageId ≠ 0) :
    (idsFrom 1 db.header.nextPageId).Perm (used ++ free) := by
  rw [List.perm_ext_iff_of_nodup (idsFrom_nodup _ _) h.nodup]
  intro pid
  have hbound : idBound db = db.header.nextPageId.toNat := if_neg hnext
  rw [mem_idsFrom, h.ids, hbound, UInt32.le_iff_toNat_le, UInt32.lt_iff_toNat_lt, ne_eq,
    ← UInt32.toNat_inj]
  show 1 ≤ pid.toNat ∧ _ ↔ ¬ pid.toNat = 0 ∧ _
  omega

/-- Pages of one type count once, pages of another type not at all. -/
theorem count_types {pages : PageId → Page} {l : List PageId} {code code' : UInt32}
    (h : ∀ p ∈ l, pageType (pages p) = code) :
    (l.map fun p => pageType (pages p)).count code' = if code = code' then l.length else 0 := by
  have hmap : (l.map fun p => pageType (pages p)) = List.replicate l.length code := by
    rw [List.eq_replicate_iff, List.length_map]
    refine ⟨rfl, fun b hb => ?_⟩
    obtain ⟨p, hp, rfl⟩ := List.mem_map.mp hb
    exact h p hp
  rw [hmap, List.count_replicate]
  simp

theorem HeapShape.heap_type {others : List PageId} (h : HeapShape db rs hp others) {pid : PageId}
    (hpid : pid ∈ hp.map (·.pid)) : pageType (db.pages pid) = PageType.heap.code := by
  obtain ⟨p, hmem, rfl⟩ := List.mem_map.mp hpid
  obtain ⟨A, B, rfl⟩ := List.append_of_mem hmem
  exact h.pageIs.pageType

/-- How often each type occurs among the pages handed out -/
theorem StorageInv.count_ids {free : List PageId} (h : StorageInv db rs t hp)
    (halloc : AllocWith db (t.pids ++ hp.map (·.pid)) free) (hnext : db.header.nextPageId ≠ 0)
    (code : UInt32) :
    ((idsFrom 1 db.header.nextPageId).map fun pid => pageType (db.pages pid)).count code =
      (if PageType.leaf.code = code then t.leaves.length else 0) +
      (if PageType.internal.code = code then t.inners.length else 0) +
      (if PageType.heap.code = code then hp.length else 0) +
      (if PageType.free.code = code then free.length else 0) := by
  have hperm := (halloc.perm_ids hnext).map fun pid => pageType (db.pages pid)
  have hleaf : ∀ p ∈ t.leaves.map (·.pid), pageType (db.pages p) = PageType.leaf.code := by
    intro p hp
    obtain ⟨l, hl, rfl⟩ := List.mem_map.mp hp
    exact h.tree.leaf_type hl
  have hinner : ∀ p ∈ t.inners.map (·.pid), pageType (db.pages p) = PageType.internal.code := by
    intro p hp
    obtain ⟨n, hn, rfl⟩ := List.mem_map.mp hp
    exact h.tree.inner_type hn
  have hheap : ∀ p ∈ hp.map (·.pid), pageType (db.pages p) = PageType.heap.code :=
    fun p hp => h.heap.heap_type hp
  have hfree : ∀ p ∈ free, pageType (db.pages p) = PageType.free.code :=
    fun p hp => halloc.chain.types hp
  rw [hperm.count_eq, Tree.pids]
  simp only [List.map_append, List.count_append, count_types hleaf, count_types hinner,
    count_types hheap, count_types hfree, List.length_map]

/-- The counters of `.pages`: no count is cut off in 32 bits. -/
theorem StorageInv.counts {free : List PageId} (h : StorageInv db rs t hp)
    (halloc : AllocWith db (t.pids ++ hp.map (·.pid)) free) (hnext : db.header.nextPageId ≠ 0) :
    ∃ c, ((idsFrom 1 db.header.nextPageId).map fun pid => pageType (db.pages pid)).foldl
        PageCounts.count ⟨0, 0, 0, 0⟩ = c ∧
      c.heap.toNat = hp.length ∧ c.leaf.toNat = t.leaves.length ∧
      c.internal.toNat = t.inners.length ∧ c.free.toNat = free.length := by
  have hcount := h.count_ids halloc hnext
  have hsmall : ∀ code, (0 + UInt32.ofNat (((idsFrom 1 db.header.nextPageId).map
      fun pid => pageType (db.pages pid)).count code)).toNat =
      ((idsFrom 1 db.header.nextPageId).map fun pid => pageType (db.pages pid)).count code := by
    intro code
    rw [UInt32.zero_add]
    apply UInt32.toNat_ofNat_of_lt'
    apply Nat.lt_of_le_of_lt List.count_le_length
    rw [List.length_map]
    apply length_lt_of_nodup (idsFrom_nodup _ _)
    rintro p hp rfl
    exact absurd (mem_idsFrom.mp hp).1 (by decide)
  refine ⟨_, foldl_count _ _, ?_, ?_, ?_, ?_⟩
  · rw [hsmall, hcount, if_neg (by decide), if_neg (by decide), if_pos rfl, if_neg (by decide)]
    omega
  · rw [hsmall, hcount, if_pos rfl, if_neg (by decide), if_neg (by decide), if_neg (by decide)]
    omega
  · rw [hsmall, hcount, if_neg (by decide), if_pos rfl, if_neg (by decide), if_neg (by decide)]
    omega
  · rw [hsmall, hcount, if_neg (by decide), if_neg (by decide), if_neg (by decide), if_pos rfl]
    omega

/-- `.pages` counts the pages of the tree, the heap and the free list. -/
theorem cmdPages_spec {free : List PageId} (h : StorageInv db rs t hp)
    (halloc : AllocWith db (t.pids ++ hp.map (·.pid)) free) (h8 : 8 ≤ db.ps)
    (hnext : db.header.nextPageId ≠ 0) :
    ∃ c fps more, db.exec cmdPages = .ok (⟨db.header.nextPageId, c, fps, more⟩, db) ∧
      c.heap.toNat = hp.length ∧ c.leaf.toNat = t.leaves.length ∧
      c.internal.toNat = t.inners.length ∧ c.free.toNat = free.length ∧
      fps = free.take 20 ∧ (more = true ↔ 20 < free.length) := by
  obtain ⟨c, hc, hcounts⟩ := h.counts halloc hnext
  have hn : db.header.nextPageId.toNat - (1 : PageId).toNat < maxPages := by
    have hlt := db.header.nextPageId.toNat_lt
    unfold maxPages
    omega
  have hrun : wpDb cmdPages db (fun r db' => db' = db ∧ ∃ fps more,
      r = ⟨db.header.nextPageId, c, fps, more⟩ ∧ fps = free.take 20 ∧
      (more = true ↔ 20 < free.length)) fun _ => False := by
    simp only [cmdPages, wpDb_bind, wpDb_getHeader]
    -- first the ids below `next_page_id`, then the list
    apply wpDb_mono (cmdPagesLoop_spec 1 (by decide) hn _)
    rintro c' db' ⟨rfl, rfl⟩
    rw [hc, wpDb_ite]
    split
    next hhead =>
      rw [wpDb_bind]
      apply wpDb_mono (cmdPagesFree_spec 20 halloc.chain h8)
      rintro ⟨fps, last⟩ db' ⟨rfl, hfps, hmore⟩
      exact ⟨rfl, _, _, rfl, hfps, by rw [decide_eq_true_iff]; exact hmore⟩
    next hhead =>
      -- an empty list
      have hzero : db'.header.freePageHead = 0 := not_not.mp hhead
      have hchain := halloc.chain
      cases free with
      | nil => exact ⟨rfl, _, _, rfl, rfl, by simp⟩
      | cons p l => exact absurd (hchain.1.symm.trans hzero) hchain.2.1
  obtain ⟨r, db', hexec, rfl, fps, more, rfl, hfps, hmore⟩ := wpDb_total hrun
  exact ⟨c, fps, more, hexec, hcounts.1, hcounts.2.1, hcounts.2.2.1, hcounts.2.2.2, hfps, hmore⟩

theorem length_idsFrom (i next : PageId) : (idsFrom i next).length = next.toNat - i.toNat := by
  rw [idsFrom, List.length_map, List.length_range']

theorem StorageInv.pagesPartitioned (h : StorageInv db rs t hp) (h8 : 8 ≤ db.ps)
    (hnext : db.header.nextPageId ≠ 0) : PagesPartitioned db := by
  obtain ⟨free, halloc⟩ := h.tree.alloc
  have hperm := halloc.perm_ids hnext
  have htree := fun pid => h.tree.treeReach_iff (p := pid)
  have hheap := h.heap.heapPages_eq
  have hfree := halloc.freePages_eq
  -- one list without repetition holds the three groups
  obtain ⟨hused, hfreeNodup, hdisj⟩ := List.nodup_append.mp halloc.nodup
  obtain ⟨-, hheapNodup, hdisj'⟩ := List.nodup_append.mp hused
  constructor
  · intro pid
    rw [htree, hheap, hfree, ← mem_idsFrom, hperm.mem_iff, List.mem_append, List.mem_append, or_assoc]
  · intro pid hpid hmem
    rw [hheap] at hmem
    exact hdisj' pid ((htree pid).mp hpid) pid hmem rfl
  · intro pid hpid hmem
    rw [hfree] at hmem
    exact hdisj pid (List.mem_append_left _ ((htree pid).mp hpid)) pid hmem rfl
  · intro pid hpid hmem
    rw [hheap] at hpid
    rw [hfree] at hmem
    exact hdisj pid (List.mem_append_right _ hpid) pid hmem rfl
  · rw [hheap]
    exact h.heap.visits
  · rw [hheap]
    exact hheapNodup
  · rw [hfree]
    exact halloc.chain.visits
  · rw [hfree]
    exact hfreeNodup
  · intro pid hpid
    rcases List.mem_append.mp ((htree pid).mp hpid) with hmem | hmem
    · obtain ⟨l, hl, rfl⟩ := List.mem_map.mp hmem
      exact Or.inl (h.tree.leaf_type hl)
    · obtain ⟨n, hn, rfl⟩ := List.mem_map.mp hmem
      exact Or.inr (h.tree.inner_type hn)
  · intro pid hpid
    rw [hheap] at hpid
    exact h.heap.heap_type hpid
  · intro pid hpid
    rw [hfree] at hpid
    exact halloc.chain.types hpid
  · -- the counts of `.pages` are the lengths of the groups
    obtain ⟨c, fps, more, hexec, hc1, hc2, hc3, hc4, hfps, hmore⟩ :=
      cmdPages_spec h halloc h8 hnext
    have htotal := hperm.length_eq
    simp only [length_idsFrom, Tree.pids, List.length_append, List.length_map] at htotal
    have hone : (1 : PageId).toNat = 1 := rfl
    rw [hheap, hfree]
    refine ⟨c, fps, more, hexec, by omega, ?_, hc4, hfps, hmore⟩
    rw [hc1, List.length_map]

end Partition

/-- After every run of tree and heap operations the pages handed out are partitioned; a run
    can only fail for want of page ids. -/
theorem storageRun_pages {pageSize : UInt32} {rowSize : UInt16} (hcap : HoldsTwo pageSize)
    (hdims : HeapDims pageSize rowSize) {ops : List StorageOp}
    (hok : ∀ c ∈ calls (StorageOp.step rowSize) ops (HeapState.fresh pageSize),
      c.1.Ok rowSize c.2) :
    (∀ rs s, runAll (StorageOp.step rowSize) ops (HeapState.fresh pageSize) = .ok (rs, s) →
      s.db.header.nextPageId ≠ 0 → PagesPartitioned s.db) ∧
    ∀ e, runAll (StorageOp.step rowSize) ops (HeapState.fresh pageSize) = .error e →
      e = .idsExhausted := by
  obtain ⟨hrun, hfault⟩ := storageRun_inv hcap hdims hok
  refine ⟨fun rs s hout hnext => ?_, hfault⟩
  obtain ⟨hsize, t, hp, hinv, -⟩ := hrun rs s hout
  have h8 : 8 ≤ s.db.ps := by
    have := hcap.le_pageSize
    rw [Db.ps, hsize]
    omega
  exact hinv.pagesPartitioned h8 hnext

/-- The tree splits its root and merges its leaves again while the heap takes a second page,
    so that a page of the tree is freed and given to the heap. -/
def sharedPagesRun : List StorageOp :=
  [.heap (.insert [1, 1, 1, 1]), .tree (.insert 1 ⟨1, 0⟩), .heap (.insert [2, 2, 2, 2]),
    .tree (.insert 2 ⟨1, 1⟩), .tree (.insert 3 ⟨1, 1⟩), .tree (.delete 1), .tree (.delete 2),
    .heap (.insert [3, 3, 3, 3]), .heap (.delete ⟨1, 0⟩)]

theorem storageRun_pages_48 :
    (∀ rs s, runAll (StorageOp.step 4) sharedPagesRun (HeapState.fresh 48) = .ok (rs, s) →
      s.db.header.nextPageId ≠ 0 → PagesPartitioned s.db) ∧
    ∀ e, runAll (StorageOp.step 4) sharedPagesRun (HeapState.fresh 48) = .error e →
      e = .idsExhausted := by
  have hsep : ∀ c ∈ calls (StorageOp.step 4) sharedPagesRun (HeapState.fresh 48),
      separatedBelow c.2.db 2 c.2.db.header.rootIndexPageId = true := by decide +kernel
  have hheap : ∀ c ∈ calls (StorageOp.step 4) sharedPagesRun (HeapState.fresh 48),
      c.1.HeapOk 4 c.2 := by decide +kernel
  exact storageRun_pages ⟨by decide, by decide⟩ ⟨by decide, by decide⟩ fun c hc =>
    ⟨Separated.of_check (hsep c hc), hheap c hc⟩

end MiniDb
