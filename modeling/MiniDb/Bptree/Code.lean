import MiniDb.Bptree.Node

/-!
# The B+ tree

The functions of `bptree.c` that work across pages, as routines over the pager.
-/

namespace MiniDb

open Bytes

/-! ## Search -/

/-- `internal_child_for_key` on the buffer of node `pid` -/
def internalChildForKey (pid : PageId) (page : Page) (key : Key) : Routine PageId := do
  let iph := internalPageHeaderC.get page 0
  let entries ← inBounds (readEntries internalEntryC internalBase page iph.keyCount.toNat)
  let idx := internalFind entries iph.keyCount key
  if idx = 0 then
    return iph.leftmostChildPageId
  else
    note (.takeChild pid (idx - 1) iph.keyCount)
    return (entries.getD (idx - 1).toNat default).rightChildPageId

def findLeafLoop (key : Key) : Nat → PageId → Routine PageId
  | 0, _ => .throw .nonTermination
  | n + 1, pid => do
    pagerGetPage pid
    let page ← load pid
    if pageType page = PageType.leaf.code then
      pagerUnpin pid
      return pid
    else
      let child ← internalChildForKey pid page key
      pagerUnpin pid
      findLeafLoop key n child

/-- `find_leaf` -/
def findLeaf (key : Key) : Routine PageId := do
  let header ← getHeader
  findLeafLoop key maxPages header.rootIndexPageId

/-- `bptree_search` -/
def bptreeSearch (key : Key) : Routine (Option RowRef) := do
  let leafPid ← findLeaf key
  pagerGetPage leafPid
  let page ← load leafPid
  let lph := leafPageHeaderC.get page 0
  let entries ← inBounds (readEntries leafEntryC leafBase page lph.keyCount.toNat)
  let idx := leafFind entries lph.keyCount key
  let e := entries.getD idx.toNat default
  pagerUnpin leafPid
  if idx < lph.keyCount ∧ e.key = key then return some e.rowRef else return none

/-! ## Insertion -/

/-- `memcpy(child + 4, &parent, 4)` on the page of a child, marked dirty -/
def setParent (child parent : PageId) : Routine Unit := do
  pagerGetPage child
  let cp ← load child
  store child (← inBounds (u32.put? cp 4 parent))
  pagerMarkDirty child
  pagerUnpin child

def setParents (parent : PageId) : List PageId → Routine Unit
  | [] => pure ()
  | child :: rest => do
    setParent child parent
    setParents parent rest

/-- `split_internal`, with the call of `insert_into_parent` at its end as a parameter -/
def splitInternal (insertIntoParent : PageId → Key → PageId → Routine Unit)
    (nodePid : PageId) (key : Key) (rightChild : PageId) : Routine Unit := do
  let pageSize ← getPageSize
  pagerGetPage nodePid
  let page ← load nodePid
  let iph := internalPageHeaderC.get page 0
  let entries ← inBounds (readEntries internalEntryC internalBase page iph.keyCount.toNat)
  let mk := maxInternalKeys pageSize
  -- the old entries and the new one in order
  let ins := internalFind entries iph.keyCount key
  let tmp := entries.take ins.toNat ++ ⟨key, rightChild⟩ :: entries.drop ins.toNat
  let total := iph.keyCount + 1
  let split := total / 2
  let mid ← inBounds tmp[split.toNat]?
  -- the right half goes to a new page, the middle key to the parent
  let newPid ← pagerAllocPage
  pagerGetPage newPid
  let newIph : InternalPageHeader :=
    ⟨PageType.internal.code, iph.parentPageId, total - split - 1, mid.rightChildPageId⟩
  let right := tmp.drop (split.toNat + 1)
  let newPage ← inBounds (internalPageHeaderC.put? (zeroPage pageSize) 0 newIph)
  let newPage ← inBounds (writeEntries internalEntryC internalBase newPage 0 right)
  store newPid newPage
  pagerMarkDirty newPid
  -- the children that moved get the new node as their parent
  setParent mid.rightChildPageId newPid
  setParents newPid (right.map (·.rightChildPageId))
  -- the old node keeps the left half
  let page ← load nodePid
  let page ← inBounds (internalPageHeaderC.put? page 0 { iph with keyCount := split })
  let page ← inBounds (writeEntries internalEntryC internalBase page 0 (tmp.take split.toNat))
  let page ← inBounds (zeroRange page (internalBase + split.toNat * internalEntryC.size)
    ((mk - split).toNat * internalEntryC.size))
  store nodePid page
  pagerMarkDirty nodePid
  pagerUnpin newPid
  pagerUnpin nodePid
  insertIntoParent nodePid mid.key newPid

/-- `insert_into_parent` -/
def insertIntoParent : Nat → PageId → Key → PageId → Routine Unit
  | 0, _, _, _ => .throw .nonTermination
  | n + 1, leftPid, key, rightPid => do
    pagerGetPage leftPid
    let leftPage ← load leftPid
    let parentPid := u32.get leftPage 4
    pagerUnpin leftPid
    let fields ← getFields
    if parentPid = 0 ∧ leftPid = fields.header.rootIndexPageId then
      -- no parent: a new root with the two halves as its children
      let newRoot ← pagerAllocPage
      pagerGetPage newRoot
      let iph : InternalPageHeader := ⟨PageType.internal.code, 0, 1, leftPid⟩
      let rp ← inBounds (internalPageHeaderC.put? (zeroPage fields.pageSize) 0 iph)
      let rp ← inBounds (internalEntryC.putAt? internalBase rp 0 ⟨key, rightPid⟩)
      store newRoot rp
      pagerMarkDirty newRoot
      pagerUnpin newRoot
      setParent leftPid newRoot
      setParent rightPid newRoot
      modifyHeader fun h => { h with rootIndexPageId := newRoot }
    else
      pagerGetPage parentPid
      let pp ← load parentPid
      let iph := internalPageHeaderC.get pp 0
      if iph.keyCount < maxInternalKeys fields.pageSize then
        store parentPid (← inBounds (internalInsertEntry pp iph key rightPid))
        pagerMarkDirty parentPid
        pagerUnpin parentPid
        setParent rightPid parentPid
      else
        pagerUnpin parentPid
        setParent rightPid parentPid
        splitInternal (insertIntoParent n) parentPid key rightPid

/-- `split_leaf` -/
def splitLeaf (leafPid : PageId) (key : Key) (ref : RowRef) : Routine Unit := do
  let pageSize ← getPageSize
  pagerGetPage leafPid
  let page ← load leafPid
  let lph := leafPageHeaderC.get page 0
  let entries ← inBounds (readEntries leafEntryC leafBase page lph.keyCount.toNat)
  let mk := maxLeafKeys pageSize
  let ins := leafFind entries lph.keyCount key
  let tmp := entries.take ins.toNat ++ ⟨key, ref⟩ :: entries.drop ins.toNat
  let total := lph.keyCount + 1
  let split := total / 2
  -- the right half goes to a new page, linked in after the old leaf
  let newPid ← pagerAllocPage
  pagerGetPage newPid
  let newLph : LeafPageHeader :=
    ⟨PageType.leaf.code, lph.parentPageId, total - split, lph.nextLeafPageId, leafPid⟩
  let newPage ← inBounds (leafPageHeaderC.put? (zeroPage pageSize) 0 newLph)
  let newPage ← inBounds (writeEntries leafEntryC leafBase newPage 0 (tmp.drop split.toNat))
  store newPid newPage
  pagerMarkDirty newPid
  setPrevLeaf lph.nextLeafPageId newPid
  -- the old leaf keeps the left half
  let page ← load leafPid
  let page ← inBounds (leafPageHeaderC.put? page 0
    { lph with keyCount := split, nextLeafPageId := newPid })
  let page ← inBounds (writeEntries leafEntryC leafBase page 0 (tmp.take split.toNat))
  let page ← inBounds (zeroRange page (leafBase + split.toNat * leafEntryC.size)
    ((mk - split).toNat * leafEntryC.size))
  store leafPid page
  pagerMarkDirty leafPid
  let promote ← inBounds tmp[split.toNat]?
  pagerUnpin newPid
  pagerUnpin leafPid
  insertIntoParent maxPages leafPid promote.key newPid
where
  /-- `prev_leaf_page_id` of the leaf after the split one, when there is one -/
  setPrevLeaf (next prev : PageId) : Routine Unit := do
    if next ≠ 0 then
      pagerGetPage next
      let rp ← load next
      let rlph := leafPageHeaderC.get rp 0
      store next (← inBounds (leafPageHeaderC.put? rp 0 { rlph with prevLeafPageId := prev }))
      pagerMarkDirty next
      pagerUnpin next

/-- `bptree_insert` -/
def bptreeInsert (key : Key) (ref : RowRef) : Routine Int := do
  let leafPid ← findLeaf key
  pagerGetPage leafPid
  let page ← load leafPid
  let lph := leafPageHeaderC.get page 0
  let entries ← inBounds (readEntries leafEntryC leafBase page lph.keyCount.toNat)
  let idx := leafFind entries lph.keyCount key
  if idx < lph.keyCount ∧ (entries.getD idx.toNat default).key = key then
    pagerUnpin leafPid
    return -1
  else
    let pageSize ← getPageSize
    if lph.keyCount < maxLeafKeys pageSize then
      store leafPid (← inBounds (leafInsertEntry page lph key ref))
      pagerMarkDirty leafPid
      pagerUnpin leafPid
      return 0
    else
      pagerUnpin leafPid
      splitLeaf leafPid key ref
      return 0

/-! ## Deletion -/

/-- `fix_internal_after_delete`.  An underfull internal node is left as it is; only a root
    without separators is replaced by its one child. -/
def fixInternalAfterDelete (nodePid : PageId) : Routine Unit := do
  let header ← getHeader
  if nodePid = header.rootIndexPageId then
    pagerGetPage nodePid
    let page ← load nodePid
    let iph := internalPageHeaderC.get page 0
    if iph.keyCount = 0 then
      let child := iph.leftmostChildPageId
      pagerUnpin nodePid
      pagerFreePage nodePid
      modifyHeader fun h => { h with rootIndexPageId := child }
      setParent child 0
    else
      pagerUnpin nodePid
  else
    pagerGetPage nodePid
    pagerUnpin nodePid

/-- `pentries[idx].right_child_page_id`, read through the pointer to the parent's buffer.
    The source has unpinned the parent by then. -/
def readChild (parentPid : PageId) (idx : Nat) (keyCount : UInt32) : Routine PageId := do
  note (.takeChild parentPid (UInt32.ofNat idx) keyCount)
  let pp ← load parentPid
  return (← inBounds (internalEntryC.getAt? internalBase pp idx)).rightChildPageId

/-- The child on the left of child `childIdx > 0` -/
def leftSibling (parentPid : PageId) (iph : InternalPageHeader) (childIdx : Nat) :
    Routine PageId :=
  if childIdx = 1 then return iph.leftmostChildPageId
  else readChild parentPid (childIdx - 2) iph.keyCount

/-- Insert an entry into the leaf at `leafPid`. -/
def insertBorrowed (leafPid : PageId) (e : LeafEntry) : Routine Unit := do
  pagerGetPage leafPid
  let page ← load leafPid
  store leafPid (← inBounds (leafInsertEntry page (leafPageHeaderC.get page 0) e.key e.rowRef))
  pagerMarkDirty leafPid
  pagerUnpin leafPid

/-- Set separator `sepIdx` of the parent to the first key of the leaf `fromPid`. -/
def setSeparator (parentPid : PageId) (sepIdx : Nat) (fromPid : PageId) : Routine Unit := do
  pagerGetPage parentPid
  pagerGetPage fromPid
  let page ← load fromPid
  let first ← inBounds (leafEntryC.getAt? leafBase page 0)
  let pp ← load parentPid
  let iph := internalPageHeaderC.get pp 0
  let e ← inBounds (internalEntryC.getAt? internalBase pp sepIdx)
  let pp ← inBounds (internalEntryC.putAt? internalBase pp sepIdx { e with key := first.key })
  pagerUnpin fromPid
  store parentPid (← inBounds (internalPageHeaderC.put? pp 0 iph))
  pagerMarkDirty parentPid
  pagerUnpin parentPid

/-- Borrow the first entry of the right sibling; `false` when it cannot lend. -/
def borrowFromRight (leafPid parentPid : PageId) (childIdx : Nat) (iph : InternalPageHeader) :
    Routine Bool := do
  let pageSize ← getPageSize
  -- both tests of the source come down to this one, and so does the one inside
  if (childIdx : Int) ≤ (iph.keyCount.toNat : Int) - 1 ∨ (childIdx = 0 ∧ 0 < iph.keyCount) then
    let rsibPid ← readChild parentPid childIdx iph.keyCount
    note (.sibling leafPid rsibPid)
    pagerGetPage rsibPid
    let rpage ← load rsibPid
    let rlph := leafPageHeaderC.get rpage 0
    if minLeafKeys pageSize < rlph.keyCount then
      let borrowed ← inBounds (leafEntryC.getAt? leafBase rpage 0)
      store rsibPid (← inBounds (deleteEntryFromLeaf rpage rlph 0))
      pagerMarkDirty rsibPid
      pagerUnpin rsibPid
      insertBorrowed leafPid borrowed
      setSeparator parentPid childIdx rsibPid
      return true
    else
      pagerUnpin rsibPid
      return false
  else
    return false

/-- Borrow the last entry of the left sibling; `false` when there is none or it cannot lend. -/
def borrowFromLeft (leafPid parentPid : PageId) (childIdx : Nat) (iph : InternalPageHeader) :
    Routine Bool := do
  let pageSize ← getPageSize
  if 0 < childIdx then
    let lsibPid ← leftSibling parentPid iph childIdx
    note (.sibling leafPid lsibPid)
    pagerGetPage lsibPid
    let lpage ← load lsibPid
    let llph := leafPageHeaderC.get lpage 0
    if minLeafKeys pageSize < llph.keyCount then
      let last := llph.keyCount - 1
      let borrowed ← inBounds (leafEntryC.getAt? leafBase lpage last.toNat)
      store lsibPid (← inBounds (leafPageHeaderC.put? lpage 0 { llph with keyCount := last }))
      pagerMarkDirty lsibPid
      pagerUnpin lsibPid
      insertBorrowed leafPid borrowed
      setSeparator parentPid (childIdx - 1) leafPid
      return true
    else
      pagerUnpin lsibPid
      return false
  else
    return false

/-- Append the entries of leaf `srcPid` to leaf `dstPid`, take over its successor, and put
    its page on the free list.  The caller decides which pointer is fetched first. -/
def appendLeaf (dstPid srcPid : PageId) : Routine Unit := do
  let dst ← load dstPid
  let dlph := leafPageHeaderC.get dst 0
  let src ← load srcPid
  let slph := leafPageHeaderC.get src 0
  let entries ← inBounds (readEntries leafEntryC leafBase src slph.keyCount.toNat)
  let dst ← inBounds (writeEntries leafEntryC leafBase dst dlph.keyCount.toNat entries)
  store dstPid (← inBounds (leafPageHeaderC.put? dst 0
    { dlph with
      keyCount := dlph.keyCount + slph.keyCount, nextLeafPageId := slph.nextLeafPageId }))
  pagerMarkDirty dstPid

/-- Remove separator `sepIdx` from the parent and look at the parent in turn. -/
def removeSeparator (parentPid : PageId) (sepIdx : UInt32) : Routine Unit := do
  pagerGetPage parentPid
  let pp ← load parentPid
  let iph := internalPageHeaderC.get pp 0
  note (.deleteInternal iph.keyCount)
  store parentPid (← inBounds (deleteEntryFromInternal pp iph sepIdx))
  pagerMarkDirty parentPid
  pagerUnpin parentPid
  fixInternalAfterDelete parentPid

/-- Merge the leaf with its left sibling, or the right sibling into the leftmost leaf. -/
def mergeLeaf (leafPid parentPid : PageId) (childIdx : Nat) (iph : InternalPageHeader) :
    Routine Unit := do
  if 0 < childIdx then
    let lsibPid ← leftSibling parentPid iph childIdx
    note (.sibling leafPid lsibPid)
    pagerGetPage lsibPid
    pagerGetPage leafPid
    let next := (leafPageHeaderC.get (← load leafPid) 0).nextLeafPageId
    appendLeaf lsibPid leafPid
    pagerUnpin lsibPid
    pagerUnpin leafPid
    splitLeaf.setPrevLeaf next lsibPid
    pagerFreePage leafPid
    removeSeparator parentPid (UInt32.ofNat (childIdx - 1))
  else
    let rsibPid ← readChild parentPid 0 iph.keyCount
    note (.sibling leafPid rsibPid)
    pagerGetPage leafPid
    pagerGetPage rsibPid
    let next := (leafPageHeaderC.get (← load rsibPid) 0).nextLeafPageId
    appendLeaf leafPid rsibPid
    pagerUnpin leafPid
    pagerUnpin rsibPid
    splitLeaf.setPrevLeaf next leafPid
    pagerFreePage rsibPid
    removeSeparator parentPid 0

/-- The position of child `leafPid` in its parent: 0 for the leftmost child, `i + 1` for
    the right child of entry `i`, nothing when it is not there. -/
def childIndex (iph : InternalPageHeader) (pentries : List InternalEntry) (leafPid : PageId) :
    Option Nat :=
  if iph.leftmostChildPageId = leafPid then some 0
  else (pentries.findIdx? fun e => e.rightChildPageId = leafPid).map (· + 1)

/-- `fix_leaf_after_delete` -/
def fixLeafAfterDelete (leafPid : PageId) : Routine Unit := do
  let pageSize ← getPageSize
  pagerGetPage leafPid
  let page ← load leafPid
  let lph := leafPageHeaderC.get page 0
  pagerUnpin leafPid
  let header ← getHeader
  if leafPid = header.rootIndexPageId then return ()
  else if minLeafKeys pageSize ≤ lph.keyCount then return ()
  else
    let parentPid := lph.parentPageId
    pagerGetPage parentPid
    let pp ← load parentPid
    let iph := internalPageHeaderC.get pp 0
    note (.underflow leafPid parentPid iph.keyCount)
    let pentries ← inBounds (readEntries internalEntryC internalBase pp iph.keyCount.toNat)
    pagerUnpin parentPid
    match childIndex iph pentries leafPid with
    | none => return ()
    | some childIdx =>
      if ← borrowFromRight leafPid parentPid childIdx iph then return ()
      else if ← borrowFromLeft leafPid parentPid childIdx iph then return ()
      else mergeLeaf leafPid parentPid childIdx iph

/-- `bptree_delete` -/
def bptreeDelete (key : Key) : Routine Int := do
  let leafPid ← findLeaf key
  pagerGetPage leafPid
  let page ← load leafPid
  let lph := leafPageHeaderC.get page 0
  let entries ← inBounds (readEntries leafEntryC leafBase page lph.keyCount.toNat)
  let idx := leafFind entries lph.keyCount key
  if lph.keyCount ≤ idx ∨ (entries.getD idx.toNat default).key ≠ key then
    pagerUnpin leafPid
    return -1
  else
    store leafPid (← inBounds (deleteEntryFromLeaf page lph idx))
    pagerMarkDirty leafPid
    pagerUnpin leafPid
    fixLeafAfterDelete leafPid
    return 0

/-! ## Height -/

def bptreeHeightLoop : Nat → Nat → PageId → Routine Nat
  | 0, _, _ => .throw .nonTermination
  | n + 1, h, pid => do
    pagerGetPage pid
    let page ← load pid
    if pageType page = PageType.leaf.code then
      pagerUnpin pid
      return h + 1
    else
      pagerUnpin pid
      bptreeHeightLoop n (h + 1) (internalPageHeaderC.get page 0).leftmostChildPageId

/-- `bptree_height` -/
def bptreeHeight : Routine Nat := do
  let header ← getHeader
  bptreeHeightLoop maxPages 0 header.rootIndexPageId

end MiniDb
