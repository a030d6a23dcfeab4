import MiniDb.Lib.Lists
import MiniDb.Pager.Alloc
import MiniDb.Heap.PageSpec

/-!
# The heap as a store of rows

The heap is a chain of pages, and its contents are a partial map from row references to rows.
The map does not depend on which page an insertion chooses.

## Key results

- `heapInsert_spec`, `heapDelete_spec`, `fetchRow_spec`: the operations act on the map
- `heapScan_spec`: the scan meets the rows in the order of the chain and of the slots
-/

namespace MiniDb

open Bytes Lists

/-! ## The chain of pages -/

/-- A heap page: what its slots hold, and its free slots in the order of their chain -/
structure HeapPage where
  pid : PageId
  rows : List (Option (List UInt8))
  free : List Nat

/-- The first page of a chain, or what follows it -/
def firstHeap : List HeapPage → PageId → PageId
  | [], next => next
  | p :: _, _ => p.pid

/-- The pages are stored and linked, and `next` follows the last one. -/
def HeapChain (ps rs : Nat) (pages : PageId → Page) : List HeapPage → PageId → Prop
  | [], _ => True
  | p :: l, next =>
    HeapIs ps rs (pages p.pid) (firstHeap l next) p.rows p.free ∧ HeapChain ps rs pages l next

section Chain

variable {ps rs : Nat} {pages pages' : PageId → Page} {next : PageId}

theorem firstHeap_append (A B : List HeapPage) :
    firstHeap (A ++ B) next = firstHeap A (firstHeap B next) := by
  cases A <;> rfl

theorem HeapChain.append_iff {A B : List HeapPage} :
    HeapChain ps rs pages (A ++ B) next ↔
      HeapChain ps rs pages A (firstHeap B next) ∧ HeapChain ps rs pages B next := by
  induction A with
  | nil => simp [HeapChain]
  | cons p A ih => simp only [List.cons_append, HeapChain, firstHeap_append, ih, and_assoc]

/-- The chain at one of its pages -/
theorem HeapChain.cut_iff {A B : List HeapPage} {p : HeapPage} :
    HeapChain ps rs pages (A ++ p :: B) next ↔
      HeapChain ps rs pages A p.pid ∧
        HeapIs ps rs (pages p.pid) (firstHeap B next) p.rows p.free ∧
        HeapChain ps rs pages B next := HeapChain.append_iff

theorem HeapChain.congr {l : List HeapPage} (h : HeapChain ps rs pages l next)
    (hp : ∀ p ∈ l, pages' p.pid = pages p.pid) : HeapChain ps rs pages' l next := by
  induction l with
  | nil => trivial
  | cons p l ih =>
    refine ⟨?_, ih h.2 fun q hq => hp q (List.mem_cons_of_mem _ hq)⟩
    rw [hp p (List.mem_cons_self ..)]
    exact h.1

end Chain

/-- The pages and the fields of `db` store the heap `hp` of rows of `rs` bytes; the other
    pages in use are `others`. -/
structure HeapShape (db : Db) (rs : Nat) (hp : List HeapPage) (others : List PageId) : Prop where
  alloc : Alloc db (hp.map (·.pid) ++ others)
  chain : HeapChain db.ps rs db.pages hp 0
  first : db.header.firstHeapPageId = firstHeap hp 0
  last : hp.getLast?.map (·.pid) = some db.fields.lastHeapPageId

/-- The fields the heap leaves alone -/
def Db.heapOutside (db : Db) : PagerFields := { db.core with lastHeapPageId := 0 }

/-- The heap is `hp` now; what does not belong to it is as it was. -/
structure HeapStep (db db' : Db) (rs : Nat) (hp : List HeapPage) (others : List PageId) : Prop where
  shape : HeapShape db' rs hp others
  outside : db'.heapOutside = db.heapOutside
  frame : ∀ p ∈ others, db'.pages p = db.pages p

section Outside

variable {db db' db'' : Db} {rs : Nat} {hp hp' : List HeapPage} {others : List PageId}

theorem heapOutside_pageSize (h : db'.heapOutside = db.heapOutside) :
    db'.fields.pageSize = db.fields.pageSize := congrArg (fun f => f.pageSize) h

theorem heapOutside_ps (h : db'.heapOutside = db.heapOutside) : db'.ps = db.ps :=
  congrArg UInt32.toNat (heapOutside_pageSize h)

theorem heapOutside_of_core (h : db'.core = db.core) : db'.heapOutside = db.heapOutside := by
  simp only [Db.heapOutside, h]

theorem HeapStep.trans (h : HeapStep db db' rs hp others) (h' : HeapStep db' db'' rs hp' others) :
    HeapStep db db'' rs hp' others :=
  ⟨h'.shape, h'.outside.trans h.outside, fun p hp => (h'.frame p hp).trans (h.frame p hp)⟩

end Outside

namespace HeapShape

variable {db : Db} {rs : Nat} {hp A B : List HeapPage} {p : HeapPage} {others : List PageId}

theorem nodup (h : HeapShape db rs hp others) : (hp.map (·.pid)).Nodup :=
  (List.nodup_append.mp h.alloc.nodup).1

theorem ne_zero (h : HeapShape db rs hp others) (hmem : p ∈ hp) : p.pid ≠ 0 :=
  h.alloc.ne_zero (List.mem_append_left _ (List.mem_map_of_mem hmem))

theorem ne_others (h : HeapShape db rs hp others) (hmem : p ∈ hp) {q : PageId} (hq : q ∈ others) :
    p.pid ≠ q :=
  (List.nodup_append.mp h.alloc.nodup).2.2 _ (List.mem_map_of_mem hmem) q hq

theorem pageIs (h : HeapShape db rs (A ++ p :: B) others) :
    HeapIs db.ps rs (db.pages p.pid) (firstHeap B 0) p.rows p.free :=
  (HeapChain.cut_iff.mp h.chain).2.1

/-- The chain ends in the page the pager remembers. -/
theorem exists_last (h : HeapShape db rs hp others) :
    ∃ A z, hp = A ++ [z] ∧ z.pid = db.fields.lastHeapPageId := by
  have hne : hp ≠ [] := by
    rintro rfl
    exact nomatch h.last
  obtain ⟨A, z, rfl⟩ := eq_append_singleton hne
  refine ⟨A, z, rfl, ?_⟩
  have hlast := h.last
  rw [List.getLast?_concat] at hlast
  exact Option.some.inj hlast

/-- One page has been replaced by a page with other rows. -/
theorem setPage (h : HeapShape db rs (A ++ p :: B) others) {pg : Page}
    {rows : List (Option (List UInt8))} {free : List Nat}
    (his : HeapIs db.ps rs pg (firstHeap B 0) rows free) :
    HeapStep db (db.setPage p.pid pg) rs (A ++ ⟨p.pid, rows, free⟩ :: B) others := by
  have hnodup := h.nodup
  have hmap : (A ++ (⟨p.pid, rows, free⟩ : HeapPage) :: B).map (·.pid) =
      (A ++ p :: B).map (·.pid) := by simp
  have hA : ∀ a ∈ A, a.pid ≠ p.pid := fun a ha =>
    ne_of_nodup_map hnodup ha (List.mem_cons_self ..)
  have hB : ∀ b ∈ B, b.pid ≠ p.pid := by
    intro b hb
    rw [show A ++ p :: B = (A ++ [p]) ++ B by simp] at hnodup
    exact (ne_of_nodup_map hnodup (by simp) hb).symm
  obtain ⟨hchainA, -, hchainB⟩ := HeapChain.cut_iff.mp h.chain
  refine ⟨⟨?_, HeapChain.cut_iff.mpr ⟨hchainA.congr fun a ha => Db.setPage_pages_ne _ _ (hA a ha),
    ?_, hchainB.congr fun b hb => Db.setPage_pages_ne _ _ (hB b hb)⟩, ?_, ?_⟩, rfl, fun q hq => ?_⟩
  · rw [hmap]
    apply h.alloc.setPage
    simp
  · rw [Db.setPage_pages_same]
    exact his
  · rw [Db.setPage_header, h.first, firstHeap_append, firstHeap_append]
    rfl
  · rw [Db.setPage_fields, ← h.last, ← List.getLast?_map, ← List.getLast?_map, hmap]
  · apply Db.setPage_pages_ne
    exact (h.ne_others (by simp) hq).symm

end HeapShape

/-! ## The contents -/

/-- The row a reference stands for -/
def heapMap (hp : List HeapPage) (ref : RowRef) : Option (List UInt8) :=
  (hp.find? fun p => p.pid = ref.pageId).bind fun p => p.rows[ref.slotId.toNat]?.join

/-- The reference names a slot of the heap, with or without a row. -/
def InHeap (hp : List HeapPage) (ref : RowRef) : Prop :=
  ∃ p ∈ hp, p.pid = ref.pageId ∧ ref.slotId.toNat < p.rows.length

section Contents

variable {A B : List HeapPage} {p : HeapPage} {ref : RowRef}

theorem heapMap_cut (hnodup : ((A ++ p :: B).map (·.pid)).Nodup) (ref : RowRef) :
    heapMap (A ++ p :: B) ref =
      if ref.pageId = p.pid then p.rows[ref.slotId.toNat]?.join else heapMap (A ++ B) ref := by
  unfold heapMap
  by_cases hp : ref.pageId = p.pid
  · have hA : A.find? (fun q => q.pid = ref.pageId) = none := by
      rw [List.find?_eq_none]
      intro q hq
      rw [hp]
      simpa using ne_of_nodup_map hnodup hq (List.mem_cons_self ..)
    rw [if_pos hp, List.find?_append, hA, List.find?_cons_of_pos (by simp [hp])]
    rfl
  · rw [if_neg hp, List.find?_append, List.find?_append,
      List.find?_cons_of_neg (by simpa using Ne.symm hp)]

/-- Changing one slot of one page changes the map at one reference. -/
theorem heapMap_set (hnodup : ((A ++ p :: B).map (·.pid)).Nodup)
    {rows : List (Option (List UInt8))} {free : List Nat} {r : Option (List UInt8)}
    (hpid : ref.pageId = p.pid) (hat : rows[ref.slotId.toNat]?.join = r)
    (hother : ∀ j, j ≠ ref.slotId.toNat → rows[j]?.join = p.rows[j]?.join) :
    heapMap (A ++ ⟨p.pid, rows, free⟩ :: B) = Function.update (heapMap (A ++ p :: B)) ref r := by
  have hnodup' : ((A ++ (⟨p.pid, rows, free⟩ : HeapPage) :: B).map (·.pid)).Nodup := by
    simpa using hnodup
  funext ref'
  rw [Function.update_apply, heapMap_cut hnodup', heapMap_cut hnodup]
  by_cases href : ref' = ref
  · rw [if_pos href, href, if_pos hpid, hat]
  · rw [if_neg href]
    by_cases hpid' : ref'.pageId = p.pid
    · have hslot : ref'.slotId.toNat ≠ ref.slotId.toNat := by
        intro he
        apply href
        cases ref
        cases ref'
        rw [RowRef.mk.injEq]
        exact ⟨hpid'.trans hpid.symm, UInt16.toNat_inj.mp he⟩
      rw [if_pos hpid', if_pos hpid', hother _ hslot]
    · rw [if_neg hpid', if_neg hpid']

theorem InHeap.of_grow {rows : List (Option (List UInt8))} {free : List Nat}
    (hlen : p.rows.length ≤ rows.length) (h : InHeap (A ++ p :: B) ref) :
    InHeap (A ++ ⟨p.pid, rows, free⟩ :: B) ref := by
  obtain ⟨q, hq, hpid, hslot⟩ := h
  simp only [List.mem_append, List.mem_cons] at hq
  rcases hq with hq | rfl | hq
  · exact ⟨q, by simp [hq], hpid, hslot⟩
  · exact ⟨⟨q.pid, rows, free⟩, by simp, hpid, Nat.lt_of_lt_of_le hslot hlen⟩
  · exact ⟨q, by simp [hq], hpid, hslot⟩

end Contents

/-! ## Choosing a page -/

/-- The last page takes another row when it has a free slot or room for a new one. -/
theorem tailFits_iff {ps rs : Nat} {pageSize : UInt32} {rowSize : UInt16} {pg : Page}
    {next : PageId} {rows : List (Option (List UInt8))} {free : List Nat}
    (hps : pageSize.toNat = ps) (hrs : rowSize.toNat = rs) (hroom : 16 + 8 + rs ≤ ps)
    (h : HeapIs ps rs pg next rows free) :
    tailFits pageSize (heapPageHeaderC.get pg 0) rowSize = true ↔
      free ≠ [] ∨ slotBase + (rows.length + 1) * 8 + (rows.length + 1) * rs ≤ ps := by
  obtain ⟨count, head, used, res, hget, hcount, hused, hfree⟩ := h.header
  have hfits := h.fits
  have hsmall := h.small
  have hsucc : (rows.length + 1) * rs = rows.length * rs + rs := Nat.succ_mul _ _
  unfold slotBase at hfits
  -- nothing is cut off in 16 bits
  have hfront : (slotsEnd count).toNat = 16 + rows.length * 8 := by
    unfold slotsEnd
    rw [hcount, slotC_size, UInt16.toNat_ofNat_of_lt' (by
      show slotBase + rows.length * 8 < 65536
      unfold slotBase
      omega)]
    rfl
  have hle : used.toUInt32 ≤ pageSize := by
    rw [UInt32.le_iff_toNat_le, UInt16.toNat_toUInt32, hused, hps]
    omega
  have hback : (pageSize - used.toUInt32).toUInt16.toNat = ps - rows.length * rs := by
    rw [UInt32.toNat_toUInt16, UInt32.toNat_sub_of_le _ _ hle, UInt16.toNat_toUInt32, hused, hps]
    omega
  have hneed : (UInt16.ofNat (slotC.size + rowSize.toNat)).toNat = 8 + rs := by
    rw [slotC_size, hrs, UInt16.toNat_ofNat_of_lt' (by show 8 + rs < 65536; omega)]
  unfold tailFits availableSpace
  simp only [hget, Bool.or_eq_true, decide_eq_true_eq, ne_eq, h.head_eq_none_iff hfree]
  apply or_congr_right
  rw [UInt16.le_iff_toNat_le, hneed]
  split
  next hno =>
    rw [UInt16.le_iff_toNat_le, hfront, hback] at hno
    rw [UInt16.toNat_zero]
    unfold slotBase
    omega
  next hroom' =>
    rw [UInt16.le_iff_toNat_le, hfront, hback] at hroom'
    rw [UInt16.toNat_sub_of_le _ _ (by rw [UInt16.le_iff_toNat_le, hfront, hback]; omega), hfront,
      hback]
    unfold slotBase
    omega

section Find

variable {db : Db} {rs : Nat} {tol : Fault → Prop}

/-- The loop finds the first page with a free slot, if there is one. -/
theorem findHeapPageLoop_spec (l : List HeapPage) {n : Nat} (hn : l.length < n)
    (hchain : HeapChain db.ps rs db.pages l 0) (h0 : ∀ p ∈ l, p.pid ≠ 0) :
    wpDb (findHeapPageLoop n (firstHeap l 0)) db (fun r db' => db' = db ∧
      (r = 0 ∧ (∀ p ∈ l, p.free = []) ∨ ∃ p ∈ l, p.pid = r ∧ p.free ≠ [])) tol := by
  induction l generalizing n with
  | nil =>
    obtain ⟨n, rfl⟩ := Nat.exists_eq_succ_of_ne_zero (Nat.ne_of_gt hn)
    exact ⟨rfl, Or.inl ⟨rfl, List.forall_mem_nil _⟩⟩
  | cons p l ih =>
    obtain ⟨n, rfl⟩ := Nat.exists_eq_succ_of_ne_zero (Nat.ne_of_gt (Nat.lt_of_le_of_lt
      (Nat.zero_le _) hn))
    obtain ⟨his, hrest⟩ := hchain
    obtain ⟨count, head, used, res, hget, -, -, hfree⟩ := his.header
    have hhead := his.head_eq_none_iff hfree
    have hp0 := h0 p (List.mem_cons_self ..)
    rw [firstHeap, findHeapPageLoop, if_neg hp0]
    simp only [wpDb_bind, wpDb_getPage_of hp0, wpDb_load, wpDb_unpin, wpDb_ite, hget]
    split
    next hne => exact ⟨rfl, Or.inr ⟨p, List.mem_cons_self .., rfl, fun hnil => hne (hhead.mpr hnil)⟩⟩
    next hnone =>
      have hfull : p.free = [] := hhead.mp (not_not.mp hnone)
      refine wpDb_mono (ih (Nat.lt_of_succ_lt_succ hn) hrest fun q hq =>
        h0 q (List.mem_cons_of_mem _ hq)) ?_
      rintro r db' ⟨rfl, ⟨hr, hall⟩ | ⟨q, hq, hqr, hqf⟩⟩
      · exact ⟨rfl, Or.inl ⟨hr, List.forall_mem_cons.mpr ⟨hfull, hall⟩⟩⟩
      · exact ⟨rfl, Or.inr ⟨q, List.mem_cons_of_mem _ hq, hqr, hqf⟩⟩

variable {hp : List HeapPage} {others : List PageId} {rowSize : UInt16}

/-- There are fewer heap pages than page ids. -/
theorem HeapShape.length_lt (h : HeapShape db rs hp others) : hp.length < maxPages := by
  have hlt := h.alloc.length_lt
  rw [List.length_append, List.length_map] at hlt
  unfold maxPages
  omega

/-- A page with `n` rows has room for one more. -/
def RoomFor (ps rs n : Nat) : Prop := slotBase + (n + 1) * 8 + (n + 1) * rs ≤ ps

/-- No page takes another row. -/
def Full (ps rs : Nat) (hp : List HeapPage) : Prop :=
  (∀ p ∈ hp, p.free = []) ∧ ∀ z ∈ hp.getLast?, ¬ RoomFor ps rs z.rows.length

/-- The page found has a free slot, or it is the last one and has room for another slot. -/
theorem findHeapPage_spec (h : HeapShape db rowSize.toNat hp others)
    (hdims : HeapDims db.fields.pageSize rowSize) :
    wpDb (findHeapPage rowSize) db (fun r db' => db' = db ∧
      (r = 0 ∧ Full db.ps rowSize.toNat hp ∨ r ≠ 0 ∧ ∃ A p B, hp = A ++ p :: B ∧ p.pid = r ∧
        (p.free ≠ [] ∨ B = [] ∧ RoomFor db.ps rowSize.toNat p.rows.length))) tol := by
  obtain ⟨A, z, rfl, hz⟩ := h.exists_last
  have hz0 : z.pid ≠ 0 := h.ne_zero (by simp)
  have his := h.pageIs
  have htail := tailFits_iff rfl rfl hdims.room his
  simp only [findHeapPage, wpDb_bind, wpDb_getFields, ← hz, ne_eq, hz0, not_false_eq_true,
    if_true, wpDb_getPage_of hz0, wpDb_load, wpDb_unpin, wpDb_ite]
  split
  next hfits =>
    have hplace := htail.mp hfits
    exact ⟨rfl, Or.inr ⟨hz0, A, z, [], rfl, rfl, hplace.imp_right fun hroom => ⟨rfl, hroom⟩⟩⟩
  next hfull =>
    have hfirst : db.fields.header.firstHeapPageId = firstHeap (A ++ [z]) 0 := h.first
    rw [hfirst]
    refine wpDb_mono (findHeapPageLoop_spec _ h.length_lt h.chain fun p hmem => h.ne_zero hmem) ?_
    rintro r db' ⟨rfl, ⟨hr, hall⟩ | ⟨p, hmem, rfl, hfree⟩⟩
    · refine ⟨rfl, Or.inl ⟨hr, hall, fun y hy hroom => hfull (htail.mpr (Or.inr ?_))⟩⟩
      rw [List.getLast?_concat] at hy
      rw [Option.some.inj hy]
      exact hroom
    · obtain ⟨A', B', hcut⟩ := List.append_of_mem hmem
      exact ⟨rfl, Or.inr ⟨h.ne_zero hmem, A', p, B', hcut, rfl, Or.inl hfree⟩⟩

end Find

/-! ## Insertion -/

/-- What an insertion does to the slots of the pages: a free slot is used again, the last page
    gets another slot, or a page with one slot is added because no page takes another row. -/
def Fills (ps rs : Nat) (hp hp' : List HeapPage) : Prop :=
  hp'.map (·.rows.length) = hp.map (·.rows.length) ∨
  (∃ A z z', hp = A ++ [z] ∧ hp' = A ++ [z']) ∨
  (∃ z' row, Full ps rs hp ∧ hp' = hp ++ [z'] ∧ z'.rows = [some row])

/-- The row `row` has been added to the heap at `ref`. -/
structure HeapInserted (db db' : Db) (rs : Nat) (hp hp' : List HeapPage) (others : List PageId)
    (ref : RowRef) (row : List UInt8) : Prop where
  step : HeapStep db db' rs hp' others
  vacant : heapMap hp ref = none
  map : heapMap hp' = Function.update (heapMap hp) ref (some row)
  inHeap : InHeap hp' ref
  grow : ∀ r, InHeap hp r → InHeap hp' r

section Insert

variable {db : Db} {hp A B : List HeapPage} {p : HeapPage} {others : List PageId}
  {row : List UInt8} {rowSize : UInt16}

/-- The chosen page takes the row, in its first free slot or in a new one. -/
theorem insertRow_spec (h : HeapShape db rowSize.toNat (A ++ p :: B) others)
    (hrow : row.length = rowSize.toNat)
    (hplace : p.free ≠ [] ∨ RoomFor db.ps rowSize.toNat p.rows.length) :
    wpDb (insertRow p.pid row rowSize) db fun ref db' => ∃ p',
      HeapInserted db db' rowSize.toNat (A ++ p :: B) (A ++ p' :: B) others ref row ∧
      (p.free ≠ [] ∧ p'.rows.length = p.rows.length ∨
        p.free = [] ∧ p'.rows = p.rows ++ [some row]) := by
  have his := h.pageIs
  have hnodup := h.nodup
  have hp0 : p.pid ≠ 0 := h.ne_zero (by simp)
  obtain ⟨count, head, used, res, hget, hcount, -, hfree⟩ := his.header
  have hhead := his.head_eq_none_iff hfree
  -- the free list of the page decides, as in the code
  simp only [insertRow, wpDb_bind, wpDb_getPageSize, wpDb_getPage_of hp0, wpDb_load, wpDb_ite]
  split
  next hne =>
    -- the first free slot is used again
    rw [hget] at hne
    have hne' : p.free ≠ [] := fun hnil => hne (hhead.mpr hnil)
    obtain ⟨i, l, hil⟩ := List.exists_cons_of_ne_nil hne'
    rw [hil] at his
    obtain ⟨hslot, pg', hreuse, his'⟩ := reuseSlot_spec his hrow
    have hi := his.free_lt (List.mem_cons_self ..)
    have hnone : p.rows[i]? = some none := (his.mem_free i).mp (List.mem_cons_self ..)
    simp only [wpDb_inBounds_some hreuse, wpDb_store, wpDb_markDirty, wpDb_unpin, wpDb_pure]
    refine ⟨_, ⟨h.setPage his', ?_, heapMap_set hnodup rfl ?_ fun j hj => ?_, ?_, fun r hr =>
      hr.of_grow (by rw [List.length_set])⟩, Or.inl ⟨hne', List.length_set ..⟩⟩
    · rw [heapMap_cut hnodup, if_pos rfl, hslot, hnone]
      rfl
    · rw [hslot, List.getElem?_set_self hi]
      rfl
    · rw [hslot] at hj
      rw [List.getElem?_set_ne hj.symm]
    · refine ⟨⟨p.pid, p.rows.set i (some row), l⟩, by simp, rfl, ?_⟩
      rw [hslot, List.length_set]
      exact hi
  next hnone =>
    -- a slot is added
    rw [hget, not_not, hhead] at hnone
    rw [hnone] at his
    have hroom := hplace.resolve_left fun hne => hne hnone
    obtain ⟨hslot, pg', hadd, his'⟩ := addSlot_spec rfl rfl his hrow hroom
    simp only [wpDb_inBounds_some hadd, wpDb_store, wpDb_markDirty, wpDb_unpin, wpDb_pure]
    refine ⟨_, ⟨h.setPage his', ?_, heapMap_set hnodup rfl ?_ fun j hj => ?_, ?_, fun r hr =>
      hr.of_grow (by simp)⟩, Or.inr ⟨hnone, rfl⟩⟩
    · rw [heapMap_cut hnodup, if_pos rfl, hslot, List.getElem?_eq_none (Nat.le_refl _)]
      rfl
    · rw [hslot]
      simp
    · rw [hslot] at hj
      rw [List.getElem?_append]
      split
      next => rfl
      next hge => rw [List.getElem?_eq_none (by simp; omega), List.getElem?_eq_none (by omega)]
    · refine ⟨⟨p.pid, p.rows ++ [some row], []⟩, by simp, rfl, ?_⟩
      rw [hslot]
      simp

/-- A new page without rows is linked behind the last one. -/
theorem growHeap_spec (h : HeapShape db rowSize.toNat hp others)
    (hdims : HeapDims db.fields.pageSize rowSize) :
    wpDb growHeap db fun pid db' =>
      pid ∉ hp.map (·.pid) ∧ HeapStep db db' rowSize.toNat (hp ++ [⟨pid, [], []⟩]) others := by
  have hroom : 16 + 8 + rowSize.toNat ≤ db.ps := hdims.room
  obtain ⟨A, z, rfl, hz⟩ := h.exists_last
  simp only [growHeap, wpDb_bind]
  refine wpDb_mono (pagerAllocPage_spec h.alloc (by omega) (IdsFor.exhausted _)) ?_
  rintro pid db₁ ⟨hpid, hpid0, halloc₁, hcore₁, hpages₁⟩
  have hps₁ : db₁.ps = db.ps := core_ps hcore₁
  have hne : ∀ q ∈ A ++ [z], q.pid ≠ pid := fun q hq he =>
    hpid (List.mem_append_left _ (he ▸ List.mem_map_of_mem hq))
  have hzero : db₁.pages pid = zeroPage db.fields.pageSize := by
    rw [hpages₁, Function.update_self]
  have hlen0 : (zeroPage db.fields.pageSize).length = db.ps := length_zeroPage _
  have hin : 0 + heapPageHeaderC.size ≤ (zeroPage db.fields.pageSize).length := by
    rw [hlen0, heapPageHeaderC_size]
    omega
  -- the header of the new page
  have hput := heapPageHeaderC.put?_eq_some (zeroPage db.fields.pageSize) 0 emptyHeapHeader hin
  have hempty : HeapIs db.ps rowSize.toNat
      (heapPageHeaderC.put (zeroPage db.fields.pageSize) 0 emptyHeapHeader) 0 [] [] :=
    HeapIs.empty ((heapPageHeaderC.length_put _ _ _ hin).trans hlen0) hdims.small (by omega)
      (heapPageHeaderC.get_put_same _ _ _ hin)
  have hlast₁ : db₁.fields.lastHeapPageId = z.pid := (core_lastHeap hcore₁).trans hz.symm
  have hz0 : z.pid ≠ 0 := h.ne_zero (by simp)
  have hzne : z.pid ≠ pid := hne z (by simp)
  simp only [wpDb_getPage, wpDb_load, hzero, wpDb_inBounds_some hput, wpDb_store, wpDb_markDirty,
    wpDb_unpin, wpDb_getFields, Db.setPage_fields, hlast₁, wpDb_ite]
  refine ⟨hpid0, ?_⟩
  rw [if_pos hz0]
  -- the link from the last page
  have hz₁ : (db₁.setPage pid (heapPageHeaderC.put (zeroPage db.fields.pageSize) 0
      emptyHeapHeader)).pages z.pid = db.pages z.pid := by
    rw [Db.setPage_pages_ne _ _ hzne, hpages₁, Function.update_of_ne hzne]
  obtain ⟨pg', hlink, hzis⟩ := h.pageIs.setNext pid
  simp only [wpDb_bind, wpDb_getPage_of hz0, wpDb_load, hz₁, wpDb_inBounds_some hlink, wpDb_store,
    wpDb_markDirty, wpDb_unpin, wpDb_getFields, wpDb_setFields, wpDb_pure]
  obtain ⟨hchainA, -, -⟩ := HeapChain.cut_iff.mp h.chain
  have hnodup := h.nodup
  have hA : ∀ a ∈ A, a.pid ≠ z.pid := fun a ha =>
    ne_of_nodup_map hnodup ha (List.mem_cons_self ..)
  refine ⟨fun hm => hpid (List.mem_append_left _ hm), ⟨?_, ?_, ?_, ?_⟩, ?_, fun q hq => ?_⟩
  · -- only the new page has come in
    have hperm : ((A ++ [z] ++ [(⟨pid, [], []⟩ : HeapPage)]).map (·.pid) ++ others).Perm
        (pid :: ((A ++ [z]).map (·.pid) ++ others)) := by
      rw [List.map_append, List.append_assoc, List.map_singleton, List.singleton_append]
      exact List.perm_middle
    refine Alloc.perm ?_ hperm
    refine Alloc.congr halloc₁ rfl rfl rfl fun q hq => ?_
    have hqz : q ≠ z.pid := fun he => hq (he ▸ by simp)
    have hqp : q ≠ pid := fun he => hq (he ▸ by simp)
    show ((db₁.setPage pid _).setPage z.pid pg').pages q = db₁.pages q
    rw [Db.setPage_pages_ne _ _ hqz, Db.setPage_pages_ne _ _ hqp]
  · -- the chain goes on from the old tail to the new page
    show HeapChain db₁.ps _ ((db₁.setPage pid _).setPage z.pid pg').pages _ 0
    rw [hps₁, List.append_assoc]
    refine HeapChain.cut_iff.mpr ⟨hchainA.congr fun a ha => ?_, ?_, ?_, trivial⟩
    · have hapid := hne a (List.mem_append_left _ ha)
      rw [Db.setPage_pages_ne _ _ (hA a ha), Db.setPage_pages_ne _ _ hapid, hpages₁,
        Function.update_of_ne hapid]
    · rw [Db.setPage_pages_same]
      exact hzis
    · rw [Db.setPage_pages_ne _ _ hzne.symm, Db.setPage_pages_same]
      exact hempty
  · show db₁.header.firstHeapPageId = _
    have hfirst : db₁.header.firstHeapPageId = db.header.firstHeapPageId :=
      congrArg (fun f => f.header.firstHeapPageId) hcore₁
    rw [hfirst, h.first]
    cases A <;> rfl
  · rw [List.getLast?_concat]
    rfl
  · have houtside := heapOutside_of_core hcore₁
    exact houtside
  · have hqz : q ≠ z.pid := (h.ne_others (by simp) hq).symm
    have hqp : q ≠ pid := fun he => hpid (List.mem_append_right _ (he ▸ hq))
    show ((db₁.setPage pid _).setPage z.pid pg').pages q = db.pages q
    rw [Db.setPage_pages_ne _ _ hqz, Db.setPage_pages_ne _ _ hqp, hpages₁,
      Function.update_of_ne hqp]

theorem heapMap_grow {pid : PageId} (hnew : pid ∉ hp.map (·.pid))
    (hnodup : ((hp ++ [(⟨pid, [], []⟩ : HeapPage)]).map (·.pid)).Nodup) :
    heapMap (hp ++ [⟨pid, [], []⟩]) = heapMap hp := by
  funext r
  rw [heapMap_cut hnodup, List.append_nil]
  split
  next hr =>
    have hmiss : hp.find? (fun p => p.pid = r.pageId) = none := by
      rw [List.find?_eq_none]
      intro p hmem
      rw [hr]
      intro he
      have hpid : p.pid = pid := of_decide_eq_true he
      exact hnew (hpid ▸ List.mem_map_of_mem hmem)
    unfold heapMap
    rw [hmiss]
    rfl
  next => rfl

/-- `heap_insert` stores the row at a reference that had none. -/
theorem heapInsert_spec (h : HeapShape db rowSize.toNat hp others)
    (hdims : HeapDims db.fields.pageSize rowSize) (hrow : row.length = rowSize.toNat) :
    wpDb (heapInsert row rowSize) db fun ref db' => ∃ hp',
      HeapInserted db db' rowSize.toNat hp hp' others ref row ∧
      Fills db.ps rowSize.toNat hp hp' := by
  rw [heapInsert, wpDb_bind]
  refine wpDb_mono (findHeapPage_spec h hdims) ?_
  rintro pid db' ⟨rfl, ⟨hzero, hfull⟩ | ⟨hne, A, p, B, rfl, rfl, hplace⟩⟩
  · -- every page is full
    rw [wpDb_ite, if_pos hzero, wpDb_bind]
    refine wpDb_mono (growHeap_spec h hdims) ?_
    rintro newPid db₁ ⟨hnew, hstep⟩
    have hroom : RoomFor db₁.ps rowSize.toNat ([] : List (Option (List UInt8))).length := by
      have := hdims.room
      rw [heapOutside_ps hstep.outside]
      simp only [RoomFor, slotBase, List.length_nil, Nat.zero_add, Nat.one_mul]
      exact this
    refine wpDb_mono (insertRow_spec hstep.shape hrow (Or.inr hroom)) ?_
    rintro ref db₂ ⟨p', hins, hcase⟩
    have hmap := heapMap_grow hnew hstep.shape.nodup
    have hrows : p'.rows = [some row] := by
      obtain ⟨hne, -⟩ | ⟨-, hrows⟩ := hcase
      · exact absurd rfl hne
      · exact hrows
    refine ⟨_, ⟨hstep.trans hins.step, hmap ▸ hins.vacant, hmap ▸ hins.map, hins.inHeap, fun r hr =>
      hins.grow r ?_⟩, Or.inr (Or.inr ⟨p', row, hfull, rfl, hrows⟩)⟩
    obtain ⟨p, hmem, hpr⟩ := hr
    exact ⟨p, List.mem_append_left _ hmem, hpr⟩
  · -- a page was found, with a free slot or room behind its slots
    rw [wpDb_ite, if_neg hne]
    refine wpDb_mono (insertRow_spec h hrow (hplace.imp_right And.right)) ?_
    rintro ref db₂ ⟨p', hins, hcase⟩
    refine ⟨_, hins, ?_⟩
    obtain ⟨-, hlen⟩ | ⟨hnil, -⟩ := hcase
    · left
      simp [hlen]
    · obtain ⟨rfl, -⟩ := hplace.resolve_left fun hne => hne hnil
      exact Or.inr (Or.inl ⟨A, p, p', rfl, rfl⟩)

end Insert

/-! ## Fetch and deletion -/

section Rows

variable {db : Db} {hp : List HeapPage} {others : List PageId} {rowSize : UInt16} {ref : RowRef}
  {tol : Fault → Prop}

/-- The page of a reference -/
theorem InHeap.cut (h : InHeap hp ref) :
    ∃ A p B, hp = A ++ p :: B ∧ p.pid = ref.pageId ∧ ref.slotId.toNat < p.rows.length := by
  obtain ⟨p, hmem, hpid, hslot⟩ := h
  obtain ⟨A, B, rfl⟩ := List.append_of_mem hmem
  exact ⟨A, p, B, rfl, hpid, hslot⟩

/-- `heap_fetch` with its caller gives the row, or nothing for a deleted one. -/
theorem fetchRow_spec (h : HeapShape db rowSize.toNat hp others) (hin : InHeap hp ref) :
    wpDb (fetchRow ref rowSize) db (fun r db' => db' = db ∧ r = heapMap hp ref) tol := by
  obtain ⟨A, p, B, rfl, hpid, hslot⟩ := hin.cut
  have his := h.pageIs
  have hp0 : p.pid ≠ 0 := h.ne_zero (by simp)
  have hmap := heapMap_cut h.nodup ref
  rw [if_pos hpid.symm] at hmap
  simp only [fetchRow, heapFetch, wpDb_bind, wpDb_getPage?_of hp0, if_true, wpDb_load, ← hpid,
    wpDb_inBounds_some (his.getAt? hslot), wpDb_ite]
  cases hrow : p.rows[ref.slotId.toNat]? with
  | none => exact absurd hslot (Nat.not_lt.mpr (List.getElem?_eq_none_iff.mp hrow))
  | some r =>
    rw [hrow] at hmap
    cases r with
    | none =>
      have hdead := his.not_alive hrow
      rw [if_pos hdead]
      simp only [wpDb_unpin, wpDb_pure]
      exact ⟨trivial, hmap.symm⟩
    | some row =>
      have halive := (his.alive _ row hrow).1
      rw [if_neg (not_not.mpr halive)]
      simp only [wpDb_pure, wpDb_bind, wpDb_load, wpDb_inBounds_some (his.readRow hrow).1,
        wpDb_unpin]
      exact ⟨trivial, hmap.symm⟩

/-- `heap_delete` frees the slot of a row and refuses a deleted one. -/
theorem heapDelete_spec (h : HeapShape db rowSize.toNat hp others) (hin : InHeap hp ref) :
    wpDb (heapDelete ref) db (fun r db' =>
      (heapMap hp ref = none ∧ r = -1 ∧ db' = db) ∨
      (heapMap hp ref ≠ none ∧ r = 0 ∧ ∃ hp', HeapStep db db' rowSize.toNat hp' others ∧
        heapMap hp' = Function.update (heapMap hp) ref none ∧
        (∀ r, InHeap hp r → InHeap hp' r) ∧
        hp'.map (·.rows.length) = hp.map (·.rows.length))) tol := by
  obtain ⟨A, p, B, rfl, hpid, hslot⟩ := hin.cut
  have his := h.pageIs
  have hp0 : p.pid ≠ 0 := h.ne_zero (by simp)
  have hnodup := h.nodup
  have hmap := heapMap_cut hnodup ref
  rw [if_pos hpid.symm] at hmap
  simp only [heapDelete, wpDb_bind, wpDb_getPage?_of hp0, if_true, wpDb_load, ← hpid,
    wpDb_inBounds_some (his.getAt? hslot), wpDb_ite]
  -- a slot of the page holds a row or none
  cases hrow : p.rows[ref.slotId.toNat]? with
  | none => exact absurd hslot (Nat.not_lt.mpr (List.getElem?_eq_none_iff.mp hrow))
  | some r =>
    rw [hrow] at hmap
    cases r with
    | none =>
      rw [if_pos (his.not_alive hrow)]
      simp only [wpDb_unpin, wpDb_pure]
      exact Or.inl ⟨hmap, trivial, trivial⟩
    | some row =>
      obtain ⟨pg₁, pg₂, hput, hhead, his'⟩ := freeSlot_spec his rfl hrow
      rw [if_neg (not_not.mpr (his.alive _ row hrow).1)]
      simp only [wpDb_inBounds_some hput, wpDb_inBounds_some hhead, wpDb_store, wpDb_markDirty,
        wpDb_unpin, wpDb_pure]
      refine Or.inr ⟨by rw [hmap]; simp, trivial, _, h.setPage his', heapMap_set hnodup hpid.symm ?_
        fun j hj => ?_, fun r hr => hr.of_grow (by rw [List.length_set]), by simp⟩
      · rw [List.getElem?_set_self hslot]
        rfl
      · rw [List.getElem?_set_ne hj.symm]

end Rows

/-! ## Scan -/

/-- The live rows of a page from slot `i` on -/
def liveFrom (pid : PageId) : Nat → List (Option (List UInt8)) → List (RowRef × List UInt8)
  | _, [] => []
  | i, none :: l => liveFrom pid (i + 1) l
  | i, some row :: l => (⟨pid, UInt16.ofNat i⟩, row) :: liveFrom pid (i + 1) l

/-- The live rows of the heap in the order of the chain and of the slots -/
def liveRows (hp : List HeapPage) : List (RowRef × List UInt8) :=
  hp.flatMap fun p => liveFrom p.pid 0 p.rows

/-- The callback on one row after the other until it answers `false` -/
def foldRows {γ : Type} (cb : List UInt8 → RowRef → γ → Bool × γ) :
    List (RowRef × List UInt8) → γ → Bool × γ
  | [], ctx => (true, ctx)
  | (ref, row) :: l, ctx =>
    let r := cb row ref ctx
    if r.1 then foldRows cb l r.2 else (false, r.2)

section Scan

variable {γ : Type} {cb : List UInt8 → RowRef → γ → Bool × γ} {db : Db} {tol : Fault → Prop}

theorem foldRows_append (l l' : List (RowRef × List UInt8)) (ctx : γ) :
    foldRows cb (l ++ l') ctx =
      if (foldRows cb l ctx).1 then foldRows cb l' (foldRows cb l ctx).2 else foldRows cb l ctx := by
  induction l generalizing ctx with
  | nil => rfl
  | cons a l ih =>
    obtain ⟨ref, row⟩ := a
    simp only [List.cons_append, foldRows]
    split
    next => exact ih _
    next => simp

/-- The loop over the slots of a page meets its live rows in order. -/
theorem scanSlots_spec {ps : Nat} {rowSize : UInt16} {pid : PageId} {pg : Page} {next : PageId}
    {done rows : List (Option (List UInt8))} {free : List Nat}
    (h : HeapIs ps rowSize.toNat pg next (done ++ rows) free) (ctx : γ) :
    wpDb (scanSlots cb rowSize pid pg rows.length done.length ctx) db
      (fun r db' => db' = db ∧ r = foldRows cb (liveFrom pid done.length rows) ctx) tol := by
  induction rows generalizing done ctx with
  | nil => exact ⟨rfl, rfl⟩
  | cons r rows ih =>
    have hcons : done ++ r :: rows = (done ++ [r]) ++ rows := by simp
    have hlen : (done ++ [r]).length = done.length + 1 := by simp
    have hat : (done ++ r :: rows)[done.length]? = some r := by simp
    have hslot := h.getAt? (HeapIs.lt_of_get hat)
    have hskip : HeapIs ps rowSize.toNat pg next ((done ++ [r]) ++ rows) free := hcons ▸ h
    have hrest := fun ctx => ih hskip ctx
    rw [hlen] at hrest
    simp only [List.length_cons, scanSlots, wpDb_bind, wpDb_inBounds_some hslot, wpDb_ite]
    cases r with
    | none =>
      rw [if_neg (h.not_alive hat)]
      exact hrest ctx
    | some row =>
      rw [if_pos (h.alive _ row hat).1]
      simp only [wpDb_inBounds_some (h.readRow hat).1, liveFrom, foldRows]
      split
      next => exact hrest _
      next => exact ⟨rfl, rfl⟩

theorem heapScanLoop_spec {rowSize : UInt16} (l : List HeapPage) {n : Nat} (hn : l.length < n)
    (hchain : HeapChain db.ps rowSize.toNat db.pages l 0) (h0 : ∀ p ∈ l, p.pid ≠ 0) (ctx : γ) :
    wpDb (heapScanLoop cb rowSize n (firstHeap l 0) ctx) db
      (fun r db' => db' = db ∧ r = (foldRows cb (liveRows l) ctx).2) tol := by
  -- along the chain of pages
  induction l generalizing n ctx with
  | nil =>
    obtain ⟨n, rfl⟩ := Nat.exists_eq_succ_of_ne_zero (Nat.ne_of_gt hn)
    exact ⟨rfl, rfl⟩
  | cons p l ih =>
    obtain ⟨n, rfl⟩ := Nat.exists_eq_succ_of_ne_zero (Nat.ne_of_gt (Nat.lt_of_le_of_lt
      (Nat.zero_le _) hn))
    obtain ⟨his, hrest⟩ := hchain
    obtain ⟨count, head, used, res, hget, hcount, -, -⟩ := his.header
    have hp0 := h0 p (List.mem_cons_self ..)
    rw [firstHeap, heapScanLoop, if_neg hp0]
    simp only [wpDb_bind, wpDb_getPage_of hp0, wpDb_load, hget, hcount, wpDb_unpin, wpDb_ite]
    have his₀ : HeapIs db.ps rowSize.toNat (db.pages p.pid) (firstHeap l 0) ([] ++ p.rows) p.free :=
      his
    refine wpDb_mono (scanSlots_spec his₀ ctx) ?_
    rintro r db' ⟨rfl, rfl⟩
    have hlive : liveRows (p :: l) = liveFrom p.pid 0 p.rows ++ liveRows l := rfl
    rw [hlive, foldRows_append]
    split
    next hgo =>
      rw [List.length_nil] at hgo
      rw [if_pos hgo]
      exact ih (Nat.lt_of_succ_lt_succ hn) hrest (fun q hq => h0 q (List.mem_cons_of_mem _ hq)) _
    -- the callback has asked to stop
    next hstop =>
      rw [List.length_nil] at hstop
      rw [if_neg hstop]
      exact ⟨rfl, rfl⟩

/-- `heap_scan` calls the callback on the live rows in order and changes nothing. -/
theorem heapScan_spec {hp : List HeapPage} {others : List PageId} {rowSize : UInt16}
    (h : HeapShape db rowSize.toNat hp others) (ctx : γ) :
    wpDb (heapScan cb rowSize ctx) db
      (fun r db' => db' = db ∧ r = (foldRows cb (liveRows hp) ctx).2) tol := by
  have hfirst : db.header.firstHeapPageId = firstHeap hp 0 := h.first
  simp only [heapScan, wpDb_bind, wpDb_getHeader, hfirst]
  exact heapScanLoop_spec hp h.length_lt h.chain (fun p hmem => h.ne_zero hmem) ctx

end Scan

/-! ## The live rows are the map -/

theorem mem_liveFrom {pid : PageId} {i : Nat} {rows : List (Option (List UInt8))} {ref : RowRef}
    {row : List UInt8} (hsmall : i + rows.length ≤ 65536) :
    (ref, row) ∈ liveFrom pid i rows ↔
      ref.pageId = pid ∧ i ≤ ref.slotId.toNat ∧ rows[ref.slotId.toNat - i]? = some (some row) := by
  induction rows generalizing i with
  | nil => simp [liveFrom]
  | cons r rows ih =>
    rw [List.length_cons] at hsmall
    have hrest := ih (i := i + 1) (by omega)
    have hstep : i < ref.slotId.toNat →
        (r :: rows)[ref.slotId.toNat - i]? = rows[ref.slotId.toNat - (i + 1)]? := by
      intro hlt
      rw [show ref.slotId.toNat - i = (ref.slotId.toNat - (i + 1)) + 1 by omega,
        List.getElem?_cons_succ]
    have htail : (ref, row) ∈ liveFrom pid (i + 1) rows ↔
        ref.pageId = pid ∧ i < ref.slotId.toNat ∧
          (r :: rows)[ref.slotId.toNat - i]? = some (some row) := by
      rw [hrest]
      refine and_congr_right fun _ => and_congr_right fun hlt => ?_
      rw [hstep hlt]
    cases r with
    | none =>
      rw [liveFrom, htail]
      refine and_congr_right fun _ => ⟨fun ⟨hlt, hr⟩ => ⟨Nat.le_of_lt hlt, hr⟩, fun ⟨hle, hr⟩ => ?_⟩
      rcases Nat.eq_or_lt_of_le hle with he | hlt
      · rw [he, Nat.sub_self] at hr
        exact nomatch hr
      · exact ⟨hlt, hr⟩
    | some row' =>
      rw [liveFrom, List.mem_cons, htail]
      have hslot : (UInt16.ofNat i).toNat = i := UInt16.toNat_ofNat_of_lt' (by
        show i < 65536
        omega)
      constructor
      · rintro (he | ⟨hpid, hlt, hr⟩)
        · obtain ⟨rfl, rfl⟩ := Prod.mk.inj he
          refine ⟨rfl, by rw [hslot], ?_⟩
          rw [hslot, Nat.sub_self]
          rfl
        · exact ⟨hpid, Nat.le_of_lt hlt, hr⟩
      · -- the reference names this slot or one behind it
        rintro ⟨hpid, hle, hr⟩
        rcases Nat.eq_or_lt_of_le hle with he | hlt
        · left
          rw [← he, Nat.sub_self] at hr
          have hrow : row' = row := Option.some.inj (Option.some.inj hr)
          cases ref
          rw [Prod.mk.injEq, RowRef.mk.injEq]
          refine ⟨⟨hpid, ?_⟩, hrow.symm⟩
          rw [← UInt16.toNat_inj, hslot, he]
        · exact Or.inr ⟨hpid, hlt, hr⟩

theorem liveFrom_nodup {pid : PageId} {i : Nat} {rows : List (Option (List UInt8))}
    (hsmall : i + rows.length ≤ 65536) : ((liveFrom pid i rows).map Prod.fst).Nodup := by
  induction rows generalizing i with
  | nil => exact List.nodup_nil
  | cons r rows ih =>
    rw [List.length_cons] at hsmall
    cases r with
    | none => exact ih (by omega)
    | some row =>
      rw [liveFrom, List.map_cons, List.nodup_cons]
      refine ⟨fun hmem => ?_, ih (by omega)⟩
      obtain ⟨⟨ref, row'⟩, hmem, href⟩ := List.mem_map.mp hmem
      have hlt := ((mem_liveFrom (by omega)).mp hmem).2.1
      dsimp only at href
      rw [href, UInt16.toNat_ofNat_of_lt' (by show i < 65536; omega)] at hlt
      omega

namespace HeapShape

variable {db : Db} {rs : Nat} {hp : List HeapPage} {others : List PageId}

theorem rows_small (h : HeapShape db rs hp others) {p : HeapPage} (hmem : p ∈ hp) :
    0 + p.rows.length ≤ 65536 := by
  obtain ⟨A, B, rfl⟩ := List.append_of_mem hmem
  have := h.pageIs.rows_length_lt
  omega

/-- The scan meets exactly the rows of the map. -/
theorem mem_liveRows (h : HeapShape db rs hp others) {ref : RowRef} {row : List UInt8} :
    (ref, row) ∈ liveRows hp ↔ heapMap hp ref = some row := by
  have hjoin : ∀ {x : Option (Option (List UInt8))}, x.join = some row ↔ x = some (some row) := by
    intro x
    rcases x with _ | _ | x <;> simp
  rw [liveRows, List.mem_flatMap]
  constructor
  · rintro ⟨p, hmem, hrow⟩
    obtain ⟨hpid, -, hr⟩ := (mem_liveFrom (h.rows_small hmem)).mp hrow
    obtain ⟨A, B, rfl⟩ := List.append_of_mem hmem
    rw [heapMap_cut h.nodup, if_pos hpid]
    exact hjoin.mpr hr
  · intro hmap
    unfold heapMap at hmap
    obtain ⟨p, hfind, hr⟩ := Option.bind_eq_some_iff.mp hmap
    have hmem := List.mem_of_find?_eq_some hfind
    have hpid : p.pid = ref.pageId := by simpa using List.find?_some hfind
    exact ⟨p, hmem, (mem_liveFrom (h.rows_small hmem)).mpr
      ⟨hpid.symm, Nat.zero_le _, hjoin.mp hr⟩⟩

/-- It meets every row once. -/
theorem liveRows_nodup (h : HeapShape db rs hp others) :
    ((liveRows hp).map Prod.fst).Nodup := by
  rw [liveRows, List.map_flatMap, List.nodup_flatMap]
  refine ⟨fun p hmem => liveFrom_nodup (h.rows_small hmem), ?_⟩
  refine (List.pairwise_map.mp h.nodup).imp_of_mem fun {p q} hp hq hne => ?_
  intro ref hrp hrq
  obtain ⟨⟨ref', row⟩, hmem, rfl⟩ := List.mem_map.mp hrp
  obtain ⟨⟨ref'', row'⟩, hmem', href⟩ := List.mem_map.mp hrq
  have h1 := ((mem_liveFrom (h.rows_small hp)).mp hmem).1
  have h2 := ((mem_liveFrom (h.rows_small hq)).mp hmem').1
  dsimp only at href
  exact hne (h1.symm.trans (href ▸ h2))

/-- A row more in the map is a row more for the scan. -/
theorem liveRows_perm {db' : Db} {hp' : List HeapPage} {others' : List PageId}
    (h : HeapShape db rs hp others) (h' : HeapShape db' rs hp' others') {ref : RowRef}
    {row : List UInt8} (hnone : heapMap hp ref = none)
    (hmap : heapMap hp' = Function.update (heapMap hp) ref (some row)) :
    (liveRows hp').Perm ((ref, row) :: liveRows hp) := by
  have hnodup := h.liveRows_nodup.of_map
  have hnodup' := h'.liveRows_nodup.of_map
  have hnew : (ref, row) ∉ liveRows hp := by
    rw [h.mem_liveRows, hnone]
    exact nofun
  rw [List.perm_ext_iff_of_nodup hnodup' (List.nodup_cons.mpr ⟨hnew, hnodup⟩)]
  rintro ⟨ref', row'⟩
  rw [h'.mem_liveRows, hmap, List.mem_cons, h.mem_liveRows, Function.update_apply, Prod.mk.injEq]
  split
  next heq =>
    rw [heq, hnone, Option.some.injEq]
    simp [eq_comm]
  next hne => simp [hne]

end HeapShape

/-- A reference with a row is a reference into the heap. -/
theorem InHeap.of_row {hp : List HeapPage} {ref : RowRef} {row : List UInt8}
    (h : heapMap hp ref = some row) : InHeap hp ref := by
  obtain ⟨p, hfind, hr⟩ := Option.bind_eq_some_iff.mp h
  have hpid : p.pid = ref.pageId := by simpa using List.find?_some hfind
  refine ⟨p, List.mem_of_find?_eq_some hfind, hpid, ?_⟩
  by_contra hge
  rw [List.getElem?_eq_none (Nat.le_of_not_lt hge)] at hr
  exact nomatch hr

end MiniDb
