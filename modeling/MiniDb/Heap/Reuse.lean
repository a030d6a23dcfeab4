import MiniDb.Heap.Runs

/-!
# Space reuse in the heap

An insertion asks the last page first and looks for a free slot elsewhere only when that page
is full, so a slot may be added while others are free.  The pages before the last one are
nevertheless full of slots, and a page is added only when every slot holds a row: the chain
never has more pages than the largest number of rows live at one time needs.

## Key results

- `roomFor_iff`: the capacity of a page in slots
- `liveCount_states`: the live rows of a state are those of the abstract map
- `HeapOp.step_packed`: every call keeps the pages packed
- `heapRun_packed`: free chains, slot counts and the number of pages after every run
-/

namespace MiniDb

open Chains Runs

/-! ## What the bytes say -/

/-- How many slots with their rows a page has room for -/
def heapCap (ps rs : Nat) : Nat := (ps - slotBase) / (rs + slotC.size)

/-- `next_free` of slot `i` -/
def nextFreeSlot (pg : Page) (i : UInt16) : UInt16 := (slotAt pg i.toNat).nextFree

/-- The slots met by following `next_free` from `free_slot_head` -/
def freeSlots (pg : Page) : List UInt16 :=
  follow (nextFreeSlot pg) slotNone 65536 (heapPageHeaderC.get pg 0).freeSlotHead

/-- The free chain of a page ends, and it meets the free slots, each once. -/
structure FreeChainOk (pg : Page) : Prop where
  ends : Visits (nextFreeSlot pg) slotNone (heapPageHeaderC.get pg 0).freeSlotHead (freeSlots pg)
  once : (freeSlots pg).Nodup
  exact : ∀ i, i ∈ freeSlots pg ↔ i.toNat < slotCount pg ∧ (slotAt pg i.toNat).status = slotFree

/-- How the heap uses its pages when at most `peak` rows have been live at one time -/
structure HeapPacked (rowSize : UInt16) (peak : Nat) (db : Db) : Prop where
  free : ∀ pid ∈ heapPages db, FreeChainOk (db.pages pid)
  full : ∀ pid ∈ (heapPages db).dropLast,
    slotCount (db.pages pid) = heapCap db.ps rowSize.toNat
  atMost : ∀ pid ∈ heapPages db, slotCount (db.pages pid) ≤ heapCap db.ps rowSize.toNat
  ends : Visits (nextHeap db) 0 db.header.firstHeapPageId (heapPages db)
  last : (heapPages db).getLast? = some db.fields.lastHeapPageId
  pages : (heapPages db).length ≤
    max 1 ((peak + heapCap db.ps rowSize.toNat - 1) / heapCap db.ps rowSize.toNat)

section Page

variable {ps rs n : Nat} {pg : Page} {next : PageId} {rows : List (Option (List UInt8))}
  {free : List Nat}

theorem roomFor_iff (h16 : slotBase ≤ ps) : RoomFor ps rs n ↔ n + 1 ≤ heapCap ps rs := by
  have hmul : (n + 1) * (rs + 8) = (n + 1) * rs + (n + 1) * 8 := Nat.mul_add ..
  rw [heapCap, slotC_size, Nat.le_div_iff_mul_le (Nat.succ_pos _), hmul, RoomFor]
  omega

theorem HeapDims.heapCap_pos {pageSize : UInt32} {rowSize : UInt16}
    (h : HeapDims pageSize rowSize) : 0 < heapCap pageSize.toNat rowSize.toNat := by
  have hroom := h.room
  have h16 : slotBase ≤ pageSize.toNat := by
    unfold slotBase
    omega
  apply (roomFor_iff h16).mp
  simp only [RoomFor, slotBase]
  omega

theorem HeapIs.length_le_heapCap (h : HeapIs ps rs pg next rows free) :
    rows.length ≤ heapCap ps rs := by
  have hfits := h.fits
  have hmul : rows.length * (rs + 8) = rows.length * rs + rows.length * 8 := Nat.mul_add ..
  rw [heapCap, slotC_size, Nat.le_div_iff_mul_le (Nat.succ_pos _), hmul]
  omega

theorem HeapIs.slotCount_eq (h : HeapIs ps rs pg next rows free) : slotCount pg = rows.length := by
  obtain ⟨count, head, used, res, hget, hcount, -, -⟩ := h.header
  rw [slotCount, hget]
  exact hcount

theorem HeapIs.freeChainOk (h : HeapIs ps rs pg next rows free) : FreeChainOk pg := by
  have hlt := h.rows_length_lt
  have hsmall : ∀ i ∈ free, (UInt16.ofNat i).toNat = i := fun i hi =>
    UInt16.toNat_ofNat_of_lt' (by
      have := h.free_lt hi
      show i < 65536
      omega)
  -- the chain of the bytes is the chain of the slots
  have hchain : ∀ {l : List Nat} {head : UInt16}, (∀ i ∈ l, i ∈ free) → FreeSlots pg head l →
      Visits (nextFreeSlot pg) slotNone head (l.map UInt16.ofNat) := by
    intro l
    induction l with
    | nil => exact fun _ hfree => hfree
    | cons i l ih =>
      intro head hsub hfree
      have hi := hsub i (List.mem_cons_self ..)
      refine ⟨hfree.1, fun hnone => ?_, ?_⟩
      · have hval := congrArg UInt16.toNat hnone
        have hfree_lt := h.free_lt hi
        have h65535 : slotNone.toNat = 65535 := rfl
        rw [hsmall i hi] at hval
        omega
      · rw [nextFreeSlot, hsmall i hi]
        exact ih (fun j hj => hsub j (List.mem_cons_of_mem _ hj)) hfree.2
  obtain ⟨count, head, used, res, hget, hcount, -, hfree⟩ := h.header
  have hvisits := hchain (fun i hi => hi) hfree
  have hlen : free.length ≤ rows.length := by
    have hsub := (List.subperm_of_subset h.free_nodup fun i hi =>
      List.mem_range.mpr (h.free_lt hi)).length_le
    rwa [List.length_range] at hsub
  have heq : freeSlots pg = free.map UInt16.ofNat := by
    rw [freeSlots, hget]
    apply hvisits.follow_eq
    rw [List.length_map]
    omega
  refine ⟨?_, ?_, fun i => ?_⟩
  · rw [heq, hget]
    exact hvisits
  · rw [heq]
    refine (List.nodup_map_iff_inj_on h.free_nodup).mpr fun i hi j hj hij => ?_
    rw [← hsmall i hi, ← hsmall j hj, hij]
  · rw [heq, h.slotCount_eq, List.mem_map]
    constructor
    · rintro ⟨j, hj, rfl⟩
      rw [hsmall j hj]
      exact ⟨h.free_lt hj, h.dead j ((h.mem_free j).mp hj)⟩
    · rintro ⟨hi, hstatus⟩
      refine ⟨i.toNat, (h.mem_free _).mpr ?_, UInt16.ofNat_toNat⟩
      rw [List.getElem?_eq_getElem hi]
      -- a slot with a row is alive
      cases hrow : rows[i.toNat] with
      | none => rfl
      | some row =>
        have halive := (h.alive i.toNat row (by rw [List.getElem?_eq_getElem hi, hrow])).1
        rw [halive] at hstatus
        exact absurd hstatus (by decide)

end Page

/-! ## Packed pages -/

/-- The pages but the last one have `cap` slots. -/
def Packed (cap : Nat) (hp : List HeapPage) : Prop :=
  ∀ n ∈ (hp.map (·.rows.length)).dropLast, n = cap

section Packed

variable {ps rs cap : Nat} {hp hp' : List HeapPage}

/-- Every slot of a full page holds a row. -/
theorem length_liveFrom {pid : PageId} {i : Nat} {rows : List (Option (List UInt8))}
    (h : none ∉ rows) : (liveFrom pid i rows).length = rows.length := by
  induction rows generalizing i with
  | nil => rfl
  | cons r rows ih =>
    obtain ⟨hr, hrows⟩ := not_or.mp (mt List.mem_cons.mpr h)
    cases r with
    | none => exact absurd rfl hr
    | some row =>
      rw [liveFrom, List.length_cons, ih hrows, List.length_cons]

/-- Packed pages without free slots hold `cap` rows each when the last one does. -/
theorem length_liveRows_of_full (hslots : ∀ p ∈ hp, p.rows.length = cap)
    (hlive : ∀ p ∈ hp, none ∉ p.rows) : (liveRows hp).length = hp.length * cap := by
  induction hp with
  | nil => rw [List.length_nil, Nat.zero_mul]; rfl
  | cons p hp ih =>
    have hrest := ih (fun q hq => hslots q (List.mem_cons_of_mem _ hq)) fun q hq =>
      hlive q (List.mem_cons_of_mem _ hq)
    have hp₁ : (liveFrom p.pid 0 p.rows).length = p.rows.length :=
      length_liveFrom (hlive p (List.mem_cons_self ..))
    rw [liveRows] at hrest ⊢
    rw [List.flatMap_cons, List.length_append, hp₁, hslots p (List.mem_cons_self ..), hrest,
      List.length_cons, Nat.succ_mul, Nat.add_comm]

variable {db : Db} {others : List PageId}

theorem HeapShape.length_rows_le (h : HeapShape db rs hp others) :
    ∀ p ∈ hp, p.rows.length ≤ heapCap db.ps rs := by
  intro p hmem
  obtain ⟨A, B, rfl⟩ := List.append_of_mem hmem
  exact h.pageIs.length_le_heapCap

/-- When no page takes another row, all pages are full of rows. -/
theorem Full.length_liveRows (hfull : Full db.ps rs hp) (h : HeapShape db rs hp others)
    (h16 : slotBase ≤ db.ps) (hpacked : Packed (heapCap db.ps rs) hp) :
    (∀ p ∈ hp, p.rows.length = heapCap db.ps rs) ∧
      (liveRows hp).length = hp.length * heapCap db.ps rs := by
  obtain ⟨hfree, hlast⟩ := hfull
  obtain ⟨A, z, rfl, -⟩ := h.exists_last
  have hslots : ∀ p ∈ A ++ [z], p.rows.length = heapCap db.ps rs := by
    intro p hmem
    rcases List.mem_append.mp hmem with hA | hz
    · apply hpacked
      rw [List.map_append, List.map_singleton, List.dropLast_concat]
      exact List.mem_map_of_mem hA
    · obtain rfl := List.mem_singleton.mp hz
      have hle := h.length_rows_le p hmem
      have hno := hlast p List.getLast?_concat
      rw [roomFor_iff h16] at hno
      omega
  refine ⟨hslots, length_liveRows_of_full hslots fun p hmem hnone => ?_⟩
  obtain ⟨i, hi⟩ := List.mem_iff_getElem?.mp hnone
  obtain ⟨B, C, hcut⟩ := List.append_of_mem hmem
  rw [hcut] at h
  have hmem_free := (h.pageIs.mem_free i).mpr hi
  rw [hfree p hmem] at hmem_free
  exact nomatch hmem_free

/-- A call keeps the pages packed; when it adds a page, all others are full of rows. -/
theorem Fills.packed (hfills : Fills db.ps rs hp hp') (h : HeapShape db rs hp others)
    (h16 : slotBase ≤ db.ps) (hpacked : Packed (heapCap db.ps rs) hp) :
    Packed (heapCap db.ps rs) hp' ∧
      (hp'.length = hp.length ∨
        hp'.length = hp.length + 1 ∧
          (liveRows hp').length = hp.length * heapCap db.ps rs + 1) := by
  rcases hfills with hlens | ⟨A, z, z', rfl, rfl⟩ | ⟨z', row, hfull, rfl, hrows⟩
  · refine ⟨?_, Or.inl ?_⟩
    · rw [Packed, hlens]
      exact hpacked
    · simpa using congrArg List.length hlens
  · refine ⟨?_, Or.inl (by simp)⟩
    rw [Packed, List.map_append, List.map_singleton, List.dropLast_concat] at hpacked ⊢
    exact hpacked
  · obtain ⟨hslots, hlive⟩ := hfull.length_liveRows h h16 hpacked
    refine ⟨?_, Or.inr ⟨by simp, ?_⟩⟩
    · rw [Packed, List.map_append, List.map_singleton, List.dropLast_concat]
      intro n hn
      obtain ⟨p, hmem, rfl⟩ := List.mem_map.mp hn
      exact hslots p hmem
    · rw [liveRows] at hlive ⊢
      rw [List.flatMap_append, List.length_append, hlive, List.flatMap_singleton, hrows]
      rfl

end Packed

/-! ## Runs -/

/-- How many rows are live -/
def liveCount (rowSize : UInt16) (s : HeapState) : Nat := (heapRows s.db rowSize).length

theorem HeapHolds.liveCount_eq {rowSize : UInt16} {m : RowRef → Option (List UInt8)}
    {s : HeapState} (h : HeapHolds rowSize m s) :
    {ref | m ref ≠ none}.Finite ∧ liveCount rowSize s = {ref | m ref ≠ none}.ncard := by
  have hrefs : {ref | m ref ≠ none} =
      (((heapRows s.db rowSize).map Prod.fst).toFinset : Set RowRef) := by
    ext ref
    rw [Set.mem_ofPred_eq, Finset.mem_coe, List.mem_toFinset, List.mem_map, Option.ne_none_iff_exists']
    constructor
    · intro hrow
      obtain ⟨row, hrow⟩ := hrow
      exact ⟨(ref, row), (h.rows ref row).mpr hrow, rfl⟩
    · intro hmem
      obtain ⟨entry, hmem, rfl⟩ := hmem
      exact ⟨entry.2, (h.rows entry.1 entry.2).mp hmem⟩
  rw [hrefs, Set.ncard_coe_finset, List.toFinset_card_of_nodup h.nodup, List.length_map]
  exact ⟨Finset.finite_toSet _, rfl⟩

/-- The rows counted in a state of a run are those of the map: the ones inserted so far and not
    deleted again. -/
theorem liveCount_states {pageSize : UInt32} {rowSize : UInt16} (hdims : HeapDims pageSize rowSize)
    {ops : List HeapOp}
    (hok : ∀ c ∈ calls (HeapOp.step rowSize) ops (HeapState.fresh pageSize), c.1.Ok rowSize c.2)
    {s : HeapState} (hs : s ∈ states (HeapOp.step rowSize) ops (HeapState.fresh pageSize)) :
    ∃ before after rs m, ops = before ++ after ∧
      runAll (HeapOp.step rowSize) before (HeapState.fresh pageSize) = .ok (rs, s) ∧
      SpecRun HeapOp.spec before (fun _ => none) rs m ∧
      {ref | m ref ≠ none}.Finite ∧ liveCount rowSize s = {ref | m ref ≠ none}.ncard := by
  have hstep : ∀ op m s, StoresRows rowSize [2] m s → HeapOp.Ok rowSize op s → ∀ r s',
      op.step rowSize s = .ok (r, s') → ∃ m', HeapOp.spec op m r m' ∧ StoresRows rowSize [2] m' s' :=
    fun op _ _ hrel hok => (HeapOp.step_spec op hrel hok).1
  obtain ⟨before, after, rs, m, hops, hrun, hspec, hstores⟩ :=
    states_spec hstep (fresh_storesRows hdims) hok hs
  exact ⟨before, after, rs, m, hops, hrun, hspec, hstores.holds.liveCount_eq⟩

/-- The heap is packed, and its pages but one would not have held the rows that were live at
    one time, in an earlier state (`peak`) or now. -/
structure PacksRows (rowSize : UInt16) (others : List PageId) (peak : Nat) (s : HeapState) :
    Prop where
  dims : HeapDims s.db.fields.pageSize rowSize
  heap : ∃ hp, HeapShape s.db rowSize.toNat hp others ∧ (∀ ref ∈ s.refs, InHeap hp ref) ∧
    Packed (heapCap s.db.ps rowSize.toNat) hp ∧
    (hp.length = 1 ∨
      (hp.length - 1) * heapCap s.db.ps rowSize.toNat < max peak (liveCount rowSize s))

section Step

variable {rowSize : UInt16} {others : List PageId} {P : Nat} {s : HeapState}

theorem HeapDims.slotBase_le {pageSize : UInt32} (h : HeapDims pageSize rowSize) :
    slotBase ≤ pageSize.toNat := by
  have := h.room
  unfold slotBase
  omega

theorem HeapOp.step_packed (op : HeapOp) (h : PacksRows rowSize others P s)
    (hok : op.Ok rowSize s ∧ liveCount rowSize s ≤ P) :
    (∀ r s', op.step rowSize s = .ok (r, s') → PacksRows rowSize others P s') ∧
    ∀ e, op.step rowSize s = .error e → e = .idsExhausted := by
  obtain ⟨hp, hshape, hrefs, hpacked, hpages⟩ := h.heap
  obtain ⟨hanswer, hfault⟩ := op.step_shape hshape h.dims hrefs hok.1
  refine ⟨fun r s' hout => ?_, hfault⟩
  obtain ⟨-, hp', hstep, -, hrefs', hfills⟩ := hanswer r s' hout
  obtain ⟨hpacked', hgrown⟩ := hfills.packed hshape h.dims.slotBase_le hpacked
  refine ⟨?_, hp', hstep.shape, hrefs', ?_, ?_⟩
  · rw [heapOutside_pageSize hstep.outside]
    exact h.dims
  · rw [heapOutside_ps hstep.outside]
    exact hpacked'
  · rw [heapOutside_ps hstep.outside, liveCount, hstep.shape.heapRows_eq]
    rw [Nat.max_eq_left hok.2] at hpages
    rcases hgrown with hlen | ⟨hlen, hlive⟩
    · rw [hlen]
      exact hpages.imp_right fun hlt => lt_max_of_lt_left hlt
    · right
      apply lt_max_of_lt_right
      rw [hlen, hlive]
      exact Nat.lt_succ_self _

theorem PacksRows.heapPacked (h : PacksRows rowSize others P s) (hP : liveCount rowSize s ≤ P) :
    HeapPacked rowSize P s.db := by
  obtain ⟨hp, hshape, -, hpacked, hpages⟩ := h.heap
  -- the slots of a page are the rows of the abstract one, with and without content
  have hcount : ∀ p ∈ hp, slotCount (s.db.pages p.pid) = p.rows.length := by
    intro p hmem
    obtain ⟨A, B, rfl⟩ := List.append_of_mem hmem
    exact hshape.pageIs.slotCount_eq
  have heq := hshape.heapPages_eq
  have hcap : 0 < heapCap s.db.ps rowSize.toNat := h.dims.heapCap_pos
  refine ⟨fun pid hpid => ?_, fun pid hpid => ?_, fun pid hpid => ?_, ?_, ?_, ?_⟩
  · rw [heq] at hpid
    obtain ⟨p, hmem, rfl⟩ := List.mem_map.mp hpid
    obtain ⟨A, B, rfl⟩ := List.append_of_mem hmem
    exact hshape.pageIs.freeChainOk
  · -- a page before the last was full when the next one was added
    obtain ⟨A, z, rfl, -⟩ := hshape.exists_last
    rw [heq, List.map_append, List.map_singleton, List.dropLast_concat] at hpid
    obtain ⟨p, hmem, rfl⟩ := List.mem_map.mp hpid
    rw [hcount p (List.mem_append_left _ hmem)]
    apply hpacked
    rw [List.map_append, List.map_singleton, List.dropLast_concat]
    exact List.mem_map_of_mem hmem
  · rw [heq] at hpid
    obtain ⟨p, hmem, rfl⟩ := List.mem_map.mp hpid
    rw [hcount p hmem]
    exact hshape.length_rows_le p hmem
  · rw [heq]
    exact hshape.visits
  · rw [heq, List.getLast?_map]
    exact hshape.last
  · rw [heq, List.length_map]
    rw [Nat.max_eq_left hP] at hpages
    -- one page, or all but the last are full of slots that have held a row
    rcases hpages with hone | hlt
    · exact hone ▸ Nat.le_max_left ..
    · apply le_max_of_le_right
      rw [Nat.le_div_iff_mul_le hcap]
      obtain ⟨n, hn⟩ := Nat.exists_eq_succ_of_ne_zero (show hp.length ≠ 0 by
        rintro hzero
        obtain ⟨A, z, rfl, -⟩ := hshape.exists_last
        simp at hzero)
      rw [hn] at hlt ⊢
      rw [Nat.succ_sub_one] at hlt
      rw [Nat.succ_mul]
      omega

end Step

theorem fresh_packsRows {pageSize : UInt32} {rowSize : UInt16} (hdims : HeapDims pageSize rowSize)
    (P : Nat) : PacksRows rowSize [2] P (HeapState.fresh pageSize) :=
  ⟨hdims, _, fresh_heapShape hdims, by simp [HeapState.fresh], by simp [Packed], Or.inl rfl⟩

/-- After every run from the empty heap the free slots of each page are chained, all pages but
    the last one have as many slots as fit, and the pages are no more than the peak number of
    live rows needs; the run can only fail for want of page ids. -/
theorem heapRun_packed {pageSize : UInt32} {rowSize : UInt16} (hdims : HeapDims pageSize rowSize)
    {ops : List HeapOp}
    (hok : ∀ c ∈ calls (HeapOp.step rowSize) ops (HeapState.fresh pageSize), c.1.Ok rowSize c.2) :
    (∀ rs s, runAll (HeapOp.step rowSize) ops (HeapState.fresh pageSize) = .ok (rs, s) →
      HeapPacked rowSize
        (peak (HeapOp.step rowSize) (liveCount rowSize) ops (HeapState.fresh pageSize)) s.db) ∧
    ∀ e, runAll (HeapOp.step rowSize) ops (HeapState.fresh pageSize) = .error e →
      e = .idsExhausted := by
  have hrun := runAll_inv (fun op _ hpacks hok => HeapOp.step_packed op hpacks hok)
    (fresh_packsRows hdims _) fun c hc => ⟨hok c hc, le_peak (mem_states_of_mem_calls hc)⟩
  refine ⟨fun rs s hout => ?_, hrun.2⟩
  exact (hrun.1 rs s hout).heapPacked (le_peak (mem_states_of_runAll hout))

theorem heapRun_packed_48 :
    (∀ rs s, runAll (HeapOp.step 4) reuseSlotRun (HeapState.fresh 48) = .ok (rs, s) →
      HeapPacked 4 (peak (HeapOp.step 4) (liveCount 4) reuseSlotRun (HeapState.fresh 48)) s.db) ∧
    ∀ e, runAll (HeapOp.step 4) reuseSlotRun (HeapState.fresh 48) = .error e →
      e = .idsExhausted :=
  heapRun_packed ⟨by decide, by decide⟩ (by decide +kernel)

end MiniDb
