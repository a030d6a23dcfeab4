import MiniDb.Pager.Logic
import MiniDb.Heap.Code

/-!
# One heap page

Slot `i` names the row of `rowSize` bytes that ends `i * rowSize` bytes before the end of the
page.  `HeapIs` says which rows a page holds and in which order its free slots are chained.

## Key results

- `rowOff_disjoint`, `rowOff_bounds`: rows and slots never meet
- `reuseSlot_spec`, `addSlot_spec`, `freeSlot_spec`: what insertion and deletion do to a page
-/

namespace MiniDb

open Bytes

/-- The sizes the heap code is made for: offsets fit 16 bits, and an empty page has room for
    a row. -/
structure HeapDims (pageSize : UInt32) (rowSize : UInt16) : Prop where
  small : pageSize.toNat < 65536
  room : 16 + 8 + rowSize.toNat ≤ pageSize.toNat

/-! ## Where the rows are -/

/-- The offset of row `i` -/
def rowOff (ps rs i : Nat) : Nat := ps - (i + 1) * rs

section Offsets

variable {ps rs n i j : Nat}

/-- Rows lie behind the slots and end with the page. -/
theorem rowOff_bounds (hfits : slotBase + n * 8 + n * rs ≤ ps) (hi : i < n) :
    slotBase + n * 8 ≤ rowOff ps rs i ∧ rowOff ps rs i + rs ≤ ps := by
  have h1 : (i + 1) * rs ≤ n * rs := Nat.mul_le_mul_right rs hi
  have h2 : (i + 1) * rs = i * rs + rs := Nat.succ_mul i rs
  unfold rowOff
  omega

theorem rowOff_disjoint (hfits : slotBase + n * 8 + n * rs ≤ ps) (hi : i < n) (hj : j < n)
    (hij : i ≠ j) :
    rowOff ps rs i + rs ≤ rowOff ps rs j ∨ rowOff ps rs j + rs ≤ rowOff ps rs i := by
  have hi1 : (i + 1) * rs ≤ n * rs := Nat.mul_le_mul_right rs hi
  have hj1 : (j + 1) * rs ≤ n * rs := Nat.mul_le_mul_right rs hj
  unfold rowOff
  rcases Nat.lt_or_gt_of_ne hij with hlt | hgt
  · right
    have : (i + 1 + 1) * rs ≤ (j + 1) * rs := Nat.mul_le_mul_right rs (by omega)
    rw [Nat.succ_mul (i + 1)] at this
    omega
  · left
    have : (j + 1 + 1) * rs ≤ (i + 1) * rs := Nat.mul_le_mul_right rs (by omega)
    rw [Nat.succ_mul (j + 1)] at this
    omega

end Offsets

/-! ## The three kinds of writes -/

/-- Slot `i` of a page -/
def slotAt (pg : Page) (i : Nat) : Slot := slotC.getAt slotBase pg i

/-- The bytes of row `i` -/
def rowAt (ps rs : Nat) (pg : Page) (i : Nat) : List UInt8 := slice pg (rowOff ps rs i) rs

section Writes

variable {pg : Page} {ps rs n i : Nat}

/-- Copying a row leaves the header, the slots and the other rows alone. -/
theorem copyIn_view {row : List UInt8} (hlen : pg.length = ps)
    (hfits : slotBase + n * 8 + n * rs ≤ ps) (hi : i < n) (hrow : row.length = rs) :
    ∃ pg', copyIn pg (rowOff ps rs i) row = some pg' ∧ pg'.length = ps ∧
      heapPageHeaderC.get pg' 0 = heapPageHeaderC.get pg 0 ∧
      (∀ j < n, slotAt pg' j = slotAt pg j) ∧
      ∀ j < n, rowAt ps rs pg' j = if j = i then row else rowAt ps rs pg j := by
  obtain ⟨hlo, hhi⟩ := rowOff_bounds hfits hi
  have hin : rowOff ps rs i + row.length ≤ pg.length := by rw [hrow, hlen]; exact hhi
  unfold slotBase at hlo
  -- the rows lie behind the slots, so the copy is apart from header and slots
  refine ⟨_, if_pos hin, (length_splice pg _ row hin).trans hlen, ?_, fun j hj => ?_, fun j hj => ?_⟩
  · apply congrArg heapPageHeaderC.dec
    apply slice_splice_disj pg _ row _ _ hin
    left
    rw [heapPageHeaderC_size]
    omega
  · apply congrArg slotC.dec
    apply slice_splice_disj pg _ row _ _ hin
    left
    rw [slotC_size]
    unfold slotBase
    omega
  · unfold rowAt
    by_cases hji : j = i
    · rw [if_pos hji, hji]
      subst hrow
      exact slice_splice_same pg _ row hin
    · rw [if_neg hji]
      apply slice_splice_disj pg _ row _ _ hin
      rw [hrow]
      exact rowOff_disjoint hfits hj hi hji

/-- Writing a slot leaves the header, the other slots and the rows alone. -/
theorem putSlot_view (s : Slot) (hlen : pg.length = ps) (hfits : slotBase + n * 8 + n * rs ≤ ps)
    (hi : i < n) :
    ∃ pg', slotC.putAt? slotBase pg i s = some pg' ∧ pg'.length = ps ∧
      heapPageHeaderC.get pg' 0 = heapPageHeaderC.get pg 0 ∧
      (∀ j, slotAt pg' j = if j = i then s else slotAt pg j) ∧
      ∀ j < n, rowAt ps rs pg' j = rowAt ps rs pg j := by
  have hslots : slotBase + n * slotC.size ≤ pg.length := by
    rw [hlen, slotC_size]
    omega
  have hin := slotC.record_bound hi hslots
  refine ⟨_, slotC.put?_eq_some pg _ s hin, (slotC.length_putAt s hi hslots).trans hlen, ?_, fun j => ?_,
    fun j hj => ?_⟩
  · exact slotC.get_putAt_before heapPageHeaderC s hi hslots (Nat.le_refl _)
  · exact slotC.getAt_putAt j s hi hslots
  · obtain ⟨hlo, -⟩ := rowOff_bounds hfits hj
    apply Codec.slice_put_disj slotC pg _ _ _ s hin
    right
    rw [slotC_size]
    omega

/-- Writing the header leaves the slots and the rows alone. -/
theorem putHeader_view (h : HeapPageHeader) (hlen : pg.length = ps)
    (hfits : slotBase + n * 8 + n * rs ≤ ps) :
    ∃ pg', heapPageHeaderC.put? pg 0 h = some pg' ∧ pg'.length = ps ∧
      heapPageHeaderC.get pg' 0 = h ∧ (∀ j, slotAt pg' j = slotAt pg j) ∧
      ∀ j < n, rowAt ps rs pg' j = rowAt ps rs pg j := by
  have hin : 0 + heapPageHeaderC.size ≤ pg.length := by
    rw [hlen, heapPageHeaderC_size]
    unfold slotBase at hfits
    omega
  refine ⟨_, heapPageHeaderC.put?_eq_some pg 0 h hin, (heapPageHeaderC.length_put pg 0 h hin).trans hlen,
    heapPageHeaderC.get_put_same pg 0 h hin, fun j => ?_, fun j hj => ?_⟩
  · apply slotC.getAt_put_before heapPageHeaderC j h
    · rw [hlen]
      omega
    · rw [heapPageHeaderC_size]
      rfl
  · obtain ⟨hlo, -⟩ := rowOff_bounds hfits hj
    apply Codec.slice_put_disj heapPageHeaderC pg _ _ _ h hin
    right
    rw [heapPageHeaderC_size]
    unfold slotBase at hlo
    omega

end Writes

/-! ## The rows of a page -/

/-- The free slots chained from `head` -/
def FreeSlots (pg : Page) : UInt16 → List Nat → Prop
  | head, [] => head = slotNone
  | head, i :: l => head = UInt16.ofNat i ∧ FreeSlots pg (slotAt pg i).nextFree l

theorem FreeSlots.congr {pg pg' : Page} {head : UInt16} {free : List Nat}
    (h : FreeSlots pg head free) (hs : ∀ i ∈ free, slotAt pg' i = slotAt pg i) :
    FreeSlots pg' head free := by
  induction free generalizing head with
  | nil => exact h
  | cons i l ih =>
    refine ⟨h.1, ?_⟩
    rw [hs i (List.mem_cons_self ..)]
    exact ih h.2 fun j hj => hs j (List.mem_cons_of_mem _ hj)

/-- The page holds `rows`, a row or nothing for every slot, and chains the slots without a
    row in the order `free`. -/
structure HeapIs (ps rs : Nat) (pg : Page) (next : PageId) (rows : List (Option (List UInt8)))
    (free : List Nat) : Prop where
  length : pg.length = ps
  small : ps < 65536
  fits : slotBase + rows.length * 8 + rows.length * rs ≤ ps
  header : ∃ count head used res,
    heapPageHeaderC.get pg 0 = ⟨PageType.heap.code, next, count, head, used, res⟩ ∧
      count.toNat = rows.length ∧ used.toNat = rows.length * rs ∧ FreeSlots pg head free
  offset : ∀ i < rows.length, (slotAt pg i).offset.toNat = rowOff ps rs i
  alive : ∀ i row, rows[i]? = some (some row) →
    (slotAt pg i).status = slotAlive ∧ rowAt ps rs pg i = row
  dead : ∀ i, rows[i]? = some none → (slotAt pg i).status = slotFree
  free_nodup : free.Nodup
  mem_free : ∀ i, i ∈ free ↔ rows[i]? = some none

namespace HeapIs

variable {ps rs : Nat} {pg : Page} {next : PageId} {rows : List (Option (List UInt8))}
  {free : List Nat}

theorem rows_length_lt (h : HeapIs ps rs pg next rows free) : rows.length < 8192 := by
  have h1 := h.fits
  have h2 := h.small
  unfold slotBase at h1
  omega

theorem lt_of_get {i : Nat} {r : Option (List UInt8)} (hi : rows[i]? = some r) :
    i < rows.length := (List.getElem?_eq_some_iff.mp hi).1

theorem free_lt (h : HeapIs ps rs pg next rows free) {i : Nat} (hi : i ∈ free) :
    i < rows.length := lt_of_get ((h.mem_free i).mp hi)

theorem not_alive (h : HeapIs ps rs pg next rows free) {i : Nat} (hi : rows[i]? = some none) :
    (slotAt pg i).status ≠ slotAlive := by
  rw [h.dead i hi]
  decide

/-- A slot can be read. -/
theorem getAt? (h : HeapIs ps rs pg next rows free) {i : Nat} (hi : i < rows.length) :
    slotC.getAt? slotBase pg i = some (slotAt pg i) := by
  apply slotC.get?_eq_some
  apply slotC.record_bound hi
  have := h.fits
  rw [h.length, slotC_size]
  omega

/-- A row can be read, and it has the right length. -/
theorem readRow (h : HeapIs ps rs pg next rows free) {i : Nat} {row : List UInt8}
    (hi : rows[i]? = some (some row)) :
    MiniDb.readRow pg (slotAt pg i).offset.toNat rs = some row ∧ row.length = rs := by
  have hlt := lt_of_get hi
  obtain ⟨-, hin⟩ := rowOff_bounds h.fits hlt
  have hrow : rowAt ps rs pg i = row := (h.alive i row hi).2
  rw [← h.length] at hin
  constructor
  · rw [h.offset i hlt, MiniDb.readRow, slice?, h.length, if_pos (by rw [← h.length]; exact hin),
      ← hrow]
    rfl
  · rw [← hrow, rowAt, h.length] at *
    exact length_slice pg _ rs (by rw [h.length]; exact hin)

theorem pageType (h : HeapIs ps rs pg next rows free) :
    MiniDb.pageType pg = PageType.heap.code := by
  obtain ⟨count, head, used, res, hget, -⟩ := h.header
  rw [heapPageHeaderC_get] at hget
  exact congrArg HeapPageHeader.pageType hget

/-- The head of the chain tells whether there is a free slot. -/
theorem head_eq_none_iff (h : HeapIs ps rs pg next rows free) {head : UInt16}
    (hfree : FreeSlots pg head free) : head = slotNone ↔ free = [] := by
  cases free with
  | nil => exact ⟨fun _ => rfl, fun _ => hfree⟩
  | cons i l =>
    refine ⟨fun hnone => ?_, fun hnil => nomatch hnil⟩
    -- slot ids are far below the mark 0xFFFF
    have hi := h.free_lt (List.mem_cons_self ..)
    have hlt := h.rows_length_lt
    have hval := congrArg UInt16.toNat (hfree.1.symm.trans hnone)
    rw [UInt16.toNat_ofNat_of_lt' (by show i < 65536; omega)] at hval
    have h65535 : slotNone.toNat = 65535 := rfl
    omega

end HeapIs

section PageOps

variable {ps rs : Nat} {pg : Page} {next : PageId} {rows : List (Option (List UInt8))}
  {free : List Nat}

/-- The first page of the heap, and every new one -/
theorem HeapIs.empty {pg : Page} (hlen : pg.length = ps) (hsmall : ps < 65536) (h16 : 16 ≤ ps)
    (hget : heapPageHeaderC.get pg 0 = emptyHeapHeader) : HeapIs ps rs pg 0 [] [] where
  length := hlen
  small := hsmall
  fits := by
    unfold slotBase
    simpa using h16
  header := ⟨0, slotNone, 0, 0, hget, rfl, by simp, rfl⟩
  offset := by simp
  alive := by simp
  dead := by simp
  free_nodup := List.nodup_nil
  mem_free := by simp

/-- Linking another page leaves the rows alone. -/
theorem HeapIs.setNext (h : HeapIs ps rs pg next rows free) (next' : PageId) :
    ∃ pg', heapPageHeaderC.put? pg 0
        { heapPageHeaderC.get pg 0 with nextHeapPageId := next' } = some pg' ∧
      HeapIs ps rs pg' next' rows free := by
  obtain ⟨count, head, used, res, hget, hcount, hused, hfree⟩ := h.header
  obtain ⟨pg', hput, hlen', hget', hslots, hrows⟩ := putHeader_view
    { heapPageHeaderC.get pg 0 with nextHeapPageId := next' } h.length h.fits
  refine ⟨pg', hput, hlen', h.small, h.fits, ⟨count, head, used, res, ?_, hcount, hused, ?_⟩, ?_, ?_, ?_,
    h.free_nodup, h.mem_free⟩
  · rw [hget', hget]
  · exact hfree.congr fun i _ => hslots i
  · intro i hi
    rw [hslots, h.offset i hi]
  · intro i row hi
    rw [hslots, hrows i (HeapIs.lt_of_get hi)]
    exact h.alive i row hi
  · intro i hi
    rw [hslots]
    exact h.dead i hi

/-- The row goes into the first free slot. -/
theorem reuseSlot_spec {i : Nat} (h : HeapIs ps rs pg next rows (i :: free)) {row : List UInt8}
    (hrow : row.length = rs) :
    (heapPageHeaderC.get pg 0).freeSlotHead.toNat = i ∧
      ∃ pg', reuseSlot pg (heapPageHeaderC.get pg 0) row = some pg' ∧
        HeapIs ps rs pg' next (rows.set i (some row)) free := by
  obtain ⟨count, head, used, res, hget, hcount, hused, hhead, hfree⟩ := h.header
  have hi : i < rows.length := h.free_lt (List.mem_cons_self ..)
  have hlt := h.rows_length_lt
  have hheadi : head.toNat = i := by
    rw [hhead]
    exact UInt16.toNat_ofNat_of_lt' (by show i < 65536; omega)
  obtain ⟨hi_free, hnodup⟩ := List.nodup_cons.mp h.free_nodup
  -- the three writes one after the other
  obtain ⟨pg₁, hcopy, hlen₁, hget₁, hslots₁, hrows₁⟩ := copyIn_view h.length h.fits hi hrow
  obtain ⟨pg₂, hput₂, hlen₂, hget₂, hslots₂, hrows₂⟩ := putSlot_view
    { slotAt pg i with status := slotAlive, nextFree := slotNone } hlen₁ h.fits hi
  obtain ⟨pg₃, hput₃, hlen₃, hget₃, hslots₃, hrows₃⟩ := putHeader_view
    ⟨PageType.heap.code, next, count, (slotAt pg i).nextFree, used, res⟩ hlen₂ h.fits
  have hslots : ∀ j < rows.length, slotAt pg₃ j =
      if j = i then { slotAt pg i with status := slotAlive, nextFree := slotNone }
      else slotAt pg j := by
    intro j hj
    rw [hslots₃, hslots₂, hslots₁ j hj]
  have hrows : ∀ j < rows.length, rowAt ps rs pg₃ j = if j = i then row else rowAt ps rs pg j := by
    intro j hj
    rw [hrows₃ j hj, hrows₂ j hj, hrows₁ j hj]
  refine ⟨by rw [hget]; exact hheadi, pg₃, ?_, hlen₃, h.small, by rw [List.length_set]; exact h.fits,
    ⟨count, (slotAt pg i).nextFree, used, res, hget₃, by rw [List.length_set]; exact hcount,
      by rw [List.length_set]; exact hused, ?_⟩, ?_, ?_, ?_, hnodup, ?_⟩
  · unfold reuseSlot
    simp only [hget, hheadi, h.getAt? hi, h.offset i hi, hcopy, hput₂, hput₃, Option.bind_eq_bind,
      Option.bind_some]
  · -- the chain goes on behind the slot; its links are in other slots
    refine hfree.congr fun j hj => ?_
    have hji : j ≠ i := fun he => hi_free (he ▸ hj)
    rw [hslots j (h.free_lt (List.mem_cons_of_mem _ hj)), if_neg hji]
  · intro j hj
    rw [List.length_set] at hj
    rw [hslots j hj]
    split
    next hji => rw [hji]; exact h.offset i hi
    next => exact h.offset j hj
  · -- a slot with a row is the one just filled, or had its row before
    intro j r hj
    have hjlt : j < rows.length := by simpa using HeapIs.lt_of_get hj
    rw [hslots j hjlt, hrows j hjlt]
    rw [List.getElem?_set] at hj
    by_cases hji : i = j
    · rw [if_pos hji, if_pos (hji ▸ hi)] at hj
      rw [if_pos hji.symm, if_pos hji.symm]
      exact ⟨rfl, Option.some.inj (Option.some.inj hj)⟩
    · rw [if_neg hji] at hj
      rw [if_neg (Ne.symm hji), if_neg (Ne.symm hji)]
      exact h.alive j r hj
  · -- the slots without a row lose this one
    intro j hj
    have hjlt : j < rows.length := by simpa using HeapIs.lt_of_get hj
    rw [List.getElem?_set] at hj
    by_cases hji : i = j
    · rw [if_pos hji, if_pos (hji ▸ hi)] at hj
      exact nomatch Option.some.inj hj
    · rw [if_neg hji] at hj
      rw [hslots j hjlt, if_neg (Ne.symm hji)]
      exact h.dead j hj
  · intro j
    rw [List.getElem?_set]
    have hmem := h.mem_free j
    rw [List.mem_cons] at hmem
    by_cases hji : i = j
    · rw [if_pos hji, if_pos (hji ▸ hi)]
      constructor
      · intro hj
        exact absurd (hji ▸ hj) hi_free
      · intro hj
        exact nomatch Option.some.inj hj
    · rw [if_neg hji, ← hmem]
      constructor
      · exact Or.inr
      · exact fun hj => hj.resolve_left fun he => hji he.symm

/-- The row goes into a new slot behind the others. -/
theorem addSlot_spec {pageSize : UInt32} {rowSize : UInt16} (hps : pageSize.toNat = ps)
    (hrs : rowSize.toNat = rs) (h : HeapIs ps rs pg next rows []) {row : List UInt8}
    (hrow : row.length = rs)
    (hroom : slotBase + (rows.length + 1) * 8 + (rows.length + 1) * rs ≤ ps) :
    (heapPageHeaderC.get pg 0).slotCount.toNat = rows.length ∧
      ∃ pg', addSlot pageSize pg (heapPageHeaderC.get pg 0) row rowSize = some pg' ∧
        HeapIs ps rs pg' next (rows ++ [some row]) [] := by
  obtain ⟨count, head, used, res, hget, hcount, hused, hfree⟩ := h.header
  have hsmall := h.small
  have hn : rows.length < rows.length + 1 := Nat.lt_succ_self _
  have hsucc : (rows.length + 1) * rs = rows.length * rs + rs := Nat.succ_mul _ _
  have hoff : (pageSize - used.toUInt32 - rowSize.toUInt32).toUInt16.toNat =
      rowOff ps rs rows.length := by
    -- the differences do not wrap and fit 16 bits
    have h1 : used.toUInt32 ≤ pageSize := by
      rw [UInt32.le_iff_toNat_le, UInt16.toNat_toUInt32, hused, hps]
      omega
    have h2 : rowSize.toUInt32 ≤ pageSize - used.toUInt32 := by
      rw [UInt32.le_iff_toNat_le, UInt16.toNat_toUInt32, UInt32.toNat_sub_of_le _ _ h1,
        UInt16.toNat_toUInt32, hused, hps, hrs]
      omega
    rw [UInt32.toNat_toUInt16, UInt32.toNat_sub_of_le _ _ h2, UInt32.toNat_sub_of_le _ _ h1,
      UInt16.toNat_toUInt32, UInt16.toNat_toUInt32, hused, hps, hrs, rowOff]
    omega
  have hcount' : (count + 1).toNat = rows.length + 1 := by
    rw [UInt16.toNat_add, hcount]
    apply Nat.mod_eq_of_lt
    show rows.length + 1 < 65536
    unfold slotBase at hroom
    omega
  have hused' : (used + rowSize).toNat = (rows.length + 1) * rs := by
    rw [UInt16.toNat_add, hused, hrs, ← hsucc]
    apply Nat.mod_eq_of_lt
    show (rows.length + 1) * rs < 65536
    omega
  -- the three writes one after the other
  obtain ⟨pg₁, hput₁, hlen₁, hget₁, hslots₁, hrows₁⟩ := putSlot_view
    ⟨(pageSize - used.toUInt32 - rowSize.toUInt32).toUInt16, slotAlive, slotNone, 0⟩
    h.length hroom hn
  obtain ⟨pg₂, hcopy, hlen₂, hget₂, hslots₂, hrows₂⟩ := copyIn_view hlen₁ hroom hn hrow
  obtain ⟨pg₃, hput₃, hlen₃, hget₃, hslots₃, hrows₃⟩ := putHeader_view
    ⟨PageType.heap.code, next, count + 1, head, used + rowSize, res⟩ hlen₂ hroom
  have hslots : ∀ j < rows.length + 1, slotAt pg₃ j =
      if j = rows.length then
        ⟨(pageSize - used.toUInt32 - rowSize.toUInt32).toUInt16, slotAlive, slotNone, 0⟩
      else slotAt pg j := by
    intro j hj
    rw [hslots₃, hslots₂ j hj, hslots₁]
  have hrows : ∀ j < rows.length + 1,
      rowAt ps rs pg₃ j = if j = rows.length then row else rowAt ps rs pg j := by
    intro j hj
    rw [hrows₃ j hj, hrows₂ j hj, hrows₁ j hj]
  have hlength : (rows ++ [some row]).length = rows.length + 1 := by simp
  -- a slot is an old one or the one added
  have hcases : ∀ {j : Nat} {r : Option (List UInt8)}, (rows ++ [some row])[j]? = some r →
      (j < rows.length ∧ rows[j]? = some r) ∨ (j = rows.length ∧ r = some row) := by
    intro j r hj
    rw [List.getElem?_append] at hj
    split at hj
    next hlt => exact Or.inl ⟨hlt, hj⟩
    next hge =>
      have hj0 := (List.getElem?_eq_some_iff.mp hj).1
      rw [List.length_singleton] at hj0
      have hj1 : j - rows.length = 0 := by omega
      rw [hj1] at hj
      exact Or.inr ⟨by omega, (Option.some.inj hj).symm⟩
  refine ⟨by rw [hget]; exact hcount, pg₃, ?_, hlen₃, hsmall, by rw [hlength]; exact hroom,
    ⟨count + 1, head, used + rowSize, res, hget₃, by rw [hlength]; exact hcount',
      by rw [hlength]; exact hused', hfree⟩, ?_, ?_, ?_, h.free_nodup, ?_⟩
  · unfold addSlot
    simp only [hget, hcount, hput₁, hoff, hcopy, hput₃, Option.bind_eq_bind, Option.bind_some]
  · -- no slot was free, and the new one is not
    intro j hj
    rw [hlength] at hj
    rw [hslots j hj]
    split
    next hjn => rw [hjn]; exact hoff
    next hjn => exact h.offset j (by omega)
  · intro j r hj
    rcases hcases hj with ⟨hlt, hj⟩ | ⟨hjn, hr⟩
    · rw [hslots j (by omega), hrows j (by omega), if_neg (by omega), if_neg (by omega)]
      exact h.alive j r hj
    · rw [hslots j (by omega), hrows j (by omega), if_pos hjn, if_pos hjn]
      exact ⟨rfl, (Option.some.inj hr).symm⟩
  · intro j hj
    rcases hcases hj with ⟨hlt, hj⟩ | ⟨-, hr⟩
    · rw [hslots j (by omega), if_neg (by omega)]
      exact h.dead j hj
    · exact nomatch hr
  · intro j
    rw [h.mem_free j]
    constructor
    · intro hj
      rw [List.getElem?_append_left (HeapIs.lt_of_get hj)]
      exact hj
    · intro hj
      rcases hcases hj with ⟨-, hj⟩ | ⟨-, hr⟩
      · exact hj
      · exact nomatch hr

/-- The slot of a deleted row becomes the first free one. -/
theorem freeSlot_spec (h : HeapIs ps rs pg next rows free) {slotId : UInt16} {i : Nat}
    (hi : slotId.toNat = i) {row : List UInt8} (hrow : rows[i]? = some (some row)) :
    ∃ pg₁ pg₂, slotC.putAt? slotBase pg i
        { slotAt pg i with
          status := slotFree, nextFree := (heapPageHeaderC.get pg 0).freeSlotHead } = some pg₁ ∧
      heapPageHeaderC.put? pg₁ 0 { heapPageHeaderC.get pg 0 with freeSlotHead := slotId } =
        some pg₂ ∧
      HeapIs ps rs pg₂ next (rows.set i none) (i :: free) := by
  obtain ⟨count, head, used, res, hget, hcount, hused, hfree⟩ := h.header
  have hlt : i < rows.length := HeapIs.lt_of_get hrow
  have hi_free : i ∉ free := by
    intro hmem
    rw [h.mem_free, hrow] at hmem
    exact nomatch hmem
  obtain ⟨pg₁, hput₁, hlen₁, hget₁, hslots₁, hrows₁⟩ := putSlot_view
    { slotAt pg i with
      status := slotFree, nextFree := (heapPageHeaderC.get pg 0).freeSlotHead } h.length h.fits hlt
  obtain ⟨pg₂, hput₂, hlen₂, hget₂, hslots₂, hrows₂⟩ := putHeader_view
    { heapPageHeaderC.get pg 0 with freeSlotHead := slotId } hlen₁ h.fits
  have hslots : ∀ j, slotAt pg₂ j = if j = i then
      { slotAt pg i with
        status := slotFree, nextFree := (heapPageHeaderC.get pg 0).freeSlotHead }
      else slotAt pg j := by
    intro j
    rw [hslots₂, hslots₁]
  -- a slot is the one that loses its row, or as before
  have hset : ∀ {j : Nat} {r : Option (List UInt8)}, (rows.set i none)[j]? = some r →
      (j = i ∧ r = none) ∨ (j ≠ i ∧ rows[j]? = some r) := by
    intro j r hj
    rw [List.getElem?_set] at hj
    by_cases hji : i = j
    · rw [if_pos hji, if_pos (hji ▸ hlt)] at hj
      exact Or.inl ⟨hji.symm, (Option.some.inj hj).symm⟩
    · rw [if_neg hji] at hj
      exact Or.inr ⟨Ne.symm hji, hj⟩
  refine ⟨pg₁, pg₂, hput₁, hput₂, hlen₂, h.small, by rw [List.length_set]; exact h.fits,
    ⟨count, slotId, used, res, by rw [hget₂, hget], by rw [List.length_set]; exact hcount,
      by rw [List.length_set]; exact hused, ?_, ?_⟩, ?_, ?_, ?_,
    List.nodup_cons.mpr ⟨hi_free, h.free_nodup⟩, ?_⟩
  · rw [← hi]
    exact UInt16.ofNat_toNat.symm
  · -- behind the new head the chain is the old one
    rw [hslots, if_pos rfl, hget]
    refine hfree.congr fun j hj => ?_
    have hji : j ≠ i := fun he => hi_free (he ▸ hj)
    rw [hslots, if_neg hji]
  · intro j hj
    rw [List.length_set] at hj
    rw [hslots]
    split
    next hji => rw [hji]; exact h.offset i hlt
    next => exact h.offset j hj
  · intro j r hj
    rcases hset hj with ⟨-, hr⟩ | ⟨hji, hj⟩
    · exact nomatch hr
    · rw [hslots, if_neg hji, hrows₂ j (HeapIs.lt_of_get hj), hrows₁ j (HeapIs.lt_of_get hj)]
      exact h.alive j r hj
  · intro j hj
    rw [hslots]
    split
    next => rfl
    next hji =>
      rcases hset hj with ⟨he, -⟩ | ⟨-, hj⟩
      · exact absurd he hji
      · exact h.dead j hj
  · intro j
    rw [List.mem_cons, h.mem_free]
    constructor
    · rintro (rfl | hj)
      · rw [List.getElem?_set_self hlt]
      · rw [List.getElem?_set_ne, hj]
        intro hji
        rw [← hji, hrow] at hj
        exact nomatch hj
    · intro hj
      rcases hset hj with ⟨he, -⟩ | ⟨-, hj⟩
      · exact Or.inl he
      · exact Or.inr hj

end PageOps

end MiniDb
