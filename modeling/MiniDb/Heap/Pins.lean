import MiniDb.Heap.Code
import MiniDb.Pager.Ledger

/-!
# The pins of the heap

The functions of `table.c` keep one page pinned at a time.  `heap_fetch` hands its pin to the
caller, which gives it back after it has read the row.

## Key results

- `balanced_heapInsert`, `balanced_fetchRow`, `balanced_heapDelete`, `balanced_heapScan`
-/

namespace MiniDb

open Bytes Ledger Pager

/-! ## Changes inside a page keep its length -/

theorem length_copyIn {page page' : Page} {off : Nat} {row : List UInt8}
    (h : copyIn page off row = some page') : page'.length = page.length := by
  unfold copyIn splice? at h
  split at h
  next hroom => rw [← Option.some.inj h, length_splice _ _ _ hroom]
  next => contradiction

theorem length_reuseSlot {page page' : Page} {hph : HeapPageHeader} {row : List UInt8}
    (h : reuseSlot page hph row = some page') : page'.length = page.length := by
  obtain ⟨slot, -, h⟩ := Option.bind_eq_some_iff.mp h
  obtain ⟨page₁, hcopy, h⟩ := Option.bind_eq_some_iff.mp h
  obtain ⟨page₂, hput, h⟩ := Option.bind_eq_some_iff.mp h
  rw [Codec.length_put? h, Codec.length_put? hput, length_copyIn hcopy]

theorem length_addSlot {pageSize : UInt32} {page page' : Page} {hph : HeapPageHeader}
    {row : List UInt8} {rowSize : UInt16} (h : addSlot pageSize page hph row rowSize = some page') :
    page'.length = page.length := by
  obtain ⟨page₁, hput, h⟩ := Option.bind_eq_some_iff.mp h
  obtain ⟨page₂, hcopy, h⟩ := Option.bind_eq_some_iff.mp h
  rw [Codec.length_put? h, length_copyIn hcopy, Codec.length_put? hput]

variable {file : FileId} {cap : Nat}

/-! ## Insertion -/

theorem balanced_findHeapPageLoop (n : Nat) (pid : PageId) :
    Balanced file 1 (findHeapPageLoop n pid) := by
  intro cap pins recent hpins
  induction n generalizing pid recent with
  | zero => exact obeys_throw _
  | succ n ih =>
    simp only [findHeapPageLoop, obeys_ite, obeys_bind, obeys_getPage, obeys_load, obeys_unpin,
      obeys_pure, pin_mk]
    constructor
    · intro _
      exact ⟨_, rfl⟩
    · intro _
      refine ⟨hpins, Or.inl (List.mem_cons_self ..), fun page _ => unpin_head ⟨fun _ => ⟨_, rfl⟩, ?_⟩⟩
      exact fun _ => ih _ _

theorem balanced_findHeapPage (rowSize : UInt16) : Balanced file 1 (findHeapPage rowSize) := by
  intro cap pins recent hpins
  simp only [findHeapPage, obeys_bind, obeys_getFields, obeys_ite, obeys_getPage, obeys_load,
    obeys_unpin, obeys_pure, pin_mk]
  intro f _
  constructor
  · -- the last page first
    intro _
    refine ⟨hpins, Or.inl (List.mem_cons_self ..), fun page _ => unpin_head ⟨fun _ => ⟨_, rfl⟩, ?_⟩⟩
    exact fun _ => balanced_findHeapPageLoop _ _ pins _ hpins
  · intro _
    exact balanced_findHeapPageLoop _ _ pins _ hpins

theorem balanced_growHeap : Balanced file 1 growHeap := by
  intro cap pins recent hpins
  simp only [growHeap, obeys_bind]
  apply balanced_pagerAllocPage.call hpins
  intro pid recent
  simp only [obeys_getPage, obeys_load, obeys_inBounds, obeys_store, obeys_markDirty, obeys_unpin,
    obeys_getFields, obeys_ite, obeys_bind, obeys_setFields, obeys_pure, pin_mk, mark_write]
  refine ⟨hpins, Or.inl (List.mem_cons_self ..), fun page hpage page' hput =>
    ⟨List.mem_cons_self .., ?_, unpin_head fun f _ => ⟨fun _ => ?_, fun _ => ?_⟩⟩⟩
  · rw [Codec.length_put? hput, hpage]
  · -- the page that was the last one is linked to the new one
    refine ⟨hpins, Or.inl (List.mem_cons_self ..), fun pp hpp pp' hput' =>
      ⟨List.mem_cons_self .., ?_, unpin_head fun f hf => ⟨hf, _, rfl⟩⟩⟩
    rw [Codec.length_put? hput', hpp]
  · exact fun f hf => ⟨hf, _, rfl⟩

theorem balanced_insertRow (pid : PageId) (row : List UInt8) (rowSize : UInt16) :
    Balanced file 1 (insertRow pid row rowSize) := by
  intro cap pins recent hpins
  simp only [insertRow, obeys_bind, obeys_getPageSize, obeys_getPage, obeys_load, obeys_ite,
    obeys_inBounds, obeys_store, obeys_markDirty, obeys_unpin, obeys_pure, pin_mk, mark_write]
  refine ⟨hpins, Or.inl (List.mem_cons_self ..), fun page hpage => ⟨fun _ page' hreuse => ?_,
    fun _ page' hadd => ?_⟩⟩
  · refine ⟨List.mem_cons_self .., ?_, unpin_head ⟨_, rfl⟩⟩
    rw [length_reuseSlot hreuse, hpage]
  · refine ⟨List.mem_cons_self .., ?_, unpin_head ⟨_, rfl⟩⟩
    rw [length_addSlot hadd, hpage]

theorem balanced_heapInsert (row : List UInt8) (rowSize : UInt16) :
    Balanced file 1 (heapInsert row rowSize) := by
  intro cap pins recent hpins
  simp only [heapInsert, obeys_bind]
  apply (balanced_findHeapPage rowSize).call hpins
  intro pid recent
  rw [obeys_ite]
  constructor
  · intro _
    rw [obeys_bind]
    apply balanced_growHeap.call hpins
    intro pid recent
    exact balanced_insertRow _ _ _ pins _ hpins
  · intro _
    exact balanced_insertRow _ _ _ pins _ hpins

/-! ## Fetch and deletion -/

/-- The page of a row that was found stays pinned. -/
theorem obeys_heapFetch {pins recent : List PageId} (ref : RowRef) (hpins : pins.length + 1 ≤ cap)
    {Q : Option Nat → Ledger → Prop} (hnone : ∀ recent', Q none ⟨pins, recent', []⟩)
    (hsome : ∀ off recent', Q (some off) ⟨ref.pageId :: pins, recent', []⟩) :
    Obeys file cap (heapFetch ref) ⟨pins, recent, []⟩ Q := by
  simp only [heapFetch, obeys_bind, obeys_getPage?, obeys_ite, obeys_load, obeys_inBounds, obeys_unpin,
    obeys_pure, pin_mk, not_true_eq_false, false_implies, and_true, true_implies]
  refine ⟨hpins, Or.inl (List.mem_cons_self ..), fun page _ slot _ => ⟨fun _ => ?_, fun _ => ?_⟩⟩
  · exact unpin_head (hnone _)
  · exact hsome _ _

theorem balanced_fetchRow (ref : RowRef) (rowSize : UInt16) :
    Balanced file 1 (fetchRow ref rowSize) := by
  intro cap pins recent hpins
  rw [fetchRow, obeys_bind]
  apply obeys_heapFetch ref hpins
  · intro recent'
    exact ⟨_, rfl⟩
  · intro off recent'
    simp only [obeys_bind, obeys_load, obeys_inBounds, obeys_unpin, obeys_pure]
    exact ⟨Or.inl (List.mem_cons_self ..), fun page _ row _ => unpin_head ⟨_, rfl⟩⟩

theorem balanced_heapDelete (ref : RowRef) : Balanced file 1 (heapDelete ref) := by
  intro cap pins recent hpins
  simp only [heapDelete, obeys_bind, obeys_getPage?, obeys_ite, obeys_load, obeys_inBounds, obeys_unpin,
    obeys_store, obeys_markDirty, obeys_pure, pin_mk, mark_write, not_true_eq_false, false_implies,
    and_true, true_implies]
  refine ⟨hpins, Or.inl (List.mem_cons_self ..), fun page hpage slot _ => ⟨fun _ => unpin_head ⟨_, rfl⟩,
    fun _ page₁ hput₁ page₂ hput₂ => ⟨List.mem_cons_self .., ?_, unpin_head ⟨_, rfl⟩⟩⟩⟩
  rw [Codec.length_put? hput₂, Codec.length_put? hput₁, hpage]

/-! ## Scan -/

section Scan

variable {γ : Type} {cb : List UInt8 → RowRef → γ → Bool × γ} {rowSize : UInt16}

/-- The slots of a page are read from its buffer, without a call. -/
theorem obeys_scanSlots {t : Ledger} {Q : Bool × γ → Ledger → Prop} (pid : PageId) (page : Page)
    (n i : Nat) (ctx : γ) (hQ : ∀ r, Q r t) :
    Obeys file cap (scanSlots cb rowSize pid page n i ctx) t Q := by
  induction n generalizing i ctx with
  | zero => exact hQ _
  | succ n ih =>
    simp only [scanSlots, obeys_bind, obeys_inBounds, obeys_ite, obeys_pure]
    intro slot _
    constructor
    · intro _ row _
      exact ⟨fun _ => ih _ _, fun _ => hQ _⟩
    · intro _
      exact ih _ _

theorem balanced_heapScanLoop (n : Nat) (pid : PageId) (ctx : γ) :
    Balanced file 1 (heapScanLoop cb rowSize n pid ctx) := by
  intro cap pins recent hpins
  induction n generalizing pid ctx recent with
  | zero => exact obeys_throw _
  | succ n ih =>
    simp only [heapScanLoop, obeys_ite, obeys_bind, obeys_getPage, obeys_load, obeys_pure, pin_mk]
    refine ⟨fun _ => ⟨_, rfl⟩, fun _ => ⟨hpins, Or.inl (List.mem_cons_self ..), fun page _ => ?_⟩⟩
    apply obeys_scanSlots
    intro r
    rw [obeys_unpin]
    exact unpin_head ⟨fun _ => ih _ _ _, fun _ => ⟨_, rfl⟩⟩

theorem balanced_heapScan (ctx : γ) : Balanced file 1 (heapScan cb rowSize ctx) := by
  intro cap pins recent hpins
  rw [heapScan, obeys_bind, obeys_getHeader]
  exact fun _ _ => balanced_heapScanLoop _ _ _ pins _ hpins

end Scan

end MiniDb
