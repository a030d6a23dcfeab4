import MiniDb.Lib.Chains
import MiniDb.Lib.Runs
import MiniDb.Heap.Spec

/-!
# Runs of the heap

Insertions and deletions in any order from the empty first page.  As an abstract machine
the heap is a map from references to rows that chooses the reference of a new row itself.
What the pages hold after a run is read off their bytes (`heapRows`).

## Key results

- `HeapOp.step_spec`: every call acts on the map
- `heapRun_spec`: fetch, scan and the layout of the pages after every run
-/

namespace MiniDb

open Bytes Lists Chains Runs

/-! ## What the pages hold -/

/-- `next_heap_page_id` of a heap page -/
def nextHeap (db : Db) (pid : PageId) : PageId :=
  (heapPageHeaderC.get (db.pages pid) 0).nextHeapPageId

/-- The chain of heap pages -/
def heapPages (db : Db) : List PageId :=
  follow (nextHeap db) 0 maxPages db.header.firstHeapPageId

/-- `slot_count` of a page -/
def slotCount (pg : Page) : Nat := (heapPageHeaderC.get pg 0).slotCount.toNat

/-- The live rows of a page in slot order -/
def pageRows (db : Db) (rowSize : UInt16) (pid : PageId) : List (RowRef × List UInt8) :=
  (List.range (slotCount (db.pages pid))).filterMap fun i =>
    let slot := slotAt (db.pages pid) i
    if slot.status = slotAlive then
      some (⟨pid, UInt16.ofNat i⟩, slice (db.pages pid) slot.offset.toNat rowSize.toNat)
    else none

/-- The live rows of the heap in the order of the chain and of the slots -/
def heapRows (db : Db) (rowSize : UInt16) : List (RowRef × List UInt8) :=
  (heapPages db).flatMap (pageRows db rowSize)

/-- Where the slots of a heap page point to: behind the slot directory, inside the page, and
    never to overlapping rows. -/
def RowsApart (db : Db) (rowSize : UInt16) : Prop :=
  ∀ pid ∈ heapPages db, ∀ i < slotCount (db.pages pid),
    let off := fun i => (slotAt (db.pages pid) i).offset.toNat
    slotBase + slotCount (db.pages pid) * slotC.size ≤ off i ∧
    off i + rowSize.toNat ≤ db.ps ∧
    ∀ j < slotCount (db.pages pid), i ≠ j →
      off i + rowSize.toNat ≤ off j ∨ off j + rowSize.toNat ≤ off i

section Bytes

variable {db : Db} {rs : Nat} {rowSize : UInt16} {hp : List HeapPage} {others : List PageId}

theorem HeapChain.visits {l : List HeapPage} (h : HeapChain db.ps rs db.pages l 0)
    (h0 : ∀ p ∈ l, p.pid ≠ 0) : Visits (nextHeap db) 0 (firstHeap l 0) (l.map (·.pid)) := by
  induction l with
  | nil => rfl
  | cons p l ih =>
    obtain ⟨his, hrest⟩ := h
    obtain ⟨count, head, used, res, hget, -⟩ := his.header
    have hnext := ih hrest fun q hq => h0 q (List.mem_cons_of_mem _ hq)
    refine ⟨rfl, h0 p (List.mem_cons_self ..), ?_⟩
    rw [nextHeap, hget]
    exact hnext

theorem HeapShape.visits (h : HeapShape db rs hp others) :
    Visits (nextHeap db) 0 db.header.firstHeapPageId (hp.map (·.pid)) := by
  rw [h.first]
  exact h.chain.visits fun p hmem => h.ne_zero hmem

theorem HeapShape.heapPages_eq (h : HeapShape db rs hp others) :
    heapPages db = hp.map (·.pid) := by
  apply h.visits.follow_eq
  rw [List.length_map]
  exact Nat.le_of_lt h.length_lt

/-- The slots of a page counted from `done.length` on -/
theorem HeapIs.filterMap_eq {ps : Nat} {pg : Page} {pid next : PageId}
    {done rows : List (Option (List UInt8))} {free : List Nat}
    (h : HeapIs ps rs pg next (done ++ rows) free) :
    ((List.range' done.length rows.length).filterMap fun i =>
      let slot := slotAt pg i
      if slot.status = slotAlive then
        some ((⟨pid, UInt16.ofNat i⟩ : RowRef), slice pg slot.offset.toNat rs)
      else none) = liveFrom pid done.length rows := by
  induction rows generalizing done with
  | nil => rfl
  | cons r rows ih =>
    have hskip : HeapIs ps rs pg next ((done ++ [r]) ++ rows) free := by simpa using h
    have hrest := ih hskip
    have hat : (done ++ r :: rows)[done.length]? = some r := by simp
    have hlt := HeapIs.lt_of_get hat
    rw [List.length_append, List.length_singleton] at hrest
    rw [List.length_cons, List.range'_succ, List.filterMap_cons, hrest]
    cases r with
    | none => rw [if_neg (h.not_alive hat), liveFrom]
    | some row =>
      obtain ⟨halive, hrow⟩ := h.alive _ row hat
      rw [rowAt, ← h.offset _ hlt] at hrow
      rw [if_pos halive, hrow, liveFrom]

/-- What the bytes say are the rows of the heap. -/
theorem HeapShape.heapRows_eq (h : HeapShape db rowSize.toNat hp others) :
    heapRows db rowSize = liveRows hp := by
  rw [heapRows, h.heapPages_eq, List.flatMap_map, liveRows]
  apply List.flatMap_congr
  intro p hmem
  obtain ⟨A, B, rfl⟩ := List.append_of_mem hmem
  have his := h.pageIs
  obtain ⟨count, head, used, res, hget, hcount, -, -⟩ := his.header
  have hslots : slotCount (db.pages p.pid) = p.rows.length := by
    rw [slotCount, hget]
    exact hcount
  have his₀ : HeapIs db.ps rowSize.toNat (db.pages p.pid) (firstHeap B 0) ([] ++ p.rows) p.free :=
    his
  rw [pageRows, hslots, List.range_eq_range']
  exact his₀.filterMap_eq

theorem HeapShape.rowsApart (h : HeapShape db rowSize.toNat hp others) : RowsApart db rowSize := by
  intro pid hpid i hi
  rw [h.heapPages_eq] at hpid
  obtain ⟨p, hmem, rfl⟩ := List.mem_map.mp hpid
  obtain ⟨A, B, rfl⟩ := List.append_of_mem hmem
  have his := h.pageIs
  obtain ⟨count, head, used, res, hget, hcount, -, -⟩ := his.header
  have hslots : slotCount (db.pages p.pid) = p.rows.length := by
    rw [slotCount, hget]
    exact hcount
  rw [hslots] at hi ⊢
  obtain ⟨hlo, hhi⟩ := rowOff_bounds his.fits hi
  dsimp only
  rw [his.offset i hi, slotC_size]
  refine ⟨hlo, hhi, fun j hj hij => ?_⟩
  rw [his.offset j hj]
  exact rowOff_disjoint his.fits hi hj hij

end Bytes

/-! ## The calls -/

/-- The calls on the heap -/
inductive HeapOp where
  | insert (row : List UInt8)
  | delete (ref : RowRef)
  deriving DecidableEq

/-- What a call returns: a reference, or 0 or -1 -/
inductive HeapAnswer where
  | ref (ref : RowRef)
  | code (code : Int)
  deriving DecidableEq

/-- The references returned, with the answer of one more call -/
def HeapAnswer.returned : HeapAnswer → List RowRef → List RowRef
  | ref r, refs => r :: refs
  | code _, refs => refs

/-- A database and the references the heap has returned so far -/
structure HeapState where
  db : Db
  refs : List RowRef

namespace HeapOp

def routine (rowSize : UInt16) : HeapOp → Routine HeapAnswer
  | insert row => do return .ref (← heapInsert row rowSize)
  | delete ref => do return .code (← heapDelete ref)

def step (rowSize : UInt16) (op : HeapOp) (s : HeapState) : Except Fault (HeapAnswer × HeapState) :=
  match s.db.exec (op.routine rowSize) with
  | .ok (r, db) => .ok (r, ⟨db, r.returned s.refs⟩)
  | .error e => .error e

/-- Rows have the right size, and only returned references are deleted. -/
def Ok (rowSize : UInt16) : HeapOp → HeapState → Prop
  | insert row, _ => row.length = rowSize.toNat
  | delete ref, s => ref ∈ s.refs

instance (rowSize : UInt16) : (op : HeapOp) → (s : HeapState) → Decidable (op.Ok rowSize s)
  | insert row, _ => inferInstanceAs (Decidable (row.length = rowSize.toNat))
  | delete ref, s => inferInstanceAs (Decidable (ref ∈ s.refs))

/-- What a call answers, and what it makes of the map -/
def spec : HeapOp → (RowRef → Option (List UInt8)) → HeapAnswer →
    (RowRef → Option (List UInt8)) → Prop
  | insert row, m, r, m' =>
    ∃ ref, r = .ref ref ∧ m ref = none ∧ m' = Function.update m ref (some row)
  | delete ref, m, r, m' =>
    (m ref = none ∧ r = .code (-1) ∧ m' = m) ∨
    (m ref ≠ none ∧ r = .code 0 ∧ m' = Function.update m ref none)

end HeapOp

/-- The database stores the rows `m` in its heap, all of them at returned references. -/
structure StoresRows (rowSize : UInt16) (others : List PageId) (m : RowRef → Option (List UInt8))
    (s : HeapState) : Prop where
  dims : HeapDims s.db.fields.pageSize rowSize
  heap : ∃ hp, HeapShape s.db rowSize.toNat hp others ∧ heapMap hp = m ∧
    ∀ ref ∈ s.refs, InHeap hp ref
  returned : ∀ ref, m ref ≠ none → ref ∈ s.refs

section Step

variable {rowSize : UInt16} {others : List PageId} {m : RowRef → Option (List UInt8)}
  {s : HeapState} {hp : List HeapPage}

/-- Every call acts on the map. -/
theorem HeapOp.wp_spec (op : HeapOp) (h : HeapShape s.db rowSize.toNat hp others)
    (hdims : HeapDims s.db.fields.pageSize rowSize) (hrefs : ∀ ref ∈ s.refs, InHeap hp ref)
    (hok : op.Ok rowSize s) :
    wpDb (op.routine rowSize) s.db fun r db' => ∃ hp', HeapStep s.db db' rowSize.toNat hp' others ∧
      op.spec (heapMap hp) r (heapMap hp') ∧ (∀ ref ∈ r.returned s.refs, InHeap hp' ref) ∧
      Fills s.db.ps rowSize.toNat hp hp' := by
  cases op with
  | insert row =>
    rw [HeapOp.routine, wpDb_bind]
    apply wpDb_mono (heapInsert_spec h hdims hok)
    rintro ref db' ⟨hp', hins, hfills⟩
    refine ⟨hp', hins.step, ⟨ref, rfl, hins.vacant, hins.map⟩, fun ref' href' => ?_, hfills⟩
    rcases List.mem_cons.mp href' with rfl | href'
    · exact hins.inHeap
    · exact hins.grow ref' (hrefs ref' href')
  | delete ref =>
    rw [HeapOp.routine, wpDb_bind]
    apply wpDb_mono (heapDelete_spec h (hrefs ref hok))
    rintro code db' (⟨hnone, rfl, rfl⟩ | ⟨hlive, rfl, hp', hstep, hmap, hgrow, hlens⟩)
    · exact ⟨hp, ⟨h, rfl, fun _ _ => rfl⟩, Or.inl ⟨hnone, rfl, rfl⟩, hrefs, Or.inl rfl⟩
    · exact ⟨hp', hstep, Or.inr ⟨hlive, rfl, hmap⟩, fun ref' href' => hgrow ref' (hrefs ref' href'),
        Or.inl hlens⟩

/-- All rows of the map stay at returned references. -/
theorem HeapOp.spec_returned {op : HeapOp} {m m' : RowRef → Option (List UInt8)} {r : HeapAnswer}
    {refs : List RowRef} (h : op.spec m r m') (hm : ∀ ref, m ref ≠ none → ref ∈ refs) :
    ∀ ref, m' ref ≠ none → ref ∈ r.returned refs := by
  intro ref' href'
  cases op with
  | insert row =>
    obtain ⟨ref, rfl, -, rfl⟩ := h
    rw [Function.update_apply] at href'
    split at href'
    next heq => exact heq ▸ List.mem_cons_self ..
    next => exact List.mem_cons_of_mem _ (hm ref' href')
  | delete ref =>
    rcases h with ⟨-, rfl, rfl⟩ | ⟨-, rfl, rfl⟩
    · exact hm ref' href'
    · rw [Function.update_apply] at href'
      split at href'
      next => exact absurd rfl href'
      next => exact hm ref' href'

theorem HeapOp.step_shape (op : HeapOp) (h : HeapShape s.db rowSize.toNat hp others)
    (hdims : HeapDims s.db.fields.pageSize rowSize) (hrefs : ∀ ref ∈ s.refs, InHeap hp ref)
    (hok : op.Ok rowSize s) :
    (∀ r s', op.step rowSize s = .ok (r, s') → s'.refs = r.returned s.refs ∧
      ∃ hp', HeapStep s.db s'.db rowSize.toNat hp' others ∧
        op.spec (heapMap hp) r (heapMap hp') ∧ (∀ ref ∈ s'.refs, InHeap hp' ref) ∧
        Fills s.db.ps rowSize.toNat hp hp') ∧
    ∀ e, op.step rowSize s = .error e → e = .idsExhausted := by
  obtain ⟨hanswer, hfault⟩ := wpDb_exec (op.wp_spec h hdims hrefs hok)
  unfold HeapOp.step
  cases hrun : s.db.exec (op.routine rowSize) with
  | error e =>
    refine ⟨fun r s' hout => (nomatch hout), fun e' hout => ?_⟩
    exact Except.error.inj hout ▸ hfault e hrun
  | ok out =>
    refine ⟨fun r s' hout => ?_, fun e hout => nomatch hout⟩
    simp only [Except.ok.injEq, Prod.mk.injEq] at hout
    obtain ⟨rfl, rfl⟩ := hout
    exact ⟨rfl, hanswer out.1 out.2 hrun⟩

theorem HeapOp.step_spec (op : HeapOp) (h : StoresRows rowSize others m s)
    (hok : op.Ok rowSize s) :
    (∀ r s', op.step rowSize s = .ok (r, s') →
      ∃ m', op.spec m r m' ∧ StoresRows rowSize others m' s') ∧
    ∀ e, op.step rowSize s = .error e → e = .idsExhausted := by
  obtain ⟨hp, hshape, rfl, hrefs⟩ := h.heap
  obtain ⟨hanswer, hfault⟩ := op.step_shape hshape h.dims hrefs hok
  refine ⟨fun r s' hout => ?_, hfault⟩
  obtain ⟨hreturned, hp', hstep, hspec, hrefs', -⟩ := hanswer r s' hout
  refine ⟨_, hspec, ?_, ⟨hp', hstep.shape, rfl, hrefs'⟩, ?_⟩
  · rw [heapOutside_pageSize hstep.outside]
    exact h.dims
  · rw [hreturned]
    exact HeapOp.spec_returned hspec h.returned

end Step

/-! ## Whole runs -/

/-- How a state that stores the rows `m` shows them to its callers -/
structure HeapHolds (rowSize : UInt16) (m : RowRef → Option (List UInt8)) (s : HeapState) :
    Prop where
  returned : ∀ ref, m ref ≠ none → ref ∈ s.refs
  /-- a returned reference gives the row stored there, or nothing once it is deleted -/
  fetch : ∀ ref ∈ s.refs, s.db.exec (fetchRow ref rowSize) = .ok (m ref, s.db)
  /-- deleting a deleted row changes nothing -/
  refuse : ∀ ref ∈ s.refs, m ref = none → s.db.exec (heapDelete ref) = .ok (-1, s.db)
  /-- the rows in the pages are the rows stored, each once -/
  rows : ∀ ref row, (ref, row) ∈ heapRows s.db rowSize ↔ m ref = some row
  nodup : ((heapRows s.db rowSize).map Prod.fst).Nodup
  /-- the scan calls back on these rows in order until it is told to stop -/
  scan : ∀ {γ : Type} (cb : List UInt8 → RowRef → γ → Bool × γ) (ctx : γ),
    s.db.exec (heapScan cb rowSize ctx) = .ok ((foldRows cb (heapRows s.db rowSize) ctx).2, s.db)
  apart : RowsApart s.db rowSize

theorem StoresRows.holds {rowSize : UInt16} {others : List PageId}
    {m : RowRef → Option (List UInt8)} {s : HeapState} (h : StoresRows rowSize others m s) :
    HeapHolds rowSize m s := by
  obtain ⟨hp, hshape, rfl, hrefs⟩ := h.heap
  refine ⟨h.returned, fun ref href => ?_, fun ref href hnone => ?_, fun ref row => ?_, ?_,
    fun cb ctx => ?_, hshape.rowsApart⟩
  · obtain ⟨r, db', hexec, rfl, rfl⟩ := wpDb_total (fetchRow_spec hshape (hrefs ref href))
    exact hexec
  · obtain ⟨r, db', hexec, hcase⟩ := wpDb_total (heapDelete_spec hshape (hrefs ref href))
    obtain ⟨-, rfl, rfl⟩ | ⟨hlive, -⟩ := hcase
    · exact hexec
    · exact absurd hnone hlive
  · rw [hshape.heapRows_eq]
    exact hshape.mem_liveRows
  · rw [hshape.heapRows_eq]
    exact hshape.liveRows_nodup
  · rw [hshape.heapRows_eq]
    obtain ⟨r, db', hexec, rfl, rfl⟩ := wpDb_total (heapScan_spec hshape ctx)
    exact hexec

/-- In a new database the heap is one empty page, and page 2 is the root leaf. -/
theorem fresh_heapShape {pageSize : UInt32} {rowSize : UInt16} (hdims : HeapDims pageSize rowSize) :
    HeapShape (Db.fresh pageSize) rowSize.toNat [⟨1, [], []⟩] [2] := by
  have h16 : 16 ≤ pageSize.toNat := by
    have := hdims.room
    omega
  have hlen : (zeroPage pageSize).length = pageSize.toNat := length_zeroPage _
  have hin : 0 + heapPageHeaderC.size ≤ (zeroPage pageSize).length := by
    rw [hlen, heapPageHeaderC_size]
    omega
  have hpage : HeapIs pageSize.toNat rowSize.toNat (freshPage pageSize 1) 0 [] [] :=
    HeapIs.empty ((heapPageHeaderC.length_put _ _ _ hin).trans hlen) hdims.small h16
      (heapPageHeaderC.get_put_same _ _ _ hin)
  refine ⟨⟨[], rfl, by decide, fun p => ?_⟩, ⟨hpage, trivial⟩, rfl, rfl⟩
  have hbound : idBound (Db.fresh pageSize) = 3 := rfl
  rw [hbound]
  simp only [List.map_cons, List.map_nil, List.append_nil, List.cons_append, List.nil_append,
    List.mem_cons, List.not_mem_nil, or_false, ne_eq, ← UInt32.toNat_inj]
  show p.toNat = 1 ∨ p.toNat = 2 ↔ ¬ p.toNat = 0 ∧ p.toNat < 3
  omega

/-- The heap of a new database: nothing stored, nothing returned -/
def HeapState.fresh (pageSize : UInt32) : HeapState := ⟨Db.fresh pageSize, []⟩

theorem fresh_storesRows {pageSize : UInt32} {rowSize : UInt16} (hdims : HeapDims pageSize rowSize) :
    StoresRows rowSize [2] (fun _ => none) (HeapState.fresh pageSize) :=
  ⟨hdims, ⟨_, fresh_heapShape hdims, by
    funext ref
    simp [heapMap], by simp [HeapState.fresh]⟩, fun ref hne => absurd rfl hne⟩

/-- Every run from the empty heap stores its rows: the answers are those of the map, and the
    state shows the map; it can only fail for want of page ids. -/
theorem heapRun_spec {pageSize : UInt32} {rowSize : UInt16} (hdims : HeapDims pageSize rowSize)
    {ops : List HeapOp}
    (hok : ∀ c ∈ calls (HeapOp.step rowSize) ops (HeapState.fresh pageSize), c.1.Ok rowSize c.2) :
    (∀ rs s, runAll (HeapOp.step rowSize) ops (HeapState.fresh pageSize) = .ok (rs, s) →
      ∃ m, SpecRun HeapOp.spec ops (fun _ => none) rs m ∧ HeapHolds rowSize m s) ∧
    ∀ e, runAll (HeapOp.step rowSize) ops (HeapState.fresh pageSize) = .error e →
      e = .idsExhausted := by
  have hrun := runAll_spec (fun op _ _ hrel hok => HeapOp.step_spec op hrel hok)
    (fresh_storesRows hdims) hok
  refine ⟨fun rs s hout => ?_, hrun.2⟩
  obtain ⟨m, hspec, hstores⟩ := hrun.1 rs s hout
  exact ⟨m, hspec, hstores.holds⟩

/-- Two rows fill the first page of 48 bytes; the second insertion after the deletion takes
    the freed slot, and the last one needs another page. -/
def reuseSlotRun : List HeapOp :=
  [.insert [1, 1, 1, 1], .insert [2, 2, 2, 2], .delete ⟨1, 0⟩, .insert [3, 3, 3, 3],
    .delete ⟨1, 0⟩, .delete ⟨1, 0⟩, .insert [4, 4, 4, 4], .insert [5, 5, 5, 5]]

theorem heapRun_spec_48 :
    (∀ rs s, runAll (HeapOp.step 4) reuseSlotRun (HeapState.fresh 48) = .ok (rs, s) →
      ∃ m, SpecRun HeapOp.spec reuseSlotRun (fun _ => none) rs m ∧ HeapHolds 4 m s) ∧
    ∀ e, runAll (HeapOp.step 4) reuseSlotRun (HeapState.fresh 48) = .error e →
      e = .idsExhausted :=
  heapRun_spec ⟨by decide, by decide⟩ (by decide +kernel)

end MiniDb
