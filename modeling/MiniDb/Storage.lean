import MiniDb.Bptree.Invariants
import MiniDb.Heap.Runs

/-!
# The tree and the heap in one database

Both structures take their pages from one allocator, so each of them counts the pages of the
other among the pages in use.  An operation of one leaves the other alone.

## Key results

- `StorageInv.treeStep`, `StorageInv.heapStep`: what one structure does keeps the other
- `storageRun_inv`: the invariant holds after every run of both
-/

namespace MiniDb

open Bytes Lists Chains Runs

/-- The database stores the tree `t` and the heap `hp` of rows of `rs` bytes. -/
structure StorageInv (db : Db) (rs : Nat) (t : Tree) (hp : List HeapPage) : Prop where
  tree : TreeInv db t (hp.map (·.pid))
  heap : HeapShape db rs hp t.pids

section Steps

variable {db db' : Db} {rs : Nat} {t t' : Tree} {hp hp' : List HeapPage}

/-- The fields outside the tree are those of the heap. -/
theorem firstHeap_of_outside (h : db'.outside = db.outside) :
    db'.header.firstHeapPageId = db.header.firstHeapPageId :=
  congrArg (fun f => f.header.firstHeapPageId) h

theorem lastHeap_of_outside (h : db'.outside = db.outside) :
    db'.fields.lastHeapPageId = db.fields.lastHeapPageId :=
  congrArg (fun f => f.lastHeapPageId) h

theorem root_of_heapOutside (h : db'.heapOutside = db.heapOutside) :
    db'.header.rootIndexPageId = db.header.rootIndexPageId :=
  congrArg (fun f => f.header.rootIndexPageId) h

/-- A tree operation leaves the heap alone. -/
theorem StorageInv.treeStep (h : StorageInv db rs t hp)
    (hstep : TreeStep db db' t' (hp.map (·.pid))) : StorageInv db' rs t' hp where
  tree := hstep.inv
  heap := by
    constructor
    · exact hstep.inv.alloc.perm List.perm_append_comm
    · rw [outside_ps hstep.outside]
      exact h.heap.chain.congr fun p hmem => hstep.frame p.pid (List.mem_map_of_mem hmem)
    · rw [firstHeap_of_outside hstep.outside]
      exact h.heap.first
    · rw [lastHeap_of_outside hstep.outside]
      exact h.heap.last

/-- A heap operation leaves the tree alone. -/
theorem StorageInv.heapStep (h : StorageInv db rs t hp) (hstep : HeapStep db db' rs hp' t.pids) :
    StorageInv db' rs t hp' where
  tree := by
    have hps : db'.ps = db.ps := heapOutside_ps hstep.outside
    have hleaf : ∀ l ∈ t.leaves, db'.pages l.pid = db.pages l.pid := fun l hl =>
      hstep.frame l.pid (TreeShape.leaf_mem_pids hl)
    refine ⟨⟨?_, ?_, h.tree.sorted, ?_⟩, fun hlevels l hl => ?_⟩
    · exact hstep.shape.alloc.perm List.perm_append_comm
    · rw [hps]
      exact h.tree.chain.congr fun l hl => SameButParent.of_eq (hleaf l hl)
    · rw [hps, root_of_heapOutside hstep.outside]
      apply h.tree.upper.congr
      · intro c hc
        obtain ⟨l, hl, rfl⟩ := List.mem_map.mp hc
        rw [Leaf.child_pid, hleaf l hl]
      · exact fun n hn => hstep.frame n.pid (TreeShape.inner_mem_pids hn)
    · rw [heapOutside_pageSize hstep.outside]
      exact h.tree.occupancy hlevels l hl
  heap := hstep.shape

/-- Changing other fields leaves both alone. -/
theorem StorageInv.setHeader (h : StorageInv db rs t hp) (hdr : DbHeader)
    (hroot : hdr.rootIndexPageId = db.header.rootIndexPageId)
    (hfirst : hdr.firstHeapPageId = db.header.firstHeapPageId)
    (hnext : hdr.nextPageId = db.header.nextPageId)
    (hfree : hdr.freePageHead = db.header.freePageHead) :
    StorageInv (db.setHeader hdr) rs t hp where
  tree := by
    refine ⟨⟨h.tree.alloc.setHeader hdr hnext hfree, h.tree.chain, h.tree.sorted, ?_⟩,
      h.tree.occupancy⟩
    rw [Db.setHeader_header, hroot]
    exact h.tree.upper
  heap := by
    refine ⟨h.heap.alloc.setHeader hdr hnext hfree, h.heap.chain, ?_, h.heap.last⟩
    rw [Db.setHeader_header, hfirst]
    exact h.heap.first

end Steps

/-! ## Runs of both -/

/-- The calls on the tree and the heap -/
inductive StorageOp where
  | tree (op : TreeOp)
  | heap (op : HeapOp)
  deriving DecidableEq

namespace StorageOp

def routine (rowSize : UInt16) : StorageOp → Routine HeapAnswer
  | tree op => do return .code (← op.routine)
  | heap op => op.routine rowSize

def step (rowSize : UInt16) (op : StorageOp) (s : HeapState) :
    Except Fault (HeapAnswer × HeapState) :=
  match s.db.exec (op.routine rowSize) with
  | .ok (r, db) => .ok (r, ⟨db, r.returned s.refs⟩)
  | .error e => .error e

/-- Rows have the right size, and only returned references are deleted. -/
def HeapOk (rowSize : UInt16) : StorageOp → HeapState → Prop
  | tree _, _ => True
  | heap op, s => op.Ok rowSize s

instance (rowSize : UInt16) : (op : StorageOp) → (s : HeapState) → Decidable (op.HeapOk rowSize s)
  | tree _, _ => inferInstanceAs (Decidable True)
  | heap op, s => inferInstanceAs (Decidable (op.Ok rowSize s))

/-- The tree is in a state its code is made for, and the heap is used as intended. -/
def Ok (rowSize : UInt16) (op : StorageOp) (s : HeapState) : Prop :=
  Separated s.db ∧ op.HeapOk rowSize s

end StorageOp

/-- The database stores a tree and a heap with all returned references. -/
structure StoresBoth (pageSize : UInt32) (rowSize : UInt16) (s : HeapState) : Prop where
  pageSize : s.db.fields.pageSize = pageSize
  storage : ∃ t hp, StorageInv s.db rowSize.toNat t hp ∧ ∀ ref ∈ s.refs, InHeap hp ref

section Run

variable {pageSize : UInt32} {rowSize : UInt16} {s : HeapState}

theorem StorageOp.wp_spec (op : StorageOp) (hcap : HoldsTwo pageSize)
    (hdims : HeapDims pageSize rowSize) (h : StoresBoth pageSize rowSize s)
    (hok : op.Ok rowSize s) :
    wpDb (op.routine rowSize) s.db fun r db' =>
      StoresBoth pageSize rowSize ⟨db', r.returned s.refs⟩ := by
  obtain ⟨rfl, t, hp, hinv, hrefs⟩ := h
  cases op with
  | tree op =>
    have hstores : StoresMap s.db (hp.map (·.pid)) (lookup t.entries) s.db :=
      ⟨t, ⟨hinv.tree, rfl, fun _ _ => rfl⟩, rfl⟩
    have hsafe := hok.1.safe hinv.tree.toTreeShape op
    rw [StorageOp.routine, wpDb_bind]
    apply wpDb_mono (op.wp_spec hcap hstores hsafe)
    rintro r db' ⟨m', -, t', hstep, -⟩
    exact ⟨outside_pageSize hstep.outside, t', hp, hinv.treeStep hstep, hrefs⟩
  | heap op =>
    apply wpDb_mono (op.wp_spec hinv.heap hdims hrefs hok.2)
    rintro r db' ⟨hp', hstep, -, hrefs', -⟩
    exact ⟨heapOutside_pageSize hstep.outside, t, hp', hinv.heapStep hstep, hrefs'⟩

theorem StorageOp.step_spec (op : StorageOp) (hcap : HoldsTwo pageSize)
    (hdims : HeapDims pageSize rowSize) (h : StoresBoth pageSize rowSize s)
    (hok : op.Ok rowSize s) :
    (∀ r s', op.step rowSize s = .ok (r, s') → StoresBoth pageSize rowSize s') ∧
    ∀ e, op.step rowSize s = .error e → e = .idsExhausted := by
  obtain ⟨hanswer, hfault⟩ := wpDb_exec (op.wp_spec hcap hdims h hok)
  unfold StorageOp.step
  cases hrun : s.db.exec (op.routine rowSize) with
  | error e =>
    refine ⟨fun r s' hout => (nomatch hout), fun e' hout => ?_⟩
    exact Except.error.inj hout ▸ hfault e hrun
  | ok out =>
    refine ⟨fun r s' hout => ?_, fun e hout => nomatch hout⟩
    simp only [Except.ok.injEq, Prod.mk.injEq] at hout
    obtain ⟨rfl, rfl⟩ := hout
    exact hanswer out.1 out.2 hrun

theorem fresh_storageInv (hcap : HoldsTwo pageSize) (hdims : HeapDims pageSize rowSize) :
    StorageInv (Db.fresh pageSize) rowSize.toNat emptyTree [⟨1, [], []⟩] :=
  ⟨fresh_treeInv hcap, fresh_heapShape hdims⟩

/-- Every run of both structures on a new database keeps both; it can only fail for want of
    page ids. -/
theorem storageRun_inv (hcap : HoldsTwo pageSize) (hdims : HeapDims pageSize rowSize)
    {ops : List StorageOp}
    (hok : ∀ c ∈ calls (StorageOp.step rowSize) ops (HeapState.fresh pageSize),
      c.1.Ok rowSize c.2) :
    (∀ rs s, runAll (StorageOp.step rowSize) ops (HeapState.fresh pageSize) = .ok (rs, s) →
      StoresBoth pageSize rowSize s) ∧
    ∀ e, runAll (StorageOp.step rowSize) ops (HeapState.fresh pageSize) = .error e →
      e = .idsExhausted := by
  have hfresh : StoresBoth pageSize rowSize (HeapState.fresh pageSize) :=
    ⟨rfl, _, _, fresh_storageInv hcap hdims, by simp [HeapState.fresh]⟩
  exact runAll_inv (fun op _ hs hok => StorageOp.step_spec op hcap hdims hs hok) hfresh hok

end Run

end MiniDb
