import MiniDb.Bptree.Code
import MiniDb.Pager.Ledger

/-!
# The pins of the tree

Every function of `bptree.c` gives back the pins it takes, on every branch, and it marks what it
writes.  `fix_leaf_after_delete` goes on reading the entries of the parent after it has released
it; in between it looks up the two siblings only.

## Key results

- `balanced_bptreeSearch`, `balanced_bptreeInsert`, `balanced_bptreeDelete`
-/

namespace MiniDb

open Bytes Ledger Pager

/-! ## Changes inside a page keep its length -/

theorem length_writeEntries {α : Type} {c : Codec α} {base i : Nat} {pg pg' : Page} {l : List α}
    (h : writeEntries c base pg i l = some pg') : pg'.length = pg.length := by
  induction l generalizing pg i with
  | nil => rw [Option.some.inj h]
  | cons a l ih =>
    obtain ⟨pg₁, hput, h⟩ := Option.bind_eq_some_iff.mp h
    rw [ih h, Codec.length_put? hput]

theorem length_zeroRange {pg pg' : Page} {off n : Nat} (h : zeroRange pg off n = some pg') :
    pg'.length = pg.length := by
  unfold zeroRange at h
  split at h
  next hroom =>
    rw [← Option.some.inj h, length_splice _ _ _ (by rwa [List.length_replicate])]
  next => contradiction

theorem length_shiftRight {α : Type} {c : Codec α} {base idx n : Nat} {pg pg' : Page}
    (h : shiftRight c base idx n pg = some pg') : pg'.length = pg.length := by
  induction n generalizing pg with
  | zero => rw [Option.some.inj h]
  | succ n ih =>
    rw [shiftRight] at h
    split at h
    next =>
      obtain ⟨e, -, h⟩ := Option.bind_eq_some_iff.mp h
      obtain ⟨pg₁, hput, h⟩ := Option.bind_eq_some_iff.mp h
      rw [ih h, Codec.length_put? hput]
    next => rw [Option.some.inj h]

theorem length_shiftLeft {α : Type} {c : Codec α} {base n i : Nat} {pg pg' : Page}
    (h : shiftLeft c base n i pg = some pg') : pg'.length = pg.length := by
  induction n generalizing pg i with
  | zero => rw [Option.some.inj h]
  | succ n ih =>
    obtain ⟨e, -, h⟩ := Option.bind_eq_some_iff.mp h
    obtain ⟨pg₁, hput, h⟩ := Option.bind_eq_some_iff.mp h
    rw [ih h, Codec.length_put? hput]

theorem length_leafInsertEntry {pg pg' : Page} {lph : LeafPageHeader} {key : Key} {ref : RowRef}
    (h : leafInsertEntry pg lph key ref = some pg') : pg'.length = pg.length := by
  obtain ⟨entries, -, h⟩ := Option.bind_eq_some_iff.mp h
  obtain ⟨pg₁, hshift, h⟩ := Option.bind_eq_some_iff.mp h
  obtain ⟨pg₂, hput, h⟩ := Option.bind_eq_some_iff.mp h
  rw [Codec.length_put? h, Codec.length_put? hput, length_shiftRight hshift]

theorem length_internalInsertEntry {pg pg' : Page} {iph : InternalPageHeader} {key : Key}
    {rightPid : PageId} (h : internalInsertEntry pg iph key rightPid = some pg') :
    pg'.length = pg.length := by
  obtain ⟨entries, -, h⟩ := Option.bind_eq_some_iff.mp h
  obtain ⟨pg₁, hshift, h⟩ := Option.bind_eq_some_iff.mp h
  obtain ⟨pg₂, hput, h⟩ := Option.bind_eq_some_iff.mp h
  rw [Codec.length_put? h, Codec.length_put? hput, length_shiftRight hshift]

theorem length_deleteEntryFromLeaf {pg pg' : Page} {lph : LeafPageHeader} {idx : UInt32}
    (h : deleteEntryFromLeaf pg lph idx = some pg') : pg'.length = pg.length := by
  obtain ⟨pg₁, hshift, h⟩ := Option.bind_eq_some_iff.mp h
  rw [Codec.length_put? h, length_shiftLeft hshift]

theorem length_deleteEntryFromInternal {pg pg' : Page} {iph : InternalPageHeader} {idx : UInt32}
    (h : deleteEntryFromInternal pg iph idx = some pg') : pg'.length = pg.length := by
  obtain ⟨pg₁, hshift, h⟩ := Option.bind_eq_some_iff.mp h
  rw [Codec.length_put? h, length_shiftLeft hshift]

variable {file : FileId} {cap : Nat}

/-! ## Search -/

theorem obeys_internalChildForKey {t : Ledger} {Q : PageId → Ledger → Prop} {pid : PageId}
    {page : Page} {key : Key} (hQ : ∀ child, Q child t) :
    Obeys file cap (internalChildForKey pid page key) t Q := by
  simp only [internalChildForKey, obeys_bind, obeys_inBounds, obeys_ite, obeys_note, obeys_pure]
  exact fun _ _ => ⟨fun _ => hQ _, fun _ => hQ _⟩

theorem balanced_findLeafLoop (key : Key) (n : Nat) (pid : PageId) :
    Balanced file 1 (findLeafLoop key n pid) := by
  intro cap pins recent hpins
  induction n generalizing pid recent with
  | zero => exact obeys_throw _
  | succ n ih =>
    simp only [findLeafLoop, obeys_bind, obeys_getPage, obeys_load, obeys_ite, obeys_unpin,
      obeys_pure, pin_mk]
    refine ⟨hpins, Or.inl (List.mem_cons_self ..), fun page _ => ⟨fun _ => unpin_head ⟨_, rfl⟩, fun _ => ?_⟩⟩
    exact obeys_internalChildForKey fun child => unpin_head (ih child _)

theorem balanced_findLeaf (key : Key) : Balanced file 1 (findLeaf key) := by
  intro cap pins recent hpins
  simp only [findLeaf, obeys_bind, obeys_getHeader]
  exact fun _ _ => balanced_findLeafLoop key _ _ pins recent hpins

theorem balanced_bptreeSearch (key : Key) : Balanced file 1 (bptreeSearch key) := by
  intro cap pins recent hpins
  simp only [bptreeSearch, obeys_bind]
  apply (balanced_findLeaf key).call hpins
  intro leafPid recent
  simp only [obeys_getPage, obeys_load, obeys_inBounds, obeys_unpin, obeys_ite, obeys_pure, pin_mk]
  refine ⟨hpins, Or.inl (List.mem_cons_self ..), fun page _ entries _ => unpin_head ?_⟩
  exact ⟨fun _ => ⟨_, rfl⟩, fun _ => ⟨_, rfl⟩⟩

/-! ## Insertion -/

theorem balanced_setParent (child parent : PageId) : Balanced file 1 (setParent child parent) := by
  intro cap pins recent hpins
  simp only [setParent, obeys_bind, obeys_getPage, obeys_load, obeys_inBounds, obeys_store,
    obeys_markDirty, obeys_unpin, pin_mk, mark_write]
  refine ⟨hpins, Or.inl (List.mem_cons_self ..), fun cp hcp page hput => ⟨List.mem_cons_self .., ?_,
    unpin_head ⟨_, rfl⟩⟩⟩
  rw [Codec.length_put? hput, hcp]

theorem balanced_setParents (parent : PageId) (children : List PageId) :
    Balanced file 1 (setParents parent children) := by
  intro cap pins recent hpins
  induction children generalizing recent with
  | nil => exact ⟨_, rfl⟩
  | cons child rest ih =>
    simp only [setParents, obeys_bind]
    exact (balanced_setParent child parent).call hpins fun _ recent => ih recent

theorem balanced_splitInternal {f : PageId → Key → PageId → Routine Unit}
    (hf : ∀ leftPid key rightPid, Balanced file 3 (f leftPid key rightPid)) (nodePid : PageId)
    (key : Key) (rightChild : PageId) : Balanced file 3 (splitInternal f nodePid key rightChild) := by
  intro cap pins recent hpins
  simp only [splitInternal, obeys_bind, obeys_getPageSize, obeys_getPage, obeys_load, obeys_inBounds,
    pin_mk]
  refine ⟨by omega, Or.inl (List.mem_cons_self ..), fun page hpage entries _ mid _ => ?_⟩
  apply balanced_pagerAllocPage.call (by rw [List.length_cons]; omega)
  intro newPid recent
  simp only [obeys_store, obeys_markDirty, pin_mk, mark_write]
  refine ⟨by rw [List.length_cons]; omega, fun newPage hput newPage' hwrite =>
    ⟨List.mem_cons_self .., ?_, ?_⟩⟩
  · rw [length_writeEntries hwrite, Codec.length_put? hput, length_zeroPage]
  -- the children that moved, with both halves pinned
  have hthree : (newPid :: nodePid :: pins).length + 1 ≤ cap := by
    rw [List.length_cons, List.length_cons]
    omega
  apply (balanced_setParent _ _).call hthree
  intro _ recent
  apply (balanced_setParents _ _).call hthree
  intro _ recent
  refine ⟨Or.inl (by simp), fun page hpage page₁ hput₁ page₂ hwrite₂ page₃ hzero₃ => ?_⟩
  simp only [obeys_unpin, mark_write]
  refine ⟨by simp, ?_, unpin_head (unpin_head ?_)⟩
  · rw [length_zeroRange hzero₃, length_writeEntries hwrite₂, Codec.length_put? hput₁, hpage]
  · exact hf _ _ _ pins recent hpins

theorem balanced_insertIntoParent (n : Nat) (leftPid : PageId) (key : Key) (rightPid : PageId) :
    Balanced file 3 (insertIntoParent n leftPid key rightPid) := by
  induction n generalizing leftPid key rightPid with
  | zero => exact fun _ _ _ _ => obeys_throw _
  | succ n ih =>
    intro cap pins recent hpins
    have hone : pins.length + 1 ≤ cap := by omega
    simp only [insertIntoParent, obeys_bind, obeys_getPage, obeys_load, obeys_unpin, obeys_getFields,
      obeys_ite, pin_mk]
    refine ⟨hone, Or.inl (List.mem_cons_self ..), fun leftPage _ => unpin_head fun f hf => ⟨fun _ => ?_,
      fun _ => ?_⟩⟩
    · -- a new root
      apply balanced_pagerAllocPage.call hone
      intro newRoot recent
      simp only [obeys_inBounds, obeys_store, obeys_markDirty, pin_mk, mark_write]
      refine ⟨hone, fun rp hput rp' hput' => ⟨List.mem_cons_self .., ?_, unpin_head ?_⟩⟩
      · rw [Codec.length_put? hput', Codec.length_put? hput, length_zeroPage, ← hf]
      · apply (balanced_setParent _ _).call hone
        intro _ recent
        apply (balanced_setParent _ _).call hone
        intro _ recent
        simp only [obeys_modifyHeader, implies_true]
        exact ⟨_, rfl⟩
    · -- a parent with room, and one that is split after its page has been released
      refine ⟨hone, Or.inl (List.mem_cons_self ..), fun pp hpp => ⟨fun _ => ?_, fun _ => ?_⟩⟩
      · simp only [obeys_inBounds, obeys_store, obeys_markDirty, mark_write]
        refine fun page hinsert => ⟨List.mem_cons_self .., ?_, unpin_head ?_⟩
        · rw [length_internalInsertEntry hinsert, hpp]
        · exact balanced_setParent _ _ pins _ hone
      · refine unpin_head ?_
        apply (balanced_setParent _ _).call hone
        intro _ recent
        exact balanced_splitInternal ih _ _ _ pins recent hpins

theorem balanced_setPrevLeaf (next prev : PageId) :
    Balanced file 1 (splitLeaf.setPrevLeaf next prev) := by
  intro cap pins recent hpins
  simp only [splitLeaf.setPrevLeaf, obeys_ite, obeys_bind, obeys_getPage, obeys_load, obeys_inBounds,
    obeys_store, obeys_markDirty, obeys_unpin, obeys_pure, pin_mk, mark_write]
  refine ⟨fun _ => ⟨hpins, Or.inl (List.mem_cons_self ..), fun rp hrp page hput =>
    ⟨List.mem_cons_self .., ?_, unpin_head ⟨_, rfl⟩⟩⟩, fun _ => ⟨_, rfl⟩⟩
  rw [Codec.length_put? hput, hrp]

theorem balanced_splitLeaf (leafPid : PageId) (key : Key) (ref : RowRef) :
    Balanced file 3 (splitLeaf leafPid key ref) := by
  intro cap pins recent hpins
  simp only [splitLeaf, obeys_bind, obeys_getPageSize, obeys_getPage, obeys_load, obeys_inBounds,
    pin_mk]
  refine ⟨by omega, Or.inl (List.mem_cons_self ..), fun page hpage entries _ => ?_⟩
  apply balanced_pagerAllocPage.call (by rw [List.length_cons]; omega)
  intro newPid recent
  simp only [obeys_store, obeys_markDirty, pin_mk, mark_write]
  refine ⟨by rw [List.length_cons]; omega, fun newPage hput newPage' hwrite =>
    ⟨List.mem_cons_self .., ?_, ?_⟩⟩
  · rw [length_writeEntries hwrite, Codec.length_put? hput, length_zeroPage]
  -- the leaf behind, with both halves pinned
  apply (balanced_setPrevLeaf _ _).call (by rw [List.length_cons, List.length_cons]; omega)
  intro _ recent
  refine ⟨Or.inl (by simp), fun page hpage page₁ hput₁ page₂ hwrite₂ page₃ hzero₃ => ?_⟩
  simp only [obeys_unpin, mark_write]
  refine ⟨by simp, ?_, fun promote _ => unpin_head (unpin_head ?_)⟩
  · rw [length_zeroRange hzero₃, length_writeEntries hwrite₂, Codec.length_put? hput₁, hpage]
  · exact balanced_insertIntoParent _ _ _ _ pins recent hpins

theorem balanced_bptreeInsert (key : Key) (ref : RowRef) :
    Balanced file 3 (bptreeInsert key ref) := by
  intro cap pins recent hpins
  have hone : pins.length + 1 ≤ cap := by omega
  simp only [bptreeInsert, obeys_bind]
  apply (balanced_findLeaf key).call hone
  intro leafPid recent
  simp only [obeys_getPage, obeys_load, obeys_inBounds, obeys_ite, obeys_unpin, obeys_getPageSize,
    obeys_store, obeys_markDirty, obeys_pure, obeys_bind, pin_mk, mark_write]
  refine ⟨hone, Or.inl (List.mem_cons_self ..), fun page hpage entries _ =>
    ⟨fun _ => unpin_head ⟨_, rfl⟩, fun _ => ⟨fun _ page' hinsert => ?_, fun _ => unpin_head ?_⟩⟩⟩
  · refine ⟨List.mem_cons_self .., ?_, unpin_head ⟨_, rfl⟩⟩
    rw [length_leafInsertEntry hinsert, hpage]
  · exact (balanced_splitLeaf _ _ _).call hpins fun _ _ => ⟨_, rfl⟩

/-! ## Deletion -/

theorem balanced_fixInternalAfterDelete (nodePid : PageId) :
    Balanced file 1 (fixInternalAfterDelete nodePid) := by
  intro cap pins recent hpins
  simp only [fixInternalAfterDelete, obeys_bind, obeys_getHeader, obeys_ite, obeys_getPage, obeys_load,
    obeys_unpin, pin_mk]
  refine fun hdr _ => ⟨fun _ => ⟨hpins, Or.inl (List.mem_cons_self ..), fun page _ =>
    ⟨fun _ => unpin_head ?_, fun _ => unpin_head ⟨_, rfl⟩⟩⟩, fun _ => ⟨hpins, unpin_head ⟨_, rfl⟩⟩⟩
  apply (balanced_pagerFreePage nodePid).call hpins
  intro _ recent
  simp only [obeys_modifyHeader, implies_true]
  exact balanced_setParent _ _ pins recent hpins

theorem balanced_insertBorrowed (leafPid : PageId) (e : LeafEntry) :
    Balanced file 1 (insertBorrowed leafPid e) := by
  intro cap pins recent hpins
  simp only [insertBorrowed, obeys_bind, obeys_getPage, obeys_load, obeys_inBounds, obeys_store,
    obeys_markDirty, obeys_unpin, pin_mk, mark_write]
  refine ⟨hpins, Or.inl (List.mem_cons_self ..), fun page hpage page' hinsert =>
    ⟨List.mem_cons_self .., ?_, unpin_head ⟨_, rfl⟩⟩⟩
  rw [length_leafInsertEntry hinsert, hpage]

theorem balanced_setSeparator (parentPid : PageId) (sepIdx : Nat) (fromPid : PageId) :
    Balanced file 2 (setSeparator parentPid sepIdx fromPid) := by
  intro cap pins recent hpins
  simp only [setSeparator, obeys_bind, obeys_getPage, obeys_load, obeys_inBounds, obeys_unpin,
    obeys_store, obeys_markDirty, pin_mk]
  refine ⟨by omega, by rw [List.length_cons]; omega, Or.inl (List.mem_cons_self ..),
    fun page _ first _ => ⟨Or.inl (by simp), fun pp hpp e _ pp₁ hput₁ => unpin_head fun pp₂ hput₂ => ?_⟩⟩
  simp only [mark_write]
  refine ⟨List.mem_cons_self .., ?_, unpin_head ⟨_, rfl⟩⟩
  rw [Codec.length_put? hput₂, Codec.length_put? hput₁, hpp]

/-- A page remembered among the `k` newest is among the `k + 1` newest after the next lookup. -/
theorem mem_take_pin {k : Nat} {pid r : PageId} {recent : List PageId} (h : pid ∈ recent.take k)
    (hk : k < memory) : pid ∈ ((r :: recent).take memory).take (k + 1) := by
  rw [List.take_take, Nat.min_eq_left hk, List.take_succ_cons]
  exact List.mem_cons_of_mem _ h

theorem mem_take_succ {k : Nat} {pid : PageId} {recent : List PageId} (h : pid ∈ recent.take k) :
    pid ∈ recent.take (k + 1) :=
  (List.take_prefix_take_left (Nat.le_succ k)).subset h

theorem obeys_readChild {t : Ledger} {Q : PageId → Ledger → Prop} {parentPid : PageId} {idx : Nat}
    {keyCount : UInt32} (hparent : parentPid ∈ t.recent) (hQ : ∀ child, Q child t) :
    Obeys file cap (readChild parentPid idx keyCount) t Q := by
  simp only [readChild, obeys_bind, obeys_note, obeys_load, obeys_inBounds, obeys_pure]
  exact ⟨Or.inr hparent, fun _ _ _ _ => hQ _⟩

theorem obeys_leftSibling {t : Ledger} {Q : PageId → Ledger → Prop} {parentPid : PageId}
    {iph : InternalPageHeader} {childIdx : Nat} (hparent : parentPid ∈ t.recent)
    (hQ : ∀ child, Q child t) : Obeys file cap (leftSibling parentPid iph childIdx) t Q := by
  simp only [leftSibling, obeys_ite, obeys_pure]
  exact ⟨fun _ => hQ _, fun _ => obeys_readChild hparent hQ⟩

section Siblings

variable {k : Nat} {leafPid parentPid : PageId} {childIdx : Nat} {iph : InternalPageHeader}
  {pins recent : List PageId}

/-- The parent is read while it is among the pages looked up last, and it still is when the sibling
    cannot lend. -/
theorem obeys_borrowFromRight (hparent : parentPid ∈ recent.take k) (hk : k < memory)
    (hpins : pins.length + 2 ≤ cap) :
    Obeys file cap (borrowFromRight leafPid parentPid childIdx iph) ⟨pins, recent, []⟩ fun b t =>
      ∃ recent', t = ⟨pins, recent', []⟩ ∧ (b = false → parentPid ∈ recent'.take (k + 1)) := by
  have hone : pins.length + 1 ≤ cap := by omega
  simp only [borrowFromRight, obeys_bind, obeys_getPageSize, obeys_ite, obeys_pure]
  refine ⟨fun _ => ?_, fun _ => ⟨_, rfl, fun _ => mem_take_succ hparent⟩⟩
  apply obeys_readChild (List.mem_of_mem_take hparent)
  intro rsibPid
  simp only [obeys_note, obeys_getPage, obeys_load, obeys_inBounds, obeys_store, obeys_markDirty,
    obeys_unpin, pin_mk, mark_write]
  refine ⟨hone, Or.inl (List.mem_cons_self ..), fun rpage hrpage => ⟨fun _ borrowed _ page hdelete => ?_,
    fun _ => unpin_head ⟨_, rfl, fun _ => mem_take_pin hparent hk⟩⟩⟩
  refine ⟨List.mem_cons_self .., ?_, unpin_head ?_⟩
  · rw [length_deleteEntryFromLeaf hdelete, hrpage]
  · apply (balanced_insertBorrowed _ _).call hone
    intro _ recent
    apply (balanced_setSeparator _ _ _).call hpins
    intro _ recent
    exact ⟨_, rfl, fun h => absurd h (by decide)⟩

theorem obeys_borrowFromLeft (hparent : parentPid ∈ recent.take k) (hk : k < memory)
    (hpins : pins.length + 2 ≤ cap) :
    Obeys file cap (borrowFromLeft leafPid parentPid childIdx iph) ⟨pins, recent, []⟩ fun b t =>
      ∃ recent', t = ⟨pins, recent', []⟩ ∧ (b = false → parentPid ∈ recent'.take (k + 1)) := by
  have hone : pins.length + 1 ≤ cap := by omega
  simp only [borrowFromLeft, obeys_bind, obeys_getPageSize, obeys_ite, obeys_pure]
  refine ⟨fun _ => ?_, fun _ => ⟨_, rfl, fun _ => mem_take_succ hparent⟩⟩
  apply obeys_leftSibling (List.mem_of_mem_take hparent)
  intro lsibPid
  simp only [obeys_note, obeys_getPage, obeys_load, obeys_inBounds, obeys_store, obeys_markDirty,
    obeys_unpin, pin_mk, mark_write]
  refine ⟨hone, Or.inl (List.mem_cons_self ..), fun lpage hlpage => ⟨fun _ borrowed _ page hput => ?_,
    fun _ => unpin_head ⟨_, rfl, fun _ => mem_take_pin hparent hk⟩⟩⟩
  refine ⟨List.mem_cons_self .., ?_, unpin_head ?_⟩
  · rw [Codec.length_put? hput, hlpage]
  · apply (balanced_insertBorrowed _ _).call hone
    intro _ recent
    apply (balanced_setSeparator _ _ _).call hpins
    intro _ recent
    exact ⟨_, rfl, fun h => absurd h (by decide)⟩

end Siblings

theorem obeys_appendLeaf {dstPid srcPid : PageId} {pins recent : List PageId} (hdst : dstPid ∈ pins)
    (hsrc : srcPid ∈ pins) {Q : Unit → Ledger → Prop} (hQ : Q () ⟨pins, recent, []⟩) :
    Obeys file cap (appendLeaf dstPid srcPid) ⟨pins, recent, []⟩ Q := by
  simp only [appendLeaf, obeys_bind, obeys_load, obeys_inBounds, obeys_store, obeys_markDirty,
    mark_write]
  refine ⟨Or.inl hdst, fun dst hlen => ⟨Or.inl hsrc, fun src _ entries _ page hwrite page' hput =>
    ⟨hdst, ?_, hQ⟩⟩⟩
  rw [Codec.length_put? hput, length_writeEntries hwrite, hlen]

theorem balanced_removeSeparator (parentPid : PageId) (sepIdx : UInt32) :
    Balanced file 1 (removeSeparator parentPid sepIdx) := by
  intro cap pins recent hpins
  simp only [removeSeparator, obeys_bind, obeys_getPage, obeys_load, obeys_note, obeys_inBounds,
    obeys_store, obeys_markDirty, obeys_unpin, pin_mk, mark_write]
  refine ⟨hpins, Or.inl (List.mem_cons_self ..), fun pp hpp page hdelete =>
    ⟨List.mem_cons_self .., ?_, unpin_head ?_⟩⟩
  · rw [length_deleteEntryFromInternal hdelete, hpp]
  · exact balanced_fixInternalAfterDelete _ pins _ hpins

theorem obeys_mergeLeaf {leafPid parentPid : PageId} {childIdx : Nat} {iph : InternalPageHeader}
    {pins recent : List PageId} (hparent : parentPid ∈ recent) (hpins : pins.length + 2 ≤ cap) :
    Obeys file cap (mergeLeaf leafPid parentPid childIdx iph) ⟨pins, recent, []⟩ fun _ t =>
      ∃ recent', t = ⟨pins, recent', []⟩ := by
  have hone : pins.length + 1 ≤ cap := by omega
  have htwo {r : PageId} : (r :: pins).length < cap := by
    rw [List.length_cons]
    omega
  -- what follows once both leaves are released
  have hrest {next dst src : PageId} {sepIdx : UInt32} (recent : List PageId) :
      Obeys file cap (splitLeaf.setPrevLeaf next dst) ⟨pins, recent, []⟩ fun _ t =>
        Obeys file cap (pagerFreePage src) t fun _ t =>
          Obeys file cap (removeSeparator parentPid sepIdx) t fun _ t =>
            ∃ recent', t = ⟨pins, recent', []⟩ := by
    apply (balanced_setPrevLeaf _ _).call hone
    intro _ recent
    apply (balanced_pagerFreePage _).call hone
    intro _ recent
    exact balanced_removeSeparator _ _ pins recent hone
  simp only [mergeLeaf, obeys_ite, obeys_bind, obeys_note, obeys_getPage, obeys_load, obeys_unpin]
  constructor
  · -- into the left sibling
    intro _
    apply obeys_leftSibling hparent
    intro lsibPid
    refine ⟨hone, htwo, Or.inl (List.mem_cons_self ..), fun page _ => ?_⟩
    apply obeys_appendLeaf (by simp) (by simp)
    exact unpin_second (unpin_head (hrest _))
  · -- the right sibling into the leaf
    intro _
    apply obeys_readChild hparent
    intro rsibPid
    refine ⟨hone, htwo, Or.inl (List.mem_cons_self ..), fun page _ => ?_⟩
    apply obeys_appendLeaf (by simp) (by simp)
    exact unpin_second (unpin_head (hrest _))

theorem balanced_fixLeafAfterDelete (leafPid : PageId) :
    Balanced file 2 (fixLeafAfterDelete leafPid) := by
  intro cap pins recent hpins
  have hone : pins.length + 1 ≤ cap := by omega
  simp only [fixLeafAfterDelete, obeys_bind, obeys_getPageSize, obeys_getPage, obeys_load, obeys_unpin,
    obeys_getHeader, obeys_ite, obeys_pure, obeys_note, obeys_inBounds, pin_mk]
  refine ⟨hone, Or.inl (List.mem_cons_self ..), fun page _ => unpin_head fun hdr _ =>
    ⟨fun _ => ⟨_, rfl⟩, fun _ => ⟨fun _ => ⟨_, rfl⟩, fun _ => ?_⟩⟩⟩
  refine ⟨hone, Or.inl (List.mem_cons_self ..), fun pp _ entries _ => unpin_head ?_⟩
  split
  next => exact ⟨_, rfl⟩
  next childIdx _ =>
    -- the parent is released, and the page looked up last
    simp only [obeys_bind]
    refine obeys_mono (obeys_borrowFromRight (k := 1) ?_ (by decide) hpins) ?_
    · simp [memory]
    rintro b _ ⟨recent, rfl, hb⟩
    cases b with
    | true => exact ⟨_, rfl⟩
    | false =>
      simp only [Bool.false_eq_true, if_false, obeys_bind]
      refine obeys_mono (obeys_borrowFromLeft (hb rfl) (by decide) hpins) ?_
      rintro b _ ⟨recent, rfl, hb⟩
      cases b with
      | true => exact ⟨_, rfl⟩
      | false => exact obeys_mergeLeaf (List.mem_of_mem_take (hb rfl)) hpins

theorem balanced_bptreeDelete (key : Key) : Balanced file 2 (bptreeDelete key) := by
  intro cap pins recent hpins
  have hone : pins.length + 1 ≤ cap := by omega
  simp only [bptreeDelete, obeys_bind]
  apply (balanced_findLeaf key).call hone
  intro leafPid recent
  simp only [obeys_getPage, obeys_load, obeys_inBounds, obeys_ite, obeys_unpin, obeys_store,
    obeys_markDirty, obeys_pure, obeys_bind, pin_mk, mark_write]
  refine ⟨hone, Or.inl (List.mem_cons_self ..), fun page hpage entries _ =>
    ⟨fun _ => unpin_head ⟨_, rfl⟩, fun _ page' hdelete => ⟨List.mem_cons_self .., ?_, unpin_head ?_⟩⟩⟩
  · rw [length_deleteEntryFromLeaf hdelete, hpage]
  · exact (balanced_fixLeafAfterDelete _).call hpins fun _ _ => ⟨_, rfl⟩

/-! ## Height -/

theorem balanced_bptreeHeightLoop (n h : Nat) (pid : PageId) :
    Balanced file 1 (bptreeHeightLoop n h pid) := by
  intro cap pins recent hpins
  induction n generalizing h pid recent with
  | zero => exact obeys_throw _
  | succ n ih =>
    simp only [bptreeHeightLoop, obeys_bind, obeys_getPage, obeys_load, obeys_ite, obeys_unpin,
      obeys_pure, pin_mk]
    exact ⟨hpins, Or.inl (List.mem_cons_self ..), fun page _ => ⟨fun _ => unpin_head ⟨_, rfl⟩,
      fun _ => unpin_head (ih _ _ _)⟩⟩

theorem balanced_bptreeHeight : Balanced file 1 bptreeHeight := by
  intro cap pins recent hpins
  simp only [bptreeHeight, obeys_bind, obeys_getHeader]
  exact fun _ _ => balanced_bptreeHeightLoop _ _ _ pins recent hpins

end MiniDb
