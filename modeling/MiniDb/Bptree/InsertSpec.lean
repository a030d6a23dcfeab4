import MiniDb.Bptree.ParentSpec

/-!
# Insertion

A key goes into the leaf it belongs to.  A full leaf is split first: the right half goes
to a new page that is linked in behind the old one, and its first key goes up.

## Key results

- `bptreeInsert_shape`: a new key is added, and a stored one is refused
- `bptreeInsert_spec`: the invariant of the tree is kept, too
-/

namespace MiniDb

open Bytes Lists

/-! ## Marks -/

/-- The marks with a new entry at the place of its key -/
theorem marks_insert {t : Tree} {key : Key} {A B : List Leaf} {l : Leaf}
    {lo hi : List LeafEntry} (hcut : KeyCut t key A B l lo hi)
    (hsorted : (t.leaves.flatMap Leaf.marks).Pairwise (· < ·)) (hnew : ∀ e ∈ hi, e.key ≠ key)
    (ref : RowRef) :
    ((A ++ l.withEnts (lo ++ ⟨key, ref⟩ :: hi) :: B).flatMap Leaf.marks).Pairwise
      (· < ·) := by
  rw [hcut.leaves] at hsorted
  obtain ⟨hA, hl, hB, hAl, hAB, hlB⟩ := marks_cut hsorted
  have hlfence := hcut.cut.left
  -- the key is below every mark to the right of its leaf and above every mark to the left
  have hB_key : ∀ b ∈ B.flatMap Leaf.marks, keyMark key < b := by
    intro b hb
    obtain ⟨b', hb', hm⟩ := List.mem_flatMap.mp hb
    have h1 := hcut.cut.right b'.child (List.mem_map_of_mem hb')
    have h2 : fenceMark b'.fence ≤ b := by
      rcases List.mem_cons.mp hm with rfl | hm
      · exact Nat.le_refl _
      · obtain ⟨B₁, B₂, rfl⟩ := List.append_of_mem hb'
        have := (marks_cut hB).2.1
        exact Nat.le_of_lt ((List.pairwise_cons.mp this).1 b hm)
    exact Nat.lt_of_lt_of_le h1 h2
  have hA_key : ∀ a ∈ A.flatMap Leaf.marks, a < keyMark key := fun a ha =>
    Nat.lt_trans (hAl a ha _ l.fence_mem_marks) hlfence
  rw [Leaf.marks, hcut.ents, List.map_append] at hl
  obtain ⟨hl1, hl2⟩ := List.pairwise_cons.mp hl
  obtain ⟨hl3, hl4, hl5⟩ := List.pairwise_append.mp hl2
  -- in the leaf it parts the entries before it from those behind it
  have hhi : ∀ m ∈ hi.map (keyMark ·.key), keyMark key < m := by
    intro m hm
    obtain ⟨e, he, rfl⟩ := List.mem_map.mp hm
    have h1 := keyMark_le_keyMark.mpr (hcut.above e he)
    have h2 : keyMark key ≠ keyMark e.key := fun h2 => hnew e he (keyMark_inj.mp h2).symm
    exact Nat.lt_of_le_of_ne h1 h2
  have hlo : ∀ m ∈ lo.map (keyMark ·.key), m < keyMark key := by
    intro m hm
    obtain ⟨e, he, rfl⟩ := List.mem_map.mp hm
    exact keyMark_lt_keyMark.mpr (hcut.below e he)
  have hl_mem : ∀ m ∈ fenceMark l.fence :: (lo.map (keyMark ·.key) ++ hi.map (keyMark ·.key)),
      m ∈ l.marks := by
    intro m hm
    rw [Leaf.marks, hcut.ents, List.map_append]
    exact hm
  rw [List.flatMap_append, List.flatMap_cons, Leaf.withEnts_marks, List.map_append,
    List.map_cons]
  refine List.pairwise_append.mpr ⟨hA, List.pairwise_append.mpr ⟨List.pairwise_cons.mpr
    ⟨fun m hm => ?_, List.pairwise_append.mpr ⟨hl3, List.pairwise_cons.mpr ⟨hhi, hl4⟩,
      fun a ha b hb => ?_⟩⟩, hB, fun m hm b hb => ?_⟩, fun a ha m hm => ?_⟩
  · rcases List.mem_append.mp hm with hm | hm
    · exact hl1 m (List.mem_append_left _ hm)
    · rcases List.mem_cons.mp hm with rfl | hm
      · exact hlfence
      · exact hl1 m (List.mem_append_right _ hm)
  · rcases List.mem_cons.mp hb with rfl | hb
    · exact hlo a ha
    · exact hl5 a ha b hb
  · -- a mark of the leaf is the new one, or one that was there
    by_cases hmk : m = keyMark key
    · rw [hmk]; exact hB_key b hb
    · refine hlB m (hl_mem m ?_) b hb
      simp only [List.mem_cons, List.mem_append] at hm ⊢
      tauto
  · rcases List.mem_append.mp hm with hm | hm
    · by_cases hmk : m = keyMark key
      · rw [hmk]; exact hA_key a ha
      · refine hAl a ha m (hl_mem m ?_)
        simp only [List.mem_cons, List.mem_append] at hm ⊢
        tauto
    · exact hAB a ha m hm

/-- The marks after the split of a leaf: the first key of the right half is the new fence. -/
theorem marks_split {A B : List Leaf} {l : Leaf} (q : PageId) {L R : List LeafEntry}
    {mid : LeafEntry} (hL : L ≠ [])
    (h : ((A ++ l.withEnts (L ++ mid :: R) :: B).flatMap Leaf.marks).Pairwise (· < ·)) :
    ((A ++ l.withEnts L :: keyedLeaf q mid R :: B).flatMap Leaf.marks).Pairwise (· < ·) := by
  obtain ⟨L', e, rfl⟩ := eq_append_singleton hL
  have hold : (A ++ l.withEnts (L' ++ [e] ++ mid :: R) :: B).flatMap Leaf.marks =
      (A.flatMap Leaf.marks ++ fenceMark l.fence :: L'.map (keyMark ·.key)) ++ keyMark e.key ::
        (keyMark mid.key :: (R.map (keyMark ·.key) ++ B.flatMap Leaf.marks)) := by
    simp [Leaf.withEnts_marks]
  have hnew : (A ++ l.withEnts (L' ++ [e]) :: keyedLeaf q mid R :: B).flatMap Leaf.marks =
      ((A.flatMap Leaf.marks ++ fenceMark l.fence :: L'.map (keyMark ·.key)) ++ [keyMark e.key]) ++
        fenceMark (some mid.key) ::
          (keyMark mid.key :: (R.map (keyMark ·.key) ++ B.flatMap Leaf.marks)) := by
    simp [Leaf.withEnts_marks, keyedLeaf_marks]
  rw [hold] at h
  rw [hnew]
  obtain ⟨h1, h2, h3⟩ := List.pairwise_append.mp h
  obtain ⟨h4, h5⟩ := List.pairwise_cons.mp h2
  obtain ⟨h6, h7⟩ := List.pairwise_cons.mp h5
  have hem := h4 (keyMark mid.key) (List.mem_cons_self ..)
  have hefence : keyMark e.key < fenceMark (some mid.key) := by
    simp only [keyMark, fenceMark] at hem ⊢
    omega
  have hmid : fenceMark (some mid.key) < keyMark mid.key := by
    simp only [keyMark, fenceMark]
    omega
  refine List.pairwise_append.mpr ⟨List.pairwise_append.mpr ⟨h1, List.pairwise_singleton _ _,
    fun a ha b hb => ?_⟩, List.pairwise_cons.mpr ⟨fun m hm => ?_, h5⟩, fun a ha b hb => ?_⟩
  · rw [List.mem_singleton.mp hb]
    exact h3 a ha _ (List.mem_cons_self ..)
  · rcases List.mem_cons.mp hm with rfl | hm
    · exact hmid
    · exact Nat.lt_trans hmid (h6 m hm)
  · have ha' : a ≤ keyMark e.key := by
      rcases List.mem_append.mp ha with ha | ha
      · exact Nat.le_of_lt (h3 a ha _ (List.mem_cons_self ..))
      · rw [List.mem_singleton.mp ha]
    rcases List.mem_cons.mp hb with rfl | hb
    · omega
    · have := h4 b hb
      omega

/-! ## Linking leaves -/

section

variable {db : Db}

/-- `prev_leaf_page_id` of the first leaf of a row is set. -/
theorem setPrevLeaf_spec {B : List Leaf} {p : PageId} (prev : PageId)
    (hchain : LeafChain db.ps db.pages p B 0) (hnodup : (B.map (·.pid)).Nodup)
    (h0 : ∀ l ∈ B, l.pid ≠ 0) {tol : Fault → Prop} :
    wpDb (splitLeaf.setPrevLeaf (firstPid B 0) prev) db (fun _ db' =>
      db'.fields = db.fields ∧ LeafChain db.ps db'.pages prev B 0 ∧
        (∀ q, q ∉ B.map (·.pid) → db'.pages q = db.pages q) ∧
        ∀ q, parentOf (db'.pages q) = parentOf (db.pages q)) tol := by
  rw [splitLeaf.setPrevLeaf]
  cases B with
  | nil => exact ⟨rfl, trivial, fun _ _ => rfl, fun _ => rfl⟩
  | cons b B =>
    obtain ⟨⟨par, cnt, his⟩, hrest⟩ := hchain
    have hb0 : b.pid ≠ 0 := h0 b (List.mem_cons_self ..)
    obtain ⟨hput, his'⟩ := LeafIs.of_put
      (⟨PageType.leaf.code, par, cnt, firstPid B 0, prev⟩ : LeafPageHeader) b.ents his.length rfl
      his.count his.entries his.fits
    have hbB : ∀ l ∈ B, l.pid ≠ b.pid := fun l hl =>
      (ne_of_nodup_map (A := [b]) hnodup (List.mem_singleton_self _) hl).symm
    rw [firstPid_cons, if_pos hb0]
    simp only [wpDb_bind, wpDb_getPage_of hb0, wpDb_load, his.header,
      wpDb_inBounds_some hput, wpDb_store, wpDb_markDirty, wpDb_unpin]
    refine ⟨rfl, ⟨⟨par, cnt, ?_⟩, ?_⟩, fun q hq => ?_, fun q => ?_⟩
    · rw [Db.setPage_pages_same]
      exact his'
    · refine hrest.congr fun l hl => SameButParent.of_eq ?_
      rw [Db.setPage_pages_ne _ _ (hbB l hl)]
    · rw [Db.setPage_pages_ne _ _ fun he => hq (by rw [he]; exact List.mem_cons_self ..)]
    · rw [Db.setPage_pages]
      split
      next he => rw [he, his'.parentOf, his.parentOf]
      next => rfl

/-! ## Splitting a leaf -/

variable {t : Tree} {others : List PageId} {key : Key} {A B : List Leaf} {l : Leaf}
  {lo hi : List LeafEntry}

theorem splitLeaf_spec (hcap : HoldsTwo db.fields.pageSize) (h : TreeShape db t others)
    (hcut : KeyCut t key A B l lo hi) (hnew : ∀ e ∈ hi, e.key ≠ key) (ref : RowRef)
    {par : PageId} {cnt : UInt32}
    (his : LeafIs db.ps (db.pages l.pid)
      ⟨PageType.leaf.code, par, cnt, firstPid B 0, lastPid A 0⟩ (lo ++ hi))
    (hidx : (leafFind (lo ++ hi) cnt key).toNat = lo.length)
    (hfull : ¬ cnt < maxLeafKeys db.fields.pageSize) {tol : Fault → Prop}
    (hids : IdsFor tol ((t.pids ++ others).length + t.levels.length + 2)) :
    wpDb (splitLeaf l.pid key ref) db (fun _ db' => ∃ t', ShapeStep db db' t' others ∧
      (t.Occupied (minLeafKeys db.fields.pageSize).toNat →
        t'.Occupied (minLeafKeys db.fields.pageSize).toNat) ∧
      t'.entries = A.flatMap (·.ents) ++ (lo ++ ⟨key, ref⟩ :: hi) ++ B.flatMap (·.ents)) tol := by
  have hlt := his.count_lt db.ps_lt
  have hcount := his.count
  have hfits := (leaf_fits_iff hcap).mp his.fits
  have hmax := two_le_maxLeafKeys hcap
  rw [UInt32.lt_iff_toNat_lt] at hfull
  dsimp only at hcount
  have htake : (lo ++ hi).take (leafFind (lo ++ hi) cnt key).toNat = lo := by
    rw [hidx, List.take_left]
  have hdrop : (lo ++ hi).drop (leafFind (lo ++ hi) cnt key).toNat = hi := by
    rw [hidx, List.drop_left]
  -- the numbers
  have htotal : (cnt + 1).toNat = cnt.toNat + 1 := UInt32.toNat_succ (by omega)
  have hsplit : ((cnt + 1) / 2).toNat = (cnt.toNat + 1) / 2 := by
    rw [UInt32.toNat_div, htotal]; rfl
  have htmp : (lo ++ (⟨key, ref⟩ : LeafEntry) :: hi).length = cnt.toNat + 1 := by
    rw [hcount]; simp; omega
  have hsplit_lt : ((cnt + 1) / 2).toNat < (lo ++ (⟨key, ref⟩ : LeafEntry) :: hi).length := by
    omega
  -- the `total` entries are cut at `split`: `mid` is the first one of the new leaf
  obtain ⟨L, mid, R, hents, hL, htakeL, hmid, hdropR, -⟩ := exists_cut_at hsplit_lt
  have hlen : L.length + R.length = cnt.toNat := by
    rw [hents, List.length_append, List.length_cons] at htmp; omega
  have hrcount : (cnt + 1 - (cnt + 1) / 2).toNat = (mid :: R).length := by
    rw [UInt32.toNat_sub_of_le _ _ (by rw [UInt32.le_iff_toNat_le]; omega), List.length_cons]
    omega
  have hzero : (maxLeafKeys db.fields.pageSize - (cnt + 1) / 2).toNat =
      (maxLeafKeys db.fields.pageSize).toNat - L.length := by
    rw [UInt32.toNat_sub_of_le _ _ (by rw [UInt32.le_iff_toNat_le]; omega), hL]
  have hmaxfits := (leaf_fits_iff hcap).mpr (Nat.le_refl _)
  have hLfits : leafBase + L.length * leafEntryC.size ≤ db.ps := (leaf_fits_iff hcap).mpr (by omega)
  have hRfits : leafBase + (mid :: R).length * leafEntryC.size ≤ db.ps :=
    (leaf_fits_iff hcap).mpr (by rw [List.length_cons]; omega)
  have hps8 : 8 ≤ db.ps := Nat.le_trans (by decide) hcap.le_pageSize
  -- the pages
  have hl_mem := hcut.mem
  have hA_mem : ∀ x ∈ A, x ∈ t.leaves := fun x hx => by rw [hcut.leaves]; simp [hx]
  have hB_mem : ∀ x ∈ B, x ∈ t.leaves := fun x hx => by rw [hcut.leaves]; simp [hx]
  have hnodup := (List.nodup_append.mp h.nodup).1
  rw [hcut.leaves] at hnodup
  have hnodup' := hnodup
  rw [show A ++ l :: B = (A ++ [l]) ++ B by simp] at hnodup'
  have hAl : ∀ x ∈ A, x.pid ≠ l.pid := fun x hx =>
    ne_of_nodup_map hnodup hx (List.mem_cons_self ..)
  have hAB : ∀ x ∈ A, ∀ y ∈ B, x.pid ≠ y.pid := fun x hx y hy =>
    ne_of_nodup_map hnodup hx (List.mem_cons_of_mem _ hy)
  have hlB : ∀ y ∈ B, l.pid ≠ y.pid := fun y hy => ne_of_nodup_map hnodup' (by simp) hy
  have hBnodup : (B.map (·.pid)).Nodup := by
    rw [List.map_append] at hnodup'
    exact (List.nodup_append.mp hnodup').2.1
  have hchain := h.chain
  rw [hcut.leaves] at hchain
  obtain ⟨hchainA, -, hchainB⟩ := LeafChain.cut_iff.mp hchain
  -- the run
  simp only [splitLeaf, wpDb_bind, wpDb_getPageSize, wpDb_getPage_iff hids.headerPage, wpDb_load,
    his.header, wpDb_inBounds_some his.read, htake, hdrop, hdropR, htakeL]
  refine ⟨h.ne_zero (TreeShape.leaf_mem_pids hl_mem),
    wpDb_mono (pagerAllocPage_spec h.alloc hps8 (hids.mono (by omega))) ?_⟩
  rintro newPid db₁ ⟨hnewPid, hnew0, halloc₁, hcore₁, hpages₁⟩
  -- the new leaf gets the upper half, between this leaf and the next one
  obtain ⟨pg₁, pg₂, hput, hwrite, hright⟩ := LeafIs.of_write
    (⟨PageType.leaf.code, par, cnt + 1 - (cnt + 1) / 2, firstPid B 0, l.pid⟩ : LeafPageHeader)
    (mid :: R) (length_zeroPage db.fields.pageSize) rfl hrcount hRfits
  have hne_new : ∀ p ∈ t.pids ++ others, p ≠ newPid := fun p hp he => hnewPid (he ▸ hp)
  have hleaf_new : ∀ x ∈ t.leaves, x.pid ≠ newPid := fun x hx =>
    hne_new _ (List.mem_append_left _ (TreeShape.leaf_mem_pids hx))
  have hpages₂ : ∀ q, q ≠ newPid → (db₁.setPage newPid pg₂).pages q = db.pages q := by
    intro q hq
    rw [Db.setPage_pages_ne _ _ hq, hpages₁, Function.update_of_ne hq]
  have hps₂ : (db₁.setPage newPid pg₂).ps = db.ps := core_ps hcore₁
  simp only [wpDb_inBounds_some hput, wpDb_inBounds_some hwrite, wpDb_store, wpDb_markDirty]
  refine ⟨hnew0, ?_⟩
  have hchainB₂ : LeafChain (db₁.setPage newPid pg₂).ps (db₁.setPage newPid pg₂).pages l.pid B
      0 := by
    rw [hps₂]
    exact hchainB.congr fun x hx => SameButParent.of_eq (hpages₂ _ (hleaf_new x (hB_mem x hx)))
  -- the leaf behind it is linked back to the new one
  refine wpDb_mono (setPrevLeaf_spec newPid hchainB₂ hBnodup fun x hx =>
    h.ne_zero (TreeShape.leaf_mem_pids (hB_mem x hx))) ?_
  rintro - db₃ ⟨hfields₃, hchainB₃, hframe₃, hparent₃⟩
  have hpages₃ : ∀ q, q ≠ newPid → q ∉ B.map (·.pid) → db₃.pages q = db.pages q := by
    intro q h1 h2
    rw [hframe₃ q h2, hpages₂ q h1]
  have hl₃ : db₃.pages l.pid = db.pages l.pid := by
    refine hpages₃ _ (hleaf_new l hl_mem) fun hm => ?_
    obtain ⟨y, hy, hyl⟩ := List.mem_map.mp hm
    exact hlB y hy hyl.symm
  have hnew₃ : db₃.pages newPid = pg₂ := by
    rw [hframe₃ newPid fun hm => ?_, Db.setPage_pages_same]
    obtain ⟨y, hy, hyn⟩ := List.mem_map.mp hm
    exact hleaf_new y (hB_mem y hy) hyn
  -- the old leaf keeps the lower half, and the slots behind it are cleared
  obtain ⟨pg₃, pg₄, hput', hwrite', hleft⟩ := LeafIs.of_write
    (⟨PageType.leaf.code, par, (cnt + 1) / 2, newPid, lastPid A 0⟩ : LeafPageHeader) L
    his.length rfl hL.symm hLfits
  have hrange : leafBase + ((cnt + 1) / 2).toNat * leafEntryC.size +
      (maxLeafKeys db.fields.pageSize - (cnt + 1) / 2).toNat * leafEntryC.size ≤ pg₄.length := by
    rw [hzero, ← hL, hleft.length, Nat.add_assoc, ← Nat.add_mul, Nat.add_sub_cancel' (by omega)]
    exact hmaxfits
  obtain ⟨pg₅, hz, hhead⟩ := zeroRange_spec hrange
  rw [← hL] at hhead
  have hleft' := hleft.of_sameHead hhead
  simp only [hl₃, wpDb_inBounds_some hput', wpDb_inBounds_some hwrite', wpDb_inBounds_some hz,
    wpDb_inBounds_some hmid, wpDb_unpin]
  -- what the pages hold before the parent is looked at
  have hpages₄ : ∀ q, q ≠ newPid → q ≠ l.pid → q ∉ B.map (·.pid) →
      (db₃.setPage l.pid pg₅).pages q = db.pages q := fun q h1 h2 h3 => by
    rw [Db.setPage_pages_ne _ _ h2, hpages₃ q h1 h3]
  have hfar₄ : ∀ q, q ∉ t.leaves.map (·.pid) → q ≠ newPid →
      (db₃.setPage l.pid pg₅).pages q = db.pages q := fun q h1 h2 =>
    hpages₄ q h2 (fun he => h1 (he ▸ List.mem_map_of_mem hl_mem)) fun hm => h1 (by
      obtain ⟨y, hy, rfl⟩ := List.mem_map.mp hm
      exact List.mem_map_of_mem (hB_mem y hy))
  have hps₄ : (db₃.setPage l.pid pg₅).ps = db.ps := by
    rw [← hps₂]
    exact congrArg (fun f => f.pageSize.toNat) hfields₃
  have hroot₄ : (db₃.setPage l.pid pg₅).header.rootIndexPageId = db.header.rootIndexPageId :=
    (congrArg (fun f => f.header.rootIndexPageId) hfields₃).trans (core_root hcore₁)
  have houtside₄ : (db₃.setPage l.pid pg₅).outside = db.outside := by
    rw [← outside_of_core hcore₁]
    simp only [Db.outside, Db.core, Db.header, Db.setPage_fields, hfields₃]
  -- the chain runs through both halves
  have hleaves₄ : LeafChain db.ps (db₃.setPage l.pid pg₅).pages 0
      (A ++ l.withEnts L :: keyedLeaf newPid mid R :: B) 0 := by
    refine LeafChain.cut_iff.mpr ⟨hchainA.congr fun x hx => SameButParent.of_eq ?_,
      ⟨par, (cnt + 1) / 2, ?_⟩, ⟨par, cnt + 1 - (cnt + 1) / 2, ?_⟩, ?_⟩
    · refine hpages₄ _ (hleaf_new x (hA_mem x hx)) (hAl x hx) fun hm => ?_
      obtain ⟨y, hy, hyx⟩ := List.mem_map.mp hm
      exact hAB x hx y hy hyx.symm
    · rw [Leaf.withEnts_pid, Db.setPage_pages_same]
      exact hleft'
    · rw [keyedLeaf_pid, Db.setPage_pages_ne _ _ (hleaf_new l hl_mem).symm, hnew₃]
      exact hright
    · rw [hps₂] at hchainB₃
      exact hchainB₃.congr fun x hx => SameButParent.of_eq
        (Db.setPage_pages_ne _ _ (hlB x hx).symm)
  -- the levels above have not been touched: every page has kept its parent
  have hup₄ : Upper (db₃.setPage l.pid pg₅).ps (db₃.setPage l.pid pg₅).pages
      (A.map Leaf.child ++ l.child :: B.map Leaf.child) t.levels
      (db₃.setPage l.pid pg₅).header.rootIndexPageId := by
    have hup := h.upper
    rw [hcut.leaves, List.map_append, List.map_cons] at hup
    rw [hps₄, hroot₄]
    refine hup.congr (fun c hc => ?_) fun n hn => ?_
    · have hc' : ∃ x ∈ A ++ l :: B, x.child = c := by
        rw [← List.map_cons, ← List.map_append] at hc
        exact List.mem_map.mp hc
      obtain ⟨x, hx, rfl⟩ := hc'
      rw [← hcut.leaves] at hx
      rw [Leaf.child_pid, Db.setPage_pages]
      split
      next hxl => rw [hxl, hleft'.parentOf, his.parentOf]
      next => rw [hparent₃, hpages₂ _ (hleaf_new x hx)]
    · refine hfar₄ _ (fun hm => ?_)
        (hne_new _ (List.mem_append_left _ (TreeShape.inner_mem_pids hn)))
      obtain ⟨x, hx, hxn⟩ := List.mem_map.mp hm
      exact h.leaf_ne_inner hx hn hxn
  have hLne : L ≠ [] := by
    intro hnil
    rw [hnil, List.length_nil] at hL
    omega
  -- the first key of the upper half separates it from the lower one
  have hsorted := marks_insert hcut h.sorted hnew ref
  rw [hents] at hsorted
  have hsorted' := marks_split newPid hLne hsorted
  have hord := ordered_of_sorted hsorted'
  have hrow : (A ++ l.withEnts L :: keyedLeaf newPid mid R :: B).map Leaf.child =
      A.map Leaf.child ++ l.child :: (⟨some mid.key, newPid⟩ : Child) :: B.map Leaf.child := by
    simp
  rw [hrow] at hord
  have hperm₄ : (pidsWith (A.map Leaf.child ++ l.child ::
      (⟨some mid.key, newPid⟩ : Child) :: B.map Leaf.child) t.levels others).Perm
      (newPid :: (t.pids ++ others)) := by
    refine List.perm_iff_count.mpr fun a => ?_
    simp only [pidsWith, Tree.pids, Tree.inners, hcut.leaves, List.map_append, List.map_cons,
      List.map_map, List.count_append, List.count_cons, Function.comp_def, Leaf.child_pid]
    omega
  -- only the new page has come in
  have halloc₄ : Alloc (db₃.setPage l.pid pg₅) (pidsWith (A.map Leaf.child ++ l.child ::
      (⟨some mid.key, newPid⟩ : Child) :: B.map Leaf.child) t.levels others) := by
    have hfar : ∀ q, q ∉ newPid :: (t.pids ++ others) →
        (db₃.setPage l.pid pg₅).pages q = db₁.pages q := by
      intro q hq
      rw [List.mem_cons, not_or, List.mem_append, not_or] at hq
      rw [hfar₄ q (fun hm => hq.2.1 (List.mem_append_left _ hm)) hq.1, hpages₁,
        Function.update_of_ne hq.1]
    have hbase : Alloc (db₃.setPage l.pid pg₅) (newPid :: (t.pids ++ others)) := halloc₁.congr
      (congrArg (fun f => f.header.nextPageId) hfields₃)
      (congrArg (fun f => f.header.freePageHead) hfields₃)
      (congrArg (fun f => f.pageSize.toNat) hfields₃) hfar
    exact hbase.perm hperm₄
  have hcap₄ : HoldsTwo (db₃.setPage l.pid pg₅).fields.pageSize := by
    rw [outside_pageSize houtside₄]
    exact hcap
  have hlength₄ : ∀ c ∈ A.map Leaf.child ++ l.child :: (⟨some mid.key, newPid⟩ : Child) ::
      B.map Leaf.child, 8 ≤ ((db₃.setPage l.pid pg₅).pages c.pid).length := by
    intro c hc
    rw [← hrow] at hc
    obtain ⟨x, hx, rfl⟩ := List.mem_map.mp hc
    obtain ⟨p, n, par', cnt', hx'⟩ := hleaves₄.leafAt hx
    rw [Leaf.child_pid, hx'.length]
    exact hps8
  -- the new leaf gets its place in the levels above
  refine wpDb_mono (insertIntoParent_spec t.levels maxPages
    (Nat.lt_of_succ_lt h.levels_lt) (db₃.setPage l.pid pg₅) (A.map Leaf.child) (B.map Leaf.child)
    l.child ⟨some mid.key, newPid⟩ mid.key others hcap₄ hup₄ rfl hord halloc₄ hlength₄ (by
      rw [hperm₄.length_eq, List.length_cons]
      exact hids.mono (by omega))) ?_
  -- `insert_into_parent` leaves the leaves as they are and hands over the levels
  rintro - db₅ ⟨levels, hP⟩
  have hps₅ : db₅.ps = db.ps := (outside_ps hP.outside).trans hps₄
  refine ⟨⟨A ++ l.withEnts L :: keyedLeaf newPid mid R :: B, levels⟩,
    ⟨⟨?_, ?_, hsorted', ?_⟩, hP.outside.trans houtside₄, fun p hp => ?_⟩, fun hocc _ x hx => ?_, ?_⟩
  · have := hP.alloc
    rw [← hrow] at this
    simpa only [pidsWith, Tree.pids, Tree.inners, List.map_map, Function.comp_def,
      Leaf.child_pid] using this
  · rw [hps₅]
    refine hleaves₄.congr fun x hx => hP.row x.child ?_
    rw [← hrow]
    exact List.mem_map_of_mem hx
  · rw [hrow, hps₅, ← hps₄]
    exact hP.upper
  · rw [hP.others p hp]
    exact hfar₄ p (fun hm => h.pids_ne_others (List.mem_append_left _ hm) hp rfl)
      (hne_new p (List.mem_append_right _ hp))
  · -- the halves hold enough; the other leaves are there only below a root
    have hmin : (minLeafKeys db.fields.pageSize).toNat = _ := toNat_minLeafKeys
    have hlevels : x ∈ A ∨ x ∈ B → t.levels ≠ [] := by
      intro hx' hnil
      have hup := h.upper
      rw [hnil, hcut.leaves, List.map_append, List.map_cons] at hup
      have hlen1 := congrArg List.length hup.1
      simp only [List.length_append, List.length_cons, List.length_map, List.length_nil] at hlen1
      rcases hx' with hx' | hx'
      · have := List.length_pos_of_mem hx'
        omega
      · have := List.length_pos_of_mem hx'
        omega
    rcases List.mem_append.mp hx with hx | hx
    · exact hocc (hlevels (Or.inl hx)) x (hA_mem x hx)
    rcases List.mem_cons.mp hx with rfl | hx
    · rw [Leaf.withEnts_ents]
      omega
    rcases List.mem_cons.mp hx with rfl | hx
    · rw [keyedLeaf_ents, ← hrcount, UInt32.toNat_sub_of_le _ _ (by
        rw [UInt32.le_iff_toNat_le]; omega)]
      omega
    · exact hocc (hlevels (Or.inr hx)) x (hB_mem x hx)
  · simp [Tree.entries, hents]

/-! ## Insertion into the tree -/

/-- The entries of one leaf have been changed in its page. -/
theorem TreeShape.setLeaf (h : TreeShape db t others) (hleaves : t.leaves = A ++ l :: B)
    {es : List LeafEntry} {pg : Page} {cnt : UInt32}
    (his : LeafIs db.ps pg ⟨PageType.leaf.code, parentOf (db.pages l.pid), cnt, firstPid B 0,
      lastPid A 0⟩ es)
    (hsorted : ((A ++ l.withEnts es :: B).flatMap Leaf.marks).Pairwise (· < ·)) :
    TreeShape (db.setPage l.pid pg) ⟨A ++ l.withEnts es :: B, t.levels⟩ others := by
  have hl_mem : l ∈ t.leaves := by rw [hleaves]; simp
  have hnodup := (List.nodup_append.mp h.nodup).1
  rw [hleaves] at hnodup
  have hchain := h.chain
  rw [hleaves] at hchain
  obtain ⟨hchainA, -, hchainB⟩ := LeafChain.cut_iff.mp hchain
  have hupper := h.upper
  rw [hleaves] at hupper
  have hpids : t.pids = (Tree.mk (A ++ l.withEnts es :: B) t.levels).pids := by
    simp [Tree.pids, Tree.inners, hleaves]
  -- the leaf keeps its page and its fence, so everything around it stays
  refine ⟨?_, LeafChain.cut_iff.mpr ⟨hchainA.congr fun x hx => SameButParent.of_eq ?_,
    ⟨parentOf (db.pages l.pid), cnt, ?_⟩, hchainB.congr fun x hx => SameButParent.of_eq ?_⟩, hsorted, ?_⟩
  · rw [← hpids]
    exact h.alloc.setPage pg (List.mem_append_left _ (leaf_mem_pids hl_mem))
  · exact Db.setPage_pages_ne _ _ (ne_of_nodup_map hnodup hx (List.mem_cons_self ..))
  · rw [Leaf.withEnts_pid, Db.setPage_pages_same]
    exact his
  · rw [show A ++ l :: B = (A ++ [l]) ++ B by simp] at hnodup
    exact Db.setPage_pages_ne _ _ (ne_of_nodup_map hnodup (by simp) hx).symm
  · have hmap : (A ++ l.withEnts es :: B).map Leaf.child = (A ++ l :: B).map Leaf.child := by simp
    rw [hmap]
    refine hupper.congr (fun c hc => ?_) fun n hn => ?_
    · rw [Db.setPage_pages]
      split
      next hcl => rw [hcl, his.parentOf]
      next => rfl
    · exact Db.setPage_pages_ne _ _ (h.leaf_ne_inner hl_mem hn).symm

/-- `bptree_insert` refuses a stored key and adds any other. -/
theorem bptreeInsert_shape (hcap : HoldsTwo db.fields.pageSize) (h : TreeShape db t others)
    (key : Key) (ref : RowRef) {tol : Fault → Prop}
    (hids : IdsFor tol ((t.pids ++ others).length + t.levels.length + 2)) :
    wpDb (bptreeInsert key ref) db (fun r db' =>
      ((∃ e ∈ t.entries, e.key = key) ∧ r = -1 ∧ db' = db) ∨
      ((∀ e ∈ t.entries, e.key ≠ key) ∧ r = 0 ∧ ∃ t' es es', ShapeStep db db' t' others ∧
        (t.Occupied (minLeafKeys db.fields.pageSize).toNat →
          t'.Occupied (minLeafKeys db.fields.pageSize).toNat) ∧
        t.entries = es ++ es' ∧ t'.entries = es ++ ⟨key, ref⟩ :: es')) tol := by
  -- the descent ends in the leaf `l`, between the entries `lo` and `hi`
  obtain ⟨A, B, l, lo, hi, hcut⟩ := h.exists_cut key
  obtain ⟨par, cnt, his, hidx⟩ := leafFind_cut h hcut
  have hcount := his.count
  have hl_mem := hcut.mem
  simp only [bptreeInsert, wpDb_bind]
  refine findLeaf_spec h hcut ?_
  simp only [wpDb_getPage_iff hids.headerPage, wpDb_load, his.header, wpDb_inBounds_some his.read,
    wpDb_ite]
  refine ⟨h.ne_zero (TreeShape.leaf_mem_pids hl_mem), ?_⟩
  split
  next hhit =>
    -- the key is there
    simp only [wpDb_bind, wpDb_unpin, wpDb_pure]
    exact Or.inl ⟨hcut.mem_keys_iff.mpr ((hit_iff hcount hidx).mp hhit), trivial, trivial⟩
  next hmiss =>
    have habsent : ¬ ∃ e ∈ t.entries, e.key = key := fun hp =>
      hmiss ((hit_iff hcount hidx).mpr (hcut.mem_keys_iff.mp hp))
    have habsent' : ∀ e ∈ t.entries, e.key ≠ key := fun e he hk => habsent ⟨e, he, hk⟩
    have hnew : ∀ e ∈ hi, e.key ≠ key := fun e he => habsent' e (by
      rw [hcut.entries]; simp [he])
    simp only [wpDb_bind, wpDb_getPageSize, wpDb_ite]
    split
    next hroom =>
      -- there is room in the leaf
      rw [UInt32.lt_iff_toNat_lt] at hroom
      dsimp only at hcount
      rw [List.length_append] at hcount
      obtain ⟨pg', hins, his'⟩ := leafInsertEntry_spec his db.ps_lt key ref hcut.below hcut.above
        ((leaf_fits_iff hcap).mpr (by omega))
      simp only [wpDb_inBounds_some hins, wpDb_store, wpDb_markDirty, wpDb_unpin,
        wpDb_pure]
      have hpar : par = parentOf (db.pages l.pid) := his.parentOf.symm
      subst hpar
      have hshape := h.setLeaf hcut.leaves his' (marks_insert hcut h.sorted hnew ref)
      refine Or.inr ⟨habsent', trivial, _, A.flatMap (·.ents) ++ lo, hi ++ B.flatMap (·.ents),
        ⟨hshape, rfl, fun p hp => ?_⟩, fun hocc hlevels x hx => ?_, ?_, ?_⟩
      · exact Db.setPage_pages_ne _ _
          (h.pids_ne_others (TreeShape.leaf_mem_pids hl_mem) hp).symm
      · -- the leaf has one entry more, the others none less
        have hx' : x ∈ A ++ l :: B ∨ x.ents = lo ++ ⟨key, ref⟩ :: hi := by
          simp only [List.mem_append, List.mem_cons] at hx ⊢
          rcases hx with hx | rfl | hx
          · exact Or.inl (Or.inl hx)
          · exact Or.inr rfl
          · exact Or.inl (Or.inr (Or.inr hx))
        rcases hx' with hx' | hx'
        · exact hocc hlevels x (hcut.leaves ▸ hx')
        · have := hocc hlevels l hl_mem
          rw [hcut.ents, List.length_append] at this
          rw [hx', List.length_append, List.length_cons]
          exact Nat.le_trans this (by omega)
      · rw [hcut.entries]; simp
      · simp [Tree.entries]
    next hfull =>
      -- the leaf is split
      simp only [wpDb_unpin, wpDb_pure]
      refine wpDb_mono (splitLeaf_spec hcap h hcut hnew ref his hidx hfull hids) ?_
      rintro - db' ⟨t', hstep, hocc, hentries⟩
      refine Or.inr ⟨habsent', trivial, t', A.flatMap (·.ents) ++ lo, hi ++ B.flatMap (·.ents), hstep,
        hocc, ?_, ?_⟩
      · rw [hcut.entries]; simp
      · rw [hentries]; simp

/-- The insertion keeps the invariant. -/
theorem bptreeInsert_spec (hcap : HoldsTwo db.fields.pageSize) (h : TreeInv db t others)
    (key : Key) (ref : RowRef) :
    wpDb (bptreeInsert key ref) db fun r db' =>
      ((∃ e ∈ t.entries, e.key = key) ∧ r = -1 ∧ db' = db) ∨
      ((∀ e ∈ t.entries, e.key ≠ key) ∧ r = 0 ∧ ∃ t' es es', TreeStep db db' t' others ∧
        t.entries = es ++ es' ∧ t'.entries = es ++ ⟨key, ref⟩ :: es') := by
  apply wpDb_mono (bptreeInsert_shape hcap h.toTreeShape key ref (IdsFor.exhausted _))
  rintro r db' (hpresent | ⟨habsent, hr, t', es, es', hstep, hocc, hes, hes'⟩)
  · exact Or.inl hpresent
  · exact Or.inr ⟨habsent, hr, t', es, es', hstep.treeStep (hocc h.occupancy), hes, hes'⟩

end

end MiniDb
