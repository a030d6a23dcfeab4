import MiniDb.Bptree.SearchSpec

/-!
# Adding a child to the internal levels

When a node has been split, its new right half becomes a child of the parent, which may
have to be split in turn, up to a new root.  The induction of `insertIntoParent_spec`
follows the levels: all it needs from below is where the new child stands in the row of
nodes.

## Key results

- `splitInternal_spec`: what the split of an internal node does to the pages
- `insertIntoParent_spec`: a new child is added to the levels above
-/

namespace MiniDb

open Bytes Lists

section

variable {db : Db}

/-! ## Parent fields -/

theorem wpDb_setParent {child parent : PageId} (h0 : child ≠ 0)
    (hlen : 8 ≤ (db.pages child).length) {tol : Fault → Prop} (Q : Unit → Db → Prop) :
    wpDb (setParent child parent) db Q tol ↔
      Q () (db.setPage child (u32.put (db.pages child) 4 parent)) := by
  have hput := u32.put?_eq_some (db.pages child) 4 parent hlen
  simp only [setParent, wpDb_bind, wpDb_getPage_of h0, wpDb_load, wpDb_inBounds_some hput,
    wpDb_store, wpDb_markDirty, wpDb_unpin]

theorem setParents_spec (tol : Fault → Prop) (db : Db) (parent : PageId) (cs : List PageId)
    (h : ∀ c ∈ cs, c ≠ 0 ∧ 8 ≤ (db.pages c).length) :
    wpDb (setParents parent cs) db (fun _ db' =>
      db'.fields = db.fields ∧ (∀ q, q ∉ cs → db'.pages q = db.pages q) ∧
        ∀ q ∈ cs, SameButParent (db.pages q) (db'.pages q) ∧ parentOf (db'.pages q) = parent)
      tol := by
  -- child after child; the pages written before only differ in the parent field
  induction cs generalizing db with
  | nil => exact ⟨rfl, fun q _ => rfl, by simp⟩
  | cons c cs ih =>
    obtain ⟨h0, hlen⟩ := h c (List.mem_cons_self ..)
    have hsame : ∀ q, SameButParent (db.pages q)
        ((db.setPage c (u32.put (db.pages c) 4 parent)).pages q) := by
      intro q
      rw [Db.setPage_pages]
      split
      next hq => rw [hq]; exact sameButParent_put _ _ hlen
      next => exact SameButParent.refl _
    simp only [setParents, wpDb_bind, wpDb_setParent h0 hlen]
    refine wpDb_mono (ih _ fun c' hc' => ?_) ?_
    · obtain ⟨h1, h2⟩ := h c' (List.mem_cons_of_mem _ hc')
      exact ⟨h1, by rw [(hsame c').length]; exact h2⟩
    · rintro - db' ⟨hfields, hframe, hmoved⟩
      refine ⟨hfields, fun q hq => ?_, fun q hq => ?_⟩
      · rw [List.mem_cons, not_or] at hq
        rw [hframe q hq.2, Db.setPage_pages_ne _ _ hq.1]
      · by_cases hqcs : q ∈ cs
        · exact ⟨(hsame q).trans (hmoved q hqcs).1, (hmoved q hqcs).2⟩
        · rcases List.mem_cons.mp hq with rfl | hq
          · rw [hframe q hqcs, Db.setPage_pages_same]
            exact ⟨sameButParent_put _ _ hlen, parentOf_put _ _ hlen⟩
          · exact absurd hq hqcs

/-! ## Splitting an internal node -/

/-- What `split_internal` has done to the node `nd` before it turns to the parent: `nd`
    keeps the entries `L`, the new node `newPid` gets the entries `R` with the right child
    of `mid` in front, and these children know their new parent. -/
structure InternalSplit (db db' : Db) (used : List PageId) (nd newPid par first : PageId)
    (L : List InternalEntry) (mid : InternalEntry) (R : List InternalEntry) : Prop where
  new : newPid ∉ used
  alloc : Alloc db' (newPid :: used)
  core : db'.core = db.core
  left : ∃ cnt, InnerIs db.ps (db'.pages nd) ⟨PageType.internal.code, par, cnt, first⟩ L
  right : ∃ cnt, InnerIs db.ps (db'.pages newPid)
    ⟨PageType.internal.code, par, cnt, mid.rightChildPageId⟩ R
  moved : ∀ c ∈ (mid :: R).map (·.rightChildPageId),
    SameButParent (db.pages c) (db'.pages c) ∧ parentOf (db'.pages c) = newPid
  frame : ∀ q, q ≠ nd → q ≠ newPid → q ∉ (mid :: R).map (·.rightChildPageId) →
    db'.pages q = db.pages q

theorem splitInternal_spec (db : Db) (hcap : HoldsTwo db.fields.pageSize) {used : List PageId}
    (halloc : Alloc db used) {nd par first right : PageId} {cnt : UInt32} {key : Key}
    {lo hi : List InternalEntry} (hnd : nd ∈ used)
    (his : InnerIs db.ps (db.pages nd) ⟨PageType.internal.code, par, cnt, first⟩ (lo ++ hi))
    (hfull : ¬ cnt < maxInternalKeys db.fields.pageSize)
    (hlo : ∀ e ∈ lo, e.key ≤ key) (hhi : ∀ e ∈ hi, key < e.key)
    (hchildren : ∀ e ∈ lo ++ ⟨key, right⟩ :: hi, e.rightChildPageId ∈ used ∧
      e.rightChildPageId ≠ nd ∧ 8 ≤ (db.pages e.rightChildPageId).length)
    {tol : Fault → Prop} (hroom : IdsFor tol (used.length + 1))
    {k : PageId → Key → PageId → Routine Unit} {Q : Unit → Db → Prop}
    (hk : ∀ L mid R newPid db', lo ++ ⟨key, right⟩ :: hi = L ++ mid :: R →
      InternalSplit db db' used nd newPid par first L mid R →
      wpDb (k nd mid.key newPid) db' Q tol) :
    wpDb (splitInternal k nd key right) db Q tol := by
  have hlt := his.count_lt db.ps_lt
  have hcount := his.count
  have hfits := (internal_fits_iff hcap).mp his.fits
  have hmax := two_le_maxInternalKeys hcap
  rw [UInt32.lt_iff_toNat_lt] at hfull
  dsimp only at hcount
  have hidx := internalFind_append hcount (by omega) hlo hhi
  have htake : (lo ++ hi).take (internalFind (lo ++ hi) cnt key).toNat = lo := by
    rw [hidx, List.take_left]
  have hdrop : (lo ++ hi).drop (internalFind (lo ++ hi) cnt key).toNat = hi := by
    rw [hidx, List.drop_left]
  -- the numbers
  have htotal : (cnt + 1).toNat = cnt.toNat + 1 := UInt32.toNat_succ (by omega)
  have hsplit : ((cnt + 1) / 2).toNat = (cnt.toNat + 1) / 2 := by
    rw [UInt32.toNat_div, htotal]; rfl
  have htmp : (lo ++ (⟨key, right⟩ : InternalEntry) :: hi).length = cnt.toNat + 1 := by
    rw [hcount]; simp; omega
  have hsplit_lt : ((cnt + 1) / 2).toNat < (lo ++ (⟨key, right⟩ : InternalEntry) :: hi).length := by
    omega
  -- the entries are cut at `split`: `mid` goes up, its right child is the first one of the new node
  obtain ⟨L, mid, R, hcut, hL, htakeL, hmid, -, hdropR⟩ := exists_cut_at hsplit_lt
  have hlen : L.length + R.length = cnt.toNat := by
    rw [hcut, List.length_append, List.length_cons] at htmp; omega
  have hrcount : (cnt + 1 - (cnt + 1) / 2 - 1).toNat = R.length := by
    have h1 : (cnt + 1) / 2 ≤ cnt + 1 := by rw [UInt32.le_iff_toNat_le]; omega
    have h2 : (1 : UInt32) ≤ cnt + 1 - (cnt + 1) / 2 := by
      rw [UInt32.le_iff_toNat_le, UInt32.toNat_sub_of_le _ _ h1]
      show 1 ≤ _
      omega
    rw [UInt32.toNat_sub_of_le _ _ h2, UInt32.toNat_sub_of_le _ _ h1]
    show _ - 1 = _
    omega
  have hzero : (maxInternalKeys db.fields.pageSize - (cnt + 1) / 2).toNat =
      (maxInternalKeys db.fields.pageSize).toNat - L.length := by
    rw [UInt32.toNat_sub_of_le _ _ (by rw [UInt32.le_iff_toNat_le]; omega), hL]
  have hmaxfits := (internal_fits_iff hcap).mpr (Nat.le_refl _)
  have hLfits : internalBase + L.length * internalEntryC.size ≤ db.ps :=
    (internal_fits_iff hcap).mpr (by omega)
  have hRfits : internalBase + R.length * internalEntryC.size ≤ db.ps :=
    (internal_fits_iff hcap).mpr (by omega)
  have hps8 : 8 ≤ db.ps := Nat.le_trans (by decide) hcap.le_pageSize
  have hmem : ∀ c ∈ (mid :: R).map (·.rightChildPageId), c ∈ used ∧ c ≠ nd ∧
      8 ≤ (db.pages c).length := by
    intro c hc
    obtain ⟨e, he, rfl⟩ := List.mem_map.mp hc
    exact hchildren e (by rw [hcut]; exact List.mem_append_right _ he)
  -- the run
  simp only [splitInternal, wpDb_bind, wpDb_getPageSize, wpDb_getPage_iff hroom.headerPage, wpDb_load, his.header,
    wpDb_inBounds_some his.read, htake, hdrop, wpDb_inBounds_some hmid, hdropR, htakeL]
  refine ⟨halloc.ne_zero hnd, wpDb_mono (pagerAllocPage_spec halloc hps8 hroom) ?_⟩
  rintro newPid db₁ ⟨hnew, hnew0, halloc₁, hcore₁, hpages₁⟩
  -- the new node
  obtain ⟨pg₁, pg₂, hput, hwrite, hright⟩ := InnerIs.of_write
    (⟨PageType.internal.code, par, cnt + 1 - (cnt + 1) / 2 - 1, mid.rightChildPageId⟩ :
      InternalPageHeader) R (length_zeroPage db.fields.pageSize) rfl hrcount hRfits
  have hnewmem : ∀ c ∈ (mid :: R).map (·.rightChildPageId), c ≠ newPid := fun c hc he =>
    hnew (he ▸ (hmem c hc).1)
  have hpages₂ : ∀ q, q ≠ newPid → (db₁.setPage newPid pg₂).pages q = db.pages q := by
    intro q hq
    rw [Db.setPage_pages_ne _ _ hq, hpages₁, Function.update_of_ne hq]
  simp only [wpDb_inBounds_some hput, wpDb_inBounds_some hwrite, wpDb_store, wpDb_markDirty]
  refine ⟨hnew0, ?_⟩
  refine (wpDb_bind (setParent mid.rightChildPageId newPid)
    (fun _ => setParents newPid (R.map (·.rightChildPageId))) _).mp ?_
  -- its children learn of it, those of `mid` and of the entries behind it
  have hset := setParents_spec tol (db₁.setPage newPid pg₂) newPid
    ((mid :: R).map (·.rightChildPageId)) fun c hc => by
      rw [hpages₂ c (hnewmem c hc)]
      exact ⟨halloc.ne_zero (hmem c hc).1, (hmem c hc).2.2⟩
  refine wpDb_mono hset ?_
  rintro - db₃ ⟨hfields, hframe, hmoved⟩
  have hndnew : nd ≠ newPid := fun he => hnew (he ▸ hnd)
  have hnd₃ : db₃.pages nd = db.pages nd := by
    rw [hframe nd fun hm => (hmem nd hm).2.1 rfl, hpages₂ nd hndnew]
  -- the old node keeps the lower part, and the slots behind it are cleared
  obtain ⟨pg₃, pg₄, hput', hwrite', hleft⟩ := InnerIs.of_write
    (⟨PageType.internal.code, par, (cnt + 1) / 2, first⟩ : InternalPageHeader) L his.length rfl
    hL.symm hLfits
  have hrange : internalBase + ((cnt + 1) / 2).toNat * internalEntryC.size +
      (maxInternalKeys db.fields.pageSize - (cnt + 1) / 2).toNat * internalEntryC.size ≤
        pg₄.length := by
    rw [hzero, ← hL, hleft.length, Nat.add_assoc, ← Nat.add_mul, Nat.add_sub_cancel' (by omega)]
    exact hmaxfits
  obtain ⟨pg₅, hz, hhead⟩ := zeroRange_spec hrange
  rw [← hL] at hhead
  simp only [hnd₃, wpDb_inBounds_some hput', wpDb_inBounds_some hwrite',
    wpDb_inBounds_some hz, wpDb_unpin]
  -- what is known when the parent is turned to
  refine hk L mid R newPid _ hcut ⟨hnew, ?_, ?_, ⟨(cnt + 1) / 2, ?_⟩,
    ⟨cnt + 1 - (cnt + 1) / 2 - 1, ?_⟩, fun c hc => ?_, fun q h1 h2 h3 => ?_⟩
  · have hused : ∀ q, q ∉ newPid :: used → db₃.pages q = db₁.pages q := by
      intro q hq
      rw [List.mem_cons, not_or] at hq
      rw [hframe q fun hm => hq.2 (hmem q hm).1, Db.setPage_pages_ne _ _ hq.1]
    have halloc₃ : Alloc db₃ (newPid :: used) :=
      halloc₁.congr (congrArg (·.header.nextPageId) hfields)
        (congrArg (·.header.freePageHead) hfields)
        (congrArg (fun f => f.pageSize.toNat) hfields) hused
    exact halloc₃.setPage _ (List.mem_cons_of_mem _ hnd)
  · rw [setPage_core, ← hcore₁]
    simp only [Db.core, Db.header, hfields, Db.setPage_fields]
  · rw [Db.setPage_pages_same]
    exact hleft.of_sameHead hhead
  · rw [Db.setPage_pages_ne _ _ hndnew.symm, hframe newPid fun hm => hnewmem newPid hm rfl,
      Db.setPage_pages_same]
    exact hright
  · rw [Db.setPage_pages_ne _ _ (hmem c hc).2.1]
    have := hmoved c hc
    rwa [hpages₂ c (hnewmem c hc)] at this
  · rw [Db.setPage_pages_ne _ _ h1, hframe q h3, hpages₂ q h2]

/-! ## Adding a child to the levels above -/

/-- The pages of a row of nodes, of the levels above it, and others -/
def pidsWith (row : List Child) (levels : List (List Inner)) (others : List PageId) :
    List PageId := row.map (·.pid) ++ levels.flatten.map (·.pid) ++ others

theorem mem_pidsWith_row {row : List Child} {levels : List (List Inner)} {others : List PageId}
    {c : Child} (hc : c ∈ row) : c.pid ∈ pidsWith row levels others :=
  List.mem_append_left _ (List.mem_append_left _ (List.mem_map_of_mem hc))

theorem mem_pidsWith_level {row : List Child} {levels : List (List Inner)} {others : List PageId}
    {m : Inner} (hm : m ∈ levels.flatten) : m.pid ∈ pidsWith row levels others :=
  List.mem_append_left _ (List.mem_append_right _ (List.mem_map_of_mem hm))

theorem mem_pidsWith_others {row : List Child} {levels : List (List Inner)}
    {others : List PageId} {p : PageId} (hp : p ∈ others) : p ∈ pidsWith row levels others :=
  List.mem_append_right _ hp

/-- The levels above the row of nodes `row` are in order again after `insert_into_parent`:
    the nodes of the row have changed at most their parent fields, the pages `others`
    not at all. -/
structure ParentInsert (db db' : Db) (row : List Child) (levels : List (List Inner))
    (others : List PageId) : Prop where
  upper : Upper db.ps db'.pages row levels db'.header.rootIndexPageId
  ne_nil : levels ≠ []
  alloc : Alloc db' (pidsWith row levels others)
  outside : db'.outside = db.outside
  row : ∀ c ∈ row, SameButParent (db.pages c.pid) (db'.pages c.pid)
  others : ∀ p ∈ others, db'.pages p = db.pages p

/-- The root has been split: a new root is made. -/
theorem insertIntoParent_newRoot (hcap : HoldsTwo db.fields.pageSize) (n : Nat) {s r : Child}
    {sep : Key} {others : List PageId} (hroot : s = ⟨none, db.header.rootIndexPageId⟩)
    (hparent : parentOf (db.pages s.pid) = 0) (hr : r.fence = some sep)
    (halloc : Alloc db (pidsWith [s, r] [] others))
    (hlen : ∀ c ∈ [s, r], 8 ≤ (db.pages c.pid).length) {tol : Fault → Prop}
    (hroom : IdsFor tol ((pidsWith [s, r] [] others).length + 1)) :
    wpDb (insertIntoParent (n + 1) s.pid sep r.pid) db (fun _ db' =>
      ∃ levels, ParentInsert db db' [s, r] levels others) tol := by
  have hps8 : 8 ≤ db.ps := Nat.le_trans (by decide) hcap.le_pageSize
  have hs_mem : s.pid ∈ pidsWith [s, r] [] others := mem_pidsWith_row (by simp)
  have hr_mem : r.pid ∈ pidsWith [s, r] [] others := mem_pidsWith_row (by simp)
  have hnodup := List.nodup_append.mp halloc.nodup
  have hsr : s.pid ≠ r.pid := by simpa using hnodup.1
  -- no parent, and the page is the root
  have hcond : u32.get (db.pages s.pid) 4 = 0 ∧ s.pid = db.fields.header.rootIndexPageId :=
    ⟨hparent, congrArg Child.pid hroot⟩
  simp only [insertIntoParent, wpDb_bind, wpDb_getPage_iff hroom.headerPage, wpDb_load, wpDb_unpin,
    wpDb_getFields, if_pos hcond]
  refine ⟨halloc.ne_zero hs_mem, wpDb_mono (pagerAllocPage_spec halloc hps8 hroom) ?_⟩
  rintro newRoot db₁ ⟨hnew, hnew0, halloc₁, hcore₁, hpages₁⟩
  obtain ⟨pg₁, pg₂, hput, hwrite, hinner⟩ := InnerIs.of_write
    (⟨PageType.internal.code, 0, 1, s.pid⟩ : InternalPageHeader) [⟨sep, r.pid⟩]
    (length_zeroPage db.fields.pageSize) rfl rfl
    ((internal_fits_iff hcap).mpr (Nat.le_trans (by simp) (two_le_maxInternalKeys hcap)))
  rw [writeEntries_singleton] at hwrite
  have hsn : s.pid ≠ newRoot := fun he => hnew (he ▸ hs_mem)
  have hrn : r.pid ≠ newRoot := fun he => hnew (he ▸ hr_mem)
  have hpages : ∀ q, q ≠ newRoot → (db₁.setPage newRoot pg₂).pages q = db.pages q := by
    intro q hq
    rw [Db.setPage_pages_ne _ _ hq, hpages₁, Function.update_of_ne hq]
  have hlens := hlen s (by simp)
  have hlenr := hlen r (by simp)
  simp only [wpDb_inBounds_some hput, wpDb_inBounds_some hwrite, wpDb_store, wpDb_markDirty]
  refine ⟨hnew0, ?_⟩
  -- both halves are hung below it
  rw [wpDb_setParent (halloc.ne_zero hs_mem) (by rw [hpages _ hsn]; exact hlens),
    wpDb_setParent (halloc.ne_zero hr_mem) (by
      rw [Db.setPage_pages_ne _ _ hsr.symm, hpages _ hrn]; exact hlenr), wpDb_modifyHeader]
  rw [hpages _ hsn, Db.setPage_pages_ne _ _ hsr.symm, hpages _ hrn]
  refine ⟨[[⟨none, newRoot, s.pid, [⟨sep, r.pid⟩]⟩]], ⟨?_, ?_, ?_, ?_⟩, by simp, ?_, ?_, ?_, ?_⟩
  · -- the two children of the new root
    cases r
    subst hr hroot
    rfl
  · intro m hm
    rw [List.mem_singleton.mp hm]
    refine ⟨0, 1, ?_⟩
    rw [Db.setHeader_pages, Db.setPage_pages_ne _ _ hrn.symm, Db.setPage_pages_ne _ _ hsn.symm,
      Db.setPage_pages_same]
    exact hinner
  · intro m hm c hc
    rw [List.mem_singleton.mp hm] at hc ⊢
    rw [Db.setHeader_pages]
    rcases List.mem_cons.mp hc with rfl | hc
    · rw [Db.setPage_pages_ne _ _ hsr, Db.setPage_pages_same, parentOf_put _ _ hlens]
    · rw [List.mem_singleton.mp hc, entryChild_pid, Db.setPage_pages_same, parentOf_put _ _ hlenr]
  · refine ⟨rfl, ?_⟩
    rw [Db.setHeader_pages, Db.setHeader_header, Db.setPage_pages_ne _ _ hrn.symm,
      Db.setPage_pages_ne _ _ hsn.symm, Db.setPage_pages_same]
    exact hinner.parentOf
  · -- only the new root has come in
    have halloc₂ := ((halloc₁.setPage pg₂ (List.mem_cons_self ..)).setPage
      (u32.put (db.pages s.pid) 4 newRoot) (List.mem_cons_of_mem _ hs_mem)).setPage
      (u32.put (db.pages r.pid) 4 newRoot) (List.mem_cons_of_mem _ hr_mem)
    refine Alloc.perm (halloc₂.setHeader _ ?_ ?_) ?_
    · rfl
    · rfl
    exact List.perm_iff_count.mpr fun a => by
      simp only [pidsWith, List.map_cons, List.map_nil, List.flatten_cons, List.flatten_nil,
        List.append_nil, List.count_append, List.count_cons, List.count_nil]
      omega
  · have := outside_of_core hcore₁
    exact this
  · intro c hc
    rw [Db.setHeader_pages]
    rcases List.mem_cons.mp hc with rfl | hc
    · rw [Db.setPage_pages_ne _ _ hsr, Db.setPage_pages_same]
      exact sameButParent_put _ _ hlens
    · rw [List.mem_singleton.mp hc, Db.setPage_pages_same]
      exact sameButParent_put _ _ hlenr
  · intro p hp
    have hne : ∀ c ∈ [s, r], p ≠ c.pid := fun c hc he =>
      hnodup.2.2 _ (List.mem_append_left _ (List.mem_map_of_mem hc)) p hp he.symm
    have hpn : p ≠ newRoot := fun he => hnew (he ▸ mem_pidsWith_others hp)
    rw [Db.setHeader_pages, Db.setPage_pages_ne _ _ (hne r (by simp)),
      Db.setPage_pages_ne _ _ (hne s (by simp)), hpages p hpn]

/-- The row below a level in which the node between `L` and `R` has the children `A`, `s`,
    `B`, with `r` added behind `s` -/
def rowWith (L R : List Inner) (A B : List Child) (s r : Child) : List Child :=
  L.flatMap Inner.children ++ (A ++ s :: r :: B) ++ R.flatMap Inner.children

/-- `insert_into_parent` has come to the child `s` of the node `nd`, between the nodes `L`
    and `R` of its level, to add the child `r` right behind `s`. -/
structure ParentStep (db : Db) (L R : List Inner) (nd : Inner) (rest : List (List Inner))
    (A B : List Child) (s r : Child) (sep : Key) (others : List PageId) : Prop where
  cap : HoldsTwo db.fields.pageSize
  upper : Upper db.ps db.pages ((L ++ nd :: R).flatMap Inner.children) ((L ++ nd :: R) :: rest)
    db.header.rootIndexPageId
  children : nd.children = A ++ s :: B
  fence : r.fence = some sep
  ordered : Ordered ((rowWith L R A B s r).map (·.fence))
  alloc : Alloc db (pidsWith (rowWith L R A B s r) ((L ++ nd :: R) :: rest) others)
  length : ∀ c ∈ rowWith L R A B s r, 8 ≤ (db.pages c.pid).length

/-- One node of a level has been replaced by the nodes `M`. -/
theorem Upper.replace {ps : Nat} {pages pages' : PageId → Page} {L R M : List Inner}
    {nd : Inner} {lower : List Child} {rest rest' : List (List Inner)} {root root' : PageId}
    (h : Upper ps pages lower ((L ++ nd :: R) :: rest) root)
    (hM : ∀ m ∈ M, InnerAt ps pages' m ∧ ∀ c ∈ m.children, parentOf (pages' c.pid) = m.pid)
    (hsame : ∀ m ∈ L ++ R, SameButParent (pages m.pid) (pages' m.pid) ∧
      ∀ c ∈ m.children, parentOf (pages' c.pid) = parentOf (pages c.pid))
    (hup : Upper ps pages' ((L ++ M ++ R).map Inner.child) rest' root') :
    Upper ps pages' ((L ++ M ++ R).flatMap Inner.children) ((L ++ M ++ R) :: rest') root' := by
  obtain ⟨-, hat, hparents, -⟩ := h
  have hold : ∀ m ∈ L ++ R, m ∈ L ++ nd :: R := by
    intro m hm
    simp only [List.mem_append, List.mem_cons] at hm ⊢
    tauto
  have hsplit : ∀ m ∈ L ++ M ++ R, m ∈ M ∨ m ∈ L ++ R := by
    intro m hm
    simp only [List.mem_append] at hm ⊢
    tauto
  refine ⟨rfl, fun m hm => ?_, fun m hm c hc => ?_, hup⟩
  · rcases hsplit m hm with hm | hm
    · exact (hM m hm).1
    · exact (hat m (hold m hm)).congr (hsame m hm).1
  · rcases hsplit m hm with hm | hm
    · exact (hM m hm).2 c hc
    · rw [(hsame m hm).2 c hc]
      exact hparents m (hold m hm) c hc

/-- The new node of a split: `mid` goes up, its right child becomes the first one. -/
def rightHalf (mid : InternalEntry) (newPid : PageId) (R : List InternalEntry) : Inner :=
  ⟨some mid.key, newPid, mid.rightChildPageId, R⟩

theorem rightHalf_children (mid : InternalEntry) (newPid : PageId) (R : List InternalEntry) :
    (rightHalf mid newPid R).children = (mid :: R).map entryChild := rfl

theorem rightHalf_child (mid : InternalEntry) (newPid : PageId) (R : List InternalEntry) :
    (rightHalf mid newPid R).child = ⟨some mid.key, newPid⟩ := rfl

/-- The specification of `insert_into_parent` below `levels`: the child `r` is added to the
    row right behind `s`. -/
def ParentInsertSpec (tol : Fault → Prop) (n : Nat) (levels : List (List Inner)) : Prop :=
  ∀ (db : Db) (A B : List Child) (s r : Child) (sep : Key) (others : List PageId),
    HoldsTwo db.fields.pageSize →
    Upper db.ps db.pages (A ++ s :: B) levels db.header.rootIndexPageId →
    r.fence = some sep → Ordered ((A ++ s :: r :: B).map (·.fence)) →
    Alloc db (pidsWith (A ++ s :: r :: B) levels others) →
    (∀ c ∈ A ++ s :: r :: B, 8 ≤ (db.pages c.pid).length) →
    IdsFor tol ((pidsWith (A ++ s :: r :: B) levels others).length + levels.length + 1) →
    wpDb (insertIntoParent n s.pid sep r.pid) db (fun _ db' =>
      ∃ levels', ParentInsert db db' (A ++ s :: r :: B) levels' others) tol

namespace ParentStep

variable {L R : List Inner} {nd : Inner} {rest : List (List Inner)} {A B : List Child}
  {s r : Child} {sep : Key} {others : List PageId}

theorem s_mem : s ∈ rowWith L R A B s r := by simp [rowWith]

theorem r_mem : r ∈ rowWith L R A B s r := by simp [rowWith]

theorem nd_mem : nd ∈ ((L ++ nd :: R) :: rest).flatten := by simp

/-- The row with the new child in evidence -/
theorem row_eq : rowWith L R A B s r =
    (L.flatMap Inner.children ++ (A ++ [s])) ++ r :: (B ++ R.flatMap Inner.children) := by
  simp [rowWith]

theorem mem_row (h : ParentStep db L R nd rest A B s r sep others) {m : Inner}
    (hm : m ∈ L ++ nd :: R) {c : Child} (hc : c ∈ m.children) : c ∈ rowWith L R A B s r := by
  have hc' : c ∈ (L ++ nd :: R).flatMap Inner.children := List.mem_flatMap.mpr ⟨m, hm, hc⟩
  rw [List.flatMap_append, List.flatMap_cons, h.children] at hc'
  simp only [rowWith, List.mem_append, List.mem_cons] at hc' ⊢
  tauto

/-! The pages are all different. -/

theorem row_nodup (h : ParentStep db L R nd rest A B s r sep others) :
    ((rowWith L R A B s r).map (·.pid)).Nodup :=
  (List.nodup_append.mp (List.nodup_append.mp h.alloc.nodup).1).1

theorem row_ne_level (h : ParentStep db L R nd rest A B s r sep others) {c : Child} {m : Inner}
    (hc : c ∈ rowWith L R A B s r) (hm : m ∈ ((L ++ nd :: R) :: rest).flatten) :
    c.pid ≠ m.pid :=
  (List.nodup_append.mp (List.nodup_append.mp h.alloc.nodup).1).2.2 _ (List.mem_map_of_mem hc) _
    (List.mem_map_of_mem hm)

theorem others_ne_row (h : ParentStep db L R nd rest A B s r sep others) {p : PageId}
    (hp : p ∈ others) {c : Child} (hc : c ∈ rowWith L R A B s r) : p ≠ c.pid :=
  ((List.nodup_append.mp h.alloc.nodup).2.2 _
    (List.mem_append_left _ (List.mem_map_of_mem hc)) p hp).symm

theorem others_ne_level (h : ParentStep db L R nd rest A B s r sep others) {p : PageId}
    (hp : p ∈ others) {m : Inner} (hm : m ∈ ((L ++ nd :: R) :: rest).flatten) : p ≠ m.pid :=
  ((List.nodup_append.mp h.alloc.nodup).2.2 _
    (List.mem_append_right _ (List.mem_map_of_mem hm)) p hp).symm

theorem level_ne (h : ParentStep db L R nd rest A B s r sep others) {m : Inner}
    (hm : m ∈ (L ++ R) ++ rest.flatten) : m.pid ≠ nd.pid := by
  have hnodup := (List.nodup_append.mp (List.nodup_append.mp h.alloc.nodup).1).2.1
  have hperm : (((L ++ nd :: R) :: rest).flatten.map (·.pid)).Perm
      (([nd] ++ ((L ++ R) ++ rest.flatten)).map (·.pid)) := by
    refine List.Perm.map _ ?_
    simp only [List.flatten_cons, List.append_assoc, List.cons_append]
    exact List.perm_middle
  exact (ne_of_nodup_map (hperm.nodup_iff.mp hnodup) (List.mem_singleton_self _) hm).symm

theorem row_ne_r (h : ParentStep db L R nd rest A B s r sep others) {m : Inner}
    (hm : m ∈ L ++ nd :: R) {c : Child} (hc : c ∈ m.children) : c.pid ≠ r.pid := by
  have hnodup := h.row_nodup
  have hperm : ((rowWith L R A B s r).map (·.pid)).Perm
      (([r] ++ (L ++ nd :: R).flatMap Inner.children).map (·.pid)) := by
    refine List.Perm.map _ ?_
    rw [row_eq, List.flatMap_append, List.flatMap_cons, h.children]
    refine List.perm_middle.trans (List.Perm.of_eq ?_)
    simp
  exact (ne_of_nodup_map (hperm.nodup_iff.mp hnodup) (List.mem_singleton_self _)
    (List.mem_flatMap.mpr ⟨m, hm, hc⟩)).symm

/-- The separators on the two sides of the new child -/
theorem ents_cut (h : ParentStep db L R nd rest A B s r sep others) :
    ∃ lo hi, nd.ents = lo ++ hi ∧ A ++ [s] = ⟨nd.fence, nd.first⟩ :: lo.map entryChild ∧
      B = hi.map entryChild ∧ (∀ e ∈ lo, e.key ≤ sep) ∧ ∀ e ∈ hi, sep < e.key := by
  obtain ⟨lo, hi, hents, hlo, hhi⟩ := Inner.ents_cut h.children
  have hord := h.ordered
  rw [row_eq, List.map_append, List.map_cons] at hord
  obtain ⟨-, h1, h2⟩ := List.pairwise_append.mp hord
  refine ⟨lo, hi, hents, hlo, hhi, fun e he => ?_, fun e he => ?_⟩
  · have he' : entryChild e ∈ L.flatMap Inner.children ++ (A ++ [s]) := by
      rw [hlo]
      exact List.mem_append_right _ (List.mem_cons_of_mem _ (List.mem_map_of_mem he))
    have hlt := h2 _ (List.mem_map_of_mem he') r.fence (List.mem_cons_self ..)
    rw [h.fence] at hlt
    exact UInt64.le_of_lt (fenceMark_lt_fenceMark.mp hlt)
  · have he' : entryChild e ∈ B ++ R.flatMap Inner.children := by
      rw [hhi]
      exact List.mem_append_left _ (List.mem_map_of_mem he)
    have hlt := (List.pairwise_cons.mp h1).1 _ (List.mem_map_of_mem he')
    rw [h.fence] at hlt
    exact fenceMark_lt_fenceMark.mp hlt

/-- The children with the new one, in terms of the entries -/
theorem children_insert (h : ParentStep db L R nd rest A B s r sep others)
    {lo hi : List InternalEntry}
    (hA : A ++ [s] = ⟨nd.fence, nd.first⟩ :: lo.map entryChild) (hB : B = hi.map entryChild) :
    A ++ s :: r :: B =
      ⟨nd.fence, nd.first⟩ :: (lo ++ ⟨sep, r.pid⟩ :: hi).map entryChild := by
  have hr : entryChild ⟨sep, r.pid⟩ = r := by
    cases r
    simp only [entryChild, Child.mk.injEq, and_true]
    exact h.fence.symm
  rw [show A ++ s :: r :: B = (A ++ [s]) ++ r :: B by simp, hA, hB, List.map_append,
    List.map_cons, hr]
  rfl

theorem nd_ne_zero (h : ParentStep db L R nd rest A B s r sep others) : nd.pid ≠ 0 :=
  h.alloc.ne_zero (mem_pidsWith_level nd_mem)

/-- The parent read from the page of `s` -/
theorem parent_eq (h : ParentStep db L R nd rest A B s r sep others) :
    u32.get (db.pages s.pid) 4 = nd.pid :=
  h.upper.2.2.1 nd (by simp) s (by rw [h.children]; simp)

/-- The nodes of the level that are not the parent -/
theorem mem_level (h : ParentStep db L R nd rest A B s r sep others) {m : Inner}
    (hm : m ∈ L ++ R) : m ∈ L ++ nd :: R ∧ m.pid ≠ nd.pid ∧ m.pid ≠ r.pid := by
  have hm' : m ∈ L ++ nd :: R := by
    simp only [List.mem_append, List.mem_cons] at hm ⊢
    tauto
  exact ⟨hm', h.level_ne (List.mem_append_left _ hm),
    (h.row_ne_level r_mem (List.mem_append_left _ hm')).symm⟩

/-- The parent has room. -/
theorem insertIntoParent_room (h : ParentStep db L R nd rest A B s r sep others) (n : Nat)
    {tol : Fault → Prop} (htol : ¬ tol .headerPage) {par : PageId} {cnt : UInt32}
    (his : InnerIs db.ps (db.pages nd.pid) ⟨PageType.internal.code, par, cnt, nd.first⟩ nd.ents)
    (hroom : cnt < maxInternalKeys db.fields.pageSize) :
    wpDb (insertIntoParent (n + 1) s.pid sep r.pid) db (fun _ db' =>
      ∃ levels, ParentInsert db db' (rowWith L R A B s r) levels others) tol := by
  have hcond : ¬ (nd.pid = 0 ∧ s.pid = db.fields.header.rootIndexPageId) := fun hc =>
    h.nd_ne_zero hc.1
  have hrnd : r.pid ≠ nd.pid := h.row_ne_level r_mem nd_mem
  have hlenr := h.length r r_mem
  obtain ⟨lo, hi, hents, hA, hB, hlo, hhi⟩ := h.ents_cut
  have hroom' := hroom
  rw [UInt32.lt_iff_toNat_lt] at hroom'
  rw [hents] at his
  have hcount : cnt.toNat = lo.length + hi.length := by
    rw [← List.length_append]; exact his.count
  -- the entry goes between those up to `sep` and those above it
  obtain ⟨pg', hins, his'⟩ := internalInsertEntry_spec his db.ps_lt sep r.pid hlo hhi
    ((internal_fits_iff h.cap).mpr (by omega))
  simp only [insertIntoParent, wpDb_bind, wpDb_getPage_iff htol, wpDb_load, wpDb_unpin,
    wpDb_getFields, wpDb_ite, h.parent_eq, if_neg hcond, his.header, if_pos hroom,
    wpDb_inBounds_some hins, wpDb_store, wpDb_markDirty]
  refine ⟨h.alloc.ne_zero (mem_pidsWith_row s_mem), h.nd_ne_zero, ?_⟩
  rw [wpDb_setParent (h.alloc.ne_zero (mem_pidsWith_row r_mem)) (by
    rw [Db.setPage_pages_ne _ _ hrnd]; exact hlenr), Db.setPage_pages_ne _ _ hrnd]
  -- only the pages of the parent and of the new child have changed
  have hpages : ∀ q, q ≠ nd.pid → q ≠ r.pid → ((db.setPage nd.pid pg').setPage r.pid
      (u32.put (db.pages r.pid) 4 nd.pid)).pages q = db.pages q := fun q h1 h2 => by
    rw [Db.setPage_pages_ne _ _ h2, Db.setPage_pages_ne _ _ h1]
  have hpnd : ((db.setPage nd.pid pg').setPage r.pid
      (u32.put (db.pages r.pid) 4 nd.pid)).pages nd.pid = pg' := by
    rw [Db.setPage_pages_ne _ _ hrnd.symm, Db.setPage_pages_same]
  have hparent : ∀ m ∈ L ++ nd :: R, ∀ c ∈ m.children, parentOf (((db.setPage nd.pid pg').setPage
      r.pid (u32.put (db.pages r.pid) 4 nd.pid)).pages c.pid) = parentOf (db.pages c.pid) :=
    fun m hm c hc => by
      rw [hpages _ (h.row_ne_level (h.mem_row hm hc) nd_mem) (h.row_ne_r hm hc)]
  refine ⟨(L ++ [nd.withEnts (lo ++ ⟨sep, r.pid⟩ :: hi)] ++ R) :: rest, ?_,
    by simp, ?_, rfl, fun c hc => ?_, fun p hp => ?_⟩
  · have hrow : rowWith L R A B s r =
        (L ++ [nd.withEnts (lo ++ ⟨sep, r.pid⟩ :: hi)] ++ R).flatMap
          Inner.children := by
      rw [rowWith, h.children_insert hA hB]
      simp [Inner.withEnts_children]
    rw [hrow]
    refine h.upper.replace (fun m hm => ?_) (fun m hm => ?_) ?_
    · -- the node with one entry more
      rw [List.mem_singleton.mp hm]
      refine ⟨⟨par, cnt + 1, by rw [Inner.withEnts_pid, hpnd]; exact his'⟩, fun c hc => ?_⟩
      rw [Inner.withEnts_pid]
      rw [Inner.withEnts_children, ← h.children_insert hA hB] at hc
      by_cases hcr : c = r
      · rw [hcr, Db.setPage_pages_same, parentOf_put _ _ hlenr]
      · have hc' : c ∈ nd.children := by
          rw [h.children]
          simp only [List.mem_append, List.mem_cons] at hc ⊢
          tauto
        rw [hparent nd (by simp) c hc']
        exact h.upper.2.2.1 nd (by simp) c hc'
    · -- the other nodes of its level
      obtain ⟨hm', h1, h2⟩ := h.mem_level hm
      exact ⟨SameButParent.of_eq (hpages _ h1 h2), hparent m hm'⟩
    · -- the levels above look at the parent field and the fence of the node alone
      have hmap : (L ++ [nd.withEnts (lo ++ ⟨sep, r.pid⟩ :: hi)] ++ R).map
          Inner.child = (L ++ nd :: R).map Inner.child := by simp
      rw [hmap]
      refine h.upper.2.2.2.congr (fun c hc => ?_) fun m hm => ?_
      · obtain ⟨m, hm, rfl⟩ := List.mem_map.mp hc
        rw [Inner.child_pid]
        by_cases hmnd : m.pid = nd.pid
        · rw [hmnd, hpnd, his'.parentOf, his.parentOf]
        · rw [hpages _ hmnd (h.row_ne_level r_mem (List.mem_append_left _ hm)).symm]
      · exact hpages _ (h.level_ne (List.mem_append_right _ hm))
          (h.row_ne_level r_mem (List.mem_append_right _ hm)).symm
  · -- no page has come in
    have halloc' := (h.alloc.setPage pg' (mem_pidsWith_level nd_mem)).setPage
      (u32.put (db.pages r.pid) 4 nd.pid) (mem_pidsWith_row r_mem)
    have hpids : pidsWith (rowWith L R A B s r)
        ((L ++ [nd.withEnts (lo ++ ⟨sep, r.pid⟩ :: hi)] ++ R) :: rest) others =
        pidsWith (rowWith L R A B s r) ((L ++ nd :: R) :: rest) others := by simp [pidsWith]
    rw [hpids]
    exact halloc'
  · have hcnd := h.row_ne_level hc nd_mem
    by_cases hcr : c.pid = r.pid
    · rw [hcr, Db.setPage_pages_same]
      exact sameButParent_put _ _ hlenr
    · exact SameButParent.of_eq (hpages _ hcnd hcr)
  · exact hpages p (h.others_ne_level hp nd_mem) (h.others_ne_row hp r_mem)

/-- The parent is full: it is split, and its new right half is a new child one level up. -/
theorem insertIntoParent_split (h : ParentStep db L R nd rest A B s r sep others) {n : Nat}
    {tol : Fault → Prop} (ih : ParentInsertSpec tol n rest)
    (hids : IdsFor tol
      ((pidsWith (rowWith L R A B s r) ((L ++ nd :: R) :: rest) others).length + rest.length + 2))
    {par : PageId} {cnt : UInt32}
    (his : InnerIs db.ps (db.pages nd.pid) ⟨PageType.internal.code, par, cnt, nd.first⟩ nd.ents)
    (hfull : ¬ cnt < maxInternalKeys db.fields.pageSize) :
    wpDb (insertIntoParent (n + 1) s.pid sep r.pid) db (fun _ db' =>
      ∃ levels, ParentInsert db db' (rowWith L R A B s r) levels others) tol := by
  have hcond : ¬ (nd.pid = 0 ∧ s.pid = db.fields.header.rootIndexPageId) := fun hc =>
    h.nd_ne_zero hc.1
  have hrnd : r.pid ≠ nd.pid := h.row_ne_level r_mem nd_mem
  have hlenr := h.length r r_mem
  have hps8 : 8 ≤ db.ps := Nat.le_trans (by decide) h.cap.le_pageSize
  obtain ⟨lo, hi, hents, hA, hB, hlo, hhi⟩ := h.ents_cut
  simp only [insertIntoParent, wpDb_bind, wpDb_getPage_iff hids.headerPage, wpDb_load, wpDb_unpin,
    wpDb_getFields, wpDb_ite, h.parent_eq, if_neg hcond, his.header, if_neg hfull,
    wpDb_setParent (h.alloc.ne_zero (mem_pidsWith_row r_mem)) hlenr]
  refine ⟨h.alloc.ne_zero (mem_pidsWith_row s_mem), h.nd_ne_zero, ?_⟩
  -- `r` has got its parent; then the parent is split
  have hsame₁ : ∀ q, SameButParent (db.pages q)
      ((db.setPage r.pid (u32.put (db.pages r.pid) 4 nd.pid)).pages q) := by
    intro q
    rw [Db.setPage_pages]
    split
    next hq => rw [hq]; exact sameButParent_put _ _ hlenr
    next => exact SameButParent.refl _
  have hchildren : ∀ e ∈ lo ++ ⟨sep, r.pid⟩ :: hi, entryChild e ∈ rowWith L R A B s r := by
    intro e he
    rw [rowWith, h.children_insert hA hB]
    exact List.mem_append_left _ (List.mem_append_right _
      (List.mem_cons_of_mem _ (List.mem_map_of_mem he)))
  have his₁ : InnerIs (db.setPage r.pid (u32.put (db.pages r.pid) 4 nd.pid)).ps
      ((db.setPage r.pid (u32.put (db.pages r.pid) 4 nd.pid)).pages nd.pid)
      ⟨PageType.internal.code, par, cnt, nd.first⟩ (lo ++ hi) := by
    rw [Db.setPage_pages_ne _ _ hrnd.symm, ← hents]
    exact his
  -- the entry for `r` is among those that are cut, so `r` may move to the new node
  refine splitInternal_spec (db.setPage r.pid (u32.put (db.pages r.pid) 4 nd.pid)) h.cap
    (h.alloc.setPage _ (mem_pidsWith_row r_mem)) (mem_pidsWith_level nd_mem) his₁ hfull hlo hhi (fun e he => ?_)
    (hids.mono (by omega)) fun L₂ mid R₂ newPid db₂ hcut hsplit => ?_
  · have he' := hchildren e he
    exact ⟨mem_pidsWith_row he', h.row_ne_level he' nd_mem, by
      rw [(hsame₁ _).length]; exact h.length _ he'⟩
  have hps₂ : db₂.ps = db.ps := core_ps hsplit.core
  have hroot₂ : db₂.header.rootIndexPageId = db.header.rootIndexPageId := core_root hsplit.core
  have hnew : ∀ p ∈ pidsWith (rowWith L R A B s r) ((L ++ nd :: R) :: rest) others,
      p ≠ newPid := fun p hp he => hsplit.new (he ▸ hp)
  -- the row below, in terms of the two halves
  have hrow : rowWith L R A B s r =
      (L ++ [nd.withEnts L₂, rightHalf mid newPid R₂] ++ R).flatMap Inner.children := by
    rw [rowWith, h.children_insert hA hB, hcut]
    simp [Inner.withEnts_children, rightHalf_children]
  have hmoved_row : ∀ p ∈ (mid :: R₂).map (·.rightChildPageId),
      ∃ c ∈ rowWith L R A B s r, c.pid = p := by
    intro p hp
    obtain ⟨e, he, rfl⟩ := List.mem_map.mp hp
    exact ⟨entryChild e, hchildren e (by rw [hcut]; exact List.mem_append_right _ he), rfl⟩
  have hframe : ∀ q, q ≠ nd.pid → q ≠ newPid → q ∉ (mid :: R₂).map (·.rightChildPageId) →
      q ≠ r.pid → db₂.pages q = db.pages q := fun q h1 h2 h3 h4 => by
    rw [hsplit.frame q h1 h2 h3, Db.setPage_pages_ne _ _ h4]
  have hlevel_frame : ∀ m ∈ (L ++ R) ++ rest.flatten, db₂.pages m.pid = db.pages m.pid := by
    intro m hm
    have hm' : m ∈ ((L ++ nd :: R) :: rest).flatten := by
      simp only [List.flatten_cons, List.mem_append, List.mem_cons] at hm ⊢
      tauto
    refine hframe _ (h.level_ne hm) (hnew _ (mem_pidsWith_level hm')) (fun hm'' => ?_)
      (h.row_ne_level r_mem hm').symm
    obtain ⟨c, hc, hcp⟩ := hmoved_row _ hm''
    exact h.row_ne_level hc hm' hcp
  have hrow_same : ∀ c ∈ rowWith L R A B s r,
      SameButParent (db.pages c.pid) (db₂.pages c.pid) := by
    intro c hc
    refine (hsame₁ c.pid).trans ?_
    by_cases hcm : c.pid ∈ (mid :: R₂).map (·.rightChildPageId)
    · exact (hsplit.moved _ hcm).1
    · exact SameButParent.of_eq (hsplit.frame _ (h.row_ne_level hc nd_mem)
        (hnew _ (mem_pidsWith_row hc)) hcm)
  -- one level up
  have hup : Upper db₂.ps db₂.pages (L.map Inner.child ++ nd.child :: R.map Inner.child) rest
      db₂.header.rootIndexPageId := by
    rw [hps₂, hroot₂, ← List.map_cons, ← List.map_append]
    refine h.upper.2.2.2.congr (fun c hc => ?_) fun m hm =>
      hlevel_frame m (List.mem_append_right _ hm)
    obtain ⟨m, hm, rfl⟩ := List.mem_map.mp hc
    rw [Inner.child_pid]
    by_cases hmnd : m = nd
    · obtain ⟨cnt', hleft⟩ := hsplit.left
      rw [hmnd, hleft.parentOf, his.parentOf]
    · have hm' : m ∈ (L ++ R) ++ rest.flatten := by
        simp only [List.mem_append, List.mem_cons] at hm ⊢
        tauto
      rw [hlevel_frame m hm']
  have hup_row : L.map Inner.child ++ nd.child :: (⟨some mid.key, newPid⟩ : Child) ::
      R.map Inner.child =
      (L ++ [nd.withEnts L₂, rightHalf mid newPid R₂] ++ R).map Inner.child := by
    simp [rightHalf_child]
  have hord : Ordered ((L.map Inner.child ++ nd.child :: (⟨some mid.key, newPid⟩ : Child) ::
      R.map Inner.child).map (·.fence)) := by
    rw [hup_row]
    have := h.ordered
    rw [hrow] at this
    exact this.upper
  have hperm : (pidsWith (L.map Inner.child ++ nd.child ::
      (⟨some mid.key, newPid⟩ : Child) :: R.map Inner.child) rest
      ((rowWith L R A B s r).map (·.pid) ++ others)).Perm
      (newPid :: pidsWith (rowWith L R A B s r) ((L ++ nd :: R) :: rest) others) := by
    refine List.perm_iff_count.mpr fun a => ?_
    simp only [pidsWith, List.map_append, List.map_cons, List.map_map, List.flatten_cons,
      List.count_append, List.count_cons, Function.comp_def, Inner.child_pid]
    omega
  obtain ⟨cntL, hleft⟩ := hsplit.left
  obtain ⟨cntR, hright⟩ := hsplit.right
  have hlength : ∀ c ∈ L.map Inner.child ++ nd.child :: (⟨some mid.key, newPid⟩ : Child) ::
      R.map Inner.child, 8 ≤ (db₂.pages c.pid).length := by
    intro c hc
    have hLR : ∀ m ∈ L ++ R, 8 ≤ (db₂.pages m.pid).length := by
      intro m hm
      obtain ⟨par', cnt', hm'⟩ := h.upper.2.1 m (h.mem_level hm).1
      rw [hlevel_frame m (List.mem_append_left _ hm), hm'.length]
      exact hps8
    rcases List.mem_append.mp hc with hc | hc
    · obtain ⟨m, hm, rfl⟩ := List.mem_map.mp hc
      exact hLR m (List.mem_append_left _ hm)
    rcases List.mem_cons.mp hc with rfl | hc
    · rw [Inner.child_pid, hleft.length]; exact hps8
    rcases List.mem_cons.mp hc with rfl | hc
    · rw [hright.length]; exact hps8
    · obtain ⟨m, hm, rfl⟩ := List.mem_map.mp hc
      exact hLR m (List.mem_append_right _ hm)
  have hcap₂ : HoldsTwo db₂.fields.pageSize := by
    rw [core_pageSize hsplit.core]; exact h.cap
  -- by induction on the levels; for those above, the pages of the row are other pages
  refine wpDb_mono (ih db₂ (L.map Inner.child) (R.map Inner.child) nd.child
    ⟨some mid.key, newPid⟩ mid.key _ hcap₂ hup rfl hord (hsplit.alloc.perm hperm) hlength
    (by
      rw [hperm.length_eq, List.length_cons]
      exact hids.mono (by omega))) ?_
  rintro - db₃ ⟨levels, hP⟩
  -- pages of the row and of `others` stay as they are from now on
  have hrow₃ : ∀ c ∈ rowWith L R A B s r, db₃.pages c.pid = db₂.pages c.pid := fun c hc =>
    hP.others _ (List.mem_append_left _ (List.mem_map_of_mem hc))
  -- only the children of the right half have a new parent
  have hmoved_ne : ∀ c ∈ (L ++ [nd.withEnts L₂] ++ R).flatMap Inner.children,
      c.pid ∉ (mid :: R₂).map (·.rightChildPageId) := by
    intro c hc hcm
    obtain ⟨e, he, hep⟩ := List.mem_map.mp hcm
    have hnodup := h.row_nodup
    have hperm : ((rowWith L R A B s r).map (·.pid)).Perm
        (((rightHalf mid newPid R₂).children ++
          (L ++ [nd.withEnts L₂] ++ R).flatMap Inner.children).map (·.pid)) := by
      refine List.Perm.map _ ?_
      rw [hrow]
      simp only [List.flatMap_append, List.flatMap_cons, List.flatMap_nil, List.append_nil,
        List.append_assoc]
      rw [← List.append_assoc, ← List.append_assoc (L.flatMap Inner.children)]
      exact List.perm_append_comm_assoc _ _ _
    exact ne_of_nodup_map (hperm.nodup_iff.mp hnodup)
      (by rw [rightHalf_children]; exact List.mem_map_of_mem he) hc hep
  have hstay : ∀ m ∈ L ++ [nd.withEnts L₂] ++ R, ∀ c ∈ m.children,
      c ∈ rowWith L R A B s r ∧ db₃.pages c.pid =
        (db.setPage r.pid (u32.put (db.pages r.pid) 4 nd.pid)).pages c.pid := by
    intro m hm c hc
    have hc' := List.mem_flatMap.mpr ⟨m, hm, hc⟩
    have hcrow : c ∈ rowWith L R A B s r := by
      rw [hrow]
      simp only [List.flatMap_append, List.flatMap_cons, List.mem_append] at hc' ⊢
      tauto
    refine ⟨hcrow, ?_⟩
    rw [hrow₃ c hcrow, hsplit.frame _ (h.row_ne_level hcrow nd_mem)
      (hnew _ (mem_pidsWith_row hcrow)) (hmoved_ne c hc')]
  refine ⟨(L ++ [nd.withEnts L₂, rightHalf mid newPid R₂] ++ R) :: levels, ?_, by simp, ?_, ?_,
    fun c hc => ?_, fun p hp => ?_⟩
  · rw [hrow]
    refine h.upper.replace (fun m hm => ?_) (fun m hm => ?_) ?_
    · rcases List.mem_cons.mp hm with rfl | hm
      · -- the left half
        refine ⟨InnerAt.congr ⟨par, cntL, hleft⟩ (hP.row nd.child (by simp)), fun c hc => ?_⟩
        obtain ⟨hcrow, hpage⟩ := hstay _ (by simp) c hc
        rw [hpage, Inner.withEnts_pid]
        by_cases hcr : c = r
        · rw [hcr, Db.setPage_pages_same, parentOf_put _ _ hlenr]
        · have hcnd : c ∈ nd.children := by
            have hcm : c ∈ A ++ s :: r :: B := by
              rw [h.children_insert hA hB, hcut, List.map_append]
              rw [Inner.withEnts_children] at hc
              simp only [List.mem_cons, List.mem_append] at hc ⊢
              tauto
            rw [h.children]
            simp only [List.mem_append, List.mem_cons] at hcm ⊢
            tauto
          rw [Db.setPage_pages_ne _ _ (h.row_ne_r (by simp) hcnd)]
          exact h.upper.2.2.1 nd (by simp) c hcnd
      · -- the right half
        rw [List.mem_singleton.mp hm]
        refine ⟨InnerAt.congr ⟨par, cntR, hright⟩ (hP.row ⟨some mid.key, newPid⟩ (by simp)),
          fun c hc => ?_⟩
        rw [rightHalf_children] at hc
        obtain ⟨e, he, rfl⟩ := List.mem_map.mp hc
        rw [hrow₃ _ (hchildren e (by rw [hcut]; exact List.mem_append_right _ he))]
        exact (hsplit.moved _ (List.mem_map_of_mem he)).2
    · -- the other nodes of the level
      obtain ⟨hm', h1, h2⟩ := h.mem_level hm
      refine ⟨?_, fun c hc => ?_⟩
      · have hrow_m : m.child ∈ L.map Inner.child ++ nd.child ::
            (⟨some mid.key, newPid⟩ : Child) :: R.map Inner.child := by
          rcases List.mem_append.mp hm with hm | hm
          · exact List.mem_append_left _ (List.mem_map_of_mem hm)
          · exact List.mem_append_right _ (List.mem_cons_of_mem _ (List.mem_cons_of_mem _
              (List.mem_map_of_mem hm)))
        have := hP.row _ hrow_m
        rw [Inner.child_pid, hlevel_frame m (List.mem_append_left _ hm)] at this
        exact this
      · have hm'' : m ∈ L ++ [nd.withEnts L₂] ++ R := by
          simp only [List.mem_append] at hm ⊢
          tauto
        rw [(hstay m hm'' c hc).2, Db.setPage_pages_ne _ _ (h.row_ne_r hm' hc)]
    · have := hP.upper
      rwa [hps₂, hup_row] at this
  · refine hP.alloc.perm (List.perm_iff_count.mpr fun a => ?_)
    simp only [pidsWith, rightHalf, List.map_append, List.map_cons, List.map_nil, List.map_map,
      List.flatten_cons, List.count_append, List.count_cons, List.count_nil, Function.comp_def,
      Inner.child_pid, Inner.withEnts_pid]
    omega
  · rw [hP.outside, outside_of_core hsplit.core]
    rfl
  · rw [hrow₃ c hc]
    exact hrow_same c hc
  · rw [hP.others p (List.mem_append_right _ hp)]
    refine hframe p (h.others_ne_level hp nd_mem) (hnew p (mem_pidsWith_others hp)) (fun hm => ?_)
      (h.others_ne_row hp r_mem)
    obtain ⟨c, hc, hcp⟩ := hmoved_row p hm
    exact h.others_ne_row hp hc hcp.symm

end ParentStep

/-- `insert_into_parent` adds a child to the levels above a row of nodes. -/
theorem insertIntoParent_spec (levels : List (List Inner)) (n : Nat)
    (hn : levels.length < n) {tol : Fault → Prop} : ParentInsertSpec tol n levels := by
  -- the levels above the row: none is left at the root
  induction levels generalizing n with
  | nil =>
    intro db A B s r sep others hcap hup hr hord halloc hlen hids
    obtain ⟨m, rfl⟩ : ∃ m, n = m + 1 := ⟨n - 1, by simp only [List.length_nil] at hn; omega⟩
    obtain ⟨hrow, hparent⟩ := hup
    rcases A with _ | ⟨a, A⟩
    · obtain ⟨hs, rfl⟩ := List.cons.inj hrow
      exact insertIntoParent_newRoot hcap m hs (by rw [hs]; exact hparent) hr halloc hlen hids
    · exact absurd (congrArg List.length hrow) (by simp)
  | cons lv rest ih =>
    intro db A B s r sep others hcap hup hr hord halloc hlen hids
    obtain ⟨m, rfl⟩ : ∃ m, n = m + 1 := ⟨n - 1, by omega⟩
    obtain ⟨L, nd, R, A', B', rfl, hnd, rfl, rfl⟩ := exists_flatMap_cut hup.1
    have hrow : L.flatMap Inner.children ++ A' ++ s :: r :: (B' ++ R.flatMap Inner.children) =
        rowWith L R A' B' s r := by simp [rowWith]
    have hlower : L.flatMap Inner.children ++ A' ++ s :: (B' ++ R.flatMap Inner.children) =
        (L ++ nd :: R).flatMap Inner.children := hup.1.symm
    rw [hrow] at hord halloc hlen hids ⊢
    rw [hlower] at hup
    have hstep : ParentStep db L R nd rest A' B' s r sep others :=
      ⟨hcap, hup, hnd, hr, hord, halloc, hlen⟩
    obtain ⟨par, cnt, his⟩ := hup.2.1 nd (by simp)
    by_cases hroom : cnt < maxInternalKeys db.fields.pageSize
    · exact hstep.insertIntoParent_room m hids.headerPage his hroom
    · rw [List.length_cons] at hn
      exact hstep.insertIntoParent_split (ih m (by omega)) hids his hroom

end

end MiniDb
