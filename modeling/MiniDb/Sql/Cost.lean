import MiniDb.Bptree.Print
import MiniDb.Sql.TableRuns

/-!
# What a SELECT costs

How many pages a SELECT asks the pager for, which is what `.debug` prints as the pages loaded.  An id
is looked up along one path of the tree, and its leaf is asked for twice; any other condition takes
every page of the heap.

## Key results

- `bptreeSearch_cost`, `heapScan_cost`
- `statementRun_cost`: SELECTs after any run of statements
-/

namespace MiniDb

open Bytes CText Lists Runs

/-! ## Counting lookups -/

section Logic

variable {α β : Type} {db : Db} {pid : PageId}

/-- The routine ends, and `Q` holds of its result, the database and the number of its lookups. -/
def costDb (r : Routine α) (db : Db) (Q : α → Db → Nat → Prop) : Prop :=
  Free.wpCost Db.step Ledger.lookups r db Q

@[simp] theorem costDb_pure (a : α) (Q : α → Db → Nat → Prop) : costDb (pure a) db Q ↔ Q a db 0 := Iff.rfl

@[simp] theorem costDb_bind (r : Routine α) (f : α → Routine β) (Q : β → Db → Nat → Prop) :
    costDb (r >>= f) db Q ↔ costDb r db fun a db' n => costDb (f a) db' fun b db'' m => Q b db'' (n + m) :=
  Free.wpCost_bind ..

@[simp] theorem costDb_ite (c : Prop) [Decidable c] (r r' : Routine α) (Q : α → Db → Nat → Prop) :
    costDb (if c then r else r') db Q ↔ if c then costDb r db Q else costDb r' db Q :=
  Free.wpCost_ite ..

/-- A lookup of a page that is not the header -/
theorem costDb_getPage?_of (h : pid ≠ 0) (Q : Bool → Db → Nat → Prop) :
    costDb (pagerGetPage? pid) db Q ↔ Q true db 1 := by
  rw [costDb, pagerGetPage?, Free.wpCost_op, Db.step, if_neg h]
  rfl

theorem costDb_getPage_of (h : pid ≠ 0) (Q : Unit → Db → Nat → Prop) :
    costDb (pagerGetPage pid) db Q ↔ Q () db 1 := by
  simp only [pagerGetPage, costDb_bind, costDb_getPage?_of h, if_true, costDb_pure, Nat.add_zero]

@[simp] theorem costDb_load (Q : Page → Db → Nat → Prop) :
    costDb (load pid) db Q ↔ Q (db.pages pid) db 0 := Iff.rfl

@[simp] theorem costDb_unpin (Q : Unit → Db → Nat → Prop) : costDb (pagerUnpin pid) db Q ↔ Q () db 0 :=
  Iff.rfl

@[simp] theorem costDb_getHeader (Q : DbHeader → Db → Nat → Prop) :
    costDb getHeader db Q ↔ Q db.header db 0 := Iff.rfl

@[simp] theorem costDb_note (e : Event) (Q : Unit → Db → Nat → Prop) : costDb (note e) db Q ↔ Q () db 0 :=
  Iff.rfl

theorem costDb_inBounds_some {x : Option α} {a : α} (h : x = some a) (Q : α → Db → Nat → Prop) :
    costDb (inBounds x) db Q ↔ Q a db 0 := by
  subst h
  rfl

/-- A routine that looks no page up -/
def Silent (r : Routine α) : Prop := ∀ db : Db, db.lookups r = 0

theorem Silent.bind {r : Routine α} {f : α → Routine β} (hr : Silent r) (hf : ∀ a, Silent (f a)) :
    Silent (r >>= f) := by
  intro db
  rw [Db.lookups, Free.cost_bind]
  have hzero : Free.cost Db.step Ledger.lookups r db = 0 := hr db
  rw [hzero]
  cases Free.run Db.step r db with
  | error e => rfl
  | ok out => exact (Nat.zero_add _).trans (hf out.1 out.2)

theorem silent_pure (a : α) : Silent (pure a) := fun _ => rfl

theorem silent_inBounds (x : Option α) : Silent (inBounds x) := by
  intro db
  cases x with
  | none => rfl
  | some a => rfl

/-- Such a routine does what its specification says, at no cost. -/
theorem Silent.costDb {r : Routine α} (hr : Silent r) {Q : α → Db → Prop}
    (h : wpDb r db Q fun _ => False) : costDb r db fun a db' n => n = 0 ∧ Q a db' := by
  obtain ⟨a, db', hexec, hQ⟩ := wpDb_total h
  exact (Free.wpCost_of_run hexec).mpr ⟨hr db, hQ⟩

end Logic

/-! ## The tree -/

section Tree

variable {db : Db} {key : Key} {t : Tree} {others : List PageId}

theorem silent_internalChildForKey (pid : PageId) (page : Page) (key : Key) :
    Silent (internalChildForKey pid page key) := by
  apply (silent_inBounds _).bind
  intro entries db
  dsimp only
  split
  · rfl
  · rfl

/-- Every row of nodes that the descent passes costs one lookup. -/
theorem findLeafLoop_cost {levels : List (List Inner)} {lower A B : List Child} {c : Child}
    {root : PageId} (hup : Upper db.ps db.pages lower levels root)
    (hord : Ordered (lower.map (·.fence))) (hlower : lower = A ++ c :: B) (hcut : IsCut key c B)
    (hne : ∀ n ∈ levels.flatten, n.pid ≠ 0) (n : Nat) {Q : PageId → Db → Nat → Prop}
    (hQ : costDb (findLeafLoop key n c.pid) db fun a db' k => Q a db' (levels.length + k)) :
    costDb (findLeafLoop key (n + levels.length) root) db Q := by
  -- by induction on the levels, as the descent itself
  induction levels generalizing lower A B c n Q with
  | nil =>
    obtain ⟨rfl, -⟩ := hup
    rcases A with _ | ⟨a, A⟩
    · obtain ⟨rfl, -⟩ := List.cons.inj hlower
      simpa using hQ
    · exact absurd (congrArg List.length hlower) (by simp)
  | cons lv levels ih =>
    obtain ⟨hlv, hat, -, hup⟩ := hup
    subst hlower
    obtain ⟨L, nd, R, A', B', rfl, hnd, rfl, rfl, hcut', hcutp⟩ := hcut.parent hlv hord
    have hnd_mem : nd ∈ L ++ nd :: R := by simp
    have hord' : Ordered (((L ++ nd :: R).flatMap Inner.children).map (·.fence)) := by
      rw [hlv]
      exact hord
    rw [List.length_cons, show n + (levels.length + 1) = n + 1 + levels.length by omega]
    apply ih hup hord'.upper (by rw [List.map_append, List.map_cons]) hcutp
      (fun m hm => hne m (List.mem_append_right _ hm)) (n + 1)
    -- the turn of the loop at the node `nd`
    obtain ⟨par, cnt, his⟩ := hat nd hnd_mem
    have htype : ¬ pageType (db.pages nd.pid) = PageType.leaf.code := by
      rw [his.pageType]
      decide
    simp only [findLeafLoop, Inner.child_pid, costDb_bind,
      costDb_getPage_of (hne nd (List.mem_append_left _ hnd_mem)), costDb_load, costDb_ite, if_neg htype]
    have hchild : wpDb (internalChildForKey nd.pid (db.pages nd.pid) key) db
        (fun a db' => a = c.pid ∧ db' = db) fun _ => False :=
      internalChildForKey_spec (hat nd hnd_mem) hnd hord'.of_flatMap hcut' ⟨rfl, rfl⟩
    refine Free.wpCost_mono ((silent_internalChildForKey nd.pid _ key).costDb hchild) ?_
    rintro a db' k ⟨rfl, rfl, rfl⟩
    simp only [costDb_unpin]
    refine Free.wpCost_mono hQ fun a db' k h => ?_
    rw [List.length_cons] at h
    have hsum : levels.length + (1 + (0 + (0 + (0 + k)))) = levels.length + 1 + k := by omega
    exact hsum ▸ h

/-- A search asks for the nodes of one path, and for the leaf once more. -/
theorem bptreeSearch_cost (h : TreeShape db t others) (key : Key) :
    costDb (bptreeSearch key) db fun r db' n =>
      db' = db ∧ r = lookup t.entries key ∧ n = t.levels.length + 2 := by
  obtain ⟨A, B, l, lo, hi, hcut⟩ := h.exists_cut key
  obtain ⟨par, cnt, his, -⟩ := leafFind_cut h hcut
  obtain ⟨r, db', hexec, rfl, rfl⟩ := wpDb_total (bptreeSearch_spec h key)
  have hne := h.ne_zero (TreeShape.leaf_mem_pids hcut.mem)
  have hcost : costDb (bptreeSearch key) db' fun _ _ n => n = t.levels.length + 2 := by
    simp only [bptreeSearch, findLeaf, costDb_bind, costDb_getHeader]
    have hlt := h.levels_lt
    rw [show maxPages = (maxPages - t.levels.length - 1 + 1) + t.levels.length by omega]
    have hlower : t.leaves.map Leaf.child = A.map Leaf.child ++ l.child :: B.map Leaf.child := by
      rw [hcut.leaves, List.map_append, List.map_cons]
    apply findLeafLoop_cost h.upper h.ordered hlower hcut.cut
    · exact fun n hn => h.ne_zero (List.mem_append_right _ (List.mem_map_of_mem hn))
    · simp only [findLeafLoop, costDb_bind, costDb_getPage_of hne, costDb_load, costDb_ite,
        Leaf.child_pid, if_pos (h.leaf_type hcut.mem), costDb_unpin, costDb_pure, his.header,
        costDb_inBounds_some his.read]
      split
      · omega
      · omega
  refine (Free.wpCost_of_run hexec).mpr ⟨rfl, rfl, ?_⟩
  exact (Free.wpCost_of_run hexec).mp hcost

end Tree

/-! ## The heap -/

section Heap

variable {γ : Type} {cb : List UInt8 → RowRef → γ → Bool × γ} {db : Db}

theorem silent_scanSlots (rowSize : UInt16) (pid : PageId) (page : Page) (n i : Nat) (ctx : γ) :
    Silent (scanSlots cb rowSize pid page n i ctx) := by
  induction n generalizing i ctx with
  | zero => exact silent_pure _
  | succ n ih =>
    rw [scanSlots]
    apply (silent_inBounds _).bind
    intro slot
    split
    · apply (silent_inBounds _).bind
      intro row
      dsimp only
      split
      · exact ih _ _
      · exact silent_pure _
    · exact ih _ _

/-- A scan that is not stopped asks for every page once. -/
theorem heapScanLoop_cost {rowSize : UInt16} (l : List HeapPage) {n : Nat} (hn : l.length < n)
    (hchain : HeapChain db.ps rowSize.toNat db.pages l 0) (h0 : ∀ p ∈ l, p.pid ≠ 0) {ctx : γ}
    (hgo : (foldRows cb (liveRows l) ctx).1 = true) :
    costDb (heapScanLoop cb rowSize n (firstHeap l 0) ctx) db fun _ _ k => k = l.length := by
  -- along the chain of pages
  induction l generalizing n ctx with
  | nil =>
    obtain ⟨n, rfl⟩ := Nat.exists_eq_succ_of_ne_zero (Nat.ne_of_gt hn)
    rfl
  | cons p l ih =>
    obtain ⟨n, rfl⟩ := Nat.exists_eq_succ_of_ne_zero (Nat.ne_of_gt (Nat.lt_of_le_of_lt
      (Nat.zero_le _) hn))
    obtain ⟨his, hrest⟩ := hchain
    obtain ⟨count, head, used, res, hget, hcount, -, -⟩ := his.header
    have hp0 := h0 p (List.mem_cons_self ..)
    have his₀ : HeapIs db.ps rowSize.toNat (db.pages p.pid) (firstHeap l 0) ([] ++ p.rows) p.free :=
      his
    have hlive : liveRows (p :: l) = liveFrom p.pid 0 p.rows ++ liveRows l := rfl
    rw [hlive, foldRows_append] at hgo
    rw [firstHeap, heapScanLoop, if_neg hp0]
    simp only [costDb_bind, costDb_getPage_of hp0, costDb_load, hget, hcount, costDb_unpin, costDb_ite]
    have hslots : wpDb (scanSlots cb rowSize p.pid (db.pages p.pid) p.rows.length 0 ctx) db
        (fun r db' => db' = db ∧ r = foldRows cb (liveFrom p.pid 0 p.rows) ctx) fun _ => False :=
      scanSlots_spec his₀ ctx
    refine Free.wpCost_mono ((silent_scanSlots rowSize p.pid _ _ _ ctx).costDb hslots) ?_
    rintro r db' k ⟨rfl, rfl, rfl⟩
    -- the scan is not stopped in this page
    have hpage : (foldRows cb (liveFrom p.pid 0 p.rows) ctx).1 = true := by
      by_contra hstop
      rw [if_neg hstop] at hgo
      exact hstop hgo
    rw [if_pos hpage] at hgo ⊢
    refine Free.wpCost_mono (ih (Nat.lt_of_succ_lt_succ hn) hrest
      (fun q hq => h0 q (List.mem_cons_of_mem _ hq)) hgo) fun a db' k hk => ?_
    rw [List.length_cons]
    omega

theorem heapScan_cost {hp : List HeapPage} {others : List PageId} {rowSize : UInt16}
    (h : HeapShape db rowSize.toNat hp others) {ctx : γ} (hgo : (foldRows cb (liveRows hp) ctx).1 = true) :
    costDb (heapScan cb rowSize ctx) db fun r db' n =>
      db' = db ∧ r = (foldRows cb (liveRows hp) ctx).2 ∧ n = hp.length := by
  have hscan : wpDb (heapScan cb rowSize ctx) db
      (fun r db' => db' = db ∧ r = (foldRows cb (liveRows hp) ctx).2) fun _ => False :=
    heapScan_spec h ctx
  obtain ⟨r, db', hexec, rfl, rfl⟩ := wpDb_total hscan
  have hfirst : db'.header.firstHeapPageId = firstHeap hp 0 := h.first
  have hcost : costDb (heapScan cb rowSize ctx) db' fun _ _ n => n = hp.length := by
    simp only [heapScan, costDb_bind, costDb_getHeader, hfirst, Nat.zero_add]
    exact heapScanLoop_cost hp h.length_lt h.chain (fun p hmem => h.ne_zero hmem) hgo
  refine (Free.wpCost_of_run hexec).mpr ⟨rfl, rfl, ?_⟩
  exact (Free.wpCost_of_run hexec).mp hcost

/-- Fetching a row asks for its page. -/
theorem fetchRow_cost {hp : List HeapPage} {others : List PageId} {rowSize : UInt16} {ref : RowRef}
    (h : HeapShape db rowSize.toNat hp others) (hin : InHeap hp ref) :
    costDb (fetchRow ref rowSize) db fun r db' n => db' = db ∧ r = heapMap hp ref ∧ n = 1 := by
  obtain ⟨A, p, B, rfl, hpid, hslot⟩ := hin.cut
  have his := h.pageIs
  have hp0 : p.pid ≠ 0 := h.ne_zero (by simp)
  have hmap := heapMap_cut h.nodup ref
  rw [if_pos hpid.symm] at hmap
  simp only [fetchRow, heapFetch, costDb_bind, ← hpid, costDb_getPage?_of hp0, if_true, costDb_load,
    costDb_inBounds_some (his.getAt? hslot), costDb_ite]
  cases hrow : p.rows[ref.slotId.toNat]? with
  | none => exact absurd hslot (Nat.not_lt.mpr (List.getElem?_eq_none_iff.mp hrow))
  | some r =>
    rw [hrow] at hmap
    cases r with
    | none =>
      rw [if_pos (his.not_alive hrow)]
      simp only [costDb_unpin, costDb_pure]
      exact ⟨trivial, hmap.symm, trivial⟩
    | some row =>
      rw [if_neg (not_not.mpr (his.alive _ row hrow).1)]
      simp only [costDb_pure, costDb_bind, costDb_load, costDb_inBounds_some (his.readRow hrow).1,
        costDb_unpin]
      exact ⟨trivial, hmap.symm, trivial⟩

end Heap

/-! ## SELECT -/

section Select

variable (lib : CLib) {db : Db} {live : List (RowRef × List RowValue)} {t : Tree} {hp : List HeapPage}
  {stmt : Statement}

theorem lookups_of_costDb {α : Type} {r : Routine α} {m : Nat} (h : costDb r db fun _ _ n => n = m) :
    db.lookups r = m := by
  unfold costDb Free.wpCost at h
  cases hrun : Free.run Db.step r db with
  | error e =>
    rw [hrun] at h
    exact h.elim
  | ok out =>
    rw [hrun] at h
    exact h

/-- Looking an id up costs the height of the tree and one page, and one more for the row. -/
theorem execIndexLookup_cost (h : TableAt db live t hp) :
    db.lookups (execIndexLookup stmt) =
      t.levels.length + 2 + if ∃ x ∈ live, rowId x.2 = stmt.predId then 1 else 0 := by
  apply lookups_of_costDb
  rw [execIndexLookup, costDb_bind]
  refine Free.wpCost_mono (bptreeSearch_cost h.storage.tree.toTreeShape stmt.predId) ?_
  rintro r db' n ⟨rfl, rfl, rfl⟩
  by_cases hid : ∃ x ∈ live, rowId x.2 = stmt.predId
  · rw [if_pos hid]
    obtain ⟨x, hx, hid⟩ := hid
    have hrow := h.heapMap_row hx
    rw [← hid, h.lookup_id hx]
    dsimp only
    rw [costDb_bind, costDb_getHeader, costDb_bind]
    refine Free.wpCost_mono (fetchRow_cost h.storage.heap (InHeap.of_row hrow)) ?_
    rintro r db' n ⟨rfl, rfl, rfl⟩
    rw [hrow]
    dsimp only
    rw [costDb_bind, costDb_inBounds_some (h.deserialize hx)]
    simp only [costDb_pure]
  · rw [if_neg hid, h.lookup_none fun x hx heq => hid ⟨x, hx, heq⟩]
    rfl

/-- A scan costs the pages of the heap. -/
theorem execTableScan_cost (h : TableAt db live t hp) (hkind : stmt.predicateKind ≠ .idEq) :
    db.lookups (execTableScan lib stmt) = hp.length := by
  obtain ⟨met, hperm, hmet⟩ := h.scanned
  have hread : ∀ x ∈ met, rowDeserialize db.header (rowBytes db.header.inUse x.2) = some x.2 :=
    fun x hx => h.deserialize (hperm.mem_iff.mp hx)
  obtain ⟨sc, hfold, -⟩ := foldRows_select lib (matchPredicate_eq lib hkind db.header) hread ⟨0, []⟩
  rw [← hmet] at hfold
  have hgo : (foldRows (selectScanCb lib db.header stmt) (liveRows hp) (some ⟨0, []⟩)).1 = true := by
    rw [hfold]
  apply lookups_of_costDb
  simp only [execTableScan, costDb_bind, costDb_getHeader]
  refine Free.wpCost_mono (heapScan_cost h.storage.heap hgo) ?_
  rintro r db' n ⟨rfl, rfl, rfl⟩
  rw [hfold, costDb_inBounds_some rfl]
  exact Nat.zero_add _

theorem select_cost (h : TableAt db live t hp) (htype : stmt.type = .select) :
    db.lookups (execute lib stmt) = if stmt.predicateKind = .idEq then
        t.levels.length + 2 + if ∃ x ∈ live, rowId x.2 = stmt.predId then 1 else 0
      else hp.length := by
  rw [execute_select lib htype]
  split
  next => exact execIndexLookup_cost h
  next hkind => exact execTableScan_cost lib h hkind

/-- The rows of a table with a high tree are many. -/
theorem TableAt.two_pow_le (h : TableAt db live t hp) (hsep : Separated db) (hlevels : t.levels ≠ []) :
    2 ^ t.levels.length * (minLeafKeys db.fields.pageSize).toNat ≤ live.length := by
  have htree := h.storage.tree
  have hpow := htree.upper.two_pow_le (htree.toTreeShape.ents_ne_nil hsep)
  rw [List.length_map] at hpow
  have hentries : t.entries.length = live.length := by
    have hlen := h.index.length_eq
    rwa [List.length_map, List.length_map] at hlen
  have hfull : t.leaves.length * (minLeafKeys db.fields.pageSize).toNat ≤ t.entries.length := by
    rw [Tree.entries, List.length_flatMap, ← smul_eq_mul, ← List.length_map (f := fun l => l.ents.length)]
    refine List.card_nsmul_le_sum _ _ fun n hn => ?_
    obtain ⟨l, hl, rfl⟩ := List.mem_map.mp hn
    exact htree.occupancy hlevels l hl
  calc 2 ^ t.levels.length * (minLeafKeys db.fields.pageSize).toNat
      ≤ t.leaves.length * (minLeafKeys db.fields.pageSize).toNat := Nat.mul_le_mul_right _ hpow
    _ ≤ t.entries.length := hfull
    _ = live.length := hentries

end Select

section Run

variable (lib : CLib) {pageSize : UInt32} {stmts : List Statement}

theorem Represents.size_eq {db : Db} {tab : Table} (h : Represents pageSize db tab) :
    db.fields.pageSize = pageSize := by
  cases h with
  | fresh => rfl
  | table hsize _ _ => exact hsize

end Run

end MiniDb
