import MiniDb.Pager.Transparent

/-!
# The page allocator on the cache

The free list lives in the bytes of the free pages, which move between frames and the file like
all others; its head lives in the header.  `Holder` follows a run with the pages its callers hold
and the pages they have freed, the last one first.  Writes need not be marked here: a page that
loses its bytes is never one of the free list.

## Key results

- `Allocates.serve`: what one request keeps
- `page_allocator`: a run on a new database
-/

namespace MiniDb

open Bytes Free Runs

/-- `next_page_id` counts the pages handed out and the free ones. -/
theorem AllocWith.nextPageId {db : Db} {used free : List PageId} (h : AllocWith db used free)
    (hnext : db.header.nextPageId ≠ 0) :
    db.header.nextPageId.toNat = used.length + free.length + 1 := by
  have hbound : idBound db = db.header.nextPageId.toNat := if_neg hnext
  have hpos : 0 < db.header.nextPageId.toNat :=
    Nat.pos_of_ne_zero fun hz => hnext (UInt32.toNat_inj.mp hz)
  have hids : ∀ p, p ∈ used ++ free ↔ p ≠ 0 ∧ p.toNat < db.header.nextPageId.toNat :=
    hbound ▸ h.ids
  have hlt := length_lt_of_ids hpos h.nodup fun p hp => (hids p).mp hp
  have hle := le_length_of_ids (Nat.le_of_lt db.header.nextPageId.toNat_lt)
    fun p hp hb => (hids p).mpr ⟨hp, hb⟩
  rw [List.length_append] at hlt hle
  omega

theorem AllocWith.allocPage {db : Db} {used free : List PageId} (h : AllocWith db used free)
    (hps : 8 ≤ db.ps) (hnext : db.header.nextPageId ≠ 0) :
    ∃ pid db', db.exec pagerAllocPage = .ok (pid, db') ∧
      pid ∉ used ∧ pid ≠ 0 ∧ pid = free.headD db.header.nextPageId ∧
        AllocWith db' (pid :: used) free.tail ∧ db'.core = db.core ∧
        db'.header.nextPageId = db.header.nextPageId + (if free = [] then 1 else 0) ∧
        db'.pages = Function.update db.pages pid (zeroPage db.fields.pageSize) := by
  have hroom : IdsFor (fun _ => False) (used.length + 1) := by
    refine ⟨id, Or.inr ?_⟩
    have := h.nextPageId hnext
    have := db.header.nextPageId.toNat_lt
    omega
  have hwp := wp_run (pagerAllocPage_with h hps hroom)
  cases hrun : Free.run Db.step pagerAllocPage db with
  | error e => exact absurd (hwp.2 e hrun) id
  | ok out => exact ⟨out.1, out.2, hrun, hwp.1 out.1 out.2 hrun⟩

theorem AllocWith.freePage {db : Db} {pid : PageId} {used free : List PageId}
    (h : AllocWith db (pid :: used) free) (hps : 8 ≤ db.ps) :
    ∃ db', db.exec (pagerFreePage pid) = .ok ((), db') ∧ AllocWith db' used (pid :: free) ∧
      db'.core = db.core := by
  have hfree : wpDb (pagerFreePage pid) db _ fun _ => False := pagerFreePage_with h hps
  have hwp := wp_run hfree
  cases hrun : Free.run Db.step (pagerFreePage pid) db with
  | error e => exact absurd (hwp.2 e hrun) id
  | ok out =>
    obtain ⟨h1, h2, -⟩ := hwp.1 out.1 out.2 hrun
    exact ⟨out.2, hrun, h1, h2⟩

/-! ## Requests -/

/-- A cache with the pages that its callers hold and those they have freed, the last one first -/
structure Holder where
  pager : Pager
  held : List PageId
  free : List PageId

namespace Holder

/-- The pages held after a request and its answer -/
def heldAfter : Request → Reply → List PageId → List PageId
  | .allocPage, .allocated pid, held => pid :: held
  | .freePage pid, _, held => held.erase pid
  | _, _, held => held

/-- The pages freed and not handed out again, after a request and its answer -/
def freeAfter : Request → Reply → List PageId → List PageId
  | .allocPage, .allocated pid, free => free.erase pid
  | .freePage pid, _, free => pid :: free
  | _, _, free => free

def serve (req : Request) (s : Holder) : Except Fault (Reply × Holder) :=
  (Pager.serve req s.pager).map fun out =>
    (out.1, ⟨out.2, heldAfter req out.1 s.held, freeAfter req out.1 s.free⟩)

/-- What a caller owes: only a page it holds is freed, a write goes through the pointer to a page
    that is pinned and is not free, and page 0 is not a data page. -/
def Ok : Request → Holder → Prop
  | .getPage pid, _ => pid ≠ 0
  | .write pid pg, s => pid ≠ 0 ∧ pg.length = s.pager.ps ∧ s.pager.Pinned pid ∧ pid ∉ s.free
  | .freePage pid, s => pid ∈ s.held
  | _, _ => True

instance (req : Request) (s : Holder) : Decidable (Ok req s) :=
  match req with
  | .getPage pid => inferInstanceAs (Decidable (pid ≠ 0))
  | .write pid pg => inferInstanceAs
      (Decidable (pid ≠ 0 ∧ pg.length = s.pager.ps ∧ s.pager.Pinned pid ∧ pid ∉ s.free))
  | .freePage pid => inferInstanceAs (Decidable (pid ∈ s.held))
  | .markDirty _ | .unpin _ | .allocPage | .flushAll => inferInstanceAs (Decidable True)

/-- The invariant: the allocator is in order in the database behind the cache, and no free page
    has lost its bytes. -/
def Allocates (s : Holder) : Prop :=
  ∃ (u : List PageId) (db : Db), s.pager.Caches (· ∈ u) (· ∈ u) db ∧ AllocWith db (1 :: 2 :: s.held) s.free ∧
    (∀ pid ∈ s.free, pid ∉ u) ∧ dbHeaderC.size ≤ db.ps

/-- What a run of the allocator shows in a state -/
structure Sound (s : Holder) : Prop where
  chain : FreeChain s.pager.ps s.pager.content s.pager.fields.header.freePageHead s.free
  nodup : (s.held ++ s.free).Nodup
  apart : ∀ pid ∈ s.held ++ s.free, pid ≠ 0 ∧ pid ≠ 1 ∧ pid ≠ 2
  count : s.pager.fields.header.nextPageId.toNat = 3 + (s.held.length + s.free.length)

theorem Allocates.sound {s : Holder} (h : s.Allocates)
    (hnext : s.pager.fields.header.nextPageId ≠ 0) : s.Sound := by
  obtain ⟨u, db, hc, hw, hfree, -⟩ := h
  have hheader : s.pager.fields.header = db.header := congrArg PagerFields.header hc.fields
  have hnodup := hw.nodup
  simp only [List.cons_append, List.nodup_cons, List.mem_cons, not_or] at hnodup
  obtain ⟨⟨-, h1⟩, h2, hrest⟩ := hnodup
  refine ⟨?_, hrest, fun pid hpid => ⟨?_, ?_, ?_⟩, ?_⟩
  · rw [hheader, hc.ps]
    refine hw.chain.congr fun pid hpid => hc.content pid ?_ (hfree pid hpid)
    exact ((hw.ids pid).mp (List.mem_append_right _ hpid)).1
  · exact ((hw.ids pid).mp (by simpa using Or.inr (Or.inr (List.mem_append.mp hpid)))).1
  · rintro rfl
    exact h1 hpid
  · rintro rfl
    exact h2 hpid
  · rw [hheader] at hnext ⊢
    rw [hw.nextPageId hnext, List.length_cons, List.length_cons]
    omega

/-- What `pager_alloc_page` hands out: the page freed last, or the next page id when no page is
    free; in either case a page that nobody holds, full of zeros. -/
structure Handed (s : Holder) (pid : PageId) (t : Holder) : Prop where
  fresh : pid ≠ 0 ∧ pid ≠ 1 ∧ pid ≠ 2 ∧ pid ∉ s.held
  order : pid = s.free.headD s.pager.fields.header.nextPageId
  rest : t.free = s.free.tail
  next : t.pager.fields.header.nextPageId =
    s.pager.fields.header.nextPageId + (if s.free = [] then 1 else 0)
  zeros : t.pager.content pid = zeroPage t.pager.fields.pageSize

/-- Everything on the flat store that is not lost is the same in the cache. -/
theorem guarded_lost (p : Pager) (u : PageId → Prop) : p.Guarded u u :=
  fun _ hu hl => absurd hu hl

/-- A request is answered and keeps the allocator in order. -/
theorem Allocates.serve {s : Holder} {req : Request} (h : s.Allocates) (hok : Ok req s)
    (hcan : req.accesses = 1 → s.pager.CanEvict)
    (hnext : s.pager.fields.header.nextPageId ≠ 0) :
    ∃ r t, Holder.serve req s = .ok (r, t) ∧ t.Allocates ∧
      ∀ pid, r = .allocated pid → Handed s pid t := by
  obtain ⟨u, db, hc, hw, hfree, hroom⟩ := h
  have hg := guarded_lost s.pager (· ∈ u)
  have hps : 8 ≤ db.ps := Nat.le_trans (by decide) hroom
  have hheader : s.pager.fields.header = db.header := congrArg PagerFields.header hc.fields
  -- the pages left unmarked and lost after one of them is overwritten and marked
  have hfilter {pid : PageId} {q : Pager} {db' : Db} (hq : q.Caches
      (Pager.without (· ∈ u) pid) (Pager.without (· ∈ u) pid) db') :
      q.Caches (· ∈ u.filter (· ≠ pid)) (· ∈ u.filter (· ≠ pid)) db' := by
    have hmem (r : PageId) (hr : Pager.without (· ∈ u) pid r) : r ∈ u.filter (· ≠ pid) :=
      List.mem_filter.mpr ⟨hr.1, by simpa using hr.2⟩
    exact hq.mono hmem hmem
  have hserve {r : Reply} {q : Pager} (hq : Pager.serve req s.pager = .ok (r, q)) :
      Holder.serve req s = .ok (r, ⟨q, heldAfter req r s.held, freeAfter req r s.free⟩) := by
    rw [Holder.serve, hq]
    rfl
  cases req with
  | getPage pid =>
    obtain ⟨i, q, hget, hq, -⟩ := hc.getPage hg hok (hcan rfl)
    have hpage : Pager.serve (.getPage pid) s.pager = .ok (.page (some (q.frames i).data), q) := by
      show Except.ok _ = Except.ok _
      rw [hget]
      rfl
    exact ⟨_, _, hserve hpage, ⟨u, db, hq, hw, hfree, hroom⟩, fun _ hr => by simp at hr⟩
  | write pid pg =>
    obtain ⟨hpid, hlen, ⟨i, hi, -⟩, hpf⟩ := hok
    have hstore : Pager.serve (.write pid pg) s.pager = .ok (.done, s.pager.written i pg) := by
      have hrun : Pager.Agrees (store pid pg) s.pager db fun _ p' _ => p' = s.pager.written i pg :=
        Pager.agrees_store hc.coherent.distinct hi rfl
      obtain ⟨q, hq, rfl⟩ := hrun
      rw [Pager.serve, hq]
      rfl
    have hcaches := (hc.written hi hlen).mono (fun q hq => List.mem_cons.mpr hq.symm)
      fun q hq => List.mem_cons_of_mem pid hq.1
    -- the page that is overwritten is not one of the free ones
    refine ⟨_, _, hserve hstore, ⟨pid :: u, _, hcaches, ?_, fun f hf => ?_, hroom⟩,
      fun _ hr => by simp at hr⟩
    · exact hw.congr rfl rfl rfl fun f hf => Db.setPage_pages_ne _ _ fun he => hpf (he ▸ hf)
    · intro hu
      rcases List.mem_cons.mp hu with rfl | hu
      · exact hpf hf
      · exact hfree f hf hu
  | markDirty pid =>
    have hcaches := (hc.markDirty pid).mono (fun _ hq => hq.1) fun _ hq => hq
    exact ⟨_, _, hserve rfl, ⟨u, db, hcaches, hw, hfree, hroom⟩, fun _ hr => by simp at hr⟩
  | unpin pid =>
    exact ⟨_, _, hserve rfl, ⟨u, db, hc.unpin pid, hw, hfree, hroom⟩, fun _ hr => by simp at hr⟩
  | allocPage =>
    -- the flat store hands out a page, and the cache answers the same
    obtain ⟨pid, db', hdb, hnew, hpid, horder, hw', hcore, hnext', hpages⟩ :=
      hw.allocPage hps (hheader ▸ hnext)
    have hhead : db.header.freePageHead ≠ 0 → db.header.freePageHead ∉ u := fun hne =>
      hfree _ (hw.chain.head_mem hne)
    have hrun := Pager.alloc_agrees hc hg (hcan rfl) hhead
    unfold Pager.Agrees at hrun
    rw [hdb] at hrun
    obtain ⟨q, hq, hcaches⟩ := hrun
    have hpage : Pager.serve .allocPage s.pager = .ok (.allocated pid, q) := by
      rw [Pager.serve, hq]
      rfl
    -- the free list loses its first page, or was empty
    have htail : s.free.erase pid = s.free.tail := by
      cases hf : s.free with
      | nil => rfl
      | cons f free =>
        rw [hf, List.headD_cons] at horder
        rw [horder, List.erase_cons_head, List.tail_cons]
    have hfree' : ∀ f ∈ s.free.erase pid, f ∉ u.filter (· ≠ pid) := fun f hf hu =>
      hfree f (List.mem_of_mem_erase hf) (List.mem_filter.mp hu).1
    have hperm : (1 :: 2 :: pid :: s.held).Perm (pid :: 1 :: 2 :: s.held) :=
      (List.Perm.cons 1 (List.Perm.swap ..)).trans (List.Perm.swap ..)
    have hroom' : dbHeaderC.size ≤ db'.ps := by rwa [core_ps hcore]
    simp only [List.mem_cons, not_or] at hnew
    obtain ⟨h1, h2, hheld⟩ := hnew
    have hw' : AllocWith db' (1 :: 2 :: pid :: s.held) (s.free.erase pid) :=
      htail ▸ hw'.perm hperm
    refine ⟨_, _, hserve hpage, ⟨_, db', hfilter hcaches, hw', hfree', hroom'⟩,
      fun pid' hr => ?_⟩
    obtain rfl : pid = pid' := Reply.allocated.inj hr
    have hq0 : q.fields = db'.fields := hcaches.fields
    refine ⟨⟨hpid, h1, h2, hheld⟩, by rw [hheader]; exact horder, htail, ?_, ?_⟩
    · rw [hheader, hq0]
      exact hnext'
    · have hzero := hcaches.content pid hpid fun hl => hl.2 rfl
      rw [hpages, Function.update_self] at hzero
      show q.content pid = zeroPage q.fields.pageSize
      rw [hzero, hq0, core_pageSize hcore]
  | freePage pid =>
    have hpid : pid ∈ s.held := hok
    have hperm : (1 :: 2 :: s.held).Perm (pid :: 1 :: 2 :: s.held.erase pid) := by
      have h1 := (List.perm_cons_erase hpid).cons 2 |>.cons 1
      exact h1.trans (((List.Perm.swap ..).cons 1).trans (List.Perm.swap ..))
    have hne : pid ≠ 0 := ((hw.ids pid).mp (List.mem_append_left _ (by simp [hpid]))).1
    obtain ⟨db', hdb, hw', hcore⟩ := (hw.perm hperm.symm).freePage hps
    have hrun := Pager.free_agrees hc hg (hcan rfl) hne
    unfold Pager.Agrees at hrun
    rw [hdb] at hrun
    obtain ⟨q, hq, hcaches⟩ := hrun
    have hpage : Pager.serve (.freePage pid) s.pager = .ok (.done, q) := by
      rw [Pager.serve, hq]
      rfl
    have hroom' : dbHeaderC.size ≤ db'.ps := by rwa [core_ps hcore]
    refine ⟨_, _, hserve hpage, ⟨_, db', hfilter hcaches, hw', fun f hf hu => ?_, hroom'⟩,
      fun _ hr => by simp at hr⟩
    obtain ⟨hfu, hfp⟩ := List.mem_filter.mp hu
    rcases List.mem_cons.mp hf with rfl | hf
    · simp at hfp
    · exact hfree f hf hfu
  | flushAll =>
    have hroom' : dbHeaderC.size ≤ s.pager.ps := hc.ps ▸ hroom
    obtain ⟨q, hflush, hcoh, hsame, hframes⟩ := Pager.flushAll_spec hc.coherent hroom'
    have hpage : Pager.serve .flushAll s.pager = .ok (.done, q) := by
      rw [Pager.serve, hflush]
      rfl
    have hcaches := hc.agree hcoh hframes.fields (hsame.agree _)
    exact ⟨_, _, hserve hpage, ⟨u, db, hcaches, hw, hfree, hroom⟩, fun _ hr => by simp at hr⟩

/-! ## Runs -/

/-- A new database -/
theorem create_allocates {pageSize : UInt32} {p : Pager} (h : Pager.create pageSize = some p) :
    Allocates ⟨p, [], []⟩ := by
  simp only [Pager.create, Option.bind_eq_bind, Option.bind_eq_some_iff] at h
  obtain ⟨b₀, hb₀, b₁, -, b₂, -, hp⟩ := h
  have hp := Option.some.inj hp
  have hroom : dbHeaderC.size ≤ pageSize.toNat := by
    have := (Codec.put?_inv hb₀).1
    rwa [Nat.zero_add, length_zeroPage] at this
  have hopen : p.Opened := by
    rw [← hp]
    exact ⟨fun _ => rfl, rfl⟩
  have hfields : p.fields = ⟨pageSize, freshHeader pageSize, 1⟩ := by
    rw [← hp]
    rfl
  have hheader : p.flat.header = freshHeader pageSize := congrArg PagerFields.header hfields
  have hcaches : p.Caches (· ∈ ([] : List PageId)) (· ∈ ([] : List PageId)) p.flat :=
    hopen.caches.mono (fun _ hq => hq) fun _ hq => hq.elim
  refine ⟨[], p.flat, hcaches, ⟨?_, ?_, fun pid => ?_⟩, nofun, ?_⟩
  · rw [hheader]
    rfl
  · -- the heap page and the root
    show ([1, 2] : List PageId).Nodup
    decide
  · -- `next_page_id` is 3
    have hbound : idBound p.flat = 3 := by
      rw [idBound, hheader]
      rfl
    rw [hbound, List.append_nil, List.mem_cons, List.mem_singleton, ← UInt32.toNat_inj,
      ← UInt32.toNat_inj, Ne, ← UInt32.toNat_inj]
    show pid.toNat = 1 ∨ pid.toNat = 2 ↔ ¬ pid.toNat = 0 ∧ pid.toNat < 3
    omega
  · show dbHeaderC.size ≤ p.fields.pageSize.toNat
    rw [hfields]
    exact hroom

/-- A run is answered, and the allocator is in order in all its states. -/
theorem Allocates.run {reqs : List Request} {s : Holder} (h : s.Allocates)
    (hok : ∀ c ∈ calls Holder.serve reqs s, Ok c.1 c.2)
    (hstates : ∀ t ∈ states Holder.serve reqs s,
      t.pager.CanEvict ∧ t.pager.fields.header.nextPageId ≠ 0) :
    (∃ rs t, runAll Holder.serve reqs s = .ok (rs, t)) ∧ ∀ t ∈ states Holder.serve reqs s, t.Allocates := by
  induction reqs generalizing s with
  | nil => exact ⟨⟨[], s, rfl⟩, fun t ht => List.mem_singleton.mp ht ▸ h⟩
  | cons req reqs ih =>
    simp only [calls, List.mem_cons] at hok
    simp only [states, List.mem_cons] at hstates ⊢
    obtain ⟨hcan, hnext⟩ := hstates s (Or.inl rfl)
    obtain ⟨r, t, hstep, ht, -⟩ := h.serve (hok (req, s) (Or.inl rfl)) (fun _ => hcan) hnext
    simp only [hstep] at hok hstates ⊢
    obtain ⟨⟨rs, last, hrun⟩, hrest⟩ := ih ht (fun c hc => hok c (Or.inr hc))
      fun u hu => hstates u (Or.inr hu)
    refine ⟨⟨r :: rs, last, ?_⟩, fun u hu => ?_⟩
    · simp only [runAll, hstep, hrun]
    · exact hu.elim (fun he => he ▸ h) (hrest u)

/-- The page allocator on a new database, for every run of allocations, releases of held pages,
    writes to pages that are not free and other calls in which `evict_frame` always finds a frame
    and `next_page_id` does not wrap: every call is answered; in every state the chain from
    `free_page_head` is the list of the pages freed and not handed out since, no page is held or
    free twice, and `next_page_id` is three more than the number of both; an allocated page is
    none of 0, 1, 2 and those held, is full of zeros, and is the page freed last if there is one. -/
theorem page_allocator (pageSize : UInt32) (p : Pager) (reqs : List Request)
    (hfresh : Pager.create pageSize = some p)
    (hok : ∀ c ∈ calls serve reqs ⟨p, [], []⟩, Ok c.1 c.2)
    (hstates : ∀ t ∈ states serve reqs ⟨p, [], []⟩,
      t.pager.CanEvict ∧ t.pager.fields.header.nextPageId ≠ 0) :
    (∃ rs t, runAll serve reqs ⟨p, [], []⟩ = .ok (rs, t)) ∧
      (∀ t ∈ states serve reqs ⟨p, [], []⟩, t.Sound) ∧
      ∀ c ∈ calls serve reqs ⟨p, [], []⟩, c.1 = .allocPage →
        ∃ pid t, serve c.1 c.2 = .ok (.allocated pid, t) ∧ Handed c.2 pid t := by
  have hnew : Allocates ⟨p, [], []⟩ := create_allocates hfresh
  obtain ⟨hrun, hall⟩ := hnew.run hok hstates
  refine ⟨hrun, fun t ht => (hall t ht).sound (hstates t ht).2, fun c hc halloc => ?_⟩
  have hmem := mem_states_of_mem_calls hc
  obtain ⟨hcan, hnext⟩ := hstates c.2 hmem
  obtain ⟨r, t, hstep, -, hhanded⟩ := (hall c.2 hmem).serve (hok c hc) (fun _ => hcan) hnext
  obtain ⟨out, hout, heq⟩ := Pager.map_eq_ok hstep
  rw [halloc] at hout
  obtain ⟨out', -, heq'⟩ := Pager.map_eq_ok hout
  have hr : r = .allocated out'.1 := by
    rw [← (Prod.mk.inj heq).1, ← heq']
  exact ⟨out'.1, t, hr ▸ hstep, hhanded _ hr⟩

theorem isSome_create : (Pager.create 660).isSome = true := by decide +kernel

/-- A new database with the smallest pages that hold the header -/
def smallDatabase : Pager := (Pager.create 660).get isSome_create

/-- Two pages are taken and freed; the one freed last is the first to be handed out again. -/
def recycleRun : List Request :=
  [.allocPage, .unpin 3, .allocPage, .freePage 3, .freePage 4, .allocPage, .allocPage]

theorem page_allocator_small :
    (∃ rs t, runAll serve recycleRun ⟨smallDatabase, [], []⟩ = .ok (rs, t)) ∧
      (∀ t ∈ states serve recycleRun ⟨smallDatabase, [], []⟩, t.Sound) ∧
      ∀ c ∈ calls serve recycleRun ⟨smallDatabase, [], []⟩, c.1 = .allocPage →
        ∃ pid t, serve c.1 c.2 = .ok (.allocated pid, t) ∧ Handed c.2 pid t :=
  page_allocator 660 smallDatabase recycleRun (Option.some_get isSome_create).symm
    (by decide +kernel) (by decide +kernel)

end Holder

end MiniDb
