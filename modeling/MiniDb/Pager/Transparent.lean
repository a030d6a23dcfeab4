import MiniDb.Pager.Retention

/-!
# The cache is transparent

The flat store `Db` has the bytes of every page and nothing else.  `Caches` relates it to a cache:
what a caller reads from a page is the page of the flat store, whether it is in a frame or in the
file.  Every call keeps the relation, so a run of the cache answers as the run of the flat store
does.

## Key results

- `Agrees`: a routine does the same on the cache as on the flat store
- `serve_caches`: one request
- `cache_transparent`: a run of requests
-/

namespace MiniDb

open Bytes Free Runs

namespace Pager

/-- The cache stands for the flat store, the pages apart that may be lost. -/
structure Caches (unmarked lost : PageId → Prop) (p : Pager) (db : Db) : Prop where
  coherent : p.Coherent unmarked
  fields : p.fields = db.fields
  content : ∀ pid, pid ≠ 0 → ¬ lost pid → p.content pid = db.pages pid

variable {unmarked lost : PageId → Prop} {p q : Pager} {db : Db} {pid : PageId}

namespace Caches

theorem ps (h : Caches unmarked lost p db) : p.ps = db.ps := by
  rw [Pager.ps, h.fields, Db.ps]

/-- A call that changes no content -/
theorem agree (h : Caches unmarked lost p db) {unmarked' : PageId → Prop}
    (hcoh : q.Coherent unmarked') (hfields : q.fields = p.fields) (hagree : Agree lost p q) :
    Caches unmarked' lost q db :=
  ⟨hcoh, hfields.trans h.fields, fun pid hpid hl =>
    (hagree pid hpid hl).trans (h.content pid hpid hl)⟩

theorem setFields (h : Caches unmarked lost p db) {f : PagerFields}
    (hps : f.pageSize = p.fields.pageSize) :
    Caches unmarked lost { p with fields := f } { db with fields := f } := by
  let q : Pager := { p with fields := f }
  have hps : q.ps = p.ps := congrArg UInt32.toNat hps
  have hcontent (pid : PageId) : q.content pid = p.content pid :=
    content_congr (p := p) (q := q) rfl rfl hps pid
  exact ⟨h.coherent.congr rfl rfl hps, rfl, fun pid hpid hl =>
    (hcontent pid).trans (h.content pid hpid hl)⟩

theorem setHeader (h : Caches unmarked lost p db) (hdr : DbHeader) :
    Caches unmarked lost { p with fields := { db.fields with header := hdr } }
      { db with fields := { db.fields with header := hdr } } := by
  refine h.setFields ?_
  rw [h.fields]

theorem getPage (h : Caches unmarked lost p db) (hg : p.Guarded unmarked lost) (hpid : pid ≠ 0)
    (hcan : p.CanEvict) :
    ∃ i q, p.getPage pid = (some i, q) ∧ Caches unmarked lost q db ∧ q.Holds i pid ∧
      (q.frames i).data = p.content pid := by
  obtain ⟨i, q, hget, hcoh, hagree, hi, hdata⟩ := getPage_spec h.coherent hg hpid (Or.inr hcan)
  obtain ⟨i', q', hget', ht⟩ | ⟨s, hget', -⟩ := getPage_taken p pid
  · rw [hget, Prod.mk.injEq] at hget'
    obtain ⟨-, rfl⟩ := hget'
    exact ⟨i, q, hget, h.agree hcoh ht.fields hagree, hi, hdata⟩
  · rw [hget] at hget'
    exact nomatch (Prod.ext_iff.mp hget').1

/-- A write, after which the page is known -/
theorem written (h : Caches unmarked lost p db) {i : FrameId} (hi : p.Holds i pid) {pg : Page}
    (hlen : pg.length = p.ps) :
    Caches (fun q => unmarked q ∨ q = pid) (fun q => lost q ∧ q ≠ pid) (p.written i pg)
      (db.setPage pid pg) := by
  obtain ⟨hcoh, hself, hother⟩ := store_spec h.coherent hi hlen
  refine ⟨hcoh, h.fields, fun q hq hl => ?_⟩
  rw [Db.setPage_pages]
  split
  next hqp => rw [hqp, hself]
  next hqp =>
    rw [hother q hqp]
    exact h.content q hq fun hlost => hl ⟨hlost, hqp⟩

theorem markDirty (h : Caches unmarked lost p db) (pid : PageId) :
    Caches (fun q => unmarked q ∧ q ≠ pid) lost (p.markDirty pid) db := by
  obtain ⟨hcoh, hsame⟩ := markDirty_spec h.coherent pid
  exact h.agree hcoh (sameFrames_markDirty p pid).fields (hsame.agree lost)

theorem unpin (h : Caches unmarked lost p db) (pid : PageId) :
    Caches unmarked lost (p.unpin pid) db := by
  obtain ⟨hcoh, hsame⟩ := unpin_spec h.coherent pid
  exact h.agree hcoh (unpin_eq p pid).1 (hsame.agree lost)

theorem mono {unmarked' lost' : PageId → Prop} (h : Caches unmarked lost p db)
    (hu : ∀ q, unmarked q → unmarked' q) (hl : ∀ q, lost q → lost' q) :
    Caches unmarked' lost' p db :=
  ⟨h.coherent.mono hu, h.fields, fun q hq hn => h.content q hq fun hlost => hn (hl q hlost)⟩

end Caches

/-! ## Routines on both -/

/-- The routine gives the same result on the cache as on the flat store, or fails as it does
    there, and `Q` holds of the result and the states in the end. -/
def Agrees {α : Type} (r : Routine α) (p : Pager) (db : Db) (Q : α → Pager → Db → Prop) : Prop :=
  match db.exec r with
  | .ok (a, db') => ∃ p', p.exec r = .ok (a, p') ∧ Q a p' db'
  | .error e => p.exec r = .error e

section Rules

variable {α β : Type}

theorem agrees_pure {a : α} {Q : α → Pager → Db → Prop} (h : Q a p db) :
    Agrees (pure a) p db Q := ⟨p, rfl, h⟩

theorem agrees_throw (e : Fault) (Q : α → Pager → Db → Prop) : Agrees (.throw e) p db Q := rfl

theorem agrees_bind {r : Routine α} {f : α → Routine β} {Q : β → Pager → Db → Prop}
    (h : Agrees r p db fun a p' db' => Agrees (f a) p' db' Q) : Agrees (r >>= f) p db Q := by
  unfold Agrees Db.exec exec at h ⊢
  rw [run_bind, run_bind]
  cases hdb : Free.run Db.step r db with
  | error e =>
    rw [hdb] at h
    rw [h]
  | ok out =>
    rw [hdb] at h
    obtain ⟨p', hp', hrest⟩ := h
    rw [hp']
    exact hrest

theorem agrees_inBounds {x : Option α} {Q : α → Pager → Db → Prop}
    (h : ∀ a, x = some a → Q a p db) : Agrees (inBounds x) p db Q := by
  cases x with
  | none => exact agrees_throw _ _
  | some a => exact agrees_pure (h a rfl)

theorem agrees_getFields {Q : PagerFields → Pager → Db → Prop} (hfields : p.fields = db.fields)
    (h : Q db.fields p db) : Agrees getFields p db Q := by
  refine ⟨p, ?_, h⟩
  rw [← hfields]
  rfl

theorem agrees_setFields {f : PagerFields} {Q : Unit → Pager → Db → Prop}
    (h : Q () { p with fields := f } { db with fields := f }) : Agrees (setFields f) p db Q :=
  ⟨_, rfl, h⟩

theorem agrees_modifyHeader {f : DbHeader → DbHeader} {Q : Unit → Pager → Db → Prop}
    (hfields : p.fields = db.fields)
    (h : Q () { p with fields := { db.fields with header := f db.fields.header } }
      { db with fields := { db.fields with header := f db.fields.header } }) :
    Agrees (modifyHeader f) p db Q :=
  agrees_bind (agrees_getFields hfields (agrees_setFields h))

theorem agrees_note {e : Event} {Q : Unit → Pager → Db → Prop} (h : Q () p db) :
    Agrees (note e) p db Q := ⟨p, rfl, h⟩

theorem agrees_getPage {Q : Unit → Pager → Db → Prop} (h : Caches unmarked lost p db)
    (hg : p.Guarded unmarked lost) (hpid : pid ≠ 0) (hcan : p.CanEvict)
    (hQ : ∀ i q, Caches unmarked lost q db → q.Holds i pid →
      (¬ lost pid → (q.frames i).data = db.pages pid) → Q () q db) :
    Agrees (pagerGetPage pid) p db Q := by
  obtain ⟨i, q, hget, hq, hi, hdata⟩ := h.getPage hg hpid hcan
  have hdb : db.exec (pagerGetPage pid) = .ok ((), db) := by
    simp only [Db.exec, pagerGetPage, pagerGetPage?, Prog.op, bind, Prog.bind, Free.run, Db.step,
      if_neg hpid]
    rfl
  have hp : p.exec (pagerGetPage pid) = .ok ((), q) := by
    simp only [exec, pagerGetPage, pagerGetPage?, Prog.op, bind, Prog.bind, Free.run, step, hget]
    rfl
  unfold Agrees
  rw [hdb]
  exact ⟨q, hp, hQ i q hq hi fun hl => hdata.trans (h.content pid hpid hl)⟩

theorem agrees_load {Q : Page → Pager → Db → Prop} {i : FrameId} (hd : p.Distinct)
    (hi : p.Holds i pid) (hdata : (p.frames i).data = db.pages pid) (h : Q (db.pages pid) p db) :
    Agrees (load pid) p db Q := by
  refine ⟨p, ?_, h⟩
  simp only [exec, load, Prog.op, Free.run, step, (findFrame_eq_some hd).mpr hi, hdata]

theorem agrees_store {Q : Unit → Pager → Db → Prop} {i : FrameId} {pg : Page} (hd : p.Distinct)
    (hi : p.Holds i pid) (h : Q () (p.written i pg) (db.setPage pid pg)) :
    Agrees (store pid pg) p db Q := by
  refine ⟨p.written i pg, ?_, h⟩
  simp only [exec, store, Prog.op, Free.run, step, (findFrame_eq_some hd).mpr hi]
  rfl

theorem agrees_markDirty {Q : Unit → Pager → Db → Prop} (h : Q () (p.markDirty pid) db) :
    Agrees (pagerMarkDirty pid) p db Q := ⟨_, rfl, h⟩

theorem agrees_unpin {Q : Unit → Pager → Db → Prop} (h : Q () (p.unpin pid) db) :
    Agrees (pagerUnpin pid) p db Q := ⟨_, rfl, h⟩

end Rules

/-! ## Allocation and release -/

section Alloc

variable (h : Caches unmarked lost p db) (hg : p.Guarded unmarked lost) (hcan : p.CanEvict)

/-- What is left of the unmarked and the lost pages when one of them is overwritten and marked -/
def without (pages : PageId → Prop) (pid : PageId) : PageId → Prop := fun q => pages q ∧ q ≠ pid

/-- A page in a frame is overwritten, marked and released. -/
theorem Caches.rewrite (h : Caches unmarked lost p db) {i : FrameId} (hi : p.Holds i pid) {pg : Page}
    (hlen : pg.length = p.ps) :
    Caches (without unmarked pid) (without lost pid)
      (((p.written i pg).markDirty pid).unpin pid) (db.setPage pid pg) := by
  refine (((h.written hi hlen).markDirty pid).unpin pid).mono (fun q hq => ?_) fun q hq => hq
  exact ⟨hq.1.resolve_right hq.2, hq.2⟩

include h hg hcan in
/-- `pager_alloc_page`; the first page of the free list must not be lost. -/
theorem alloc_agrees (hhead : db.header.freePageHead ≠ 0 → ¬ lost db.header.freePageHead) :
    Agrees pagerAllocPage p db fun pid p' db' =>
      Caches (without unmarked pid) (without lost pid) p' db' := by
  have hzero : (zeroPage db.fields.pageSize).length = db.ps := length_zeroPage _
  refine agrees_bind (agrees_getFields h.fields ?_)
  split
  next hne =>
    -- the first page of the free list
    refine agrees_bind (agrees_getPage h hg hne hcan fun i q hq hi hdata => ?_)
    refine agrees_bind (agrees_load hq.coherent.distinct hi (hdata (hhead hne)) ?_)
    refine agrees_bind (agrees_inBounds fun fph _ => ?_)
    refine agrees_bind (agrees_modifyHeader hq.fields ?_)
    have hq' := hq.setHeader { db.fields.header with freePageHead := fph.nextFreePage }
    refine agrees_bind (agrees_store hq'.coherent.distinct hi ?_)
    refine agrees_bind (agrees_markDirty (agrees_bind (agrees_unpin (agrees_pure ?_))))
    exact hq'.rewrite hi (hzero.trans hq'.ps.symm)
  next =>
    -- the next page id
    refine agrees_bind (agrees_modifyHeader h.fields ?_)
    have h' := h.setHeader { db.fields.header with nextPageId := db.fields.header.nextPageId + 1 }
    split
    next => exact agrees_throw _ _
    next hne =>
      refine agrees_bind (agrees_getPage h' hg hne hcan fun i q hq hi _ => ?_)
      refine agrees_bind (agrees_store hq.coherent.distinct hi ?_)
      refine agrees_bind (agrees_markDirty (agrees_bind (agrees_unpin (agrees_pure ?_))))
      exact hq.rewrite hi (hzero.trans hq.ps.symm)

include h hg hcan in
/-- `pager_free_page` -/
theorem free_agrees (hpid : pid ≠ 0) :
    Agrees (pagerFreePage pid) p db fun _ p' db' =>
      Caches (without unmarked pid) (without lost pid) p' db' := by
  have hzero : (zeroPage db.fields.pageSize).length = db.ps := length_zeroPage _
  refine agrees_bind (agrees_note ?_)
  refine agrees_bind (agrees_getPage h hg hpid hcan fun i q hq hi _ => ?_)
  refine agrees_bind (agrees_getFields hq.fields ?_)
  refine agrees_bind (agrees_inBounds fun page hpage => ?_)
  have hlen : page.length = q.ps := by
    rw [Codec.length_put? hpage, hzero, hq.ps]
  refine agrees_bind (agrees_store hq.coherent.distinct hi ?_)
  refine agrees_bind (agrees_markDirty (agrees_bind (agrees_unpin ?_)))
  have hq' := hq.rewrite hi hlen
  exact agrees_modifyHeader hq'.fields (hq'.setHeader _)

end Alloc

end Pager

/-! ## Requests -/

/-- The flat store answers a request: every page has the bytes last written to it. -/
def Db.serve : Request → Db → Except Fault (Reply × Db)
  | .getPage pid, db => .ok (.page (some (db.pages pid)), db)
  | .write pid pg, db => .ok (.done, db.setPage pid pg)
  | .markDirty _, db => .ok (.done, db)
  | .unpin _, db => .ok (.done, db)
  | .allocPage, db => (db.exec pagerAllocPage).map fun out => (.allocated out.1, out.2)
  | .freePage pid, db => (db.exec (pagerFreePage pid)).map fun out => (.done, out.2)
  | .flushAll, db => .ok (.done, db)

namespace Request

/-- What a caller owes: page 0 is not a data page, a write goes through the pointer to a page that
    is pinned, and the header fits its page when it is written. -/
def Ok : Request → Pager → Prop
  | .getPage pid, _ => pid ≠ 0
  | .write pid pg, p => pid ≠ 0 ∧ pg.length = p.ps ∧ p.Pinned pid
  | .freePage pid, _ => pid ≠ 0
  | .flushAll, p => dbHeaderC.size ≤ p.ps
  | _, _ => True

instance (req : Request) (p : Pager) : Decidable (req.Ok p) := by
  cases req <;> unfold Ok <;> infer_instance

/-- The pages written to since they were marked last, after a request and its answer -/
def unmarked : Request → Reply → List PageId → List PageId
  | .write pid _, _, u => pid :: u
  | .markDirty pid, _, u => u.filter (· ≠ pid)
  | .freePage pid, _, u => u.filter (· ≠ pid)
  | .allocPage, .allocated pid, u => u.filter (· ≠ pid)
  | _, _, u => u

end Request

/-- A cache, and the pages its callers have written to without marking them since -/
structure Tracked where
  pager : Pager
  unmarked : List PageId

namespace Tracked

def serve (req : Request) (t : Tracked) : Except Fault (Reply × Tracked) :=
  (Pager.serve req t.pager).map fun out => (out.1, ⟨out.2, req.unmarked out.1 t.unmarked⟩)

/-- A page written to is marked before it is released for the last time. -/
def Guarded (t : Tracked) : Prop := t.pager.Guarded (· ∈ t.unmarked) fun _ => False

end Tracked

namespace Pager

variable {p q : Pager} {db : Db}

theorem Agrees.map {α : Type} {r : Routine α} {Q : α → Pager → Db → Prop} (h : Agrees r p db Q)
    (f : α → Reply) :
    match (db.exec r).map fun out => (f out.1, out.2) with
    | .ok (a, db') => ∃ q, ((p.exec r).map fun out => (f out.1, out.2)) = .ok (a, q) ∧
        ∃ b, a = f b ∧ Q b q db'
    | .error e => ((p.exec r).map fun out => (f out.1, out.2)) = .error e := by
  unfold Agrees at h
  cases hdb : db.exec r with
  | error e =>
    rw [hdb] at h
    rw [h]
    rfl
  | ok out =>
    rw [hdb] at h
    obtain ⟨q, hq, hQ⟩ := h
    rw [hq]
    exact ⟨q, rfl, out.1, rfl, hQ⟩

/-- The cache answers a request as the flat store does. -/
theorem serve_caches {u : List PageId} {req : Request}
    (h : Caches (· ∈ u) (fun _ => False) p db) (hg : p.Guarded (· ∈ u) fun _ => False)
    (hcan : req.accesses = 1 → p.CanEvict) (hok : req.Ok p) :
    match Db.serve req db with
    | .ok (r, db') => ∃ q, serve req p = .ok (r, q) ∧
        Caches (· ∈ req.unmarked r u) (fun _ => False) q db'
    | .error e => serve req p = .error e := by
  have hfilter {pid : PageId} {r : Pager} {db' : Db}
      (hr : Caches (without (· ∈ u) pid) (without (fun _ => False) pid) r db') :
      Caches (· ∈ u.filter (· ≠ pid)) (fun _ => False) r db' :=
    hr.mono (fun q hq => List.mem_filter.mpr ⟨hq.1, by simpa using hq.2⟩) fun q hq => hq.1
  cases req with
  | getPage pid =>
    obtain ⟨i, q, hget, hq, -, hdata⟩ := h.getPage hg hok (hcan rfl)
    refine ⟨q, ?_, hq⟩
    show Except.ok _ = Except.ok _
    rw [hget, Option.map_some, hdata, h.content pid hok id]
  -- the bytes are in the frame, and the page waits for its mark
  | write pid pg =>
    obtain ⟨hpid, hlen, i, hi, -⟩ := hok
    refine ⟨p.written i pg, ?_, (h.written hi hlen).mono (fun q hq => ?_) fun q hq => hq.1⟩
    · have hstore : Agrees (store pid pg) p db fun _ p' _ => p' = p.written i pg :=
        agrees_store h.coherent.distinct hi rfl
      obtain ⟨q, hq, rfl⟩ := hstore
      rw [serve, hq]
      rfl
    · exact List.mem_cons.mpr hq.symm
  | markDirty pid =>
    refine ⟨p.markDirty pid, rfl, (h.markDirty pid).mono (fun q hq => ?_) fun q hq => hq⟩
    exact List.mem_filter.mpr ⟨hq.1, by simpa using hq.2⟩
  | unpin pid => exact ⟨p.unpin pid, rfl, h.unpin pid⟩
  -- routines over the pager do the same on both
  | allocPage =>
    have hrun := (alloc_agrees h hg (hcan rfl) fun _ => id).map Reply.allocated
    show match (db.exec pagerAllocPage).map fun out => (Reply.allocated out.1, out.2) with
      | .ok (r, db') => _
      | .error e => _
    cases hdb : (db.exec pagerAllocPage).map fun out => (Reply.allocated out.1, out.2) with
    | error e =>
      rw [hdb] at hrun
      exact hrun
    | ok out =>
      rw [hdb] at hrun
      obtain ⟨q, hq, pid, hr, hrest⟩ := hrun
      refine ⟨q, hq, ?_⟩
      rw [hr]
      exact hfilter hrest
  | freePage pid =>
    have hrun := (free_agrees h hg (hcan rfl) hok).map fun _ => Reply.done
    show match (db.exec (pagerFreePage pid)).map fun out => (Reply.done, out.2) with
      | .ok (r, db') => _
      | .error e => _
    cases hdb : (db.exec (pagerFreePage pid)).map fun out => (Reply.done, out.2) with
    | error e =>
      rw [hdb] at hrun
      exact hrun
    | ok out =>
      rw [hdb] at hrun
      obtain ⟨q, hq, _, hr, hrest⟩ := hrun
      exact ⟨q, hq, hfilter hrest⟩
  -- the contents of the pages are the same before and after
  | flushAll =>
    obtain ⟨q, hflush, hcoh, hsame, hframes⟩ := flushAll_spec h.coherent hok
    refine ⟨q, ?_, h.agree hcoh hframes.fields (hsame.agree _)⟩
    rw [serve, hflush]
    rfl

/-! ## Runs -/

/-- The flat store that a cache stands for -/
def flat (p : Pager) : Db := ⟨p.fields, p.content⟩

theorem Opened.caches (h : p.Opened) : Caches (· ∈ []) (fun _ => False) p p.flat := by
  have hno {i : FrameId} {pid : PageId} : ¬ p.Holds i pid := fun hi => by
    rw [Holds, h.empty i] at hi
    exact Bool.false_ne_true hi.1
  exact ⟨⟨fun _ _ _ hi => absurd hi hno, fun _ _ hi => absurd hi hno, fun _ _ hi => absurd hi hno,
    fun _ _ hi => absurd hi hno⟩, rfl, fun _ _ _ => rfl⟩

/-- A run of the cache answers as the run of the flat store does. -/
theorem run_caches {reqs : List Request} {u : List PageId}
    (h : Caches (· ∈ u) (fun _ => False) p db) (hroom : TickRoom reqs p)
    (hok : ∀ c ∈ calls Tracked.serve reqs ⟨p, u⟩, c.1.Ok c.2.pager)
    (hstates : ∀ t ∈ states Tracked.serve reqs ⟨p, u⟩,
      t.pager.pinnedCount < maxFrames ∧ t.Guarded) :
    match runAll Db.serve reqs db with
    | .ok (rs, db') => ∃ t, runAll Tracked.serve reqs ⟨p, u⟩ = .ok (rs, t) ∧
        Caches (· ∈ t.unmarked) (fun _ => False) t.pager db'
    | .error e => runAll Tracked.serve reqs ⟨p, u⟩ = .error e := by
  -- request by request; the pages not marked yet are carried along
  induction reqs generalizing p u db with
  | nil => exact ⟨⟨p, u⟩, rfl, h⟩
  | cons req reqs ih =>
    simp only [calls, List.mem_cons] at hok
    simp only [states, List.mem_cons] at hstates
    obtain ⟨hpins, hg⟩ := hstates ⟨p, u⟩ (Or.inl rfl)
    -- fewer than 256 pages are pinned and the counter has not wrapped: a frame can be given up
    have hcan : req.accesses = 1 → p.CanEvict := fun hacc => by
      have htotal : Request.totalAccesses (req :: reqs) =
          req.accesses + Request.totalAccesses reqs := rfl
      have hlt := hroom.2
      rw [htotal] at hlt
      exact hroom.1.canEvict hpins (by omega)
    have hstep := serve_caches h hg hcan (hok (req, ⟨p, u⟩) (Or.inl rfl))
    simp only [runAll]
    cases hdb : Db.serve req db with
    | error e =>
      rw [hdb] at hstep
      have hserve : Tracked.serve req ⟨p, u⟩ = .error e := by
        rw [Tracked.serve, hstep]
        rfl
      rw [hserve]
    | ok out =>
      rw [hdb] at hstep
      obtain ⟨q, hq, hcaches⟩ := hstep
      have hserve : Tracked.serve req ⟨p, u⟩ = .ok (out.1, ⟨q, req.unmarked out.1 u⟩) := by
        rw [Tracked.serve, hq]
        rfl
      simp only [hserve] at hok hstates ⊢
      have hrest := ih hcaches (hroom.serve hq) (fun c hc => hok c (Or.inr hc))
        fun t ht => hstates t (Or.inr ht)
      cases hrun : runAll Db.serve reqs out.2 with
      | error e =>
        rw [hrun] at hrest
        simp only [hrest]
      | ok last =>
        rw [hrun] at hrest
        obtain ⟨t, ht, hlast⟩ := hrest
        simp only [ht]
        exact ⟨t, rfl, hlast⟩

/-- A request that takes a frame takes no pinned one. -/
theorem serve_keeps_pinned {req : Request} {r : Reply} (h : serve req p = .ok (r, q)) {i : FrameId}
    {pid : PageId} (hi : p.Holds i pid) (hpin : (p.frames i).pinCount ≠ 0) : q.Holds i pid := by
  rcases serve_steps h with hk | ⟨-, f, pid', j, s, ht, hk⟩
  · exact hk.holds.mpr hi
  · exact hk.holds.mpr (ht.keeps hi hpin)

/-- The cache is transparent: with fewer than 256 pages pinned at any time, fewer than 2^64 lookups
    and writes that are marked before the last unpin, a run answers as it would on the flat store,
    where every page has the bytes last written to it.  In every state no page has two frames, and
    no step gives a pinned frame to another page. -/
theorem cache_transparent (p : Pager) (reqs : List Request) (hopen : p.Opened)
    (haccesses : Request.totalAccesses reqs < 2 ^ 64)
    (hok : ∀ c ∈ calls Tracked.serve reqs ⟨p, []⟩, c.1.Ok c.2.pager)
    (hstates : ∀ t ∈ states Tracked.serve reqs ⟨p, []⟩,
      t.pager.pinnedCount < maxFrames ∧ t.Guarded) :
    (runAll Tracked.serve reqs ⟨p, []⟩).map Prod.fst = (runAll Db.serve reqs p.flat).map Prod.fst ∧
      (∀ rs t db, runAll Tracked.serve reqs ⟨p, []⟩ = .ok (rs, t) →
        runAll Db.serve reqs p.flat = .ok (rs, db) →
        ∀ pid, pid ≠ 0 → t.pager.content pid = db.pages pid) ∧
      (∀ t ∈ states Tracked.serve reqs ⟨p, []⟩, t.pager.Distinct) ∧
      ∀ c ∈ calls Tracked.serve reqs ⟨p, []⟩, ∀ r t, Tracked.serve c.1 c.2 = .ok (r, t) →
        ∀ i pid, c.2.pager.Holds i pid → (c.2.pager.frames i).pinCount ≠ 0 →
          t.pager.Holds i pid := by
  have hroom : TickRoom reqs p := by
    refine ⟨hopen.ordered, ?_⟩
    rw [hopen.tick]
    simpa using haccesses
  have hrun := run_caches hopen.caches hroom hok hstates
  refine ⟨?_, fun rs t db ht hdb pid hpid => ?_, fun t ht => ?_, fun c hc r t hstep i pid hi hpin => ?_⟩
  · -- the replies
    cases hdb : runAll Db.serve reqs p.flat with
    | error e =>
      rw [hdb] at hrun
      rw [hrun]
      rfl
    | ok out =>
      rw [hdb] at hrun
      obtain ⟨t, ht, -⟩ := hrun
      rw [ht]
      rfl
  · rw [hdb] at hrun
    obtain ⟨t', ht', hcaches⟩ := hrun
    rw [ht, Except.ok.injEq, Prod.mk.injEq] at ht'
    rw [ht'.2]
    exact hcaches.content pid hpid id
  · -- no page has two frames as long as the counter has room
    let Room : List Request → Tracked → Prop := fun rest t => TickRoom rest t.pager
    have hkeep : ∀ req rest t r t', Room (req :: rest) t → Tracked.serve req t = .ok (r, t') →
        Room rest t' := fun req rest t r t' ht hstep => by
      obtain ⟨out, hout, heq⟩ := map_eq_ok hstep
      rw [← (Prod.mk.inj heq).2]
      exact ht.serve hout
    have hstart : Room reqs ⟨p, []⟩ := hroom
    obtain ⟨_, hrest⟩ := states_rest hkeep hstart t ht
    exact hrest.1.distinct
  · -- one step at a time
    obtain ⟨out, hout, heq⟩ := map_eq_ok hstep
    rw [← (Prod.mk.inj heq).2]
    exact serve_keeps_pinned hout hi hpin

/-! ## A page that is written back and read again -/

/-- A tracked cache is the cache with something beside it. -/
theorem Tracked.serve_pager (req : Request) (t : Tracked) :
    serve req t.pager = (Tracked.serve req t).map fun out => (id out.1, out.2.pager) := by
  rw [Tracked.serve]
  cases serve req t.pager with
  | error e => rfl
  | ok out => rfl

theorem Tracked.pager_mem_states {reqs : List Request} {t s : Tracked}
    (h : s ∈ states Tracked.serve reqs t) : s.pager ∈ states serve reqs t.pager := by
  rw [← states_map Tracked.serve_pager]
  exact List.mem_map_of_mem h

/-- Where nothing is written, nothing is left to be marked. -/
theorem Tracked.unmarked_looks {pids : List PageId} {t : Tracked} (ht : t.unmarked = []) :
    ∀ s ∈ states Tracked.serve (looks pids) t, s.unmarked = [] := by
  let Rel : List Request → Tracked → Prop := fun rest t =>
    (∀ req ∈ rest, req ∈ looks pids) ∧ t.unmarked = []
  have hkeep : ∀ req rest t r t', Rel (req :: rest) t → Tracked.serve req t = .ok (r, t') →
      Rel rest t' := fun req rest t r t' h hstep => by
    obtain ⟨out, -, heq⟩ := map_eq_ok hstep
    refine ⟨fun req' h' => h.1 req' (List.mem_cons_of_mem _ h'), ?_⟩
    obtain ⟨pid, -, hreq⟩ := mem_looks (h.1 req (List.mem_cons_self ..))
    rw [← (Prod.mk.inj heq).2, h.2]
    cases hreq with
    | inl hget => rw [hget]; rfl
    | inr hunpin => rw [hunpin]; rfl
  intro s hs
  have hstart : Rel (looks pids) t := ⟨fun req h => h, ht⟩
  obtain ⟨_, hrest⟩ := states_rest hkeep hstart s hs
  exact hrest.2

/-- The pages 6 to 261 -/
def scanned : List PageId := (List.range maxFrames).map fun n => UInt32.ofNat (n + 6)

theorem toNat_scanned {n : Nat} (h : n < maxFrames) : (UInt32.ofNat (n + 6)).toNat = n + 6 := by
  have hmax : maxFrames = 256 := rfl
  apply UInt32.toNat_ofNat_of_lt'
  show n + 6 < 4294967296
  omega

theorem le_of_mem_scanned {pid : PageId} (h : pid ∈ scanned) : 6 ≤ pid.toNat := by
  obtain ⟨n, hn, rfl⟩ := List.mem_map.mp h
  rw [toNat_scanned (List.mem_range.mp hn)]
  exact Nat.le_add_left 6 n

theorem nodup_scanned : scanned.Nodup := by
  refine List.Nodup.map_on (fun m hm n hn heq => ?_) List.nodup_range
  have hval := congrArg UInt32.toNat heq
  rw [toNat_scanned (List.mem_range.mp hm), toNat_scanned (List.mem_range.mp hn)] at hval
  exact Nat.add_right_cancel hval

theorem length_scanned : scanned.length = maxFrames := by
  rw [scanned, List.length_map, List.length_range]

/-- Page 5 is written, marked and released, as many others are looked up as there are frames, and
    page 5 is looked up again. -/
def evictingRun : List Request := beforeRetained ++ looks (scanned ++ [5])

theorem cache_transparent_small :
    (∃ i, retainedCache.Holds i 5 ∧ (retainedCache.frames i).isDirty = true) ∧
    (∃ rs q, runAll serve (looks scanned) retainedCache = .ok (rs, q) ∧ ∀ i, ¬ q.Holds i 5) ∧
    ((runAll Tracked.serve evictingRun ⟨smallCache, []⟩).map Prod.fst =
        (runAll Db.serve evictingRun smallCache.flat).map Prod.fst ∧
      (∀ rs t db, runAll Tracked.serve evictingRun ⟨smallCache, []⟩ = .ok (rs, t) →
        runAll Db.serve evictingRun smallCache.flat = .ok (rs, db) →
        ∀ pid, pid ≠ 0 → t.pager.content pid = db.pages pid) ∧
      (∀ t ∈ states Tracked.serve evictingRun ⟨smallCache, []⟩, t.pager.Distinct) ∧
      ∀ c ∈ calls Tracked.serve evictingRun ⟨smallCache, []⟩, ∀ r t,
        Tracked.serve c.1 c.2 = .ok (r, t) →
        ∀ i pid, c.2.pager.Holds i pid → (c.2.pager.frames i).pinCount ≠ 0 →
          t.pager.Holds i pid) := by
  have hopen : smallCache.Opened := ⟨fun _ => rfl, rfl⟩
  -- the cache that has page 5, written and released
  obtain ⟨rs, hbefore⟩ := beforeRetained_run
  have htick : retainedCache.tick = 1 := by decide +kernel
  have hroom : TickRoom beforeRetained smallCache := ⟨hopen.ordered, by decide +kernel⟩
  have hord : retainedCache.Ordered := states_ordered hroom _ (mem_states_of_runAll hbefore)
  have hidle : ∀ j ∈ frameIds, (retainedCache.frames j).pinCount = 0 := by decide +kernel
  have hstart : retainedCache.Between ∅ :=
    ⟨hord, fun j => hidle j (mem_frameIds j), Recent.empty retainedCache⟩
  obtain ⟨t, ht, hpager, hunmarked⟩ : ∃ t, runAll Tracked.serve beforeRetained ⟨smallCache, []⟩ =
      .ok (rs, t) ∧ t.pager = retainedCache ∧ t.unmarked = [] := by
    have hmap := runAll_map Tracked.serve_pager beforeRetained ⟨smallCache, []⟩
    rw [hbefore] at hmap
    obtain ⟨out, hout, heq⟩ := map_eq_ok hmap
    rw [List.map_id, Prod.mk.injEq] at heq
    have hnone : ((runAll Tracked.serve beforeRetained ⟨smallCache, []⟩).toOption.any
        fun out => out.2.unmarked = []) = true := by decide +kernel
    rw [hout] at hnone
    refine ⟨out.2, ?_, heq.2, of_decide_eq_true hnone⟩
    rw [hout, ← heq.1]
  have hfirst : ∀ t ∈ states Tracked.serve beforeRetained ⟨smallCache, []⟩,
      t.pager.pinnedCount < maxFrames ∧ (t.unmarked = [] ∨ t.unmarked = [5] ∧ t.pager.Pinned 5) := by
    decide +kernel
  refine ⟨⟨⟨0, by decide⟩, by decide +kernel⟩, ?_, ?_⟩
  · have hlookups : retainedCache.tick.toNat + scanned.length < 2 ^ 64 := by
      rw [htick, length_scanned]
      decide
    obtain ⟨rs', q, hrun, hpages⟩ := displaced hstart hlookups nodup_scanned length_scanned
    refine ⟨rs', q, hrun, fun i hi => ?_⟩
    have hle : 6 ≤ (5 : PageId).toNat := le_of_mem_scanned (hpages i 5 hi)
    exact absurd hle (by decide)
  · refine cache_transparent smallCache evictingRun hopen (by decide +kernel)
      (fun c hc => ?_) fun s hs => ?_
    · rcases mem_calls_append ht hc with hc | hc
      · have hok : ∀ c ∈ calls Tracked.serve beforeRetained ⟨smallCache, []⟩, c.1.Ok c.2.pager := by
          decide +kernel
        exact hok c hc
      · obtain ⟨pid, hpid, hreq⟩ := mem_looks (op_mem_of_mem_calls hc)
        cases hreq with
        | inr hunpin => rw [hunpin]; exact trivial
        | inl hget =>
          rw [hget]
          rcases List.mem_append.mp hpid with hpid | hpid
          · rintro rfl
            have hle : 6 ≤ (0 : PageId).toNat := le_of_mem_scanned hpid
            exact absurd hle (by decide)
          · rw [List.mem_singleton.mp hpid]
            show (5 : PageId) ≠ 0
            decide
    · rcases mem_states_append ht hs with hs | hs
      · refine ⟨(hfirst s hs).1, fun pid hpid _ => ?_⟩
        rcases (hfirst s hs).2 with hnone | ⟨hone, hpin⟩
        · rw [hnone] at hpid
          exact absurd hpid List.not_mem_nil
        · rw [hone, List.mem_singleton] at hpid
          exact hpid ▸ hpin
      · have hpins := Tracked.pager_mem_states hs
        rw [hpager] at hpins
        have hlookups : retainedCache.tick.toNat + (scanned ++ [5]).length < 2 ^ 64 := by
          rw [htick, List.length_append, length_scanned]
          decide
        have hle := hstart.pinnedCount_looks hlookups s.pager hpins
        refine ⟨lt_of_le_of_lt hle (by decide), fun pid hpid _ => ?_⟩
        rw [Tracked.unmarked_looks hunmarked s hs] at hpid
        exact absurd hpid List.not_mem_nil

end Pager

end MiniDb
