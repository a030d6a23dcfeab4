import MiniDb.Lib.Runs
import MiniDb.Pager.CacheSpec

/-!
# Runs of the cache

`Request` is one call of the cache, or a write through a pointer it handed out; `Pager.serve`
answers it.  What is shown here needs no discipline of the callers: no page ever gets a second
frame, and ticks order the frames by their last use as long as the counter does not wrap.

## Key results

- `getPage_taken`: what a call of `pager_get_page` does to the frames
- `serve_steps`: a request is a sequence of such calls and of changes that keep every frame's page
- `Ordered.serve`, `states_ordered`: the order of the frames, over a request and over a run
-/

namespace MiniDb

open Bytes Free Runs

/-- A call of the cache, or a write through the pointer to a page -/
inductive Request where
  | getPage (pid : PageId)
  | write (pid : PageId) (pg : Page)
  | markDirty (pid : PageId)
  | unpin (pid : PageId)
  | allocPage
  | freePage (pid : PageId)
  | flushAll

/-- The answer to a request.  For `pager_get_page` it is the bytes behind the pointer, nothing for
    `NULL`. -/
inductive Reply where
  | page (bytes : Option Page)
  | allocated (pid : PageId)
  | done
  deriving DecidableEq

namespace Request

/-- How many pages a request looks up -/
def accesses : Request → Nat
  | .getPage _ | .allocPage | .freePage _ => 1
  | _ => 0

/-- How many pages a run of requests looks up -/
def totalAccesses (reqs : List Request) : Nat := (reqs.map accesses).sum

end Request

namespace Pager

/-- A missing value is a fault. -/
def orFault {α : Type} (e : Fault) : Option α → Except Fault α
  | some a => .ok a
  | none => .error e

/-- Answer a request. -/
def serve : Request → Pager → Except Fault (Reply × Pager)
  | .getPage pid, p =>
    .ok (.page ((p.getPage pid).1.map fun i => ((p.getPage pid).2.frames i).data),
      (p.getPage pid).2)
  | .write pid pg, p => (p.exec (store pid pg)).map fun out => (.done, out.2)
  | .markDirty pid, p => .ok (.done, p.markDirty pid)
  | .unpin pid, p => .ok (.done, p.unpin pid)
  | .allocPage, p => (p.exec pagerAllocPage).map fun out => (.allocated out.1, out.2)
  | .freePage pid, p => (p.exec (pagerFreePage pid)).map fun out => (.done, out.2)
  | .flushAll, p => (orFault .outOfBounds p.flushAll).map fun q => (.done, q)

/-- The number of pages with `pin_count > 0` -/
def pinnedCount (p : Pager) : Nat :=
  frameIds.countP fun i => (p.frames i).isValid && decide ((p.frames i).pinCount ≠ 0)

/-- The cache before its first call: `pager_open` has just allocated the frames. -/
structure Opened (p : Pager) : Prop where
  empty : ∀ i, (p.frames i).isValid = false
  tick : p.tick = 0

/-- Pages of eight bytes and an empty file, so that runs can be evaluated -/
def smallCache : Pager := initial ⟨8, freshHeader 8, 1⟩ fun _ => 0

variable {p q : Pager} {pid : PageId}

/-! ## pager_get_page and the frames -/

/-- `pager_get_page` has returned the frame `i`, which held the page before or was given up for
    it. -/
structure Taken (p : Pager) (pid : PageId) (i : FrameId) (q : Pager) : Prop where
  fields : q.fields = p.fields
  low : q.dirtyLowWatermark = p.dirtyLowWatermark
  high : q.dirtyHighWatermark = p.dirtyHighWatermark
  tick : q.tick = p.tick + 1
  others : ∀ j, j ≠ i → q.frames j = p.frames j
  holds : q.Holds i pid
  used : (q.frames i).usedTick = p.tick + 1
  before : (p.Holds i pid ∧ (q.frames i).data = (p.frames i).data ∧
      (q.frames i).isDirty = (p.frames i).isDirty) ∨
    ((∀ j, ¬ p.Holds j pid) ∧ (q.frames i).isDirty = false ∧
      ((p.frames i).isValid = false ∨ ((∀ j, (p.frames j).isValid = true) ∧ p.LeastRecent i)))

theorem GivesUp.others {i j : FrameId} (h : p.GivesUp i q) (hj : j ≠ i) :
    q.frames j = p.frames j := by
  rcases h with ⟨rfl, -⟩ | ⟨rfl, -⟩
  · rfl
  · exact evicted_frame_ne hj

theorem evicted_eq (p : Pager) (i : FrameId) : (p.evicted i).fields = p.fields ∧
    (p.evicted i).tick = p.tick ∧ (p.evicted i).dirtyLowWatermark = p.dirtyLowWatermark ∧
    (p.evicted i).dirtyHighWatermark = p.dirtyHighWatermark := by
  by_cases hd : (p.frames i).isDirty = true
  · rw [evicted, if_pos hd]
    exact ⟨rfl, rfl, rfl, rfl⟩
  · rw [evicted, if_neg hd]
    exact ⟨rfl, rfl, rfl, rfl⟩

theorem GivesUp.eqs {i : FrameId} (h : p.GivesUp i q) : q.fields = p.fields ∧
    q.tick = p.tick ∧ q.dirtyLowWatermark = p.dirtyLowWatermark ∧
    q.dirtyHighWatermark = p.dirtyHighWatermark := by
  rcases h with ⟨rfl, -⟩ | ⟨rfl, -⟩
  · exact ⟨rfl, rfl, rfl, rfl⟩
  · exact evicted_eq p i

/-- `pager_get_page` takes a frame, or it returns `NULL` and only counts the attempt. -/
theorem getPage_taken (p : Pager) (pid : PageId) :
    (∃ i q, p.getPage pid = (some i, q) ∧ p.Taken pid i q) ∨
      ∃ s, p.getPage pid = (none, { p with stats := s }) ∧ p.findFrame pid = none ∧
        ¬ p.CanEvict := by
  rcases getPage_cases p pid with ⟨i, s, hf, hget⟩ | ⟨i, r, s, hf, hr, hget⟩ | ⟨s, hf, hnone, hget⟩
  · -- a hit
    have hi := holds_of_findFrame hf
    have hframe : (p.touched i).frames i = { p.frames i with
        pinCount := (p.frames i).pinCount + 1, usedTick := p.tick + 1 } := by
      rw [touched_frame, if_pos rfl]
    have hdata : ((p.touched i).frames i).data = (p.frames i).data := by rw [hframe]
    have hdirty : ((p.touched i).frames i).isDirty = (p.frames i).isDirty := by rw [hframe]
    refine Or.inl ⟨i, _, hget, ⟨rfl, rfl, rfl, rfl, fun j hj => ?_, holds_touched.mpr hi, ?_, ?_⟩⟩
    · exact (touched_frame p i j).trans (if_neg hj)
    · exact congrArg Frame.usedTick hframe
    · exact Or.inl ⟨hi, hdata, hdirty⟩
  · -- a miss
    obtain ⟨h1, h2, h3, h4⟩ := hr.eqs
    have hframe : (r.loaded i pid).frames i = ⟨pid, true, false, 1, r.tick + 1, r.rawRead pid⟩ := by
      rw [loaded_frame, if_pos rfl]
    refine Or.inl ⟨i, _, hget, ⟨h1, h3, h4, ?_, fun j hj => ?_, ?_, ?_, ?_⟩⟩
    · exact congrArg (· + 1) h2
    · exact ((loaded_frame r i pid j).trans (if_neg hj)).trans (hr.others hj)
    · exact ⟨congrArg Frame.isValid hframe, congrArg Frame.pageId hframe⟩
    · exact (congrArg Frame.usedTick hframe).trans (congrArg (· + 1) h2)
    · refine Or.inr ⟨findFrame_eq_none.mp hf, congrArg Frame.isDirty hframe, ?_⟩
      rcases hr with ⟨-, hfree⟩ | ⟨-, hvalid, hleast⟩
      · exact Or.inl hfree
      · exact Or.inr ⟨hvalid, hleast⟩
  · exact Or.inr ⟨s, hget, hf, not_exists.mpr hnone⟩

theorem taken_of_getPage {i : FrameId} (h : p.getPage pid = (some i, q)) : p.Taken pid i q := by
  rcases getPage_taken p pid with ⟨j, r, hget, ht⟩ | ⟨s, hget, -⟩
  · rw [h, Prod.mk.injEq, Option.some.injEq] at hget
    obtain ⟨rfl, rfl⟩ := hget
    exact ht
  · rw [h] at hget
    simp at hget

/-- The pins of the frame returned: one more, or the first one. -/
theorem getPage_pinCount {i : FrameId} (h : p.getPage pid = (some i, q)) :
    (p.Holds i pid ∧ (q.frames i).pinCount = (p.frames i).pinCount + 1) ∨
      ((∀ j, ¬ p.Holds j pid) ∧ (q.frames i).pinCount = 1) := by
  rcases getPage_cases p pid with ⟨j, s, hf, hget⟩ | ⟨j, r, s, hf, -, hget⟩ | ⟨s, -, -, hget⟩
  · rw [h, Prod.mk.injEq, Option.some.injEq] at hget
    obtain ⟨rfl, rfl⟩ := hget
    have hframe := touched_frame p i i
    rw [if_pos rfl] at hframe
    exact Or.inl ⟨holds_of_findFrame hf, congrArg Frame.pinCount hframe⟩
  · rw [h, Prod.mk.injEq, Option.some.injEq] at hget
    obtain ⟨rfl, rfl⟩ := hget
    have hframe := loaded_frame r i pid i
    rw [if_pos rfl] at hframe
    exact Or.inr ⟨findFrame_eq_none.mp hf, congrArg Frame.pinCount hframe⟩
  · rw [h] at hget
    simp at hget

/-- A pinned frame is not given to another page. -/
theorem Taken.keeps {i j : FrameId} {r : PageId} (h : p.Taken pid i q) (hj : p.Holds j r)
    (hpin : (p.frames j).pinCount ≠ 0) : q.Holds j r := by
  by_cases hji : j = i
  · subst hji
    rcases h.before with ⟨hi, -⟩ | ⟨-, -, hfree | ⟨-, hleast⟩⟩
    · rw [← hj.2, hi.2]
      exact h.holds
    · rw [hj.1] at hfree
      exact nomatch hfree
    · exact absurd hleast.1 hpin
  · rw [Holds, h.others j hji]
    exact hj

/-! ## The other calls and the frames -/

/-- Every frame keeps its page and its tick. -/
structure KeepsPages (p q : Pager) : Prop where
  low : q.dirtyLowWatermark = p.dirtyLowWatermark
  high : q.dirtyHighWatermark = p.dirtyHighWatermark
  tick : q.tick = p.tick
  isValid : ∀ j, (q.frames j).isValid = (p.frames j).isValid
  pageId : ∀ j, (q.frames j).pageId = (p.frames j).pageId
  usedTick : ∀ j, (q.frames j).usedTick = (p.frames j).usedTick

theorem KeepsPages.refl (p : Pager) : KeepsPages p p :=
  ⟨rfl, rfl, rfl, fun _ => rfl, fun _ => rfl, fun _ => rfl⟩

theorem KeepsPages.trans {r : Pager} (h : KeepsPages p q) (h' : KeepsPages q r) : KeepsPages p r :=
  ⟨h'.low.trans h.low, h'.high.trans h.high, h'.tick.trans h.tick,
    fun j => (h'.isValid j).trans (h.isValid j), fun j => (h'.pageId j).trans (h.pageId j),
    fun j => (h'.usedTick j).trans (h.usedTick j)⟩

theorem KeepsPages.holds (h : KeepsPages p q) {j : FrameId} : q.Holds j pid ↔ p.Holds j pid := by
  rw [Holds, h.isValid, h.pageId, Holds]

theorem SameFrames.keepsPages (h : SameFrames p q) : KeepsPages p q := by
  refine ⟨h.low, h.high, h.tick, fun j => ?_, fun j => ?_, fun j => ?_⟩
  all_goals
    obtain ⟨d, hd⟩ := h.frames j
    rw [hd]

theorem keepsPages_written (p : Pager) (i : FrameId) (pg : Page) : KeepsPages p (p.written i pg) := by
  have hframe (j : FrameId) : ∃ b, (p.written i pg).frames j = { p.frames j with data := b } := by
    by_cases hj : j = i
    · subst hj
      exact ⟨pg, modifyFrame_same _ _ _⟩
    · exact ⟨_, modifyFrame_ne _ _ hj⟩
  refine ⟨rfl, rfl, rfl, fun j => ?_, fun j => ?_, fun j => ?_⟩
  all_goals
    obtain ⟨b, hb⟩ := hframe j
    rw [hb]

/-- The frame of the page loses a pin. -/
theorem unpin_holds (hd : p.Distinct) {i : FrameId} (hi : p.Holds i pid)
    (hpin : (p.frames i).pinCount ≠ 0) :
    p.unpin pid = p.modifyFrame i fun f => { f with pinCount := f.pinCount - 1 } := by
  have hpos : 0 < (p.frames i).pinCount := by
    rw [UInt32.lt_iff_toNat_lt, UInt32.toNat_zero]
    exact Nat.pos_of_ne_zero fun h0 => hpin (UInt32.toNat_inj.mp h0)
  rw [unpin, (findFrame_eq_some hd).mpr hi]
  exact if_pos hpos

theorem unpin_pinCount (p : Pager) (pid : PageId) (j : FrameId) :
    ∃ n, (p.unpin pid).frames j = { p.frames j with pinCount := n } := by
  unfold unpin
  split
  next i hi =>
    split
    next =>
      by_cases hj : j = i
      · subst hj
        exact ⟨_, modifyFrame_same _ _ _⟩
      · exact ⟨_, modifyFrame_ne _ _ hj⟩
    next => exact ⟨_, rfl⟩
  next => exact ⟨_, rfl⟩

theorem keepsPages_unpin (p : Pager) (pid : PageId) : KeepsPages p (p.unpin pid) := by
  obtain ⟨-, h2, -, h4, h5⟩ := unpin_eq p pid
  refine ⟨h4, h5, h2, fun j => ?_, fun j => ?_, fun j => ?_⟩
  all_goals
    obtain ⟨n, hn⟩ := unpin_pinCount p pid j
    rw [hn]

theorem keepsPages_fields (p : Pager) (f : PagerFields) : KeepsPages p { p with fields := f } :=
  ⟨rfl, rfl, rfl, fun _ => rfl, fun _ => rfl, fun _ => rfl⟩

/-! ## Allocation and release -/

/-- Partial correctness of a routine on the cache -/
def wpCache {α : Type} (r : Routine α) (p : Pager) (Q : α → Pager → Prop) : Prop :=
  Free.wp step (fun _ _ => True) (fun _ => True) r p Q

section Rules

variable {α β : Type}

theorem wpCache_run {r : Routine α} {Q : α → Pager → Prop} (h : wpCache r p Q) {a : α}
    (hrun : p.exec r = .ok (a, q)) : Q a q := (wp_run h).1 a q hrun

@[simp] theorem wpCache_bind (r : Routine α) (f : α → Routine β) (Q : β → Pager → Prop) :
    wpCache (r >>= f) p Q ↔ wpCache r p fun a q => wpCache (f a) q Q := wp_bind r f p Q

@[simp] theorem wpCache_pure (a : α) (Q : α → Pager → Prop) :
    wpCache (pure a) p Q ↔ Q a p := Iff.rfl

@[simp] theorem wpCache_throw (e : Fault) (Q : α → Pager → Prop) :
    wpCache (.throw e) p Q := trivial

@[simp] theorem wpCache_getPage (pid : PageId) (Q : Unit → Pager → Prop) :
    wpCache (pagerGetPage pid) p Q ↔ ∀ i q, p.getPage pid = (some i, q) → Q () q := by
  simp only [pagerGetPage, wpCache_bind]
  rw [wpCache, pagerGetPage?, wp_op]
  cases hget : p.getPage pid with
  | mk i? q =>
    cases i? with
    | none => simp [step, hget]
    | some i => simp [step, hget]

@[simp] theorem wpCache_load (pid : PageId) (Q : Page → Pager → Prop) :
    wpCache (load pid) p Q ↔ ∀ i, p.findFrame pid = some i → Q (p.frames i).data p := by
  rw [wpCache, load, wp_op]
  cases hf : p.findFrame pid with
  | none => simp [step, hf]
  | some i => simp [step, hf]

@[simp] theorem wpCache_store (pid : PageId) (pg : Page) (Q : Unit → Pager → Prop) :
    wpCache (store pid pg) p Q ↔ ∀ i, p.findFrame pid = some i → Q () (p.written i pg) := by
  rw [wpCache, store, wp_op]
  cases hf : p.findFrame pid with
  | none => simp [step, hf]
  | some i =>
    simp only [step, hf, written]
    simp
    exact ⟨fun h => h (), fun h _ => h⟩

@[simp] theorem wpCache_markDirty (pid : PageId) (Q : Unit → Pager → Prop) :
    wpCache (pagerMarkDirty pid) p Q ↔ Q () (p.markDirty pid) := Iff.of_eq (true_and _)

@[simp] theorem wpCache_unpin (pid : PageId) (Q : Unit → Pager → Prop) :
    wpCache (pagerUnpin pid) p Q ↔ Q () (p.unpin pid) := Iff.of_eq (true_and _)

@[simp] theorem wpCache_getFields (Q : PagerFields → Pager → Prop) :
    wpCache getFields p Q ↔ Q p.fields p := Iff.of_eq (true_and _)

@[simp] theorem wpCache_setFields (f : PagerFields) (Q : Unit → Pager → Prop) :
    wpCache (setFields f) p Q ↔ Q () { p with fields := f } := Iff.of_eq (true_and _)

@[simp] theorem wpCache_modifyHeader (f : DbHeader → DbHeader) (Q : Unit → Pager → Prop) :
    wpCache (modifyHeader f) p Q ↔
      Q () { p with fields := { p.fields with header := f p.fields.header } } := by
  rw [modifyHeader, wpCache_bind, wpCache_getFields, wpCache_setFields]

@[simp] theorem wpCache_note (e : Event) (Q : Unit → Pager → Prop) :
    wpCache (note e) p Q ↔ Q () p := Iff.of_eq (true_and _)

@[simp] theorem wpCache_inBounds (x : Option α) (Q : α → Pager → Prop) :
    wpCache (inBounds x) p Q ↔ ∀ a, x = some a → Q a p := by
  rw [wpCache, inBounds, wp_ofOption]
  cases x with
  | none => simp
  | some a => simp

end Rules

/-- The page is obtained, overwritten, marked and released; the header fields change. -/
def Rewritten (p : Pager) (pid : PageId) (q : Pager) : Prop :=
  ∃ i r j pg f₀ f f', ({ p with fields := f₀ } : Pager).getPage pid = (some i, r) ∧
    q = { (({ r with fields := f }.written j pg).markDirty pid).unpin pid with fields := f' }

theorem wpCache_pagerAllocPage (p : Pager) :
    wpCache pagerAllocPage p fun pid q => p.Rewritten pid q := by
  simp only [pagerAllocPage, wpCache_bind, wpCache_getFields]
  split
  next =>
    simp only [wpCache_bind, wpCache_getPage, wpCache_load, wpCache_inBounds, wpCache_modifyHeader,
      wpCache_store, wpCache_markDirty, wpCache_unpin, wpCache_pure]
    intro i r hget _ _ _ _ j _
    exact ⟨i, r, j, _, _, _, _, hget, rfl⟩
  next =>
    simp only [wpCache_bind, wpCache_modifyHeader]
    split
    next => exact trivial
    next =>
      simp only [wpCache_bind, wpCache_getPage, wpCache_store, wpCache_markDirty, wpCache_unpin,
        wpCache_pure]
      intro i r hget j _
      exact ⟨i, r, j, _, _, _, _, hget, rfl⟩

theorem wpCache_pagerFreePage (p : Pager) (pid : PageId) :
    wpCache (pagerFreePage pid) p fun _ q => p.Rewritten pid q := by
  simp only [pagerFreePage, wpCache_bind, wpCache_getPage, wpCache_getFields, wpCache_inBounds,
    wpCache_modifyHeader, wpCache_store, wpCache_markDirty, wpCache_unpin, wpCache_note]
  intro i r hget _ _ j _
  exact ⟨i, r, j, _, _, _, _, hget, rfl⟩

/-! ## Requests -/

theorem Rewritten.steps (h : p.Rewritten pid q) :
    ∃ f i r, ({ p with fields := f } : Pager).Taken pid i r ∧ KeepsPages r q := by
  obtain ⟨i, r, j, pg, f₀, f, f', hget, rfl⟩ := h
  refine ⟨f₀, i, r, taken_of_getPage hget, ?_⟩
  have h1 := (keepsPages_fields r f).trans (keepsPages_written _ j pg)
  have h2 := h1.trans (sameFrames_markDirty _ pid).keepsPages
  exact (h2.trans (keepsPages_unpin _ pid)).trans (keepsPages_fields _ f')

theorem map_eq_ok {ε α β : Type} {x : Except ε α} {f : α → β} {b : β} (h : x.map f = .ok b) :
    ∃ a, x = .ok a ∧ f a = b := by
  cases x with
  | error e => exact nomatch h
  | ok a => exact ⟨a, rfl, Except.ok.inj h⟩

theorem exec_store_inv {pg : Page} {u : Unit} (h : p.exec (store pid pg) = .ok (u, q)) :
    ∃ i, p.findFrame pid = some i ∧ q = p.written i pg := by
  have hwp : wpCache (store pid pg) p fun _ q => ∃ i, p.findFrame pid = some i ∧ q = p.written i pg :=
    (wpCache_store pid pg _).mpr fun i hi => ⟨i, hi, rfl⟩
  exact wpCache_run hwp h

theorem orFault_eq_ok {α : Type} {e : Fault} {x : Option α} {a : α} (h : orFault e x = .ok a) :
    x = some a := by
  cases x with
  | none => exact nomatch h
  | some b => rw [Except.ok.inj h]

/-- A request takes a frame for at most one page, and only when it looks one up. -/
theorem serve_steps {req : Request} {r : Reply} (h : serve req p = .ok (r, q)) :
    KeepsPages p q ∨ req.accesses = 1 ∧
      ∃ f pid i s, ({ p with fields := f } : Pager).Taken pid i s ∧ KeepsPages s q := by
  -- only the three requests that look a page up take a frame for it
  cases req with
  | getPage pid =>
    have h : (p.getPage pid).2 = q := congrArg Prod.snd (Except.ok.inj h)
    rcases getPage_taken p pid with ⟨i, s, hget, htaken⟩ | ⟨s, hget, -⟩
    · rw [hget] at h
      exact Or.inr ⟨rfl, p.fields, pid, i, s, htaken, h ▸ KeepsPages.refl s⟩
    · rw [hget] at h
      exact Or.inl (h ▸ ⟨rfl, rfl, rfl, fun _ => rfl, fun _ => rfl, fun _ => rfl⟩)
  | write pid pg =>
    obtain ⟨out, hrun, hout⟩ := map_eq_ok h
    obtain ⟨i, -, hq⟩ := exec_store_inv hrun
    have hq : q = p.written i pg := (Prod.mk.inj hout).2.symm.trans hq
    exact Or.inl (hq ▸ keepsPages_written p i pg)
  | markDirty pid =>
    have h : p.markDirty pid = q := congrArg Prod.snd (Except.ok.inj h)
    exact Or.inl (h ▸ (sameFrames_markDirty p pid).keepsPages)
  | unpin pid =>
    have h : p.unpin pid = q := congrArg Prod.snd (Except.ok.inj h)
    exact Or.inl (h ▸ keepsPages_unpin p pid)
  | allocPage =>
    obtain ⟨out, hrun, hout⟩ := map_eq_ok h
    have hrun := wpCache_run (wpCache_pagerAllocPage p) hrun
    obtain ⟨f, i, s, htaken, hkeeps⟩ := hrun.steps
    exact Or.inr ⟨rfl, f, out.1, i, s, htaken, (Prod.mk.inj hout).2 ▸ hkeeps⟩
  | freePage pid =>
    obtain ⟨out, hrun, hout⟩ := map_eq_ok h
    have hrun := wpCache_run (wpCache_pagerFreePage p pid) hrun
    obtain ⟨f, i, s, htaken, hkeeps⟩ := hrun.steps
    exact Or.inr ⟨rfl, f, pid, i, s, htaken, (Prod.mk.inj hout).2 ▸ hkeeps⟩
  | flushAll =>
    rw [Pager.serve] at h
    obtain ⟨s, hflush, hs⟩ := map_eq_ok h
    have hkeeps := (sameFrames_flushAll (orFault_eq_ok hflush)).keepsPages
    exact Or.inl ((Prod.mk.inj hs).2 ▸ hkeeps)

/-- No page has two frames, and ticks tell which frame was used last. -/
structure Ordered (p : Pager) : Prop where
  distinct : p.Distinct
  le : ∀ j, (p.frames j).isValid = true → (p.frames j).usedTick.toNat ≤ p.tick.toNat
  ne : ∀ i j, (p.frames i).isValid = true → (p.frames j).isValid = true →
    (p.frames i).usedTick = (p.frames j).usedTick → i = j

theorem Opened.ordered (h : p.Opened) : p.Ordered := by
  have hinv {i : FrameId} : ¬ (p.frames i).isValid = true := by simp [h.empty i]
  exact ⟨fun i _ _ hi => absurd hi.1 hinv, fun i hi => absurd hi hinv,
    fun i _ hi => absurd hi hinv⟩

theorem Ordered.keeps (h : p.Ordered) (hk : KeepsPages p q) : q.Ordered := by
  refine ⟨fun i j pid hi hj => ?_, fun j hj => ?_, fun i j hi hj heq => ?_⟩
  · exact h.distinct i j pid (hk.holds.mp hi) (hk.holds.mp hj)
  · rw [hk.usedTick, hk.tick]
    exact h.le j ((hk.isValid j).symm.trans hj)
  · rw [hk.usedTick, hk.usedTick] at heq
    exact h.ne i j ((hk.isValid i).symm.trans hi) ((hk.isValid j).symm.trans hj) heq

theorem tick_succ {t : UInt64} (h : t.toNat + 1 < 2 ^ 64) : (t + 1).toNat = t.toNat + 1 := by
  rw [UInt64.toNat_add, UInt64.toNat_one]
  exact Nat.mod_eq_of_lt h

/-- No other frame has the page just taken. -/
theorem Taken.distinct {i : FrameId} (h : p.Distinct) (ht : p.Taken pid i q) : q.Distinct := by
  have hother {j : FrameId} {r : PageId} (hj : j ≠ i) : q.Holds j r ↔ p.Holds j r := by
    rw [Holds, ht.others j hj, Holds]
  have hno {j : FrameId} (hj : j ≠ i) : ¬ q.Holds j pid := fun hq => by
    have hp := (hother hj).mp hq
    cases ht.before with
    | inl hit => exact hj (h j i pid hp hit.1)
    | inr miss => exact miss.1 j hp
  intro j k r hj hk
  by_cases hji : j = i
  · by_cases hki : k = i
    · rw [hji, hki]
    · rw [hji] at hj
      rw [← hj.2, ht.holds.2] at hk
      exact absurd hk (hno hki)
  · by_cases hki : k = i
    · rw [hki] at hk
      rw [← hk.2, ht.holds.2] at hj
      exact absurd hj (hno hji)
    · exact h j k r ((hother hji).mp hj) ((hother hki).mp hk)

/-- The frame just used is the last one in the order. -/
theorem Ordered.taken {i : FrameId} (h : p.Ordered) (ht : p.Taken pid i q)
    (hroom : p.tick.toNat + 1 < 2 ^ 64) : q.Ordered := by
  have hvalid {j : FrameId} (hj : j ≠ i) (hv : (q.frames j).isValid = true) :
      (p.frames j).isValid = true := by rwa [ht.others j hj] at hv
  have htick : q.tick.toNat = p.tick.toNat + 1 := by rw [ht.tick, tick_succ hroom]
  have hused : (q.frames i).usedTick.toNat = p.tick.toNat + 1 := by rw [ht.used, tick_succ hroom]
  refine ⟨ht.distinct h.distinct, fun j hj => ?_, fun j k hj hk heq => ?_⟩
  · by_cases hji : j = i
    · rw [hji, hused, htick]
    · rw [ht.others j hji, htick]
      exact Nat.le_succ_of_le (h.le j (hvalid hji hj))
  · have hlt {l : FrameId} (hli : l ≠ i) (hv : (q.frames l).isValid = true) :
        (q.frames l).usedTick.toNat < (q.frames i).usedTick.toNat := by
      rw [ht.others l hli, hused]
      exact Nat.lt_succ_of_le (h.le l (hvalid hli hv))
    by_cases hji : j = i
    · by_cases hki : k = i
      · rw [hji, hki]
      · have := hlt hki hk
        rw [← heq, hji] at this
        exact absurd this (Nat.lt_irrefl _)
    · by_cases hki : k = i
      · have := hlt hji hj
        rw [heq, hki] at this
        exact absurd this (Nat.lt_irrefl _)
      · rw [ht.others j hji, ht.others k hki] at heq
        exact h.ne j k (hvalid hji hj) (hvalid hki hk) heq

/-- `evict_frame` finds a frame as long as not all frames are pinned and the counter has not come
    to its end. -/
theorem Ordered.canEvict (h : p.Ordered) (hpins : p.pinnedCount < maxFrames)
    (hroom : p.tick.toNat + 1 < 2 ^ 64) : p.CanEvict := by
  have hlen : frameIds.length = maxFrames := List.length_finRange
  have hex : ∃ i ∈ frameIds,
      ¬ ((p.frames i).isValid && decide ((p.frames i).pinCount ≠ 0)) = true := by
    by_contra hno
    have hall : p.pinnedCount = frameIds.length :=
      List.countP_eq_length.mpr fun i hi => not_not.mp fun hn => hno ⟨i, hi, hn⟩
    omega
  obtain ⟨i, -, hi⟩ := hex
  refine ⟨i, ?_⟩
  cases hv : (p.frames i).isValid with
  | false => exact Or.inl hv
  | true =>
    rw [hv, Bool.true_and, decide_eq_true_eq, not_not] at hi
    have hle := h.le i hv
    exact Or.inr ⟨hi, by omega⟩

/-- A request keeps the order of the frames and raises the counter by its lookups at most. -/
theorem Ordered.serve {req : Request} {r : Reply} (h : p.Ordered)
    (hroom : p.tick.toNat + req.accesses < 2 ^ 64) (hrun : Pager.serve req p = .ok (r, q)) :
    q.Ordered ∧ q.tick.toNat ≤ p.tick.toNat + req.accesses := by
  rcases serve_steps hrun with hk | ⟨hacc, f, pid, i, s, ht, hk⟩
  · exact ⟨h.keeps hk, by rw [hk.tick]; exact Nat.le_add_right ..⟩
  · rw [hacc] at hroom ⊢
    have hs := (h.keeps (keepsPages_fields p f)).taken ht hroom
    refine ⟨hs.keeps hk, ?_⟩
    rw [hk.tick, ht.tick, tick_succ hroom]

/-- The counter does not wrap in the requests still to be made. -/
def TickRoom (reqs : List Request) (p : Pager) : Prop :=
  p.Ordered ∧ p.tick.toNat + Request.totalAccesses reqs < 2 ^ 64

theorem TickRoom.serve {req : Request} {reqs : List Request} {r : Reply}
    (h : TickRoom (req :: reqs) p) (hrun : Pager.serve req p = .ok (r, q)) : TickRoom reqs q := by
  obtain ⟨hord, hroom⟩ := h
  have htotal : Request.totalAccesses (req :: reqs) = req.accesses + Request.totalAccesses reqs := rfl
  rw [htotal] at hroom
  obtain ⟨hq, htick⟩ := hord.serve (by omega) hrun
  exact ⟨hq, by omega⟩

/-- The order of the frames is kept in a run. -/
theorem states_ordered {reqs : List Request} (h : TickRoom reqs p) :
    ∀ s ∈ states Pager.serve reqs p, s.Ordered := fun s hs => by
  obtain ⟨_, hrest⟩ := states_rest (fun _ _ _ _ _ => TickRoom.serve) h s hs
  exact hrest.1

end Pager

end MiniDb
