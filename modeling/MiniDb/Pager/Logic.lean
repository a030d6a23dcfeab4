import MiniDb.Pager.Interface

/-!
# Reasoning about routines on the flat store

`wpDb p db Q`: the routine `p`, run from `db`, either ends in a state satisfying `Q` or
stops because the page ids have run out, and everything it does on the way is in
order (`EventOk`).  No other fault is tolerated, so a `wpDb` statement also says that the
run terminates and makes no undefined access.

The rules below evaluate a routine call by call; they are simp lemmas.
-/

namespace MiniDb

open Bytes Free

/-! ## Reachability -/

/-- The child ids of an internal page: the leftmost child and one child per entry -/
def childIds (pg : Page) : List PageId :=
  let iph := internalPageHeaderC.get pg 0
  iph.leftmostChildPageId ::
    (internalEntryC.listAt 16 pg iph.keyCount.toNat).map (·.rightChildPageId)

/-- The pages of the tree, reached from the root through child ids -/
inductive TreeReach (db : Db) : PageId → Prop where
  | root : TreeReach db db.header.rootIndexPageId
  | child {p c : PageId} : TreeReach db p → pageType (db.pages p) = PageType.internal.code →
      c ∈ childIds (db.pages p) → TreeReach db c

/-- The pages of the free list, reached from its head through `next_free_page` -/
inductive FreeReach (db : Db) : PageId → Prop where
  | head : db.header.freePageHead ≠ 0 → FreeReach db db.header.freePageHead
  | next {p : PageId} : FreeReach db p → (freePageHeaderC.get (db.pages p) 0).nextFreePage ≠ 0 →
      FreeReach db (freePageHeaderC.get (db.pages p) 0).nextFreePage

/-- A live leaf of the tree -/
def LiveLeaf (db : Db) (pid : PageId) : Prop :=
  TreeReach db pid ∧ pageType (db.pages pid) = PageType.leaf.code

/-- What every step of the tree code and the executor should satisfy in the database it is
    made in -/
def EventOk : Event → Db → Prop
  | .underflow _ _ keyCount, _ => keyCount ≠ 0
  | .takeChild _ idx keyCount, _ => idx < keyCount
  | .sibling _ sib, db => LiveLeaf db sib
  | .freePage pid, db => ¬ FreeReach db pid
  | .deleteInternal keyCount, _ => keyCount ≠ 0
  | .removeRow _, _ => True
  | .heapDeleted rc, _ => rc = 0
  | .countDown rowCount, _ => rowCount ≠ 0

/-! ## Weakest preconditions -/

/-- The obligation of each pager call -/
def opOk : PagerOp → Db → Prop
  | .note e, db => EventOk e db
  | _, _ => True

/-- The faults in `tol` are tolerated; by default that is running out of page ids. -/
def wpDb {α : Type} (p : Routine α) (db : Db) (Q : α → Db → Prop)
    (tol : Fault → Prop := (· = Fault.idsExhausted)) : Prop :=
  Free.wp Db.step opOk tol p db Q

section Rules

variable {α β : Type} {db : Db} {tol : Fault → Prop}

theorem wpDb_mono {p : Routine α} {Q Q' : α → Db → Prop} (h : wpDb p db Q tol)
    (hQ : ∀ a db', Q a db' → Q' a db') : wpDb p db Q' tol := wp_mono h hQ

theorem wpDb_mono_tol {tol' : Fault → Prop} {p : Routine α} {Q : α → Db → Prop}
    (h : wpDb p db Q tol) (htol : ∀ e, tol e → tol' e) : wpDb p db Q tol' := wp_mono_tol h htol

@[simp] theorem wpDb_bind (p : Routine α) (f : α → Routine β) (Q : β → Db → Prop) :
    wpDb (p >>= f) db Q tol ↔ wpDb p db (fun a db' => wpDb (f a) db' Q tol) tol := wp_bind p f db Q

@[simp] theorem wpDb_pure (a : α) (Q : α → Db → Prop) :
    wpDb (pure a : Routine α) db Q tol ↔ Q a db := Iff.rfl

@[simp] theorem wpDb_throw (e : Fault) (Q : α → Db → Prop) :
    wpDb (.throw e : Routine α) db Q tol ↔ tol e := Iff.rfl

theorem wpDb_ite (c : Prop) [Decidable c] (p q : Routine α) (Q : α → Db → Prop) :
    wpDb (if c then p else q) db Q tol ↔ if c then wpDb p db Q tol else wpDb q db Q tol := by
  split <;> rfl

theorem wpDb_getPage?_of {pid : PageId} (h : pid ≠ 0) (Q : Bool → Db → Prop) :
    wpDb (pagerGetPage? pid) db Q tol ↔ Q true db := by
  rw [wpDb, pagerGetPage?, wp_op]
  simp [Db.step, opOk, h]

@[simp] theorem wpDb_getPage? (pid : PageId) (Q : Bool → Db → Prop) :
    wpDb (pagerGetPage? pid) db Q ↔ pid ≠ 0 ∧ Q true db := by
  rw [wpDb, pagerGetPage?, wp_op]
  by_cases h : pid = 0
  · simp [Db.step, opOk, h]
  · simp [Db.step, opOk, h]

theorem wpDb_getPage_of {pid : PageId} (h : pid ≠ 0) (Q : Unit → Db → Prop) :
    wpDb (pagerGetPage pid) db Q tol ↔ Q () db := by
  simp only [pagerGetPage, wpDb_bind, wpDb_getPage?_of h, if_true, wpDb_pure]

@[simp] theorem wpDb_getPage (pid : PageId) (Q : Unit → Db → Prop) :
    wpDb (pagerGetPage pid) db Q ↔ pid ≠ 0 ∧ Q () db := by
  simp only [pagerGetPage, wpDb_bind, wpDb_getPage?, if_true, wpDb_pure]

/-- A routine that does not tolerate a request for page 0 makes none. -/
theorem wpDb_getPage_iff {pid : PageId} (htol : ¬ tol .headerPage) (Q : Unit → Db → Prop) :
    wpDb (pagerGetPage pid) db Q tol ↔ pid ≠ 0 ∧ Q () db := by
  by_cases h : pid = 0
  · rw [pagerGetPage, wpDb_bind, wpDb, pagerGetPage?, wp_op]
    simp [Db.step, opOk, h, htol]
  · rw [wpDb_getPage_of h]
    exact (and_iff_right h).symm

@[simp] theorem wpDb_load (pid : PageId) (Q : Page → Db → Prop) :
    wpDb (load pid) db Q tol ↔ Q (db.pages pid) db :=
  Iff.of_eq (true_and _)

@[simp] theorem wpDb_store (pid : PageId) (pg : Page) (Q : Unit → Db → Prop) :
    wpDb (store pid pg) db Q tol ↔ Q () (db.setPage pid pg) :=
  Iff.of_eq (true_and _)

@[simp] theorem wpDb_markDirty (pid : PageId) (Q : Unit → Db → Prop) :
    wpDb (pagerMarkDirty pid) db Q tol ↔ Q () db := Iff.of_eq (true_and _)

@[simp] theorem wpDb_unpin (pid : PageId) (Q : Unit → Db → Prop) :
    wpDb (pagerUnpin pid) db Q tol ↔ Q () db := Iff.of_eq (true_and _)

@[simp] theorem wpDb_setHeaderDirty (Q : Unit → Db → Prop) :
    wpDb setHeaderDirty db Q tol ↔ Q () db := Iff.of_eq (true_and _)

@[simp] theorem wpDb_getFields (Q : PagerFields → Db → Prop) :
    wpDb getFields db Q tol ↔ Q db.fields db := Iff.of_eq (true_and _)

@[simp] theorem wpDb_setFields (f : PagerFields) (Q : Unit → Db → Prop) :
    wpDb (setFields f) db Q tol ↔ Q () { db with fields := f } :=
  Iff.of_eq (true_and _)

@[simp] theorem wpDb_note (e : Event) (Q : Unit → Db → Prop) :
    wpDb (note e) db Q tol ↔ EventOk e db ∧ Q () db := Iff.rfl

@[simp] theorem wpDb_getPageSize (Q : UInt32 → Db → Prop) :
    wpDb getPageSize db Q tol ↔ Q db.fields.pageSize db := by
  simp only [getPageSize, wpDb_bind, wpDb_getFields, wpDb_pure]

@[simp] theorem wpDb_getHeader (Q : DbHeader → Db → Prop) :
    wpDb getHeader db Q tol ↔ Q db.header db := by
  simp only [getHeader, wpDb_bind, wpDb_getFields, wpDb_pure, Db.header]

@[simp] theorem wpDb_modifyHeader (f : DbHeader → DbHeader) (Q : Unit → Db → Prop) :
    wpDb (modifyHeader f) db Q tol ↔ Q () (db.setHeader (f db.header)) := by
  simp only [modifyHeader, wpDb_bind, wpDb_getFields, wpDb_setFields, Db.setHeader, Db.header]

/-- A bounds check that succeeds -/
theorem wpDb_inBounds_some {x : Option α} {a : α} (h : x = some a) (Q : α → Db → Prop) :
    wpDb (inBounds x) db Q tol ↔ Q a db := by
  subst h
  rfl

/-- What a weakest precondition says about the run. -/
theorem wpDb_exec {p : Routine α} {Q : α → Db → Prop} (h : wpDb p db Q tol) :
    (∀ a db', db.exec p = .ok (a, db') → Q a db') ∧ ∀ e, db.exec p = .error e → tol e := wp_run h

/-- A run without tolerated faults ends. -/
theorem wpDb_total {p : Routine α} {Q : α → Db → Prop} (h : wpDb p db Q fun _ => False) :
    ∃ a db', db.exec p = .ok (a, db') ∧ Q a db' := by
  obtain ⟨hok, hfault⟩ := wpDb_exec h
  cases hexec : db.exec p with
  | error e => exact (hfault e hexec).elim
  | ok r => exact ⟨r.1, r.2, rfl, hok r.1 r.2 hexec⟩

/-- Every event of the run is in order. -/
theorem wpDb_events {p : Routine α} {Q : α → Db → Prop} (h : wpDb p db Q tol) :
    ∀ e ∈ db.events p, EventOk e.1 e.2 := by
  rintro ⟨e, db'⟩ he
  obtain ⟨o, ho, hpre⟩ := wp_events _ h he
  cases o <;> simp only [reduceCtorEq, Option.some.injEq] at ho
  exact ho ▸ hpre

/-- A run all of whose events are in order meets the obligations, whatever it ends with. -/
theorem wpDb_of_events {p : Routine α} (h : ∀ e ∈ db.events p, EventOk e.1 e.2) :
    wpDb p db (fun _ _ => True) fun _ => True := by
  refine wp_of_events _ (fun o db' hnone => ?_) h fun o e db' ho he => ?_
  · cases o <;> trivial
  · cases o <;> simp only [reduceCtorEq, Option.some.injEq] at ho
    exact ho ▸ he

end Rules

end MiniDb
