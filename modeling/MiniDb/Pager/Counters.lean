import MiniDb.Pager.Ledger

/-!
# The counters of a pager

Every page that is asked for is a hit or a miss.  How many pages a routine asks for depends on the
database alone, and not on what is in the cache.

## Key results

- `exec_counts`: what a routine adds to the counters
- `Kept.run_counts`: the number of look-ups on the flat store
- `Kept.runAll`: a run of routines on the cache
-/

namespace MiniDb

open Free Ledger Runs

namespace Pager

/-- From `p` to `q` the counters have gone up by `n` pages, each of them a hit or a miss. -/
def Counts (p q : Pager) (n : Nat) : Prop :=
  q.stats.pageLoads = p.stats.pageLoads + UInt32.ofNat n ∧
  q.stats.cacheHits + q.stats.cacheMisses =
    p.stats.cacheHits + p.stats.cacheMisses + UInt32.ofNat n

variable {p q r : Pager}

/-- No page was asked for. -/
theorem Counts.of_eq (hloads : q.stats.pageLoads = p.stats.pageLoads)
    (hhits : q.stats.cacheHits = p.stats.cacheHits)
    (hmisses : q.stats.cacheMisses = p.stats.cacheMisses) : Counts p q 0 := by
  rw [Counts, hloads, hhits, hmisses]
  exact ⟨(UInt32.add_zero _).symm, (UInt32.add_zero _).symm⟩

theorem Counts.trans {m n : Nat} (h : Counts p q m) (h' : Counts q r n) : Counts p r (m + n) := by
  rw [Counts, h'.1, h'.2, h.1, h.2, UInt32.ofNat_add, UInt32.add_assoc, UInt32.add_assoc]
  exact ⟨rfl, rfl⟩

/-- Writing a frame to the file counts the write only. -/
theorem counts_flushFrame (p : Pager) (i : FrameId) : Counts p (p.flushFrame i) 0 :=
  Counts.of_eq rfl rfl rfl

theorem counts_flushLoop (target n : Nat) (p : Pager) : Counts p (flushLoop target n p) 0 := by
  induction n generalizing p with
  | zero => exact Counts.of_eq rfl rfl rfl
  | succ n ih =>
    rw [flushLoop]
    split
    · split
      next => exact Counts.of_eq rfl rfl rfl
      next best _ => exact (counts_flushFrame p best).trans (ih _)
    · exact Counts.of_eq rfl rfl rfl

theorem counts_evictFrame (p : Pager) : Counts p p.evictFrame.2 0 := by
  rw [evictFrame]
  split
  next => exact Counts.of_eq rfl rfl rfl
  next =>
    split
    next => exact Counts.of_eq rfl rfl rfl
    next best _ =>
      by_cases hdirty : (p.frames best).isDirty
      · rw [if_pos hdirty]
        exact Counts.of_eq rfl rfl rfl
      · rw [if_neg hdirty]
        exact Counts.of_eq rfl rfl rfl

theorem counts_markDirty (p : Pager) (pid : PageId) : Counts p (p.markDirty pid) 0 := by
  have hflush {r : Pager} (hr : Counts p r 0) (low : UInt32) : Counts p (r.flushDirty low) 0 :=
    hr.trans (counts_flushLoop low.toNat r.countDirty r)
  unfold markDirty
  split
  all_goals
    dsimp only
    split
    · apply hflush
      exact Counts.of_eq rfl rfl rfl
    · exact Counts.of_eq rfl rfl rfl

theorem counts_unpin (p : Pager) (pid : PageId) : Counts p (p.unpin pid) 0 := by
  unfold unpin
  split
  · split
    all_goals exact Counts.of_eq rfl rfl rfl
  · exact Counts.of_eq rfl rfl rfl

/-- A page asked for is a hit or a miss. -/
theorem counts_getPage (p : Pager) (pid : PageId) : Counts p (p.getPage pid).2 1 := by
  have hone : UInt32.ofNat 1 = 1 := rfl
  rw [getPage]
  dsimp only
  split
  next =>
    refine ⟨rfl, ?_⟩
    show p.stats.cacheHits + 1 + p.stats.cacheMisses = _
    rw [hone, add_right_comm]
  next =>
    -- a frame is given up for the page
    generalize hs : ({ p with stats := _ } : Pager) = p'
    have hmiss : Counts p p' 1 := by
      rw [← hs]
      refine ⟨rfl, ?_⟩
      show p.stats.cacheHits + (p.stats.cacheMisses + 1) = _
      rw [hone, add_assoc]
    have hevict := hmiss.trans (counts_evictFrame p')
    cases hframe : p'.evictFrame with
    | mk i q =>
      rw [hframe] at hevict
      cases i with
      | none => exact hevict
      | some i => exact hevict.trans (Counts.of_eq rfl rfl rfl)

/-- What an operation adds to the counters -/
theorem counts_step {o : PagerOp} {a : PagerSig.Resp o} (h : step o p = .ok (a, q)) :
    Counts p q (lookups o) := by
  cases o with
  | getPage pid =>
    obtain ⟨-, rfl⟩ := Prod.mk.inj (Except.ok.inj h)
    exact counts_getPage p pid
  | load pid =>
    rw [step] at h
    split at h
    next =>
      obtain ⟨-, rfl⟩ := Prod.mk.inj (Except.ok.inj h)
      exact Counts.of_eq rfl rfl rfl
    next => contradiction
  | store pid pg =>
    rw [step] at h
    split at h
    next =>
      obtain ⟨-, rfl⟩ := Prod.mk.inj (Except.ok.inj h)
      exact Counts.of_eq rfl rfl rfl
    next => contradiction
  | markDirty pid =>
    obtain ⟨-, rfl⟩ := Prod.mk.inj (Except.ok.inj h)
    exact counts_markDirty p pid
  | unpin pid =>
    obtain ⟨-, rfl⟩ := Prod.mk.inj (Except.ok.inj h)
    exact counts_unpin p pid
  | _ =>
    obtain ⟨-, rfl⟩ := Prod.mk.inj (Except.ok.inj h)
    exact Counts.of_eq rfl rfl rfl

/-- What a routine adds to the counters -/
theorem exec_counts {α : Type} {r : Routine α} {a : α} (h : p.exec r = .ok (a, q)) :
    Counts p q (cost step lookups r p) := by
  induction r generalizing p with
  | pure b =>
    obtain ⟨-, rfl⟩ := Prod.mk.inj (Except.ok.inj h)
    exact Counts.of_eq rfl rfl rfl
  | throw e => contradiction
  | call o k ih =>
    rw [exec, run] at h
    rw [cost]
    cases hs : step o p with
    | error e =>
      rw [hs] at h
      contradiction
    | ok rs =>
      rw [hs] at h
      exact (counts_step hs).trans (ih rs.1 h)

/-- The pages that a routine asks for on the cache are those that it asks for on the flat store. -/
theorem Kept.run_counts {file : FileId} {cap n : Nat} {α : Type} {r : Routine α} {a : α} {db db' : Db}
    {recent : List PageId} (h : Kept file cap (db.lookups r + n) db p ⟨[], recent, []⟩)
    (hr : Balanced file cap r) (hrun : db.exec r = .ok (a, db')) (hq : p.exec r = .ok (a, q)) :
    Counts p q (db.lookups r) := by
  have hobeys := hr [] recent (Nat.le_of_eq (Nat.zero_add cap))
  have hcost : cost step lookups r p = db.lookups r :=
    run_simulates_cost (simulates file cap) r h hrun hobeys
  exact hcost ▸ exec_counts hq

/-! ## Runs -/

section Run

variable {Op ρ : Type} {file : FileId} {cap : Nat} {r : Op → Routine ρ}

/-- The routine of an operation, on the flat store -/
def onStore (r : Op → Routine ρ) (op : Op) (db : Db) : Except Fault (ρ × Db) := db.exec (r op)

/-- The routine of an operation, on the cache -/
def onCache (r : Op → Routine ρ) (op : Op) (p : Pager) : Except Fault (ρ × Pager) := p.exec (r op)

/-- How many pages the routines of a run ask for -/
def runLookups (r : Op → Routine ρ) (ops : List Op) (db : Db) : Nat :=
  ((calls (onStore r) ops db).map fun c => c.2.lookups (r c.1)).sum

/-- What a run on the cache that goes from `p` to `q` has done -/
structure Served (file : FileId) (cap : Nat) (r : Op → Routine ρ) (ops : List Op) (p q : Pager) :
    Prop where
  kept : ∃ recent, Kept file cap 0 q.data q ⟨[], recent, []⟩
  pins : ∀ c ∈ calls (onCache r) ops p, Always step (fun s => s.pinnedCount ≤ cap) (r c.1) c.2
  counts : Counts p q (runLookups r ops p.data)

/-- A run of routines that give their pins back goes on the cache as it does on the flat store. -/
theorem Kept.runAll (hr : ∀ op, Balanced file cap (r op)) {ops : List Op} {p : Pager}
    {recent : List PageId} (h : Kept file cap 0 p.data p ⟨[], recent, []⟩)
    (hticks : ∀ c ∈ calls (onCache r) ops p, c.2.tick.toNat + c.2.data.lookups (r c.1) < 2 ^ 64) :
    (∀ rs db, Runs.runAll (onStore r) ops p.data = .ok (rs, db) →
      ∃ q, Runs.runAll (onCache r) ops p = .ok (rs, q) ∧ q.data = db ∧ Served file cap r ops p q) ∧
    ∀ e, e ≠ .headerPage → Runs.runAll (onStore r) ops p.data = .error e →
      Runs.runAll (onCache r) ops p = .error e := by
  -- operation by operation: the pins are given back, so the next one starts with none
  induction ops generalizing p recent with
  | nil =>
    refine ⟨fun rs db hrun => ?_, fun e _ hrun => ?_⟩
    · obtain ⟨rfl, rfl⟩ := Prod.mk.inj (Except.ok.inj hrun)
      exact ⟨p, rfl, rfl, ⟨recent, h⟩, fun c hc => absurd hc List.not_mem_nil, Counts.of_eq rfl rfl rfl⟩
    · contradiction
  | cons op ops ih =>
    have hfirst := hticks (op, p) (List.mem_cons_self ..)
    cases hexec : p.data.exec (r op) with
    -- a failure of the flat store is one of the cache
    | error e =>
      have hstore : onStore r op p.data = .error e := hexec
      simp only [Runs.runAll, hstore]
      refine ⟨fun rs db hrun => ?_, fun e' he hrun => ?_⟩
      · contradiction
      · obtain rfl := Except.error.inj hrun
        have hcache : onCache r op p = .error e := (h.budget hfirst).run_error (hr op) hexec he
        rw [hcache]
    | ok out =>
      obtain ⟨a, db₁⟩ := out
      obtain ⟨q, recent', hq, rfl, hkept⟩ := h.exec (hr op) hfirst hexec
      -- the lookups of the operation are those its ticks are counted for
      have hbudget : Kept file cap (p.data.lookups (r op) + 0) p.data p ⟨[], recent, []⟩ := h.budget hfirst
      have halways := (hbudget.run (hr op) hexec).2
      have hcounts := hbudget.run_counts (hr op) hexec hq
      have hstore : onStore r op p.data = .ok (a, q.data) := hexec
      have hcache : onCache r op p = .ok (a, q) := hq
      simp only [calls, hcache, List.mem_cons] at hticks
      obtain ⟨hgood, hbad⟩ := ih hkept fun c hc => hticks c (Or.inr hc)
      simp only [Runs.runAll, hstore, hcache]
      cases hrest : Runs.runAll (onStore r) ops q.data with
      | error e =>
        refine ⟨fun rs db hrun => ?_, fun e' he hrun => ?_⟩
        · contradiction
        · obtain rfl := Except.error.inj hrun
          rw [hbad e he hrest]
      | ok outs =>
        obtain ⟨q', hq', hdata, hserved⟩ := hgood outs.1 outs.2 hrest
        refine ⟨fun rs db hrun => ?_, fun e _ hrun => ?_⟩
        · obtain ⟨rfl, rfl⟩ := Prod.mk.inj (Except.ok.inj hrun)
          rw [hq']
          refine ⟨q', rfl, hdata, hserved.kept, fun c hc => ?_, ?_⟩
          · simp only [calls, hcache, List.mem_cons] at hc
            rcases hc with rfl | hc
            · exact halways
            · exact hserved.pins c hc
          · have hsum : runLookups r (op :: ops) p.data =
                p.data.lookups (r op) + runLookups r ops q.data := by
              rw [runLookups, calls, hstore, List.map_cons, List.sum_cons]
              rfl
            exact hsum ▸ hcounts.trans hserved.counts
        · contradiction

end Run

end Pager

end MiniDb
