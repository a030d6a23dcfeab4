import MiniDb.Pager.Requests

/-!
# The watermark flush

`pager_flush_dirty` writes the frames used longest ago first and stops at its target, or when
every dirty frame left is pinned.  So after each `pager_mark_dirty` the number of dirty frames is
below the high watermark, as long as few pages are pinned.

## Key results

- `Flushes.order`: the frames written, in the order of their last use
- `countDirty_markDirty`: the number of dirty frames after `pager_mark_dirty`
- `watermark_flush`: the postcondition of the flush and the bound over whole runs
-/

namespace MiniDb

open Runs

namespace Pager

variable {p q : Pager} {is : List FrameId}

/-! ## The frames written -/

/-- What a flush leaves is the result of writing the frames one after the other. -/
theorem Flushes.eq_foldl (h : Flushes p is q) : q = is.foldl flushFrame p := by
  induction h with
  | nil p => rfl
  | cons _ _ ih => exact ih

theorem pinCount_flushFrame (p : Pager) (i j : FrameId) :
    ((p.flushFrame i).frames j).pinCount = (p.frames j).pinCount := by rw [flushFrame_frame]

theorem usedTick_flushFrame (p : Pager) (i j : FrameId) :
    ((p.flushFrame i).frames j).usedTick = (p.frames j).usedTick := by rw [flushFrame_frame]

/-- Only dirty frames that are not pinned are written. -/
theorem Flushes.mem (h : Flushes p is q) {i : FrameId} (hi : i ∈ is) :
    p.dirtyAt i ∧ (p.frames i).pinCount = 0 := by
  induction h with
  | nil p => exact nomatch hi
  | @cons p q k is hnext _ ih =>
    cases List.mem_cons.mp hi with
    | inl heq => exact heq ▸ ⟨hnext.1, hnext.2.1⟩
    | inr hmem =>
      obtain ⟨h1, h2⟩ := ih hmem
      rw [dirtyAt_flushFrame, Bool.and_eq_true] at h1
      exact ⟨h1.1, pinCount_flushFrame p k i ▸ h2⟩

/-- The valid frames have different ticks, and all are below `UINT64_MAX`. -/
structure TicksApart (p : Pager) : Prop where
  ne : ∀ i j, (p.frames i).isValid = true → (p.frames j).isValid = true →
    (p.frames i).usedTick = (p.frames j).usedTick → i = j
  lt : ∀ i, (p.frames i).isValid = true → (p.frames i).usedTick.toNat < 2 ^ 64 - 1

theorem SameFrames.isValid (h : SameFrames p q) (j : FrameId) :
    (q.frames j).isValid = (p.frames j).isValid := by
  obtain ⟨d, hd⟩ := h.frames j
  rw [hd]

theorem SameFrames.usedTick (h : SameFrames p q) (j : FrameId) :
    (q.frames j).usedTick = (p.frames j).usedTick := by
  obtain ⟨d, hd⟩ := h.frames j
  rw [hd]

theorem TicksApart.sameFrames (h : p.TicksApart) (hs : SameFrames p q) : q.TicksApart := by
  refine ⟨fun i j hi hj heq => ?_, fun i hi => ?_⟩
  · rw [hs.usedTick, hs.usedTick] at heq
    exact h.ne i j ((hs.isValid i).symm.trans hi) ((hs.isValid j).symm.trans hj) heq
  · rw [hs.usedTick]
    exact h.lt i ((hs.isValid i).symm.trans hi)

/-- The candidate with the smallest tick is used before every other one. -/
theorem NextFlush.lt {i j : FrameId} (h : p.NextFlush i) (ht : p.TicksApart) (hj : p.dirtyAt j)
    (hpin : (p.frames j).pinCount = 0) (hji : j ≠ i) :
    (p.frames i).usedTick < (p.frames j).usedTick := by
  have hvalid {k : FrameId} (hk : p.dirtyAt k) : (p.frames k).isValid = true :=
    (Bool.and_eq_true_iff.mp hk).1
  apply UInt64.lt_iff_toNat_lt.mpr
  apply Nat.lt_of_le_of_ne (h.2.2 j hj hpin)
  exact fun heq => hji (ht.ne i j (hvalid h.1) (hvalid hj) (UInt64.toNat_inj.mp heq)).symm

/-- The frames are written in the order of their last use, before every other dirty frame that is
    not pinned. -/
theorem Flushes.order (h : Flushes p is q) (ht : p.TicksApart) :
    is.Pairwise (fun i j => (p.frames i).usedTick < (p.frames j).usedTick) ∧
      ∀ i ∈ is, ∀ j, j ∉ is → p.dirtyAt j → (p.frames j).pinCount = 0 →
        (p.frames i).usedTick < (p.frames j).usedTick := by
  induction h with
  | nil p => exact ⟨.nil, fun i hi => nomatch hi⟩
  | @cons p q i is hnext hrest ih =>
    obtain ⟨hpair, hbefore⟩ := ih (ht.sameFrames (sameFrames_flushFrame p i))
    simp only [usedTick_flushFrame, pinCount_flushFrame] at hpair hbefore
    constructor
    · refine List.pairwise_cons.mpr ⟨fun j hj => ?_, hpair⟩
      -- a frame written later is dirty still, so it is another one
      obtain ⟨hdirty, hpin⟩ := hrest.mem hj
      rw [dirtyAt_flushFrame, Bool.and_eq_true, decide_eq_true_eq] at hdirty
      exact hnext.lt ht hdirty.1 (pinCount_flushFrame p i j ▸ hpin) hdirty.2
    · intro k hk j hj hdirty hpin
      obtain ⟨hji, hjis⟩ := not_or.mp (mt List.mem_cons.mpr hj)
      cases List.mem_cons.mp hk with
      | inl hki => exact hki ▸ hnext.lt ht hdirty hpin hji
      | inr hkis =>
        refine hbefore k hkis j hjis ?_ hpin
        rw [dirtyAt_flushFrame, hdirty]
        simp [hji]

/-! ## The number of dirty frames -/

theorem isValid_of_dirtyAt {i : FrameId} (h : p.dirtyAt i) : (p.frames i).isValid = true :=
  (Bool.and_eq_true_iff.mp h).1

/-- The flush reaches its target, or every dirty frame left is pinned. -/
theorem flushDirty_post (hlt : ∀ i, (p.frames i).isValid = true →
    (p.frames i).usedTick.toNat < 2 ^ 64 - 1) (target : UInt32) :
    (p.flushDirty target).countDirty ≤ target.toNat ∨
      ∀ i, (p.flushDirty target).dirtyAt i → ((p.flushDirty target).frames i).pinCount ≠ 0 := by
  obtain ⟨is, hflush⟩ := flushLoop_flushes target.toNat p.countDirty p
  rcases flushLoop_post target.toNat (p := p) rfl with hle | hleft
  · exact Or.inl hle
  · refine Or.inr fun i hi hpin => ?_
    have hmax := hleft i hi hpin
    rw [hflush.sameFrames.usedTick] at hmax
    have := hlt i ((hflush.sameFrames.isValid i).symm.trans (isValid_of_dirtyAt hi))
    omega

/-- Dirty frames that are all pinned are no more than the pinned frames. -/
theorem countDirty_le_pinnedCount (h : ∀ i, p.dirtyAt i → (p.frames i).pinCount ≠ 0) :
    p.countDirty ≤ p.pinnedCount := by
  apply List.countP_mono_left
  intro i _ hi
  simp [isValid_of_dirtyAt hi, h i hi]

/-- The bound that `pager_mark_dirty` establishes -/
theorem countDirty_markDirty {pid : PageId} (hlt : ∀ i, (p.frames i).isValid = true →
    (p.frames i).usedTick.toNat < 2 ^ 64 - 1)
    (hhigh : 0 < p.dirtyHighWatermark) (hlow : p.dirtyLowWatermark < p.dirtyHighWatermark)
    (hpins : (p.markDirty pid).pinnedCount < p.dirtyHighWatermark.toNat) :
    (p.markDirty pid).countDirty < p.dirtyHighWatermark.toNat := by
  obtain ⟨-, -, -, h4, h5⟩ := marked_eq p pid
  have hlt' : ∀ i, ((p.marked pid).frames i).isValid = true →
      ((p.marked pid).frames i).usedTick.toNat < 2 ^ 64 - 1 := fun i hi => by
    have hs := sameFrames_marked p pid
    rw [hs.usedTick]
    exact hlt i ((hs.isValid i).symm.trans hi)
  have hmark : p.markDirty pid =
      if 0 < (p.marked pid).dirtyHighWatermark ∧
          (p.marked pid).dirtyHighWatermark.toNat ≤ (p.marked pid).countDirty
      then (p.marked pid).flushDirty (p.marked pid).dirtyLowWatermark else p.marked pid := rfl
  rw [h4, h5] at hmark
  by_cases hfull : p.dirtyHighWatermark.toNat ≤ (p.marked pid).countDirty
  · rw [if_pos ⟨hhigh, hfull⟩] at hmark
    rw [hmark] at hpins ⊢
    rcases flushDirty_post hlt' p.dirtyLowWatermark with hle | hpinned
    · exact Nat.lt_of_le_of_lt hle (UInt32.lt_iff_toNat_lt.mp hlow)
    · exact Nat.lt_of_le_of_lt (countDirty_le_pinnedCount hpinned) hpins
  · rw [if_neg (fun h : _ ∧ _ => hfull h.2)] at hmark
    rw [hmark]
    exact Nat.lt_of_not_le hfull

/-! ## Runs -/

theorem countDirty_unpin (p : Pager) (pid : PageId) : (p.unpin pid).countDirty = p.countDirty := by
  apply List.countP_congr
  intro j _
  obtain ⟨n, hn⟩ := unpin_pinCount p pid j
  rw [dirtyAt, hn, dirtyAt]

/-- Releasing a page takes at most one pinned frame away. -/
theorem pinnedCount_unpin (p : Pager) (pid : PageId) :
    p.pinnedCount ≤ (p.unpin pid).pinnedCount + 1 := by
  cases hf : p.findFrame pid with
  | none =>
    have heq : p.unpin pid = p := by rw [unpin, hf]
    rw [heq]
    exact Nat.le_succ _
  | some i =>
    refine Lists.countP_le_succ (a := i) (List.nodup_finRange _) fun j hj => ?_
    have hframe : (p.unpin pid).frames j = p.frames j := by
      simp only [unpin, hf]
      split
      next => exact modifyFrame_ne _ _ hj
      next => rfl
    rw [hframe]

end Pager

/-- The requests that call `pager_mark_dirty` -/
def Request.marks : Request → Bool
  | .markDirty _ | .allocPage | .freePage _ => true
  | _ => false

namespace Pager

variable {p q : Pager}

/-- The state after a request that calls `pager_mark_dirty`: the page may have been released
    since. -/
theorem serve_marks {req : Request} {r : Reply} (hmarks : req.marks = true)
    (h : serve req p = .ok (r, q)) :
    ∃ s pid, s.dirtyLowWatermark = p.dirtyLowWatermark ∧
      s.dirtyHighWatermark = p.dirtyHighWatermark ∧ KeepsPages s q ∧
      q.countDirty = (s.markDirty pid).countDirty ∧
      (s.markDirty pid).pinnedCount ≤ q.pinnedCount + 1 := by
  -- `pager_alloc_page` and `pager_free_page` mark the page and release it
  have hrewritten {pid : PageId} (hq : p.Rewritten pid q) :
      ∃ s pid, s.dirtyLowWatermark = p.dirtyLowWatermark ∧
        s.dirtyHighWatermark = p.dirtyHighWatermark ∧ KeepsPages s q ∧
        q.countDirty = (s.markDirty pid).countDirty ∧
        (s.markDirty pid).pinnedCount ≤ q.pinnedCount + 1 := by
    obtain ⟨i, s, j, pg, f₀, f, f', hget, rfl⟩ := hq
    obtain ⟨i', s', hget', ht⟩ | ⟨s', hget', -⟩ := getPage_taken { p with fields := f₀ } pid
    · rw [hget, Prod.mk.injEq] at hget'
      obtain ⟨-, rfl⟩ := hget'
      have hkeeps := ((sameFrames_markDirty (({ s with fields := f } : Pager).written j pg)
        pid).keepsPages.trans (keepsPages_unpin _ pid)).trans (keepsPages_fields _ f')
      exact ⟨({ s with fields := f } : Pager).written j pg, pid, ht.low, ht.high, hkeeps,
        countDirty_unpin _ pid, pinnedCount_unpin _ pid⟩
    · rw [hget] at hget'
      exact nomatch (Prod.ext_iff.mp hget').1
  cases req with
  | markDirty pid =>
    have h : p.markDirty pid = q := congrArg Prod.snd (Except.ok.inj h)
    subst h
    exact ⟨p, pid, rfl, rfl, (sameFrames_markDirty p pid).keepsPages, rfl, Nat.le_succ _⟩
  | allocPage =>
    obtain ⟨out, hrun, hout⟩ := map_eq_ok h
    have hrun := wpCache_run (wpCache_pagerAllocPage p) hrun
    exact hrewritten ((Prod.mk.inj hout).2 ▸ hrun)
  | freePage pid =>
    obtain ⟨out, hrun, hout⟩ := map_eq_ok h
    have hrun := wpCache_run (wpCache_pagerFreePage p pid) hrun
    exact hrewritten ((Prod.mk.inj hout).2 ▸ hrun)
  | getPage _ => exact nomatch hmarks
  | write _ _ => exact nomatch hmarks
  | unpin _ => exact nomatch hmarks
  | flushAll => exact nomatch hmarks

/-- No request changes the watermarks. -/
theorem serve_watermarks {req : Request} {r : Reply} (h : serve req p = .ok (r, q)) :
    q.dirtyLowWatermark = p.dirtyLowWatermark ∧ q.dirtyHighWatermark = p.dirtyHighWatermark := by
  rcases serve_steps h with hk | ⟨-, f, pid, i, s, ht, hk⟩
  · exact ⟨hk.low, hk.high⟩
  · exact ⟨hk.low.trans ht.low, hk.high.trans ht.high⟩

/-- `pager_flush_dirty` writes only dirty frames that are not pinned, always the one used longest
    ago next, changes nothing but the file and the dirty flags of the frames, and reaches its target
    unless every dirty frame left is pinned.  So in a run with the default watermarks that never
    has more than 16 pages pinned, fewer than 64 frames are dirty whenever `pager_mark_dirty` has
    returned. -/
theorem watermark_flush :
    (∀ (p : Pager) (target : UInt32), p.TicksApart →
      ∃ is, Flushes p is (p.flushDirty target) ∧ p.flushDirty target = is.foldl flushFrame p ∧
        (∀ i ∈ is, p.dirtyAt i ∧ (p.frames i).pinCount = 0) ∧
        is.Pairwise (fun i j => (p.frames i).usedTick < (p.frames j).usedTick) ∧
        (∀ i ∈ is, ∀ j, j ∉ is → p.dirtyAt j → (p.frames j).pinCount = 0 →
          (p.frames i).usedTick < (p.frames j).usedTick) ∧
        SameFrames p (p.flushDirty target) ∧
        ((p.flushDirty target).countDirty ≤ target.toNat ∨
          ∀ i, (p.flushDirty target).dirtyAt i → ((p.flushDirty target).frames i).pinCount ≠ 0)) ∧
    ∀ (p : Pager) (reqs : List Request), p.dirtyLowWatermark = 16 → p.dirtyHighWatermark = 64 →
      (∀ s ∈ states serve reqs p, s.pinnedCount ≤ 16 ∧
        ∀ i, (s.frames i).isValid = true → (s.frames i).usedTick.toNat < 2 ^ 64 - 1) →
      ∀ c ∈ calls serve reqs p, c.1.marks = true → ∀ r q, serve c.1 c.2 = .ok (r, q) →
        q.countDirty < 64 := by
  constructor
  · intro p target ht
    obtain ⟨is, hflush⟩ := flushLoop_flushes target.toNat p.countDirty p
    obtain ⟨hpair, hbefore⟩ := hflush.order ht
    exact ⟨is, hflush, hflush.eq_foldl, fun i hi => hflush.mem hi, hpair, hbefore,
      hflush.sameFrames, flushDirty_post ht.lt target⟩
  · intro p reqs hlow hhigh hstates c hc hmarks r q hserve
    -- the watermarks are the default ones all along
    let Default : List Request → Pager → Prop := fun _ s =>
      s.dirtyLowWatermark = 16 ∧ s.dirtyHighWatermark = 64
    have hkeep : ∀ req rest s r s', Default (req :: rest) s → serve req s = .ok (r, s') →
        Default rest s' := fun _ _ _ _ _ hs hstep => by
      obtain ⟨h1, h2⟩ := serve_watermarks hstep
      exact ⟨h1.trans hs.1, h2.trans hs.2⟩
    have hstart : Default reqs p := ⟨hlow, hhigh⟩
    obtain ⟨-, hlow', hhigh'⟩ := states_rest hkeep hstart c.2 (mem_states_of_mem_calls hc)
    obtain ⟨hpins, hticks⟩ := hstates q (mem_states_of_step hc hserve)
    obtain ⟨s, pid, hlow₁, hhigh₁, hkeeps, hcount, hpinned⟩ := serve_marks hmarks hserve
    have hlt : ∀ i, (s.frames i).isValid = true → (s.frames i).usedTick.toNat < 2 ^ 64 - 1 :=
      fun i hi => by
        rw [← hkeeps.usedTick i]
        exact hticks i ((hkeeps.isValid i).trans hi)
    have h64 : s.dirtyHighWatermark.toNat = 64 := by
      rw [hhigh₁, hhigh']
      rfl
    rw [hcount, ← h64]
    refine countDirty_markDirty hlt ?_ ?_ ?_
    · rw [hhigh₁, hhigh']
      decide
    · rw [hlow₁, hlow', hhigh₁, hhigh']
      decide
    · omega

/-- A cache with page 5 dirty in frame 3 -/
def dirtyCache : Pager :=
  smallCache.modifyFrame ⟨3, by decide⟩ fun _ => ⟨5, true, true, 0, 7, [1, 2, 3, 4, 5, 6, 7, 8]⟩

theorem dirtyCache_ticksApart : dirtyCache.TicksApart := by
  have honly {i : FrameId} (h : (dirtyCache.frames i).isValid = true) : i = ⟨3, by decide⟩ := by
    by_contra hne
    rw [dirtyCache, modifyFrame_ne _ _ hne] at h
    exact nomatch h
  refine ⟨fun i j hi hj _ => (honly hi).trans (honly hj).symm, fun i hi => ?_⟩
  rw [honly hi, dirtyCache, modifyFrame_same]
  decide

theorem watermark_flush_small :
    (∃ is, Flushes dirtyCache is (dirtyCache.flushDirty 0) ∧
      SameFrames dirtyCache (dirtyCache.flushDirty 0)) ∧
      ∀ c ∈ calls serve [.getPage 5, .write 5 [1, 2, 3, 4, 5, 6, 7, 8], .markDirty 5, .unpin 5]
        smallCache, c.1.marks = true → ∀ r q, serve c.1 c.2 = .ok (r, q) → q.countDirty < 64 := by
  constructor
  · obtain ⟨is, hflush, -, -, -, -, hsame, -⟩ := watermark_flush.1 dirtyCache 0 dirtyCache_ticksApart
    exact ⟨is, hflush, hsame⟩
  · exact watermark_flush.2 smallCache _ rfl rfl (by decide +kernel)

end Pager

end MiniDb
