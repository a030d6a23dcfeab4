import MiniDb.Pager.Alloc
import MiniDb.Pager.Requests

/-!
# Recently used pages stay

`evict_frame` takes the frame used longest ago.  A page stays where it is while the pages used
after it and the pages that are pinned do not fill the frames, and when they do, it is gone.

## Key results

- `Recent.taken`: `pager_get_page` and a set of pages that were used last
- `retention`, `retention_reached`: a page over a run of requests
- `displaced`: a page after as many others as there are frames
-/

namespace MiniDb

open Bytes Free Runs

namespace Request

/-- The calls that only look pages up, mark, release and write back -/
def Passive : Request → Prop
  | .getPage _ | .markDirty _ | .unpin _ | .flushAll => True
  | .write _ _ | .allocPage | .freePage _ => False

/-- The page looked up -/
def page? : Request → Option PageId
  | .getPage pid => some pid
  | _ => none

/-- The pages other than `pid` that a run looks up -/
def others (pid : PageId) (reqs : List Request) : Finset PageId :=
  (reqs.filterMap page?).toFinset.erase pid

end Request

namespace Pager

variable {p q : Pager} {pid : PageId} {l : Finset PageId}

/-! ## The pages used last -/

/-- The pages of `l` are in frames, and every other page in a frame was used before all of them. -/
structure Recent (p : Pager) (l : Finset PageId) : Prop where
  resident : ∀ pid ∈ l, ∃ i, p.Holds i pid
  before : ∀ i pid, pid ∈ l → p.Holds i pid → ∀ j, (p.frames j).isValid = true →
    (p.frames j).pageId ∉ l → (p.frames j).usedTick.toNat < (p.frames i).usedTick.toNat

/-- The page is in the same frame of `q`, with the same bytes. -/
def Stays (p q : Pager) (pid : PageId) : Prop :=
  ∀ i, p.Holds i pid → q.Holds i pid ∧ (q.frames i).data = (p.frames i).data

theorem Recent.keeps (h : p.Recent l) (hk : KeepsPages p q) : q.Recent l := by
  refine ⟨fun r hr => ?_, fun i r hr hi j hj hout => ?_⟩
  · obtain ⟨i, hi⟩ := h.resident r hr
    exact ⟨i, hk.holds.mpr hi⟩
  · rw [hk.usedTick, hk.usedTick]
    rw [hk.isValid] at hj
    rw [hk.pageId] at hout
    exact h.before i r hr (hk.holds.mp hi) j hj hout

/-- Frames that hold pages of `l` are no more than its pages. -/
theorem countP_le_card (hd : p.Distinct) {P : FrameId → Bool}
    (hP : ∀ j, P j = true → ∃ r ∈ l, p.Holds j r) : frameIds.countP P ≤ l.card := by
  let js := frameIds.filter P
  have hjs {j : FrameId} (hj : j ∈ js) : ∃ r ∈ l, p.Holds j r := hP j (List.mem_filter.mp hj).2
  have hinj : (js.map fun j => (p.frames j).pageId).Nodup := by
    apply List.Nodup.map_on
    · intro i hi j hj heq
      obtain ⟨r, -, hri⟩ := hjs hi
      obtain ⟨s, -, hsj⟩ := hjs hj
      rw [hri.2, hsj.2] at heq
      exact hd i j r hri (heq ▸ hsj)
    · exact (List.nodup_finRange maxFrames).filter _
  have hsub : (js.map fun j => (p.frames j).pageId).toFinset ⊆ l := by
    intro r hr
    obtain ⟨j, hj, rfl⟩ := List.mem_map.mp (List.mem_toFinset.mp hr)
    obtain ⟨s, hs, hsj⟩ := hjs hj
    exact hsj.2 ▸ hs
  have hcard := Finset.card_le_card hsub
  rw [List.toFinset_card_of_nodup hinj, List.length_map] at hcard
  rw [List.countP_eq_length_filter]
  exact hcard

/-- The frame used longest ago holds none of the pages used last, unless they and the pinned pages
    fill the frames. -/
theorem Recent.spares (h : p.Recent l) (hd : p.Distinct) (hroom : p.pinnedCount + l.card < maxFrames)
    (hvalid : ∀ j, (p.frames j).isValid = true) {i : FrameId} (hi : p.LeastRecent i) :
    (p.frames i).pageId ∉ l := by
  intro hmem
  -- a frame that is not pinned was not used before frame `i`, so it holds a page of `l` too
  have hall (j : FrameId) (hpin : (p.frames j).pinCount = 0) : (p.frames j).pageId ∈ l := by
    by_contra hout
    have hlt := h.before i _ hmem ⟨hvalid i, rfl⟩ j (hvalid j) hout
    have hle := hi.2 j hpin
    omega
  have hsplit : frameIds.length = p.pinnedCount + _ := List.length_eq_countP_add_countP _
  have hrest := List.countP_mono_left (l := frameIds)
    (p := fun j => decide ¬((p.frames j).isValid && decide ((p.frames j).pinCount ≠ 0)) = true)
    (q := fun j => decide ((p.frames j).pageId ∈ l)) fun j _ hj => by
      have hpin : (p.frames j).pinCount = 0 := by simpa [hvalid j] using hj
      simpa using hall j hpin
  have hlen : frameIds.length = maxFrames := List.length_finRange
  have hpages : frameIds.countP (fun j => decide ((p.frames j).pageId ∈ l)) ≤ l.card :=
    countP_le_card hd fun j hj => ⟨_, of_decide_eq_true hj, hvalid j, rfl⟩
  omega

/-- The frame given up for a page holds none of the pages used last. -/
theorem Recent.stays (h : p.Recent l) (hord : p.Ordered) {i : FrameId} (ht : p.Taken pid i q)
    (hroom : pid ∈ l ∨ p.pinnedCount + l.card < maxFrames) : ∀ r ∈ l, Stays p q r := by
  intro r hr j hj
  by_cases hji : j = i
  · subst hji
    rcases ht.before with ⟨hi, hdata, -⟩ | ⟨habs, -, hfree | ⟨hvalid, hleast⟩⟩
    · rw [← hj.2, hi.2]
      exact ⟨ht.holds, hdata⟩
    · rw [hj.1] at hfree
      contradiction
    · cases hroom with
      | inl hmem =>
        obtain ⟨k, hk⟩ := h.resident pid hmem
        exact absurd hk (habs k)
      | inr hroom => exact absurd (hj.2 ▸ hr) (h.spares hord.distinct hroom hvalid hleast)
  · refine ⟨?_, by rw [ht.others j hji]⟩
    rw [Holds, ht.others j hji]
    exact hj

/-- After `pager_get_page` the page obtained is one of the pages used last. -/
theorem Recent.taken (h : p.Recent l) (hord : p.Ordered) {i : FrameId} (ht : p.Taken pid i q)
    (htick : p.tick.toNat + 1 < 2 ^ 64) (hstays : ∀ r ∈ l, Stays p q r) :
    q.Recent (insert pid l) := by
  have hused : (q.frames i).usedTick.toNat = p.tick.toNat + 1 := by rw [ht.used, tick_succ htick]
  have hother {j : FrameId} (hj : j ≠ i) {r : PageId} (hr : q.Holds j r) : p.Holds j r := by
    rwa [Holds, ht.others j hj] at hr
  refine ⟨fun r hr => ?_, fun j r hr hj k hk hout => ?_⟩
  · rcases Finset.mem_insert.mp hr with rfl | hr
    · exact ⟨i, ht.holds⟩
    · obtain ⟨j, hj⟩ := h.resident r hr
      exact ⟨j, (hstays r hr j hj).1⟩
  · rw [Finset.mem_insert, not_or] at hout
    have hki : k ≠ i := fun he => hout.1 (he ▸ ht.holds.2)
    rw [ht.others k hki] at hk hout ⊢
    by_cases hji : j = i
    · -- the frame just used
      have := hord.le k hk
      rw [hji, hused]
      omega
    · rw [ht.others j hji]
      have hj' := hother hji hj
      rcases Finset.mem_insert.mp hr with rfl | hr
      · -- the page obtained is in frame `i` alone
        rcases ht.before with ⟨hi, -⟩ | ⟨habs, -⟩
        · exact absurd (hord.distinct j i r hj' hi) hji
        · exact absurd hj' (habs j)
      · exact h.before j r hr hj' k hk hout.2

theorem Recent.empty (p : Pager) : p.Recent ∅ :=
  ⟨fun _ hr => absurd hr (Finset.notMem_empty _), fun _ _ hr => absurd hr (Finset.notMem_empty _)⟩

theorem SameFrames.stays (h : SameFrames p q) (pid : PageId) : Stays p q pid := by
  intro i hi
  obtain ⟨d, hd⟩ := h.frames i
  exact ⟨h.keepsPages.holds.mpr hi, by rw [hd]⟩

theorem stays_unpin (p : Pager) (r pid : PageId) : Stays p (p.unpin r) pid := by
  intro i hi
  obtain ⟨n, hn⟩ := unpin_pinCount p r i
  exact ⟨(keepsPages_unpin p r).holds.mpr hi, by rw [hn]⟩

/-! ## Runs -/

theorem Recent.serve (h : p.Recent l) (hord : p.Ordered) {req : Request} {r : Reply}
    (htick : p.tick.toNat + req.accesses < 2 ^ 64) (hpassive : req.Passive)
    (hroom : ∀ r, req.page? = some r → r ∈ l ∨ p.pinnedCount + l.card < maxFrames)
    (hrun : Pager.serve req p = .ok (r, q)) :
    ∃ l', q.Recent l' ∧ l ⊆ l' ∧ (∀ r ∈ l', r ∈ l ∨ req.page? = some r) ∧ ∀ r ∈ l, Stays p q r := by
  cases req with
  | getPage pid =>
    have hrun : (p.getPage pid).2 = q := congrArg Prod.snd (Except.ok.inj hrun)
    rcases getPage_taken p pid with ⟨i, s, hget, htaken⟩ | ⟨s, hget, -⟩
    · rw [hget] at hrun
      obtain rfl : s = q := hrun
      have hstays := h.stays hord htaken (hroom pid rfl)
      -- the page looked up is the one used last now
      refine ⟨insert pid l, h.taken hord htaken htick hstays, Finset.subset_insert pid l,
        fun r hr => ?_, hstays⟩
      exact (Finset.mem_insert.mp hr).symm.imp_right fun he => congrArg some he.symm
    · -- no frame was found, and only the statistics differ
      rw [hget] at hrun
      have hk : KeepsPages p q := hrun ▸ ⟨rfl, rfl, rfl, fun _ => rfl, fun _ => rfl, fun _ => rfl⟩
      exact ⟨l, h.keeps hk, subset_rfl, fun r hr => Or.inl hr,
        fun r _ => hrun ▸ fun i hi => ⟨hi, rfl⟩⟩
  | markDirty pid =>
    have hrun : p.markDirty pid = q := congrArg Prod.snd (Except.ok.inj hrun)
    have hsame : SameFrames p q := hrun ▸ sameFrames_markDirty p pid
    exact ⟨l, h.keeps hsame.keepsPages, subset_rfl, fun r hr => Or.inl hr, fun r _ => hsame.stays r⟩
  | unpin pid =>
    have hrun : p.unpin pid = q := congrArg Prod.snd (Except.ok.inj hrun)
    subst hrun
    exact ⟨l, h.keeps (keepsPages_unpin p pid), subset_rfl, fun r hr => Or.inl hr,
      fun r _ => stays_unpin p pid r⟩
  | flushAll =>
    rw [Pager.serve] at hrun
    obtain ⟨s, hflush, hs⟩ := map_eq_ok hrun
    obtain rfl : s = q := (Prod.mk.inj hs).2
    have hsame := sameFrames_flushAll (orFault_eq_ok hflush)
    exact ⟨l, h.keeps hsame.keepsPages, subset_rfl, fun r hr => Or.inl hr, fun r _ => hsame.stays r⟩
  | write _ _ => exact hpassive.elim
  | allocPage => exact hpassive.elim
  | freePage _ => exact hpassive.elim

/-- The page has been in frame `i` with the bytes `bytes` since it was looked up, and the requests
    still to be made ask for at most the pages `others` beside it. -/
structure Retained (i : FrameId) (bytes : Page) (pid : PageId) (others : Finset PageId) (pins : Nat)
    (reqs : List Request) (s : Pager) : Prop where
  room : TickRoom reqs s
  pinned : ∀ t ∈ states serve reqs s, t.pinnedCount ≤ pins
  passive : ∀ req ∈ reqs, req.Passive
  pages : ∀ req ∈ reqs, ∀ r, req.page? = some r → r ∈ insert pid others
  holds : s.Holds i pid
  data : (s.frames i).data = bytes
  recent : ∃ l, s.Recent l ∧ pid ∈ l ∧ l ⊆ insert pid others

theorem Retained.serve {i : FrameId} {bytes : Page} {others : Finset PageId} {pins : Nat}
    {req : Request} {reqs : List Request} {r : Reply} (hfew : others.card + pins < maxFrames)
    (h : Retained i bytes pid others pins (req :: reqs) p) (hrun : Pager.serve req p = .ok (r, q)) :
    Retained i bytes pid others pins reqs q := by
  obtain ⟨l, hrecent, hpid, hsub⟩ := h.recent
  have htotal : Request.totalAccesses (req :: reqs) = req.accesses + Request.totalAccesses reqs := rfl
  have htick := h.room.2
  have hpins := h.pinned p (List.mem_cons_self ..)
  have hcard := Finset.card_insert_le pid others
  -- a page that is not among those used last leaves room for them
  have hroom (r : PageId) (hr : req.page? = some r) :
      r ∈ l ∨ p.pinnedCount + l.card < maxFrames := by
    by_cases hrl : r ∈ l
    · exact Or.inl hrl
    · right
      have hmem := h.pages req (List.mem_cons_self ..) r hr
      have hlt := Finset.card_lt_card
        ((Finset.ssubset_iff_of_subset hsub).mpr ⟨r, hmem, hrl⟩)
      omega
  obtain ⟨l', hrecent', hsub', hnew, hstays⟩ := hrecent.serve h.room.1 (by omega)
    (h.passive req (List.mem_cons_self ..)) hroom hrun
  obtain ⟨hholds, hdata⟩ := hstays pid hpid i h.holds
  refine ⟨h.room.serve hrun, fun t ht => h.pinned t ?_, fun req' h' => h.passive req' ?_,
    fun req' h' => h.pages req' ?_, hholds, hdata.trans h.data, l', hrecent', hsub' hpid, ?_⟩
  · rw [states, hrun]
    exact List.mem_cons_of_mem _ ht
  · exact List.mem_cons_of_mem _ h'
  · exact List.mem_cons_of_mem _ h'
  · intro s hs
    rcases hnew s hs with hs | hs
    · exact hsub hs
    · exact h.pages req (List.mem_cons_self ..) s hs

/-- A page that was looked up stays in its frame with its bytes while fewer other pages are looked
    up than there are frames left beside the pinned ones. -/
theorem retention {i : FrameId} {reqs : List Request} {pins : Nat} (hord : p.Ordered)
    (htick : p.tick.toNat + 1 + Request.totalAccesses reqs < 2 ^ 64)
    (hget : p.getPage pid = (some i, q)) (hpassive : ∀ req ∈ reqs, req.Passive)
    (hpins : ∀ s ∈ states serve reqs q, s.pinnedCount ≤ pins)
    (hothers : (Request.others pid reqs).card + pins < maxFrames) :
    ∀ s ∈ states serve reqs q, s.Holds i pid ∧ (s.frames i).data = (q.frames i).data := by
  have ht := taken_of_getPage hget
  have hq := hord.taken ht (by omega)
  have htick' : q.tick.toNat = p.tick.toNat + 1 := by rw [ht.tick, tick_succ (by omega)]
  have hrecent := (Recent.empty p).taken hord ht (by omega)
    fun r hr => absurd hr (Finset.notMem_empty r)
  have hstart : Retained i (q.frames i).data pid (Request.others pid reqs) pins reqs q := by
    refine ⟨⟨hq, by omega⟩, hpins, hpassive, fun req hreq r hr => ?_, ht.holds, rfl, {pid}, ?_,
      Finset.mem_singleton_self pid, by simp⟩
    · by_cases hne : r = pid
      · simp [hne]
      · refine Finset.mem_insert_of_mem (Finset.mem_erase.mpr ⟨hne, ?_⟩)
        exact List.mem_toFinset.mpr (List.mem_filterMap.mpr ⟨req, hreq, hr⟩)
    · simpa using hrecent
  intro s hs
  obtain ⟨rest, hrest⟩ := states_rest (fun _ _ _ _ _ => Retained.serve hothers) hstart s hs
  exact ⟨hrest.holds, hrest.data⟩

/-- A page looked up in any state that a run on a new cache has reached -/
theorem retention_reached {p₀ : Pager} {i : FrameId} {before reqs : List Request} {rs : List Reply}
    {pins : Nat} (hopen : p₀.Opened)
    (haccesses : Request.totalAccesses (before ++ .getPage pid :: reqs) < 2 ^ 64)
    (hbefore : runAll serve before p₀ = .ok (rs, p)) (hget : p.getPage pid = (some i, q))
    (hpassive : ∀ req ∈ reqs, req.Passive) (hpins : ∀ s ∈ states serve reqs q, s.pinnedCount ≤ pins)
    (hothers : (Request.others pid reqs).card + pins < maxFrames) :
    ∀ s ∈ states serve reqs q, s.Holds i pid ∧ (s.frames i).data = (q.frames i).data := by
  have hstart : TickRoom (before ++ .getPage pid :: reqs) p₀ := by
    refine ⟨hopen.ordered, ?_⟩
    rw [hopen.tick]
    simpa using haccesses
  obtain ⟨hord, hroom⟩ := rest_runAll (fun _ _ _ _ _ => TickRoom.serve) hstart hbefore
  have htotal : Request.totalAccesses (.getPage pid :: reqs) = 1 + Request.totalAccesses reqs := rfl
  exact retention hord (by omega) hget hpassive hpins hothers

/-- Page 5 is written and released. -/
def beforeRetained : List Request :=
  [.getPage 5, .write 5 [1, 2, 3, 4, 5, 6, 7, 8], .markDirty 5, .unpin 5]

/-- It is looked up again and released, and so are two others. -/
def afterRetained : List Request := [.unpin 5, .getPage 6, .markDirty 6, .getPage 7, .unpin 6, .unpin 7]

/-- The cache that has page 5 -/
def retainedCache : Pager := ((runAll serve beforeRetained smallCache).toOption.getD ([], smallCache)).2

theorem beforeRetained_run : ∃ rs, runAll serve beforeRetained smallCache = .ok (rs, retainedCache) := by
  obtain ⟨out, hrun⟩ := exists_ok_of_isSome
    (show (runAll serve beforeRetained smallCache).toOption.isSome = true by decide +kernel)
  refine ⟨out.1, ?_⟩
  rw [retainedCache, hrun]
  rfl

theorem retention_reached_small : ∃ i, (retainedCache.getPage 5).1 = some i ∧
    ∀ s ∈ states serve afterRetained (retainedCache.getPage 5).2, s.Holds i 5 ∧
      (s.frames i).data = ((retainedCache.getPage 5).2.frames i).data := by
  obtain ⟨rs, hbefore⟩ := beforeRetained_run
  have hfound : (retainedCache.getPage 5).1 = some ⟨0, by decide⟩ := by decide +kernel
  have hget : retainedCache.getPage 5 = (some ⟨0, by decide⟩, (retainedCache.getPage 5).2) := by
    rw [← hfound]
  have hpins : ∀ s ∈ states serve afterRetained (retainedCache.getPage 5).2, s.pinnedCount ≤ 2 := by
    decide +kernel
  have hopen : smallCache.Opened := ⟨fun _ => rfl, rfl⟩
  have haccesses : Request.totalAccesses (beforeRetained ++ .getPage 5 :: afterRetained) < 2 ^ 64 := by
    decide +kernel
  have hpassive : ∀ req ∈ afterRetained, req.Passive := by simp [afterRetained, Request.Passive]
  have hothers : (Request.others 5 afterRetained).card + 2 < maxFrames := by decide
  have hstays := retention_reached hopen haccesses hbefore hget hpassive hpins hothers
  exact ⟨⟨0, by decide⟩, hfound, hstays⟩

/-! ## Pages looked up one after the other -/

/-- A page is looked up and released. -/
def look (pid : PageId) : List Request := [.getPage pid, .unpin pid]

/-- `look` has found or loaded the page in frame `i`, and nothing is pinned. -/
structure Looked (p : Pager) (pid : PageId) (i : FrameId) (q : Pager) : Prop where
  distinct : q.Distinct
  idle : ∀ j, (q.frames j).pinCount = 0
  tick : q.tick = p.tick + 1
  holds : q.Holds i pid
  used : (q.frames i).usedTick = p.tick + 1
  others : ∀ j, j ≠ i → q.frames j = p.frames j
  before : p.Holds i pid ∨ (∀ j, ¬ p.Holds j pid) ∧
    ((p.frames i).isValid = false ∨ (∀ j, (p.frames j).isValid = true) ∧ p.LeastRecent i)

theorem look_spec (hd : p.Distinct) (hidle : ∀ j, (p.frames j).pinCount = 0) {pid : PageId}
    (hcan : (∃ j, p.Holds j pid) ∨ p.CanEvict) :
    ∃ rs i q, p.getPage pid = (some i, q) ∧ runAll serve (look pid) p = .ok (rs, q.unpin pid) ∧
      p.Looked pid i (q.unpin pid) := by
  rcases getPage_taken p pid with ⟨i, q, hget, ht⟩ | ⟨s, -, habs, hnot⟩
  · have hone : (q.frames i).pinCount = 1 := by
      cases getPage_pinCount hget with
      | inl h => rw [h.2, hidle i]; rfl
      | inr h => exact h.2
    have hunpin := unpin_holds (ht.distinct hd) ht.holds (by rw [hone]; decide)
    have hself : (q.unpin pid).frames i = { q.frames i with pinCount := 0 } := by
      rw [hunpin, modifyFrame_same, hone]
      rfl
    have hother (j : FrameId) (hj : j ≠ i) : (q.unpin pid).frames j = p.frames j := by
      rw [hunpin, modifyFrame_ne _ _ hj, ht.others j hj]
    have hk := keepsPages_unpin q pid
    refine ⟨[.page (some (q.frames i).data), .done], i, q, hget, ?_, fun j k r hj hk' => ?_,
      fun j => ?_, hk.tick.trans ht.tick, hk.holds.mpr ht.holds, (hk.usedTick i).trans ht.used,
      hother, ?_⟩
    · rw [look, runAll, Pager.serve, hget]
      rfl
    · exact ht.distinct hd j k r (hk.holds.mp hj) (hk.holds.mp hk')
    · by_cases hj : j = i
      · rw [hj, hself]
      · rw [hother j hj, hidle j]
    · exact ht.before.imp (fun h => h.1) fun h => ⟨h.1, h.2.2⟩
  · cases hcan with
    | inl hres => exact absurd hres (not_exists.mpr (findFrame_eq_none.mp habs))
    | inr hcan => exact absurd hcan hnot

theorem pinnedCount_le_one (i : FrameId) (h : ∀ j, j ≠ i → (p.frames j).pinCount = 0) :
    p.pinnedCount ≤ 1 := by
  have hle := Lists.countP_le_succ (List.nodup_finRange maxFrames) (a := i)
    (P := fun j => (p.frames j).isValid && decide ((p.frames j).pinCount ≠ 0))
    (Q := fun _ => false) fun j hj => by simp [h j hj]
  rwa [List.countP_false] at hle

/-- Pages are looked up and released, one after the other. -/
def looks (pids : List PageId) : List Request := pids.flatMap look

theorem mem_looks {pids : List PageId} {req : Request} (h : req ∈ looks pids) :
    ∃ pid ∈ pids, req = .getPage pid ∨ req = .unpin pid := by
  obtain ⟨pid, hpid, hreq⟩ := List.mem_flatMap.mp h
  rw [look] at hreq
  simp only [List.mem_cons, List.not_mem_nil, or_false] at hreq
  exact ⟨pid, hpid, hreq⟩

/-- The cache between two of these lookups: nothing is pinned, and the pages `l` were used last. -/
structure Between (l : Finset PageId) (p : Pager) : Prop where
  ordered : p.Ordered
  idle : ∀ j, (p.frames j).pinCount = 0
  recent : p.Recent l

theorem Between.pinnedCount (h : p.Between l) : p.pinnedCount = 0 :=
  List.countP_eq_zero.mpr fun j _ => by simp [h.idle j]

theorem Between.afterLook (h : p.Between l) (htick : p.tick.toNat + 1 < 2 ^ 64)
    (hroom : l.card < maxFrames) (pid : PageId) :
    ∃ rs q, runAll serve (look pid) p = .ok (rs, q) ∧ q.Between (insert pid l) ∧
      q.tick.toNat = p.tick.toNat + 1 ∧ ∀ s ∈ states serve (look pid) p, s.pinnedCount ≤ 1 := by
  have hpins : p.pinnedCount + l.card < maxFrames := by
    rw [h.pinnedCount]
    omega
  have hcan : (∃ j, p.Holds j pid) ∨ p.CanEvict := Or.inr (h.ordered.canEvict (by omega) htick)
  obtain ⟨rs, i, q, hget, hrun, hl⟩ := look_spec h.ordered.distinct h.idle hcan
  have ht := taken_of_getPage hget
  have hk := keepsPages_unpin q pid
  have hstays := h.recent.stays h.ordered ht (Or.inr hpins)
  refine ⟨rs, _, hrun, ⟨(h.ordered.taken ht htick).keeps hk, hl.idle, ?_⟩, ?_, fun s hs => ?_⟩
  · exact (h.recent.taken h.ordered ht htick hstays).keeps hk
  · rw [hl.tick, tick_succ htick]
  · have hstates : states serve (look pid) p = [p, q, q.unpin pid] := by
      show [p, (p.getPage pid).2, (p.getPage pid).2.unpin pid] = _
      rw [hget]
    rw [hstates] at hs
    simp only [List.mem_cons, List.not_mem_nil, or_false] at hs
    rcases hs with rfl | rfl | rfl
    · exact pinnedCount_le_one i fun j _ => h.idle j
    · exact pinnedCount_le_one i fun j hj => by rw [ht.others j hj, h.idle j]
    · exact pinnedCount_le_one i fun j _ => hl.idle j

theorem Between.afterLooks {pids : List PageId} (h : p.Between l)
    (htick : p.tick.toNat + pids.length < 2 ^ 64) (hroom : l.card + pids.length ≤ maxFrames) :
    ∃ rs q, runAll serve (looks pids) p = .ok (rs, q) ∧ q.Between (l ∪ pids.toFinset) := by
  induction pids generalizing p l with
  | nil =>
    refine ⟨[], p, rfl, ?_⟩
    rwa [List.toFinset_nil, Finset.union_empty]
  | cons pid pids ih =>
    rw [List.length_cons] at htick hroom
    obtain ⟨rs, q, hrun, hq, hnext, -⟩ := h.afterLook (by omega) (by omega) pid
    have hcard := Finset.card_insert_le pid l
    obtain ⟨rs', q', hrun', hq'⟩ := ih hq (by omega) (by omega)
    have hunion : insert pid l ∪ pids.toFinset = l ∪ (pid :: pids).toFinset := by
      rw [List.toFinset_cons, Finset.insert_union, Finset.union_insert]
    exact ⟨rs ++ rs', q', runAll_append hrun hrun', hunion ▸ hq'⟩

/-- Lookups never have more than one page pinned. -/
theorem Between.pinnedCount_looks {pids : List PageId} (h : p.Between l)
    (htick : p.tick.toNat + pids.length < 2 ^ 64) :
    ∀ s ∈ states serve (looks pids) p, s.pinnedCount ≤ 1 := by
  induction pids generalizing p l with
  | nil =>
    intro s hs
    rw [List.mem_singleton.mp hs, h.pinnedCount]
    exact Nat.zero_le 1
  | cons pid pids ih =>
    rw [List.length_cons] at htick
    have hempty : p.Between ∅ := ⟨h.ordered, h.idle, Recent.empty p⟩
    obtain ⟨rs, q, hrun, hq, hnext, hpins⟩ := hempty.afterLook (by omega) (by decide) pid
    intro s hs
    exact (mem_states_append hrun hs).elim (hpins s) (ih hq (by omega) s)

/-- As many pages as there are frames fill them. -/
theorem Recent.fills (h : p.Recent l) (hcard : maxFrames ≤ l.card) (i : FrameId) :
    (p.frames i).pageId ∈ l := by
  let used : Finset FrameId := Finset.univ.filter fun j => (p.frames j).pageId ∈ l
  have hpages : l ⊆ used.image fun j => (p.frames j).pageId := by
    intro r hr
    obtain ⟨j, hj⟩ := h.resident r hr
    refine Finset.mem_image.mpr ⟨j, Finset.mem_filter.mpr ⟨Finset.mem_univ j, ?_⟩, hj.2⟩
    rw [hj.2]
    exact hr
  have hle : l.card ≤ used.card := (Finset.card_le_card hpages).trans Finset.card_image_le
  have hall : used = Finset.univ := by
    apply Finset.eq_univ_of_card
    have hmost := Finset.card_le_univ used
    rw [Fintype.card_fin] at hmost ⊢
    omega
  have hi : i ∈ used := hall ▸ Finset.mem_univ i
  exact (Finset.mem_filter.mp hi).2

/-- After as many lookups of different pages as there are frames no other page is left in one. -/
theorem displaced {pids : List PageId} (h : p.Between ∅) (htick : p.tick.toNat + pids.length < 2 ^ 64)
    (hnodup : pids.Nodup) (hlen : pids.length = maxFrames) :
    ∃ rs q, runAll serve (looks pids) p = .ok (rs, q) ∧ ∀ i pid, q.Holds i pid → pid ∈ pids := by
  obtain ⟨rs, q, hrun, hq⟩ := h.afterLooks htick (by rw [Finset.card_empty, hlen, Nat.zero_add])
  rw [Finset.empty_union] at hq
  refine ⟨rs, q, hrun, fun i pid hi => ?_⟩
  have hcard : maxFrames ≤ pids.toFinset.card := by
    rw [List.toFinset_card_of_nodup hnodup, hlen]
  exact hi.2 ▸ List.mem_toFinset.mp (hq.recent.fills hcard i)

/-! ## A counter that has wrapped -/

/-- A state of a cache that was empty at first -/
def Reached (p : Pager) : Prop := ∃ reqs rs, runAll serve reqs smallCache = .ok (rs, p)

theorem Reached.look {rs : List Reply} (h : p.Reached)
    (hrun : runAll serve (look pid) p = .ok (rs, q)) : q.Reached := by
  obtain ⟨reqs, rs', hreqs⟩ := h
  exact ⟨_, _, runAll_append hreqs hrun⟩

/-- The pages 1 to `n` have been looked up once, in `n` frames. -/
structure Filled (n : Nat) (p : Pager) : Prop where
  distinct : p.Distinct
  idle : ∀ j, (p.frames j).pinCount = 0
  tick : p.tick.toNat = n
  used : ∀ j, (p.frames j).isValid = true → 1 ≤ (p.frames j).usedTick.toNat
  pages : ∀ j, (p.frames j).isValid = true → (p.frames j).pageId.toNat ≤ n
  resident : ∀ pid : PageId, 1 ≤ pid.toNat → pid.toNat ≤ n → ∃ i, p.Holds i pid
  valid : frameIds.countP (fun j => (p.frames j).isValid) = n

theorem filled_zero : smallCache.Filled 0 := by
  have hinvalid (j : FrameId) : ¬ (smallCache.frames j).isValid = true := Bool.false_ne_true
  refine ⟨fun i _ _ hi => absurd hi.1 (hinvalid i), fun _ => rfl, rfl,
    fun j hj => absurd hj (hinvalid j), fun j hj => absurd hj (hinvalid j), fun pid h1 h0 => ?_, ?_⟩
  · omega
  · exact List.countP_eq_zero.mpr fun j _ => hinvalid j

theorem Filled.succ {n : Nat} (h : p.Filled n) (hn : n < maxFrames) :
    ∃ rs q, runAll serve (look (UInt32.ofNat (n + 1))) p = .ok (rs, q) ∧ q.Filled (n + 1) := by
  have hmax : maxFrames = 256 := rfl
  have hpid : (UInt32.ofNat (n + 1)).toNat = n + 1 := UInt32.toNat_ofNat_of_lt' (by
    show n + 1 < 4294967296
    omega)
  -- a frame is not used yet
  obtain ⟨k, hk⟩ : ∃ k, (p.frames k).isValid = false := by
    by_contra hno
    have hall : frameIds.countP (fun j => (p.frames j).isValid) = frameIds.length :=
      List.countP_eq_length.mpr fun j _ => by simpa using not_exists.mp hno j
    have hlen : frameIds.length = maxFrames := List.length_finRange
    have := h.valid
    omega
  have hcan : (∃ j, p.Holds j (UInt32.ofNat (n + 1))) ∨ p.CanEvict := Or.inr ⟨k, Or.inl hk⟩
  obtain ⟨rs, i, s, -, hrun, hl⟩ := look_spec h.distinct h.idle hcan
  -- the page is new, so the frame taken is one of those not used
  have hfree : (p.frames i).isValid = false := by
    rcases hl.before with hi | ⟨-, hfree | ⟨hvalid, -⟩⟩
    · have := h.pages i hi.1
      rw [hi.2, hpid] at this
      omega
    · exact hfree
    · rw [hvalid k] at hk
      contradiction
  have htick : (p.tick + 1).toNat = n + 1 := by
    rw [tick_succ (by rw [h.tick]; omega), h.tick]
  refine ⟨rs, _, hrun, hl.distinct, hl.idle, by rw [hl.tick, htick], fun j hj => ?_, fun j hj => ?_,
    fun r hr hle => ?_, ?_⟩
  · by_cases hji : j = i
    · rw [hji, hl.used, htick]
      omega
    · rw [hl.others j hji] at hj ⊢
      exact h.used j hj
  · by_cases hji : j = i
    · rw [hji, hl.holds.2, hpid]
    · rw [hl.others j hji] at hj ⊢
      exact Nat.le_succ_of_le (h.pages j hj)
  · -- the pages before it are in the other frames
    by_cases hrn : r = UInt32.ofNat (n + 1)
    · exact ⟨i, hrn ▸ hl.holds⟩
    · have hne : r.toNat ≠ n + 1 := fun he => hrn (UInt32.toNat_inj.mp (he.trans hpid.symm))
      obtain ⟨j, hj⟩ := h.resident r hr (by omega)
      have hji : j ≠ i := fun he => by
        rw [← he, hj.1] at hfree
        contradiction
      refine ⟨j, ?_⟩
      rw [Holds, hl.others j hji]
      exact hj
  · have hone := Lists.countP_erase_one (List.nodup_finRange maxFrames) (mem_frameIds i)
      (P := fun j => ((s.unpin (UInt32.ofNat (n + 1))).frames j).isValid)
      (Q := fun j => (p.frames j).isValid) hl.holds.1 hfree fun j hj => by rw [hl.others j hj]
    have := h.valid
    exact hone.symm.trans (congrArg (· + 1) this)

theorem exists_filled {n : Nat} (hn : n ≤ maxFrames) : ∃ p : Pager, p.Reached ∧ p.Filled n := by
  induction n with
  | zero => exact ⟨smallCache, ⟨[], [], rfl⟩, filled_zero⟩
  | succ n ih =>
    obtain ⟨p, hreach, h⟩ := ih (by omega)
    obtain ⟨rs, q, hrun, hq⟩ := h.succ hn
    exact ⟨q, hreach.look hrun, hq⟩

/-- All frames are in use, none is pinned, and the pages 1 and 2 are among their pages. -/
structure Full (p : Pager) : Prop where
  distinct : p.Distinct
  idle : ∀ j, (p.frames j).pinCount = 0
  used : ∀ j, 1 ≤ (p.frames j).usedTick.toNat
  pages : ∀ j, (p.frames j).pageId.toNat ≤ maxFrames
  valid : ∀ j, (p.frames j).isValid = true
  one : ∃ i, p.Holds i 1
  two : ∃ i, p.Holds i 2

theorem Filled.full (h : p.Filled maxFrames) : p.Full := by
  have hvalid (j : FrameId) : (p.frames j).isValid = true :=
    List.countP_eq_length.mp (h.valid.trans List.length_finRange.symm) j (mem_frameIds j)
  exact ⟨h.distinct, h.idle, fun j => h.used j (hvalid j), fun j => h.pages j (hvalid j), hvalid,
    h.resident 1 (by decide) (by decide), h.resident 2 (by decide) (by decide)⟩

/-- Page 1 is looked up again and again. -/
theorem exists_full {t : Nat} (ht : maxFrames ≤ t) (hlt : t < 2 ^ 64) :
    ∃ p : Pager, p.Reached ∧ p.Full ∧ p.tick.toNat = t := by
  -- tick by tick, from the state with all frames in use
  induction t, ht using Nat.le_induction with
  | base =>
    obtain ⟨p, hreach, h⟩ := exists_filled (Nat.le_refl maxFrames)
    exact ⟨p, hreach, h.full, h.tick⟩
  | succ t _ ih =>
    obtain ⟨p, hreach, h, htick⟩ := ih (by omega)
    obtain ⟨rs, i, s, -, hrun, hl⟩ := look_spec h.distinct h.idle (Or.inl h.one)
    have hnext : (p.tick + 1).toNat = t + 1 := by rw [tick_succ (by omega), htick]
    -- the frames keep their pages
    have hi : p.Holds i 1 := by
      obtain ⟨j, hj⟩ := h.one
      rcases hl.before with hi | ⟨habs, -⟩
      · exact hi
      · exact absurd hj (habs j)
    have hkeep {j : FrameId} {r : PageId} (hj : p.Holds j r) : (s.unpin 1).Holds j r := by
      by_cases hji : j = i
      · rw [hji] at hj ⊢
        rw [← hj.2, hi.2]
        exact hl.holds
      · rw [Holds, hl.others j hji]
        exact hj
    refine ⟨_, hreach.look hrun, ⟨hl.distinct, hl.idle, fun j => ?_, fun j => ?_, fun j => ?_,
      ⟨i, hl.holds⟩, ?_⟩, by rw [hl.tick, hnext]⟩
    · by_cases hji : j = i
      · rw [hji, hl.used, hnext]
        omega
      · rw [hl.others j hji]
        exact h.used j
    · rw [(hkeep ⟨h.valid j, rfl⟩).2]
      exact h.pages j
    · exact (hkeep ⟨h.valid j, rfl⟩).1
    · obtain ⟨j, hj⟩ := h.two
      exact ⟨j, hkeep hj⟩

/-- When the counter wraps, the page looked up last has the smallest tick of all, and the next page
    takes its frame. -/
theorem retention_wraps : ¬ ∀ (p₀ p q : Pager) (before reqs : List Request) (rs : List Reply)
    (pid : PageId) (i : FrameId) (pins : Nat), p₀.Opened → runAll serve before p₀ = .ok (rs, p) →
    p.getPage pid = (some i, q) → (∀ req ∈ reqs, req.Passive) →
    (∀ s ∈ states serve reqs q, s.pinnedCount ≤ pins) →
    (Request.others pid reqs).card + pins < maxFrames →
    ∀ s ∈ states serve reqs q, s.Holds i pid ∧ (s.frames i).data = (q.frames i).data := by
  intro hall
  obtain ⟨p, ⟨before, rs, hbefore⟩, h, htick⟩ :=
    exists_full (t := 2 ^ 64 - 1) (by decide) (by decide)
  obtain ⟨-, i, q, hget, -, hl⟩ := look_spec h.distinct h.idle (Or.inl h.two)
  let u := q.unpin 2
  -- page 2 has tick 0 now
  have hzero : (u.frames i).usedTick = 0 := by
    rw [hl.used, show p.tick = UInt64.ofNat (2 ^ 64 - 1) from UInt64.toNat_inj.mp htick]
    rfl
  have hvalid (j : FrameId) : (u.frames j).isValid = true := by
    by_cases hji : j = i
    · exact hji ▸ hl.holds.1
    · rw [hl.others j hji]
      exact h.valid j
  have habsent (j : FrameId) : ¬ u.Holds j 300 := fun hj => by
    by_cases hji : j = i
    · have := hl.holds.2.symm.trans (hji ▸ hj.2)
      contradiction
    · have hle := h.pages j
      rw [← hl.others j hji, hj.2] at hle
      contradiction
  -- its frame is given to page 300
  obtain ⟨w, hw, ht⟩ : ∃ w, u.getPage 300 = (some i, w) ∧ u.Taken 300 i w := by
    rcases getPage_taken u 300 with ⟨k, w, hw, ht⟩ | ⟨_, -, -, hnot⟩
    · rcases ht.before with ⟨hk, -⟩ | ⟨-, -, hfree | ⟨-, hleast⟩⟩
      · exact absurd hk (habsent k)
      · rw [hvalid k] at hfree
        contradiction
      · have hle := hleast.2 i (hl.idle i)
        rw [hzero, UInt64.toNat_zero] at hle
        by_cases hki : k = i
        · exact ⟨w, hki ▸ hw, hki ▸ ht⟩
        · rw [hl.others k hki] at hle
          have := h.used k
          omega
    · exact absurd ⟨i, Or.inr ⟨hl.idle i, by rw [hzero]; decide⟩⟩ hnot
  have hstates : states serve [.unpin 2, .getPage 300] q = [q, u, w] := by
    show [q, u, (u.getPage 300).2] = _
    rw [hw]
  have hone (s : Pager) (hs : s ∈ [q, u, w]) : s.pinnedCount ≤ 1 := by
    simp only [List.mem_cons, List.not_mem_nil, or_false] at hs
    rcases hs with rfl | rfl | rfl
    · have hq := (taken_of_getPage hget).others
      exact pinnedCount_le_one i fun j hj => by rw [hq j hj, h.idle j]
    · exact pinnedCount_le_one i fun j _ => hl.idle j
    · exact pinnedCount_le_one i fun j hj => by rw [ht.others j hj, hl.idle j]
  have hw' : w ∈ states serve [.unpin 2, .getPage 300] q := by rw [hstates]; simp
  have hend := (hall smallCache p q before [.unpin 2, .getPage 300] rs 2 i 1 ⟨fun _ => rfl, rfl⟩
    hbefore hget (by simp [Request.Passive]) (by rwa [hstates]) (by decide) w hw').1
  have := hend.2.symm.trans ht.holds.2
  contradiction

end Pager

end MiniDb
