import MiniDb.Lib.Lists
import MiniDb.Pager.Cache

/-!
# What the functions of the cache do

`content p pid` is what a caller reads from a page: the buffer of its frame, or the file when no
frame holds it.  Apart from a write through a pointer, no function of the cache changes the
content of a data page: this is what the lemmas about them say, together with the invariants of
the frames that make it true.

## Key results

- `evictFrame_cases`, `flushLoop_flushes`: the frames given up and written back
- `getPage_spec`, `markDirty_spec`, `unpin_spec`, `flushAll_spec`, `store_spec`
-/

namespace MiniDb

open Bytes Select

namespace Pager

variable {p : Pager}

/-! ## The file -/

@[simp] theorem length_rawRead (p : Pager) (pid : PageId) : (p.rawRead pid).length = p.ps := by
  rw [rawRead, List.length_map, List.length_range]

theorem rawRead_congr {p q : Pager} {pid : PageId} (hps : q.ps = p.ps)
    (h : ∀ i < p.ps, q.disk (pid.toNat * p.ps + i) = p.disk (pid.toNat * p.ps + i)) :
    q.rawRead pid = p.rawRead pid := by
  rw [rawRead, rawRead, hps]
  exact List.map_congr_left fun i hi => h i (List.mem_range.mp hi)

theorem rawRead_rawWrite_same {buf : Page} (pid : PageId) (h : buf.length = p.ps) :
    (p.rawWrite pid buf).rawRead pid = buf := by
  apply List.ext_getElem
  · rw [length_rawRead, h]
    rfl
  · intro i h1 h2
    rw [h] at h2
    have hin : pid.toNat * p.ps ≤ pid.toNat * p.ps + i ∧
        pid.toNat * p.ps + i < pid.toNat * p.ps + p.ps := by omega
    simp only [rawRead, rawWrite, ps, List.getElem_map, List.getElem_range] at hin ⊢
    rw [if_pos hin, Nat.add_sub_cancel_left, List.getD_eq_getElem?_getD, List.getElem?_eq_getElem]
    rfl

/-- Pages lie apart in the file. -/
theorem rawRead_rawWrite_ne {pid q : PageId} (buf : Page) (hne : q ≠ pid) :
    (p.rawWrite pid buf).rawRead q = p.rawRead q := by
  refine rawRead_congr rfl fun i hi => ?_
  have hne' : q.toNat ≠ pid.toNat := fun h => hne (UInt32.toNat_inj.mp h)
  have hout : ¬ (pid.toNat * p.ps ≤ q.toNat * p.ps + i ∧
      q.toNat * p.ps + i < pid.toNat * p.ps + p.ps) := by
    rintro ⟨h1, h2⟩
    rcases Nat.lt_or_gt_of_ne hne' with hlt | hlt
    · have hmul : (q.toNat + 1) * p.ps ≤ pid.toNat * p.ps := Nat.mul_le_mul_right _ hlt
      rw [Nat.add_mul] at hmul
      omega
    · have hmul : (pid.toNat + 1) * p.ps ≤ q.toNat * p.ps := Nat.mul_le_mul_right _ hlt
      rw [Nat.add_mul] at hmul
      omega
  show (if _ then _ else _) = _
  rw [if_neg hout]

/-! ## Frames -/

/-- The frame holds the page. -/
def Holds (p : Pager) (i : FrameId) (pid : PageId) : Prop :=
  (p.frames i).isValid = true ∧ (p.frames i).pageId = pid

instance (p : Pager) (i : FrameId) (pid : PageId) : Decidable (p.Holds i pid) := by
  unfold Holds
  infer_instance

theorem mem_frameIds (i : FrameId) : i ∈ frameIds := List.mem_finRange i

/-- No page has two frames. -/
def Distinct (p : Pager) : Prop := ∀ i j pid, p.Holds i pid → p.Holds j pid → i = j

theorem findFrame_eq_none : p.findFrame pid = none ↔ ∀ i, ¬ p.Holds i pid := by
  rw [findFrame, List.find?_eq_none]
  constructor
  · intro h i hi
    exact h i (mem_frameIds i) (by simp [hi.1, hi.2])
  · intro h i _ hi
    exact h i (by simpa [Holds] using hi)

theorem holds_of_findFrame {pid : PageId} {i : FrameId} (h : p.findFrame pid = some i) :
    p.Holds i pid := by
  have := List.find?_some h
  simpa [Holds] using this

theorem findFrame_eq_some (h : p.Distinct) {pid : PageId} {i : FrameId} :
    p.findFrame pid = some i ↔ p.Holds i pid := by
  refine ⟨holds_of_findFrame, fun hi => ?_⟩
  cases hf : p.findFrame pid with
  | none => exact absurd hi (findFrame_eq_none.mp hf i)
  | some j => rw [h i j pid hi (holds_of_findFrame hf)]

/-- What a caller reads from the page -/
def content (p : Pager) (pid : PageId) : Page :=
  match p.findFrame pid with
  | some i => (p.frames i).data
  | none => p.rawRead pid

theorem content_of_holds (h : p.Distinct) {pid : PageId} {i : FrameId} (hi : p.Holds i pid) :
    p.content pid = (p.frames i).data := by
  rw [content, (findFrame_eq_some h).mpr hi]

theorem content_of_absent {pid : PageId} (h : ∀ i, ¬ p.Holds i pid) :
    p.content pid = p.rawRead pid := by
  rw [content, findFrame_eq_none.mpr h]

@[simp] theorem modifyFrame_same (p : Pager) (i : FrameId) (f : Frame → Frame) :
    (p.modifyFrame i f).frames i = f (p.frames i) := Function.update_self ..

theorem modifyFrame_ne (p : Pager) {i j : FrameId} (f : Frame → Frame) (h : j ≠ i) :
    (p.modifyFrame i f).frames j = p.frames j := Function.update_of_ne h ..

/-! ## Coherence -/

/-- What the frames keep.  A frame that is neither dirty nor written to without a mark agrees with
    the file; `unmarked` are the pages written to since their last `pager_mark_dirty`. -/
structure Coherent (p : Pager) (unmarked : PageId → Prop) : Prop where
  distinct : p.Distinct
  nonzero : ∀ i pid, p.Holds i pid → pid ≠ 0
  length : ∀ i pid, p.Holds i pid → (p.frames i).data.length = p.ps
  backed : ∀ i pid, p.Holds i pid → (p.frames i).isDirty = false → ¬ unmarked pid →
    p.rawRead pid = (p.frames i).data

/-- The page is in a frame with `pin_count > 0`. -/
def Pinned (p : Pager) (pid : PageId) : Prop := ∃ i, p.Holds i pid ∧ (p.frames i).pinCount ≠ 0

instance (p : Pager) (pid : PageId) : Decidable (p.Pinned pid) :=
  decidable_of_iff (∃ i ∈ frameIds, p.Holds i pid ∧ (p.frames i).pinCount ≠ 0)
    ⟨fun ⟨i, _, hi⟩ => ⟨i, hi⟩, fun ⟨i, hi⟩ => ⟨i, mem_frameIds i, hi⟩⟩

/-- Every page written to without a mark is pinned, those apart that may be lost. -/
def Guarded (p : Pager) (unmarked lost : PageId → Prop) : Prop :=
  ∀ pid, unmarked pid → ¬ lost pid → p.Pinned pid

/-- The data pages have the same contents. -/
def SameContent (p q : Pager) : Prop := ∀ pid, pid ≠ 0 → q.content pid = p.content pid

/-- The data pages that may not be lost have the same contents. -/
def Agree (lost : PageId → Prop) (p q : Pager) : Prop :=
  ∀ pid, pid ≠ 0 → ¬ lost pid → q.content pid = p.content pid

theorem SameContent.trans {p q r : Pager} (h : SameContent p q) (h' : SameContent q r) :
    SameContent p r := fun pid hpid => (h' pid hpid).trans (h pid hpid)

theorem SameContent.agree {p q : Pager} (h : SameContent p q) (lost : PageId → Prop) :
    Agree lost p q := fun pid hpid _ => h pid hpid

theorem Agree.trans {lost : PageId → Prop} {p q r : Pager} (h : Agree lost p q)
    (h' : Agree lost q r) : Agree lost p r :=
  fun pid hpid hl => (h' pid hpid hl).trans (h pid hpid hl)

/-- Ticks, statistics and flags of the pager do not matter. -/
theorem content_congr {q : Pager} (hframes : q.frames = p.frames) (hdisk : q.disk = p.disk)
    (hps : q.ps = p.ps) (pid : PageId) : q.content pid = p.content pid := by
  unfold content findFrame rawRead
  rw [hframes, hdisk, hps]

theorem Coherent.congr {q : Pager} {unmarked : PageId → Prop} (h : p.Coherent unmarked)
    (hframes : q.frames = p.frames) (hdisk : q.disk = p.disk) (hps : q.ps = p.ps) :
    q.Coherent unmarked := by
  have hread (pid : PageId) : q.rawRead pid = p.rawRead pid := by
    unfold rawRead
    rw [hdisk, hps]
  obtain ⟨h1, h2, h3, h4⟩ := h
  refine ⟨?_, ?_, ?_, ?_⟩
  · unfold Distinct Holds at h1 ⊢
    rw [hframes]
    exact h1
  · unfold Holds at h2 ⊢
    rw [hframes]
    exact h2
  · unfold Holds at h3 ⊢
    rw [hframes, hps]
    exact h3
  · unfold Holds at h4 ⊢
    rw [hframes]
    intro i pid
    rw [hread]
    exact h4 i pid

theorem Coherent.mono {unmarked unmarked' : PageId → Prop} (h : p.Coherent unmarked)
    (hle : ∀ pid, unmarked pid → unmarked' pid) : p.Coherent unmarked' :=
  ⟨h.distinct, h.nonzero, h.length, fun i pid hi hd hu => h.backed i pid hi hd fun h' => hu (hle pid h')⟩

/-- A change of one frame that keeps its page -/
theorem holds_modifyFrame {i j : FrameId} {f : Frame → Frame} {pid : PageId}
    (hf : (f (p.frames i)).isValid = (p.frames i).isValid ∧
      (f (p.frames i)).pageId = (p.frames i).pageId) :
    (p.modifyFrame i f).Holds j pid ↔ p.Holds j pid := by
  unfold Holds
  by_cases hj : j = i
  · subst hj
    rw [modifyFrame_same, hf.1, hf.2]
  · rw [modifyFrame_ne p f hj]

/-! ## Writing back -/

/-- A frame written to the file and no longer dirty -/
def writeBack (p : Pager) (i : FrameId) : Pager :=
  (p.rawWrite (p.frames i).pageId (p.frames i).data).modifyFrame i fun f => { f with isDirty := false }

theorem holds_writeBack {i j : FrameId} {pid : PageId} :
    (p.writeBack i).Holds j pid ↔ p.Holds j pid := holds_modifyFrame ⟨rfl, rfl⟩

theorem writeBack_data (p : Pager) (i j : FrameId) :
    ((p.writeBack i).frames j).data = (p.frames j).data := by
  by_cases hj : j = i
  · subst hj
    rw [writeBack, modifyFrame_same]
    rfl
  · rw [writeBack, modifyFrame_ne _ _ hj]
    rfl

section WriteBack

variable {unmarked : PageId → Prop} {i : FrameId}

theorem Coherent.writeBack (h : p.Coherent unmarked) (hi : (p.frames i).isValid = true) :
    (p.writeBack i).Coherent unmarked := by
  have hlen := h.length i _ ⟨hi, rfl⟩
  refine ⟨?_, ?_, ?_, ?_⟩
  · intro j k pid hj hk
    exact h.distinct j k pid (holds_writeBack.mp hj) (holds_writeBack.mp hk)
  · intro j pid hj
    exact h.nonzero j pid (holds_writeBack.mp hj)
  · intro j pid hj
    rw [writeBack_data]
    exact h.length j pid (holds_writeBack.mp hj)
  · intro j pid hj hclean hmarked
    have hj' := holds_writeBack.mp hj
    rw [writeBack_data]
    by_cases hji : j = i
    · -- the page just written
      subst hji
      rw [← hj'.2]
      exact rawRead_rawWrite_same _ hlen
    · have hne : pid ≠ (p.frames i).pageId := fun heq => hji (h.distinct j i pid hj' ⟨hi, heq.symm⟩)
      rw [Pager.writeBack, modifyFrame_ne _ _ hji] at hclean
      exact (rawRead_rawWrite_ne _ hne).trans (h.backed j pid hj' hclean hmarked)

theorem Coherent.sameContent_writeBack (h : p.Coherent unmarked)
    (hi : (p.frames i).isValid = true) : SameContent p (p.writeBack i) := by
  intro pid _
  by_cases hex : ∃ j, p.Holds j pid
  · obtain ⟨j, hj⟩ := hex
    rw [content_of_holds h.distinct hj,
      content_of_holds (h.writeBack hi).distinct (holds_writeBack.mpr hj), writeBack_data]
  · have habs : ∀ j, ¬ p.Holds j pid := fun j hj => hex ⟨j, hj⟩
    have hne : pid ≠ (p.frames i).pageId := fun heq => habs i ⟨hi, heq.symm⟩
    rw [content_of_absent habs,
      content_of_absent fun j hj => habs j (holds_writeBack.mp hj)]
    exact rawRead_rawWrite_ne _ hne

end WriteBack

/-- Only the statistics tell `flushFrame` from `writeBack`. -/
theorem flushFrame_frames (p : Pager) (i : FrameId) : (p.flushFrame i).frames = (p.writeBack i).frames :=
  rfl

theorem Coherent.flushFrame {unmarked : PageId → Prop} {i : FrameId} (h : p.Coherent unmarked)
    (hi : (p.frames i).isValid = true) :
    (p.flushFrame i).Coherent unmarked ∧ SameContent p (p.flushFrame i) :=
  ⟨(h.writeBack hi).congr rfl rfl rfl, fun pid hpid =>
    (content_congr rfl rfl rfl pid).trans (h.sameContent_writeBack hi pid hpid)⟩

/-- Writing back changes nothing but the file, the flag and the statistics. -/
theorem flushFrame_frame (p : Pager) (i j : FrameId) : (p.flushFrame i).frames j =
    { p.frames j with isDirty := if j = i then false else (p.frames j).isDirty } := by
  by_cases hj : j = i
  · subst hj
    rw [flushFrame_frames, writeBack, modifyFrame_same, if_pos rfl]
    rfl
  · rw [flushFrame_frames, writeBack, modifyFrame_ne _ _ hj, if_neg hj]
    rfl

/-! ## Eviction -/

/-- A frame that `evict_frame` may give to another page -/
def Evictable (p : Pager) (i : FrameId) : Prop :=
  (p.frames i).isValid = false ∨
    (p.frames i).pinCount = 0 ∧ (p.frames i).usedTick.toNat < 2 ^ 64 - 1

instance (p : Pager) (i : FrameId) : Decidable (p.Evictable i) := by
  unfold Evictable
  infer_instance

/-- `evict_frame` finds a frame. -/
def CanEvict (p : Pager) : Prop := ∃ i, p.Evictable i

instance (p : Pager) : Decidable p.CanEvict :=
  decidable_of_iff (∃ i ∈ frameIds, p.Evictable i)
    ⟨fun ⟨i, _, hi⟩ => ⟨i, hi⟩, fun ⟨i, hi⟩ => ⟨i, mem_frameIds i, hi⟩⟩

/-- The frame used longest ago among those that are not pinned -/
def LeastRecent (p : Pager) (i : FrameId) : Prop :=
  (p.frames i).pinCount = 0 ∧
    ∀ j, (p.frames j).pinCount = 0 → (p.frames i).usedTick.toNat ≤ (p.frames j).usedTick.toNat

/-- The pager after `evict_frame` has chosen a valid frame -/
def evicted (p : Pager) (i : FrameId) : Pager :=
  (if (p.frames i).isDirty then p.flushFrame i else p).modifyFrame i fun f => { f with isValid := false }

/-- What `evict_frame` does: it gives up a frame that is not used, or else the one used longest
    ago, or none. -/
theorem evictFrame_cases (p : Pager) :
    (∃ i, p.evictFrame = (some i, p) ∧ (p.frames i).isValid = false) ∨
    (∃ i, p.evictFrame = (some i, p.evicted i) ∧ (∀ j, (p.frames j).isValid = true) ∧
      p.LeastRecent i) ∨
    p.evictFrame = (none, p) ∧ ∀ i, ¬ p.Evictable i := by
  cases hfree : frameIds.find? fun i => !(p.frames i).isValid with
  | some i =>
    have hi := List.find?_some hfree
    refine Or.inl ⟨i, ?_, by simpa using hi⟩
    rw [evictFrame, hfree]
  | none =>
    have hvalid : ∀ j, (p.frames j).isValid = true := fun j => by
      simpa using List.find?_eq_none.mp hfree j (mem_frameIds j)
    cases hlru : p.leastRecent with
    | some i =>
      obtain ⟨-, hpin, -, hleast⟩ := selectMin_spec hlru
      refine Or.inr (Or.inl ⟨i, ?_, hvalid, by simpa using hpin, fun j hj => ?_⟩)
      · rw [evictFrame, hfree, hlru]
        rfl
      · exact hleast j (mem_frameIds j) (by simpa using hj)
    | none =>
      refine Or.inr (Or.inr ⟨by rw [evictFrame, hfree, hlru], fun i hi => ?_⟩)
      rcases hi with hi | ⟨hpin, htick⟩
      · rw [hvalid i] at hi
        exact nomatch hi
      · have := selectMin_none_iff.mp hlru i (mem_frameIds i) (by simpa using hpin)
        omega

theorem evicted_frame_ne {i j : FrameId} (h : j ≠ i) : (p.evicted i).frames j = p.frames j := by
  rw [evicted, modifyFrame_ne _ _ h]
  split
  next => rw [flushFrame_frame, if_neg h]
  next => rfl

theorem evicted_isValid (i : FrameId) : ((p.evicted i).frames i).isValid = false := by
  rw [evicted, modifyFrame_same]

theorem holds_evicted {i j : FrameId} {pid : PageId} :
    (p.evicted i).Holds j pid ↔ j ≠ i ∧ p.Holds j pid := by
  unfold Holds
  by_cases hj : j = i
  · subst hj
    rw [evicted_isValid]
    simp
  · rw [evicted_frame_ne hj]
    simp [hj]

section Evict

variable {unmarked lost : PageId → Prop}

/-- A frame that is given up agrees with the file, unless its page may be lost. -/
theorem Coherent.evicted {i : FrameId} (h : p.Coherent unmarked) (hg : p.Guarded unmarked lost)
    (hi : (p.frames i).isValid = true) (hpin : (p.frames i).pinCount = 0) :
    (p.evicted i).Coherent unmarked ∧ Agree lost p (p.evicted i) := by
  -- the page of the frame is not one written to without a mark
  have hmarked : ¬ lost (p.frames i).pageId → ¬ unmarked (p.frames i).pageId := fun hl hu => by
    obtain ⟨j, hj, hpinj⟩ := hg _ hu hl
    rw [h.distinct j i _ hj ⟨hi, rfl⟩] at hpinj
    exact hpinj hpin
  -- so the file has its bytes, possibly after it was written
  let q := if (p.frames i).isDirty then p.flushFrame i else p
  have hq : q.Coherent unmarked ∧ SameContent p q ∧ q.frames i = { p.frames i with isDirty := false } ∧
      ∀ j, j ≠ i → q.frames j = p.frames j := by
    by_cases hd : (p.frames i).isDirty = true
    · have hq' : q = p.flushFrame i := if_pos hd
      rw [hq']
      obtain ⟨h1, h2⟩ := h.flushFrame hi
      refine ⟨h1, h2, ?_, fun j hj => ?_⟩
      · rw [flushFrame_frame, if_pos rfl]
      · rw [flushFrame_frame, if_neg hj]
    · have hq' : q = p := if_neg hd
      rw [hq']
      refine ⟨h, fun _ _ => rfl, ?_, fun _ _ => rfl⟩
      rw [Bool.not_eq_true] at hd
      rw [← hd]
  obtain ⟨hcoh, hsame, hframe, hother⟩ := hq
  have hqi : q.Holds i (p.frames i).pageId := by
    rw [Holds, hframe]
    exact ⟨hi, rfl⟩
  have hfile : ¬ lost (p.frames i).pageId → q.rawRead (p.frames i).pageId = (q.frames i).data :=
    fun hl => hcoh.backed i _ hqi (by rw [hframe]) (hmarked hl)
  have hread (pid : PageId) : (p.evicted i).rawRead pid = q.rawRead pid := rfl
  have hholds {j : FrameId} {pid : PageId} (hj : (p.evicted i).Holds j pid) : j ≠ i ∧ q.Holds j pid := by
    obtain ⟨hne, hp⟩ := holds_evicted.mp hj
    exact ⟨hne, by rw [Holds, hother j hne]; exact hp⟩
  have hframe' {j : FrameId} (hj : j ≠ i) : (p.evicted i).frames j = q.frames j := by
    rw [evicted_frame_ne hj, hother j hj]
  have hcoh' : (p.evicted i).Coherent unmarked := by
    refine ⟨fun j k pid hj hk => ?_, fun j pid hj => ?_, fun j pid hj => ?_, fun j pid hj => ?_⟩
    · exact hcoh.distinct j k pid (hholds hj).2 (hholds hk).2
    · exact hcoh.nonzero j pid (hholds hj).2
    · rw [hframe' (hholds hj).1]
      exact hcoh.length j pid (hholds hj).2
    · rw [hframe' (hholds hj).1, hread]
      exact hcoh.backed j pid (hholds hj).2
  refine ⟨hcoh', (hsame.agree lost).trans fun pid _ hl => ?_⟩
  -- the content of a page is in another frame, or in the file
  by_cases hex : ∃ j, (p.evicted i).Holds j pid
  · obtain ⟨j, hj⟩ := hex
    rw [content_of_holds hcoh'.distinct hj, content_of_holds hcoh.distinct (hholds hj).2,
      hframe' (hholds hj).1]
  · have habs : ∀ j, ¬ (p.evicted i).Holds j pid := fun j hj => hex ⟨j, hj⟩
    rw [content_of_absent habs, hread]
    by_cases hpid : pid = (p.frames i).pageId
    · -- the page given up is read from the file now
      rw [hpid, hfile (hpid ▸ hl), content_of_holds hcoh.distinct hqi]
    · refine (content_of_absent fun j hj => ?_).symm
      have hne : j ≠ i := fun hji => hpid (by
        rw [← hj.2, hji, hframe])
      exact habs j (holds_evicted.mpr ⟨hne, by rw [Holds, ← hother j hne]; exact hj⟩)

end Evict

/-! ## pager_get_page -/

/-- A hit -/
def touched (p : Pager) (i : FrameId) : Pager :=
  { p with tick := p.tick + 1 }.modifyFrame i fun f =>
    { f with pinCount := f.pinCount + 1, usedTick := p.tick + 1 }

/-- A page read into a frame -/
def loaded (p : Pager) (i : FrameId) (pid : PageId) : Pager :=
  { p with tick := p.tick + 1 }.modifyFrame i fun _ =>
    ⟨pid, true, false, 1, p.tick + 1, p.rawRead pid⟩

/-- The frame `i` is free for another page in `q`, which comes from `p`. -/
def GivesUp (p : Pager) (i : FrameId) (q : Pager) : Prop :=
  (q = p ∧ (p.frames i).isValid = false) ∨
    (q = p.evicted i ∧ (∀ j, (p.frames j).isValid = true) ∧ p.LeastRecent i)

theorem evicted_stats (p : Pager) (i : FrameId) (s : QueryStats) :
    ∃ s', ({ p with stats := s } : Pager).evicted i = { p.evicted i with stats := s' } := by
  by_cases hd : (p.frames i).isDirty = true
  · refine ⟨{ s with pagesFlushed := s.pagesFlushed + 1 }, ?_⟩
    simp only [evicted, hd, if_true]
    rfl
  · refine ⟨s, ?_⟩
    simp only [evicted, hd]
    rfl

/-- What `pager_get_page` does, the statistics apart -/
theorem getPage_cases (p : Pager) (pid : PageId) :
    (∃ i s, p.findFrame pid = some i ∧
      p.getPage pid = (some i, { p.touched i with stats := s })) ∨
    (∃ i q s, p.findFrame pid = none ∧ p.GivesUp i q ∧
      p.getPage pid = (some i, { q.loaded i pid with stats := s })) ∨
    ∃ s, p.findFrame pid = none ∧ (∀ i, ¬ p.Evictable i) ∧
      p.getPage pid = (none, { p with stats := s }) := by
  cases hf : p.findFrame pid with
  -- a hit
  | some i =>
    let s : QueryStats := { p.stats with
      pageLoads := p.stats.pageLoads + 1, cacheHits := p.stats.cacheHits + 1 }
    refine Or.inl ⟨i, s, rfl, ?_⟩
    have hf' : ({ p with stats := { p.stats with pageLoads := p.stats.pageLoads + 1 } } :
        Pager).findFrame pid = some i := hf
    simp only [getPage, hf']
    rfl
  -- a miss takes a free frame, gives up the least recently used one, or fails
  | none =>
    right
    let s₀ : QueryStats := { p.stats with
      pageLoads := p.stats.pageLoads + 1, cacheMisses := p.stats.cacheMisses + 1 }
    have hf' : ({ p with stats := { p.stats with pageLoads := p.stats.pageLoads + 1 } } :
        Pager).findFrame pid = none := hf
    rcases evictFrame_cases { p with stats := s₀ } with ⟨i, hev, hfree⟩ | ⟨i, hev, hvalid, hleast⟩ |
      ⟨hev, hnone⟩
    · refine Or.inl ⟨i, p, s₀, rfl, Or.inl ⟨rfl, hfree⟩, ?_⟩
      simp only [getPage, hf']
      show (match Pager.evictFrame { p with stats := s₀ } with | _ => _) = _
      rw [hev]
      rfl
    · obtain ⟨s', hs'⟩ := evicted_stats p i s₀
      rw [hs'] at hev
      refine Or.inl ⟨i, p.evicted i, s', rfl, Or.inr ⟨rfl, hvalid, hleast⟩, ?_⟩
      simp only [getPage, hf']
      show (match Pager.evictFrame { p with stats := s₀ } with | _ => _) = _
      rw [hev]
      rfl
    · refine Or.inr ⟨s₀, rfl, hnone, ?_⟩
      simp only [getPage, hf']
      show (match Pager.evictFrame { p with stats := s₀ } with | _ => _) = _
      rw [hev]

section GetPage

variable {unmarked lost : PageId → Prop} {i : FrameId} {pid : PageId}

theorem touched_frame (p : Pager) (i j : FrameId) : (p.touched i).frames j =
    if j = i then { p.frames i with
      pinCount := (p.frames i).pinCount + 1, usedTick := p.tick + 1 } else p.frames j := by
  by_cases hj : j = i
  · subst hj
    rw [touched, modifyFrame_same, if_pos rfl]
  · rw [touched, modifyFrame_ne _ _ hj, if_neg hj]

theorem loaded_frame (p : Pager) (i : FrameId) (pid : PageId) (j : FrameId) :
    (p.loaded i pid).frames j =
      if j = i then ⟨pid, true, false, 1, p.tick + 1, p.rawRead pid⟩ else p.frames j := by
  by_cases hj : j = i
  · subst hj
    rw [loaded, modifyFrame_same, if_pos rfl]
  · rw [loaded, modifyFrame_ne _ _ hj, if_neg hj]

theorem holds_touched {j : FrameId} {q : PageId} : (p.touched i).Holds j q ↔ p.Holds j q :=
  holds_modifyFrame (p := { p with tick := p.tick + 1 }) ⟨rfl, rfl⟩

/-- Frames that keep page, bytes and flag keep coherence. -/
theorem Coherent.of_frames {q : Pager} (h : p.Coherent unmarked)
    (hframes : ∀ j, (q.frames j).isValid = (p.frames j).isValid ∧
      (q.frames j).pageId = (p.frames j).pageId ∧ (q.frames j).isDirty = (p.frames j).isDirty ∧
      (q.frames j).data = (p.frames j).data) (hdisk : q.disk = p.disk) (hps : q.ps = p.ps) :
    q.Coherent unmarked ∧ SameContent p q := by
  have hholds (j : FrameId) (pid : PageId) : q.Holds j pid ↔ p.Holds j pid := by
    rw [Holds, (hframes j).1, (hframes j).2.1, Holds]
  have hread (pid : PageId) : q.rawRead pid = p.rawRead pid := by rw [rawRead, hdisk, hps, rawRead]
  have hcoh : q.Coherent unmarked := by
    refine ⟨fun j k pid hj hk => ?_, fun j pid hj => ?_, fun j pid hj => ?_, fun j pid hj => ?_⟩
    · exact h.distinct j k pid ((hholds j pid).mp hj) ((hholds k pid).mp hk)
    · exact h.nonzero j pid ((hholds j pid).mp hj)
    · rw [(hframes j).2.2.2, hps]
      exact h.length j pid ((hholds j pid).mp hj)
    · rw [(hframes j).2.2.1, (hframes j).2.2.2, hread]
      exact h.backed j pid ((hholds j pid).mp hj)
  refine ⟨hcoh, fun pid _ => ?_⟩
  by_cases hex : ∃ j, p.Holds j pid
  · obtain ⟨j, hj⟩ := hex
    rw [content_of_holds h.distinct hj, content_of_holds hcoh.distinct ((hholds j pid).mpr hj),
      (hframes j).2.2.2]
  · have habs : ∀ j, ¬ p.Holds j pid := fun j hj => hex ⟨j, hj⟩
    rw [content_of_absent habs, content_of_absent fun j hj => habs j ((hholds j pid).mp hj), hread]

theorem Coherent.touched (h : p.Coherent unmarked) :
    (p.touched i).Coherent unmarked ∧ SameContent p (p.touched i) := by
  refine h.of_frames (fun j => ?_) rfl rfl
  rw [touched_frame]
  split
  next hj => rw [hj]; exact ⟨rfl, rfl, rfl, rfl⟩
  next => exact ⟨rfl, rfl, rfl, rfl⟩

/-- A page read into a free frame -/
theorem Coherent.loaded (h : p.Coherent unmarked) (hfree : (p.frames i).isValid = false)
    (habs : ∀ j, ¬ p.Holds j pid) (hpid : pid ≠ 0) :
    (p.loaded i pid).Coherent unmarked ∧ SameContent p (p.loaded i pid) := by
  have hholds {j : FrameId} {q : PageId} : (p.loaded i pid).Holds j q ↔
      (j = i ∧ q = pid) ∨ (j ≠ i ∧ p.Holds j q) := by
    rw [Holds, loaded_frame]
    by_cases hj : j = i
    · simp [hj, eq_comm]
    · simp [hj, Holds]
  have hread (q : PageId) : (p.loaded i pid).rawRead q = p.rawRead q := rfl
  have hcoh : (p.loaded i pid).Coherent unmarked := by
    refine ⟨fun j k q hj hk => ?_, fun j q hj => ?_, fun j q hj => ?_, fun j q hj => ?_⟩
    · -- no other frame held the page before
      rcases hholds.mp hj with ⟨hji, hq⟩ | ⟨-, hj'⟩
      · rcases hholds.mp hk with ⟨hki, -⟩ | ⟨-, hk'⟩
        · rw [hji, hki]
        · exact absurd (hq ▸ hk') (habs k)
      · rcases hholds.mp hk with ⟨-, hq⟩ | ⟨-, hk'⟩
        · exact absurd (hq ▸ hj') (habs j)
        · exact h.distinct j k q hj' hk'
    · rcases hholds.mp hj with ⟨-, rfl⟩ | ⟨-, hj⟩
      · exact hpid
      · exact h.nonzero j q hj
    · rw [loaded_frame]
      rcases hholds.mp hj with ⟨rfl, -⟩ | ⟨hne, hj⟩
      · rw [if_pos rfl]
        exact length_rawRead p pid
      · rw [if_neg hne]
        exact h.length j q hj
    · rw [loaded_frame, hread]
      rcases hholds.mp hj with ⟨rfl, rfl⟩ | ⟨hne, hj⟩
      · rw [if_pos rfl]
        exact fun _ _ => rfl
      · rw [if_neg hne]
        exact h.backed j q hj
  refine ⟨hcoh, fun q _ => ?_⟩
  -- the page is read as it was in the file; the others stay where they were
  by_cases hq : q = pid
  · subst hq
    rw [content_of_absent habs,
      content_of_holds hcoh.distinct (hholds.mpr (Or.inl ⟨rfl, rfl⟩)), loaded_frame, if_pos rfl]
  · by_cases hex : ∃ j, p.Holds j q
    · obtain ⟨j, hj⟩ := hex
      have hne : j ≠ i := fun hji => by
        rw [hji, Holds, hfree] at hj
        exact nomatch hj.1
      rw [content_of_holds h.distinct hj,
        content_of_holds hcoh.distinct (hholds.mpr (Or.inr ⟨hne, hj⟩)), loaded_frame, if_neg hne]
    · have habs' : ∀ j, ¬ p.Holds j q := fun j hj => hex ⟨j, hj⟩
      rw [content_of_absent habs', content_of_absent fun j hj => ?_, hread]
      rcases hholds.mp hj with ⟨-, h⟩ | ⟨-, h⟩
      · exact hq h
      · exact habs' j h

theorem GivesUp.coherent {q : Pager} (hq : p.GivesUp i q) (h : p.Coherent unmarked)
    (hg : p.Guarded unmarked lost) :
    q.Coherent unmarked ∧ Agree lost p q ∧ (q.frames i).isValid = false ∧
      ∀ j pid, q.Holds j pid → p.Holds j pid := by
  rcases hq with ⟨rfl, hfree⟩ | ⟨rfl, hvalid, hleast⟩
  · exact ⟨h, fun _ _ _ => rfl, hfree, fun _ _ hj => hj⟩
  · obtain ⟨h1, h2⟩ := h.evicted hg (hvalid i) hleast.1
    exact ⟨h1, h2, evicted_isValid i, fun _ _ hj => (holds_evicted.mp hj).2⟩

/-- Giving up a frame writes its own page only. -/
theorem GivesUp.rawRead {q : Pager} (hq : p.GivesUp i q) (hf : p.findFrame pid = none) :
    q.rawRead pid = p.rawRead pid := by
  rcases hq with ⟨rfl, -⟩ | ⟨rfl, hvalid, -⟩
  · rfl
  · have hne : pid ≠ (p.frames i).pageId := fun heq =>
      findFrame_eq_none.mp hf i ⟨hvalid i, heq.symm⟩
    by_cases hd : (p.frames i).isDirty = true
    · rw [evicted, if_pos hd]
      exact rawRead_rawWrite_ne (p := p) (p.frames i).data hne
    · rw [evicted, if_neg hd]
      rfl

/-- `pager_get_page` changes no content, and its buffer holds the content of the page. -/
theorem getPage_spec (h : p.Coherent unmarked) (hg : p.Guarded unmarked lost) (hpid : pid ≠ 0)
    (hcan : (∃ j, p.Holds j pid) ∨ p.CanEvict) :
    ∃ i q, p.getPage pid = (some i, q) ∧ q.Coherent unmarked ∧ Agree lost p q ∧
      q.Holds i pid ∧ (q.frames i).data = p.content pid := by
  rcases getPage_cases p pid with ⟨i, s, hf, hget⟩ | ⟨i, q, s, hf, hq, hget⟩ | ⟨s, hf, hnone, hget⟩
  · have hi := holds_of_findFrame hf
    obtain ⟨h1, h2⟩ := h.touched (i := i)
    have hdata : ((p.touched i).frames i).data = p.content pid := by
      rw [touched_frame, if_pos rfl, content_of_holds h.distinct hi]
    refine ⟨i, _, hget, h1.congr rfl rfl rfl, fun r hr _ => ?_, holds_touched.mpr hi, hdata⟩
    exact (content_congr rfl rfl rfl r).trans (h2 r hr)
  · obtain ⟨hcoh, hagree, hfree, hholds⟩ := hq.coherent h hg
    have habs : ∀ j, ¬ q.Holds j pid := fun j hj => findFrame_eq_none.mp hf j (hholds j pid hj)
    obtain ⟨h1, h2⟩ := hcoh.loaded hfree habs hpid
    have hi : (q.loaded i pid).Holds i pid := by
      rw [Holds, loaded_frame, if_pos rfl]
      exact ⟨rfl, rfl⟩
    refine ⟨i, _, hget, h1.congr rfl rfl rfl, fun r hr hl => ?_, hi, ?_⟩
    · exact (content_congr rfl rfl rfl r).trans (((h2.agree lost) r hr hl).trans (hagree r hr hl))
    · -- the page was in no frame, so the file has its content
      show ((q.loaded i pid).frames i).data = _
      rw [loaded_frame, if_pos rfl, content_of_absent (findFrame_eq_none.mp hf)]
      exact hq.rawRead hf
  · rcases hcan with ⟨j, hj⟩ | ⟨j, hj⟩
    · exact absurd hj (findFrame_eq_none.mp hf j)
    · exact absurd hj (hnone j)

end GetPage

/-! ## pager_flush_dirty -/

/-- The frame used longest ago among those that are dirty and not pinned -/
def NextFlush (p : Pager) (i : FrameId) : Prop :=
  p.dirtyAt i ∧ (p.frames i).pinCount = 0 ∧
    ∀ j, p.dirtyAt j → (p.frames j).pinCount = 0 →
      (p.frames i).usedTick.toNat ≤ (p.frames j).usedTick.toNat

/-- `q` is `p` after these frames are written back, in this order, each one the one used longest
    ago at its time. -/
inductive Flushes : Pager → List FrameId → Pager → Prop where
  | nil (p : Pager) : Flushes p [] p
  | cons {p q : Pager} {i : FrameId} {is : List FrameId} : p.NextFlush i →
      Flushes (p.flushFrame i) is q → Flushes p (i :: is) q

theorem nextToFlush_spec {i : FrameId} (h : p.nextToFlush = some i) : p.NextFlush i := by
  obtain ⟨-, hcand, -, hleast⟩ := selectMin_spec h
  simp only [Bool.and_eq_true, decide_eq_true_eq] at hcand
  exact ⟨hcand.1, hcand.2, fun j hj hpin => hleast j (mem_frameIds j) (by simp [hj, hpin])⟩

theorem flushLoop_flushes (target : Nat) (dirty : Nat) (p : Pager) :
    ∃ is, Flushes p is (flushLoop target dirty p) := by
  induction dirty generalizing p with
  | zero => exact ⟨[], .nil p⟩
  | succ dirty ih =>
    rw [flushLoop]
    split
    next =>
      cases hnext : p.nextToFlush with
      | none => exact ⟨[], .nil p⟩
      | some i =>
        obtain ⟨is, his⟩ := ih (p.flushFrame i)
        exact ⟨i :: is, .cons (nextToFlush_spec hnext) his⟩
    next => exact ⟨[], .nil p⟩

theorem dirtyAt_flushFrame (p : Pager) (i j : FrameId) :
    (p.flushFrame i).dirtyAt j = (p.dirtyAt j && decide (j ≠ i)) := by
  rw [dirtyAt, flushFrame_frame, dirtyAt]
  by_cases hj : j = i
  · simp [hj]
  · simp [hj]

theorem countDirty_flushFrame {i : FrameId} (hi : p.dirtyAt i) :
    (p.flushFrame i).countDirty + 1 = p.countDirty := by
  refine Lists.countP_erase_one (List.nodup_finRange _) (mem_frameIds i) hi ?_ fun j hj => ?_
  · rw [dirtyAt_flushFrame]
    simp
  · rw [dirtyAt_flushFrame]
    simp [hj]

/-- The loop brings the dirty frames down to the target, or all that are left are pinned (or
    cannot be chosen since their tick is the largest there is). -/
theorem flushLoop_post (target : Nat) {dirty : Nat} {p : Pager} (hcount : dirty = p.countDirty) :
    (flushLoop target dirty p).countDirty ≤ target ∨
      ∀ i, (flushLoop target dirty p).dirtyAt i →
        ((flushLoop target dirty p).frames i).pinCount = 0 →
        2 ^ 64 - 1 ≤ ((flushLoop target dirty p).frames i).usedTick.toNat := by
  induction dirty generalizing p with
  | zero =>
    rw [flushLoop]
    exact Or.inl (by omega)
  | succ dirty ih =>
    rw [flushLoop]
    split
    next =>
      cases hnext : p.nextToFlush with
      | none =>
        refine Or.inr fun i hi hpin => ?_
        exact selectMin_none_iff.mp hnext i (mem_frameIds i) (by simp [hi, hpin])
      | some i =>
        have hdec := countDirty_flushFrame (nextToFlush_spec hnext).1
        exact ih (by omega)
    next => exact Or.inl (by omega)

/-- What no flush changes: the fields, and of the frames everything but the dirty flags -/
structure SameFrames (p q : Pager) : Prop where
  fields : q.fields = p.fields
  tick : q.tick = p.tick
  low : q.dirtyLowWatermark = p.dirtyLowWatermark
  high : q.dirtyHighWatermark = p.dirtyHighWatermark
  frames : ∀ j, ∃ d, q.frames j = { p.frames j with isDirty := d }

theorem SameFrames.refl (p : Pager) : SameFrames p p := ⟨rfl, rfl, rfl, rfl, fun _ => ⟨_, rfl⟩⟩

theorem SameFrames.trans {p q r : Pager} (h : SameFrames p q) (h' : SameFrames q r) :
    SameFrames p r := by
  refine ⟨h'.fields.trans h.fields, h'.tick.trans h.tick, h'.low.trans h.low,
    h'.high.trans h.high, fun j => ?_⟩
  obtain ⟨d, hd⟩ := h.frames j
  obtain ⟨d', hd'⟩ := h'.frames j
  exact ⟨d', by rw [hd', hd]⟩

theorem sameFrames_flushFrame (p : Pager) (i : FrameId) : SameFrames p (p.flushFrame i) :=
  ⟨rfl, rfl, rfl, rfl, fun j => ⟨_, flushFrame_frame p i j⟩⟩

theorem Flushes.sameFrames {q : Pager} {is : List FrameId} (h : Flushes p is q) :
    SameFrames p q := by
  induction h with
  | nil p => exact SameFrames.refl p
  | cons _ _ ih => exact (sameFrames_flushFrame _ _).trans ih

theorem Flushes.coherent {q : Pager} {is : List FrameId} {unmarked : PageId → Prop}
    (h : Flushes p is q) (hp : p.Coherent unmarked) : q.Coherent unmarked ∧ SameContent p q := by
  induction h with
  | nil p => exact ⟨hp, fun _ _ => rfl⟩
  | @cons p q i is hnext _ ih =>
    have hvalid : (p.frames i).isValid = true := (Bool.and_eq_true_iff.mp hnext.1).1
    obtain ⟨h1, h2⟩ := hp.flushFrame hvalid
    obtain ⟨h3, h4⟩ := ih h1
    exact ⟨h3, h2.trans h4⟩

/-! ## pager_mark_dirty -/

/-- The frame of the page becomes dirty, and the header. -/
def marked (p : Pager) (pid : PageId) : Pager :=
  { (match p.findFrame pid with
    | some i => p.modifyFrame i fun f => { f with isDirty := true }
    | none => p) with headerDirty := true }

theorem marked_frame (p : Pager) (pid : PageId) (j : FrameId) :
    (p.marked pid).frames j = if p.findFrame pid = some j then { p.frames j with isDirty := true }
      else p.frames j := by
  cases hf : p.findFrame pid with
  | none =>
    rw [marked, hf, if_neg nofun]
  | some i =>
    simp only [marked, hf, Option.some.injEq]
    by_cases hj : i = j
    · subst hj
      rw [if_pos rfl, modifyFrame_same]
    · rw [if_neg hj, modifyFrame_ne _ _ (Ne.symm hj)]

theorem marked_eq (p : Pager) (pid : PageId) : (p.marked pid).fields = p.fields ∧
    (p.marked pid).tick = p.tick ∧ (p.marked pid).disk = p.disk ∧
    (p.marked pid).dirtyLowWatermark = p.dirtyLowWatermark ∧
    (p.marked pid).dirtyHighWatermark = p.dirtyHighWatermark := by
  cases hf : p.findFrame pid <;> simp [marked, hf, modifyFrame]

theorem sameFrames_marked (p : Pager) (pid : PageId) : SameFrames p (p.marked pid) := by
  obtain ⟨h1, h2, -, h4, h5⟩ := marked_eq p pid
  refine ⟨h1, h2, h4, h5, fun j => ?_⟩
  rw [marked_frame]
  split
  next => exact ⟨true, rfl⟩
  next => exact ⟨_, rfl⟩

/-- `pager_mark_dirty` sets the flag and may write frames back. -/
theorem markDirty_flushes (p : Pager) (pid : PageId) :
    ∃ is, Flushes (p.marked pid) is (p.markDirty pid) := by
  show ∃ is, Flushes (p.marked pid) is
    (if 0 < (p.marked pid).dirtyHighWatermark ∧
        (p.marked pid).dirtyHighWatermark.toNat ≤ (p.marked pid).countDirty
      then (p.marked pid).flushDirty (p.marked pid).dirtyLowWatermark else p.marked pid)
  split
  next => exact flushLoop_flushes _ _ _
  next => exact ⟨[], .nil _⟩

theorem sameFrames_markDirty (p : Pager) (pid : PageId) : SameFrames p (p.markDirty pid) := by
  obtain ⟨is, h⟩ := markDirty_flushes p pid
  exact (sameFrames_marked p pid).trans h.sameFrames

theorem SameFrames.holds {q : Pager} (h : SameFrames p q) {j : FrameId} {pid : PageId} :
    q.Holds j pid ↔ p.Holds j pid := by
  obtain ⟨d, hd⟩ := h.frames j
  rw [Holds, hd, Holds]

theorem SameFrames.ps {q : Pager} (h : SameFrames p q) : q.ps = p.ps := by
  rw [Pager.ps, h.fields, Pager.ps]

section Marks

variable {unmarked : PageId → Prop}

theorem Coherent.marked (h : p.Coherent unmarked) (pid : PageId) :
    (p.marked pid).Coherent (fun q => unmarked q ∧ q ≠ pid) ∧ SameContent p (p.marked pid) := by
  have hsame := sameFrames_marked p pid
  have hdata (j : FrameId) : ((p.marked pid).frames j).data = (p.frames j).data := by
    obtain ⟨d, hd⟩ := hsame.frames j
    rw [hd]
  have hread (q : PageId) : (p.marked pid).rawRead q = p.rawRead q := by
    rw [rawRead, (marked_eq p pid).2.2.1, hsame.ps, rawRead]
  have hcoh : (p.marked pid).Coherent (fun q => unmarked q ∧ q ≠ pid) := by
    refine ⟨fun j k q hj hk => ?_, fun j q hj => ?_, fun j q hj => ?_, fun j q hj hclean hu => ?_⟩
    · exact h.distinct j k q (hsame.holds.mp hj) (hsame.holds.mp hk)
    · exact h.nonzero j q (hsame.holds.mp hj)
    · rw [hdata, hsame.ps]
      exact h.length j q (hsame.holds.mp hj)
    · have hj' := hsame.holds.mp hj
      rw [marked_frame] at hclean
      rw [hdata, hread]
      by_cases hq : q = pid
      · -- the marked frame is dirty
        subst hq
        rw [if_pos ((findFrame_eq_some h.distinct).mpr hj')] at hclean
        exact nomatch hclean
      · have hne : p.findFrame pid ≠ some j := fun hf =>
          hq (hj'.2.symm.trans (holds_of_findFrame hf).2)
        rw [if_neg hne] at hclean
        exact h.backed j q hj' hclean fun hun => hu ⟨hun, hq⟩
  refine ⟨hcoh, fun q _ => ?_⟩
  -- flags and counters are no content
  by_cases hex : ∃ j, p.Holds j q
  · obtain ⟨j, hj⟩ := hex
    rw [content_of_holds h.distinct hj, content_of_holds hcoh.distinct (hsame.holds.mpr hj), hdata]
  · have habs : ∀ j, ¬ p.Holds j q := fun j hj => hex ⟨j, hj⟩
    rw [content_of_absent habs, content_of_absent fun j hj => habs j (hsame.holds.mp hj), hread]

/-- `pager_mark_dirty` changes no content, and the page is marked. -/
theorem markDirty_spec (h : p.Coherent unmarked) (pid : PageId) :
    (p.markDirty pid).Coherent (fun q => unmarked q ∧ q ≠ pid) ∧
      SameContent p (p.markDirty pid) := by
  obtain ⟨is, hflush⟩ := markDirty_flushes p pid
  obtain ⟨h1, h2⟩ := h.marked pid
  obtain ⟨h3, h4⟩ := hflush.coherent h1
  exact ⟨h3, h2.trans h4⟩

/-! ## pager_unpin and writes -/

theorem unpin_frame (h : p.Distinct) (pid : PageId) (j : FrameId) :
    (p.unpin pid).frames j = if p.Holds j pid ∧ 0 < (p.frames j).pinCount
      then { p.frames j with pinCount := (p.frames j).pinCount - 1 } else p.frames j := by
  cases hf : p.findFrame pid with
  | none =>
    rw [unpin, hf, if_neg fun hj => findFrame_eq_none.mp hf j hj.1]
  | some i =>
    have hi := holds_of_findFrame hf
    simp only [unpin, hf]
    by_cases hj : j = i
    · subst hj
      by_cases hpin : 0 < (p.frames j).pinCount
      · rw [if_pos hpin, if_pos ⟨hi, hpin⟩, modifyFrame_same]
      · rw [if_neg hpin, if_neg fun hj => hpin hj.2]
    · have hno : ¬ (p.Holds j pid ∧ 0 < (p.frames j).pinCount) := fun hjp => hj (h j i pid hjp.1 hi)
      rw [if_neg hno]
      by_cases hpin : 0 < (p.frames i).pinCount
      · rw [if_pos hpin, modifyFrame_ne _ _ hj]
      · rw [if_neg hpin]

theorem unpin_eq (p : Pager) (pid : PageId) : (p.unpin pid).fields = p.fields ∧
    (p.unpin pid).tick = p.tick ∧ (p.unpin pid).disk = p.disk ∧
    (p.unpin pid).dirtyLowWatermark = p.dirtyLowWatermark ∧
    (p.unpin pid).dirtyHighWatermark = p.dirtyHighWatermark := by
  unfold unpin
  split
  next =>
    split
    next => exact ⟨rfl, rfl, rfl, rfl, rfl⟩
    next => exact ⟨rfl, rfl, rfl, rfl, rfl⟩
  next => exact ⟨rfl, rfl, rfl, rfl, rfl⟩

theorem unpin_spec (h : p.Coherent unmarked) (pid : PageId) :
    (p.unpin pid).Coherent unmarked ∧ SameContent p (p.unpin pid) := by
  obtain ⟨hfields, -, hdisk, -⟩ := unpin_eq p pid
  refine h.of_frames (fun j => ?_) hdisk (by rw [ps, hfields, ps])
  rw [unpin_frame h.distinct]
  split
  next => exact ⟨rfl, rfl, rfl, rfl⟩
  next => exact ⟨rfl, rfl, rfl, rfl⟩

/-- A write through the pointer of a caller -/
def written (p : Pager) (i : FrameId) (pg : Page) : Pager :=
  p.modifyFrame i fun f => { f with data := pg }

theorem holds_written {i j : FrameId} {pg : Page} {pid : PageId} :
    (p.written i pg).Holds j pid ↔ p.Holds j pid := holds_modifyFrame ⟨rfl, rfl⟩

/-- A write changes the content of its page alone; the page has to be marked. -/
theorem store_spec {i : FrameId} {pid : PageId} {pg : Page} (h : p.Coherent unmarked)
    (hi : p.Holds i pid) (hlen : pg.length = p.ps) :
    (p.written i pg).Coherent (fun q => unmarked q ∨ q = pid) ∧
      (p.written i pg).content pid = pg ∧
      ∀ q, q ≠ pid → (p.written i pg).content q = p.content q := by
  have hother {j : FrameId} (hj : j ≠ i) : (p.written i pg).frames j = p.frames j :=
    modifyFrame_ne _ _ hj
  have hself : (p.written i pg).frames i = { p.frames i with data := pg } := modifyFrame_same _ _ _
  have hread (q : PageId) : (p.written i pg).rawRead q = p.rawRead q := rfl
  have hcoh : (p.written i pg).Coherent (fun q => unmarked q ∨ q = pid) := by
    refine ⟨fun j k q hj hk => ?_, fun j q hj => ?_, fun j q hj => ?_, fun j q hj hclean hu => ?_⟩
    · exact h.distinct j k q (holds_written.mp hj) (holds_written.mp hk)
    · exact h.nonzero j q (holds_written.mp hj)
    · by_cases hji : j = i
      · rw [hji, hself]
        exact hlen
      · rw [hother hji]
        exact h.length j q (holds_written.mp hj)
    · by_cases hji : j = i
      · -- the page written to is not marked
        rw [hji] at hj
        exact absurd (Or.inr ((holds_written.mp hj).2.symm.trans hi.2)) hu
      · rw [hother hji] at hclean ⊢
        exact h.backed j q (holds_written.mp hj) hclean fun hun => hu (Or.inl hun)
  refine ⟨hcoh, ?_, fun q hq => ?_⟩
  · rw [content_of_holds hcoh.distinct (holds_written.mpr hi), hself]
  · -- the other pages are in other frames, or in the file
    by_cases hex : ∃ j, p.Holds j q
    · obtain ⟨j, hj⟩ := hex
      have hji : j ≠ i := fun hji => hq (hj.2.symm.trans (hji ▸ hi.2))
      rw [content_of_holds h.distinct hj, content_of_holds hcoh.distinct (holds_written.mpr hj),
        hother hji]
    · have habs : ∀ j, ¬ p.Holds j q := fun j hj => hex ⟨j, hj⟩
      rw [content_of_absent habs, content_of_absent fun j hj => habs j (holds_written.mp hj), hread]

end Marks

/-! ## pager_flush_all -/

theorem sameFrames_writeDirty (p : Pager) (i : FrameId) : SameFrames p (p.writeDirty i) := by
  unfold writeDirty
  split
  next =>
    refine ⟨rfl, rfl, rfl, rfl, fun j => ?_⟩
    by_cases hj : j = i
    · subst hj
      exact ⟨false, modifyFrame_same _ _ _⟩
    · exact ⟨(p.frames j).isDirty, modifyFrame_ne _ _ hj⟩
  next => exact SameFrames.refl p

theorem Coherent.writeDirty {unmarked : PageId → Prop} (h : p.Coherent unmarked) (i : FrameId) :
    (p.writeDirty i).Coherent unmarked ∧ SameContent p (p.writeDirty i) := by
  unfold Pager.writeDirty
  split
  next hi =>
    have hvalid : (p.frames i).isValid = true := (Bool.and_eq_true_iff.mp hi).1
    exact ⟨h.writeBack hvalid, h.sameContent_writeBack hvalid⟩
  next => exact ⟨h, fun _ _ => rfl⟩

theorem foldl_writeDirty {unmarked : PageId → Prop} (is : List FrameId) (h : p.Coherent unmarked) :
    (is.foldl Pager.writeDirty p).Coherent unmarked ∧
      SameContent p (is.foldl Pager.writeDirty p) := by
  induction is generalizing p with
  | nil => exact ⟨h, fun _ _ => rfl⟩
  | cons i is ih =>
    obtain ⟨h1, h2⟩ := h.writeDirty i
    obtain ⟨h3, h4⟩ := ih h1
    exact ⟨h3, h2.trans h4⟩

/-- Writing page 0 changes no data page. -/
theorem Coherent.writeHeader {unmarked : PageId → Prop} (h : p.Coherent unmarked) (buf : Page) :
    (p.rawWrite 0 buf).Coherent unmarked ∧ SameContent p (p.rawWrite 0 buf) := by
  have hread {pid : PageId} (hpid : pid ≠ 0) : (p.rawWrite 0 buf).rawRead pid = p.rawRead pid :=
    rawRead_rawWrite_ne buf hpid
  have hcoh : (p.rawWrite 0 buf).Coherent unmarked :=
    ⟨h.distinct, h.nonzero, h.length, fun j pid hj hclean hu =>
      (hread (h.nonzero j pid hj)).trans (h.backed j pid hj hclean hu)⟩
  refine ⟨hcoh, fun pid hpid => ?_⟩
  by_cases hex : ∃ j, p.Holds j pid
  · obtain ⟨j, hj⟩ := hex
    rw [content_of_holds h.distinct hj]
    exact content_of_holds hcoh.distinct hj
  · have habs : ∀ j, ¬ p.Holds j pid := fun j hj => hex ⟨j, hj⟩
    rw [content_of_absent habs, ← hread hpid]
    exact content_of_absent habs

theorem sameFrames_foldl_writeDirty (is : List FrameId) (p : Pager) :
    SameFrames p (is.foldl Pager.writeDirty p) := by
  induction is generalizing p with
  | nil => exact SameFrames.refl p
  | cons i is ih => exact (sameFrames_writeDirty p i).trans (ih (p.writeDirty i))

theorem sameFrames_flushAll {q : Pager} (h : p.flushAll = some q) : SameFrames p q := by
  have h1 := sameFrames_foldl_writeDirty frameIds p
  generalize hr : frameIds.foldl Pager.writeDirty p = r at h1
  rw [flushAll] at h
  simp only [hr, Option.bind_eq_bind, Option.bind_eq_some_iff] at h
  obtain ⟨hbuf, -, hq⟩ := h
  rw [← Option.some.inj hq]
  exact h1.trans ⟨rfl, rfl, rfl, rfl, fun j => ⟨_, rfl⟩⟩

/-- `pager_flush_all` changes no content. -/
theorem flushAll_spec {unmarked : PageId → Prop} (h : p.Coherent unmarked)
    (hroom : dbHeaderC.size ≤ p.ps) :
    ∃ q, p.flushAll = some q ∧ q.Coherent unmarked ∧ SameContent p q ∧ SameFrames p q := by
  obtain ⟨h1, h2⟩ := foldl_writeDirty frameIds h
  have h3 := sameFrames_foldl_writeDirty frameIds p
  generalize hr : frameIds.foldl Pager.writeDirty p = r at h1 h2 h3
  let buf := dbHeaderC.put (zeroPage r.fields.pageSize) 0 r.fields.header
  have hlen : 0 + dbHeaderC.size ≤ (zeroPage r.fields.pageSize).length := by
    rw [zeroPage, List.length_replicate, Nat.zero_add, h3.fields]
    exact hroom
  have hput : dbHeaderC.put? (zeroPage r.fields.pageSize) 0 r.fields.header = some buf :=
    dbHeaderC.put?_eq_some _ 0 _ hlen
  obtain ⟨h4, h5⟩ := h1.writeHeader buf
  refine ⟨{ r.rawWrite 0 buf with headerDirty := false }, ?_, h4.congr rfl rfl rfl,
    fun pid hpid => ?_, h3.trans ?_⟩
  · rw [flushAll]
    simp only [hr, hput, Option.bind_eq_bind, Option.bind_some]
    rfl
  · exact (content_congr rfl rfl rfl pid).trans ((h2.trans h5) pid hpid)
  · exact ⟨rfl, rfl, rfl, rfl, fun j => ⟨_, rfl⟩⟩

end Pager

end MiniDb
