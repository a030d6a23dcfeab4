import MiniDb.Pager.Transparent

/-!
# What callers hold

The routines over the pager pin a few pages at a time and read a page after releasing it only when
it was looked up a short while ago.  `discipline` says so as a guard over a ledger of the pins, of
the pages looked up last and of the pages written to but not marked yet.  A routine that keeps to
it runs on the cache as it does on the flat store.

## Key results

- `Kept`: a cache that stands for a flat store, with its ledger
- `simulates`: every operation that keeps to the discipline
- `Kept.run`: a routine
-/

namespace MiniDb

open Bytes Free

/-- The magic of a header and the page size it tells -/
abbrev DbHeader.stamp (hdr : DbHeader) : Vector UInt8 8 × UInt32 := (hdr.magic, hdr.pageSize)

/-- What no routine over the pager changes -/
structure FileId where
  pageSize : UInt32
  stamp : Vector UInt8 8 × UInt32

abbrev PagerFields.fileId (f : PagerFields) : FileId := ⟨f.pageSize, f.header.stamp⟩

/-- The pins that callers hold, one entry for each, the pages looked up last, the newest first,
    and the pages written to since they were marked. -/
structure Ledger where
  pins : List PageId
  recent : List PageId
  unmarked : List PageId

namespace Ledger

/-- How many of the pages looked up last are remembered -/
def memory : Nat := 4

/-- The ledger after the page is looked up -/
def pin (t : Ledger) (pid : PageId) : Ledger :=
  { t with pins := pid :: t.pins, recent := (pid :: t.recent).take memory }

/-- The ledger after the page is written to -/
def write (t : Ledger) (pid : PageId) : Ledger := { t with unmarked := pid :: t.unmarked }

/-- The ledger after the page is marked -/
def mark (t : Ledger) (pid : PageId) : Ledger :=
  { t with unmarked := t.unmarked.filter (· ≠ pid) }

/-- What the callers of a pager of `file` keep to when they hold at most `cap` pins -/
def discipline (file : FileId) (cap : Nat) : Guard PagerSig Ledger
  | .getPage pid, t, K => t.pins.length < cap ∧ K true (t.pin pid)
  | .load pid, t, K =>
    (pid ∈ t.pins ∨ pid ∈ t.recent) ∧ ∀ pg : Page, pg.length = file.pageSize.toNat → K pg t
  | .store pid pg, t, K => pid ∈ t.pins ∧ pg.length = file.pageSize.toNat ∧ K () (t.write pid)
  | .markDirty pid, t, K => K () (t.mark pid)
  | .unpin pid, t, K => ∃ rest, t.pins.Perm (pid :: rest) ∧ (pid ∈ t.unmarked → pid ∈ rest) ∧
    K () { t with pins := rest }
  | .getFields, t, K => ∀ f : PagerFields, f.fileId = file → K f t
  | .setFields f, t, K => f.fileId = file ∧ K () t
  | .setHeaderDirty, t, K => K () t
  | .note _, t, K => K () t

theorem discipline_mono (file : FileId) (cap : Nat) : (discipline file cap).Mono := by
  intro o t K K' hK h
  cases o with
  | getPage pid => exact ⟨h.1, hK _ _ h.2⟩
  | load pid => exact ⟨h.1, fun pg hpg => hK _ _ (h.2 pg hpg)⟩
  | store pid pg => exact ⟨h.1, h.2.1, hK _ _ h.2.2⟩
  | markDirty pid => exact hK _ _ h
  | unpin pid =>
    obtain ⟨rest, hperm, hmarked, h⟩ := h
    exact ⟨rest, hperm, hmarked, hK _ _ h⟩
  | getFields => exact fun f hf => hK _ _ (h f hf)
  | setFields f => exact ⟨h.1, hK _ _ h.2⟩
  | setHeaderDirty => exact hK _ _ h
  | note e => exact hK _ _ h

/-- A lookup costs one tick. -/
def lookups : PagerOp → Nat
  | .getPage _ => 1
  | _ => 0

end Ledger

/-- How many pages a routine looks up on the flat store -/
def Db.lookups {α : Type} (db : Db) (r : Routine α) : Nat := cost Db.step Ledger.lookups r db

namespace Pager

open Ledger

variable {file : FileId} {cap n : Nat} {p q : Pager} {db db' : Db} {t : Ledger} {pid : PageId}

/-- The cache stands for the flat store, the ledger tells what is pinned and what was looked up
    last, callers hold `cap` pins at most, and the counter does not wrap in the next `n` lookups. -/
structure Kept (file : FileId) (cap n : Nat) (db : Db) (p : Pager) (t : Ledger) : Prop where
  frames : cap + Ledger.memory < maxFrames
  caches : Caches (· ∈ t.unmarked) (fun _ => False) p db
  file : p.fields.fileId = file
  ordered : p.Ordered
  room : p.tick.toNat + n < 2 ^ 64
  few : t.pins.length ≤ cap
  memory : t.recent.length ≤ memory
  pinned : ∀ i pid, p.Holds i pid → (p.frames i).pinCount.toNat = t.pins.count pid
  resident : ∀ pid ∈ t.pins, ∃ i, p.Holds i pid
  marked : ∀ pid ∈ t.unmarked, pid ∈ t.pins
  recent : ∀ k, p.Recent (t.recent.take k).toFinset

namespace Kept

theorem pageSize (h : Kept file cap n db p t) : p.fields.pageSize = file.pageSize :=
  congrArg FileId.pageSize h.file

theorem pinned_iff (h : Kept file cap n db p t) {i : FrameId} (hi : p.Holds i pid) :
    (p.frames i).pinCount ≠ 0 ↔ pid ∈ t.pins := by
  rw [← List.count_pos_iff, ← h.pinned i pid hi, Nat.pos_iff_ne_zero, ne_eq, ne_eq,
    ← UInt32.toNat_inj, UInt32.toNat_zero]

/-- At most `cap` pages are pinned. -/
theorem pinnedCount_le (h : Kept file cap n db p t) : p.pinnedCount ≤ cap := by
  have hcard := countP_le_card (l := t.pins.toFinset)
    (P := fun j => (p.frames j).isValid && decide ((p.frames j).pinCount ≠ 0))
    h.ordered.distinct fun j hj => by
      rw [Bool.and_eq_true, decide_eq_true_eq] at hj
      have hi : p.Holds j (p.frames j).pageId := ⟨hj.1, rfl⟩
      exact ⟨_, List.mem_toFinset.mpr ((h.pinned_iff hi).mp hj.2), hi⟩
  exact hcard.trans ((List.toFinset_card_le _).trans h.few)

theorem guarded (h : Kept file cap n db p t) : p.Guarded (· ∈ t.unmarked) fun _ => False := by
  intro pid hu _
  have hpin := h.marked pid hu
  obtain ⟨i, hi⟩ := h.resident pid hpin
  exact ⟨i, hi, (h.pinned_iff hi).mpr hpin⟩

/-- The pages pinned and those looked up last are in frames. -/
theorem holds (h : Kept file cap n db p t) (hpid : pid ∈ t.pins ∨ pid ∈ t.recent) :
    ∃ i, p.Holds i pid := by
  cases hpid with
  | inl hpin => exact h.resident pid hpin
  | inr hrecent =>
    have hall := h.recent t.recent.length
    rw [List.take_length] at hall
    exact hall.resident pid (List.mem_toFinset.mpr hrecent)

theorem canEvict (h : Kept file cap (1 + n) db p t) : p.CanEvict := by
  have hpins := h.pinnedCount_le
  have hroom := h.room
  have hframes := h.frames
  exact h.ordered.canEvict (by omega) (by omega)

/-- A call that keeps the pages of the frames, their pins and the ledger -/
theorem keeps (h : Kept file cap n db p t) (hk : KeepsPages p q)
    (hpins : ∀ j, (q.frames j).pinCount = (p.frames j).pinCount) {t' : Ledger}
    (hps : t'.pins = t.pins) (hrecent : t'.recent = t.recent)
    (hmarked : ∀ pid ∈ t'.unmarked, pid ∈ t.pins) (hfile : q.fields.fileId = file)
    (hcaches : Caches (· ∈ t'.unmarked) (fun _ => False) q db') : Kept file cap n db' q t' := by
  refine ⟨h.frames, hcaches, hfile, h.ordered.keeps hk, hk.tick ▸ h.room, hps ▸ h.few, hrecent ▸ h.memory,
    fun i pid hi => ?_, fun pid hpid => ?_, fun pid hpid => hps ▸ hmarked pid hpid, fun k => ?_⟩
  · rw [hpins, hps]
    exact h.pinned i pid (hk.holds.mp hi)
  · obtain ⟨i, hi⟩ := h.resident pid (hps ▸ hpid)
    exact ⟨i, hk.holds.mpr hi⟩
  · rw [hrecent]
    exact (h.recent k).keeps hk

/-- The newest of the pages looked up last and the pinned pages leave room. -/
theorem stays (h : Kept file cap n db p t) {i : FrameId} (ht : p.Taken pid i q) (k : Nat) :
    ∀ r ∈ (t.recent.take k).toFinset, Stays p q r := by
  apply (h.recent k).stays h.ordered ht
  right
  have hpins := h.pinnedCount_le
  have hcard := List.toFinset_card_le (t.recent.take k)
  have hlen := List.length_take_le' k t.recent
  have hmem := h.memory
  have hframes := h.frames
  omega

/-- A pinned page stays where it is. -/
theorem stays_pinned (h : Kept file cap n db p t) {i : FrameId} (ht : p.Taken pid i q)
    {r : PageId} (hr : r ∈ t.pins) {j : FrameId} (hj : p.Holds j r) : q.Holds j r :=
  ht.keeps hj ((h.pinned_iff hj).mpr hr)

theorem getPage (h : Kept file cap (1 + n) db p t) (hpid : pid ≠ 0) (hfew : t.pins.length < cap) :
    ∃ i q, p.getPage pid = (some i, q) ∧ Kept file cap n db q (t.pin pid) := by
  obtain ⟨i, q, hget, hcaches, -, -⟩ := h.caches.getPage h.guarded hpid h.canEvict
  have ht := taken_of_getPage hget
  have hroom := h.room
  -- a request takes one of the ticks that are left
  have htick : q.tick.toNat = p.tick.toNat + 1 := by rw [ht.tick, tick_succ (by omega)]
  have hother {j : FrameId} (hj : j ≠ i) {r : PageId} : q.Holds j r ↔ p.Holds j r := by
    rw [Holds, ht.others j hj, Holds]
  refine ⟨i, q, hget, ⟨h.frames, hcaches, ?_, h.ordered.taken ht (by omega), by omega, hfew, ?_, fun j r hj => ?_,
    fun r hr => ?_, fun r hr => List.mem_cons_of_mem _ (h.marked r hr), fun k => ?_⟩⟩
  · rw [ht.fields]
    exact h.file
  · exact (List.length_take_le ..)
  · -- the page obtained has one more pin, the others have theirs
    by_cases hji : j = i
    · have hrp : r = pid := hj.2.symm.trans (hji ▸ ht.holds.2)
      subst hji hrp
      show _ = (r :: t.pins).count r
      rw [List.count_cons_self]
      rcases getPage_pinCount hget with ⟨hi, hpin⟩ | ⟨habs, hpin⟩
      · have hcount := h.pinned j r hi
        have hle := List.count_le_length (a := r) (l := t.pins)
        have hfew := h.few
        have hframes := h.frames
        have hmax : maxFrames < 2 ^ 32 := by decide
        rw [hpin, UInt32.toNat_add, hcount]
        exact Nat.mod_eq_of_lt (by
          show t.pins.count r + 1 < 2 ^ 32
          omega)
      · have hzero : t.pins.count r = 0 := by
          rw [List.count_eq_zero]
          intro hmem
          obtain ⟨k, hk⟩ := h.resident r hmem
          exact habs k hk
        rw [hpin, hzero]
        rfl
    · have hne : pid ≠ r := fun he => by
        subst he
        exact hji (h.ordered.taken ht (by omega) |>.distinct j i pid hj ht.holds)
      show _ = (pid :: t.pins).count r
      rw [ht.others j hji, List.count_cons_of_ne hne]
      exact h.pinned j r ((hother hji).mp hj)
  · rcases List.mem_cons.mp hr with rfl | hr
    · exact ⟨i, ht.holds⟩
    · obtain ⟨j, hj⟩ := h.resident r hr
      exact ⟨j, h.stays_pinned ht hr hj⟩
  · -- the page is the one used last, and the others keep their order
    show q.Recent (((pid :: t.recent).take Ledger.memory).take k).toFinset
    rw [List.take_take]
    cases hk : min k Ledger.memory with
    | zero => exact Recent.empty q
    | succ m =>
      rw [List.take_succ_cons, List.toFinset_cons]
      exact (h.recent m).taken h.ordered ht (by omega) (h.stays ht m)

/-- The frame of a page that is pinned or was looked up lately holds its bytes. -/
theorem load (h : Kept file cap n db p t) (hpid : pid ∈ t.pins ∨ pid ∈ t.recent) :
    ∃ i, p.findFrame pid = some i ∧ (p.frames i).data = db.pages pid ∧
      (db.pages pid).length = file.pageSize.toNat := by
  obtain ⟨i, hi⟩ := h.holds hpid
  have hne := h.caches.coherent.nonzero i pid hi
  have hdata : (p.frames i).data = db.pages pid :=
    (content_of_holds h.ordered.distinct hi).symm.trans (h.caches.content pid hne id)
  have hlen := h.caches.coherent.length i pid hi
  rw [hdata, ps, h.pageSize] at hlen
  exact ⟨i, (findFrame_eq_some h.ordered.distinct).mpr hi, hdata, hlen⟩

theorem store (h : Kept file cap n db p t) (hpid : pid ∈ t.pins) {pg : Page}
    (hlen : pg.length = file.pageSize.toNat) : ∃ i, p.findFrame pid = some i ∧
      Kept file cap n (db.setPage pid pg) (p.written i pg) (t.write pid) := by
  obtain ⟨i, hi⟩ := h.resident pid hpid
  have hcaches : Caches (· ∈ (t.write pid).unmarked) (fun _ => False) (p.written i pg)
      (db.setPage pid pg) :=
    (h.caches.written hi (by rw [hlen, ps, h.pageSize])).mono (fun q hq => List.mem_cons.mpr hq.symm)
      fun q hq => hq.1
  have hframe (j : FrameId) : ((p.written i pg).frames j).pinCount = (p.frames j).pinCount := by
    by_cases hj : j = i
    · rw [hj, written, modifyFrame_same]
    · rw [written, modifyFrame_ne _ _ hj]
  refine ⟨i, (findFrame_eq_some h.ordered.distinct).mpr hi, h.keeps (keepsPages_written p i pg) hframe
    rfl rfl (fun r hr => ?_) h.file hcaches⟩
  rcases List.mem_cons.mp hr with rfl | hr
  · exact hpid
  · exact h.marked r hr

theorem markDirty (h : Kept file cap n db p t) (pid : PageId) :
    Kept file cap n db (p.markDirty pid) (t.mark pid) := by
  have hsame := sameFrames_markDirty p pid
  have hcaches : Caches (· ∈ (t.mark pid).unmarked) (fun _ => False) (p.markDirty pid) db :=
    (h.caches.markDirty pid).mono (fun q hq => List.mem_filter.mpr ⟨hq.1, by simpa using hq.2⟩)
      fun _ hq => hq
  refine h.keeps hsame.keepsPages (fun j => ?_) rfl rfl
    (fun r hr => h.marked r (List.mem_filter.mp hr).1) (hsame.fields ▸ h.file) hcaches
  obtain ⟨d, hd⟩ := hsame.frames j
  rw [hd]

/-- A pin less -/
theorem unpin (h : Kept file cap n db p t) {rest : List PageId} (hperm : t.pins.Perm (pid :: rest))
    (hmarked : pid ∈ t.unmarked → pid ∈ rest) :
    Kept file cap n db (p.unpin pid) { t with pins := rest } := by
  obtain ⟨i, hi⟩ := h.resident pid (hperm.mem_iff.mpr (List.mem_cons_self ..))
  have hcount (r : PageId) : t.pins.count r = (pid :: rest).count r := hperm.count_eq r
  have hpin := h.pinned i pid hi
  rw [hcount, List.count_cons_self] at hpin
  have hne : (p.frames i).pinCount ≠ 0 := fun h0 => by
    rw [h0, UInt32.toNat_zero] at hpin
    omega
  have hunpin := unpin_holds h.ordered.distinct hi hne
  have hk := keepsPages_unpin p pid
  have hrest (r : PageId) (hr : r ∈ rest) : r ∈ t.pins :=
    hperm.mem_iff.mpr (List.mem_cons_of_mem _ hr)
  refine ⟨h.frames, h.caches.unpin pid, (unpin_eq p pid).1 ▸ h.file, h.ordered.keeps hk, hk.tick ▸ h.room, ?_,
    h.memory, fun j r hj => ?_, fun r hr => ?_, fun r hr => ?_, fun k => (h.recent k).keeps hk⟩
  · have := hperm.length_eq
    have := h.few
    rw [List.length_cons] at *
    show rest.length ≤ cap
    omega
  · -- the frame of the page has one pin less
    show _ = rest.count r
    have hjr := h.pinned j r (hk.holds.mp hj)
    by_cases hji : j = i
    · have hrp : r = pid := (hk.holds.mp hj).2.symm.trans (hji ▸ hi.2)
      subst hji hrp
      have hone : (1 : UInt32) ≤ (p.frames j).pinCount := by
        rw [UInt32.le_iff_toNat_le, hpin]
        exact Nat.succ_le_succ (Nat.zero_le _)
      rw [hunpin, modifyFrame_same]
      show ((p.frames j).pinCount - 1).toNat = rest.count r
      rw [UInt32.toNat_sub_of_le _ _ hone, hpin]
      rfl
    · have hrne : pid ≠ r := fun he => by
        subst he
        exact hji (h.ordered.distinct j i pid (hk.holds.mp hj) hi)
      rw [hunpin, modifyFrame_ne _ _ hji, hjr, hcount, List.count_cons_of_ne hrne]
  · obtain ⟨j, hj⟩ := h.resident r (hrest r hr)
    exact ⟨j, hk.holds.mpr hj⟩
  · have hmem := hperm.mem_iff.mp (h.marked r hr)
    rcases List.mem_cons.mp hmem with rfl | hmem
    · exact hmarked hr
    · exact hmem

theorem setFields (h : Kept file cap n db p t) {f : PagerFields} (hf : f.fileId = file) :
    Kept file cap n { db with fields := f } { p with fields := f } t :=
  h.keeps (keepsPages_fields p f) (fun _ => rfl) rfl rfl h.marked hf
    (h.caches.setFields (congrArg FileId.pageSize (hf.trans h.file.symm)))

theorem setHeaderDirty (h : Kept file cap n db p t) :
    Kept file cap n db { p with headerDirty := true } t := by
  have hk : KeepsPages p { p with headerDirty := true } :=
    ⟨rfl, rfl, rfl, fun _ => rfl, fun _ => rfl, fun _ => rfl⟩
  refine h.keeps hk (fun _ => rfl) rfl rfl h.marked h.file ⟨h.caches.coherent.congr rfl rfl rfl,
    h.caches.fields, fun r hr hl => ?_⟩
  exact (content_congr rfl rfl rfl r).trans (h.caches.content r hr hl)

end Kept

/-- An operation that keeps to the discipline does on the cache what it does on the flat store. -/
theorem simulates (file : FileId) (cap : Nat) :
    Simulates Db.step Pager.step (discipline file cap) lookups (Kept file cap) := by
  intro o n db db' p t r K h hstep hG
  -- operation by operation; only a request takes a tick
  cases o with
  | getPage pid =>
    by_cases hpid : pid = 0
    · rw [Db.step, if_pos hpid] at hstep
      contradiction
    · rw [Db.step, if_neg hpid, Except.ok.injEq, Prod.mk.injEq] at hstep
      obtain ⟨rfl, rfl⟩ := hstep
      obtain ⟨i, q, hget, hq⟩ := h.getPage hpid hG.1
      refine ⟨q, _, ?_, hq, hG.2⟩
      rw [Pager.step, hget]
      rfl
  | load pid =>
    obtain ⟨rfl, rfl⟩ := Prod.mk.inj (Except.ok.inj hstep)
    obtain ⟨i, hfind, hdata, hlen⟩ := h.load hG.1
    refine ⟨p, t, ?_, by simpa [lookups] using h, hG.2 _ hlen⟩
    rw [Pager.step, hfind, ← hdata]
  | store pid pg =>
    obtain ⟨-, rfl⟩ := Prod.mk.inj (Except.ok.inj hstep)
    obtain ⟨i, hfind, hq⟩ := h.store hG.1 hG.2.1
    refine ⟨p.written i pg, _, ?_, by simpa [lookups] using hq, hG.2.2⟩
    rw [Pager.step, hfind]
    rfl
  | markDirty pid =>
    obtain ⟨-, rfl⟩ := Prod.mk.inj (Except.ok.inj hstep)
    exact ⟨_, _, rfl, by simpa [lookups] using h.markDirty pid, hG⟩
  | unpin pid =>
    obtain ⟨-, rfl⟩ := Prod.mk.inj (Except.ok.inj hstep)
    obtain ⟨rest, hperm, hmarked, hK⟩ := hG
    exact ⟨_, _, rfl, by simpa [lookups] using h.unpin hperm hmarked, hK⟩
  | getFields =>
    obtain ⟨rfl, rfl⟩ := Prod.mk.inj (Except.ok.inj hstep)
    have hf := h.caches.fields
    refine ⟨p, t, ?_, by simpa [lookups] using h, hG _ (hf ▸ h.file)⟩
    rw [Pager.step, hf]
  | setFields f =>
    obtain ⟨-, rfl⟩ := Prod.mk.inj (Except.ok.inj hstep)
    exact ⟨_, _, rfl, by simpa [lookups] using h.setFields hG.1, hG.2⟩
  | setHeaderDirty =>
    obtain ⟨-, rfl⟩ := Prod.mk.inj (Except.ok.inj hstep)
    exact ⟨_, _, rfl, by simpa [lookups] using h.setHeaderDirty, hG⟩
  | note e =>
    obtain ⟨-, rfl⟩ := Prod.mk.inj (Except.ok.inj hstep)
    exact ⟨_, _, rfl, by simpa [lookups] using h, hG⟩

/-! ## Routines -/

/-- The operations of the routine keep to the discipline from the ledger `t` on, whatever they are
    answered, and `Q` holds of its result and the ledger in the end. -/
def Obeys {α : Type} (file : FileId) (cap : Nat) (r : Routine α) (t : Ledger)
    (Q : α → Ledger → Prop) : Prop :=
  fold (discipline file cap) r t Q

section Rules

variable {α β : Type} {Q : α → Ledger → Prop}

theorem obeys_mono {Q' : α → Ledger → Prop} {r : Routine α} (h : Obeys file cap r t Q)
    (hQ : ∀ a t', Q a t' → Q' a t') : Obeys file cap r t Q' :=
  fold_mono (discipline_mono file cap) h hQ

@[simp] theorem obeys_pure (a : α) : Obeys file cap (pure a) t Q ↔ Q a t := Iff.rfl

@[simp] theorem obeys_throw (e : Fault) : Obeys file cap (.throw e) t Q := trivial

@[simp] theorem obeys_bind (r : Routine β) (f : β → Routine α) :
    Obeys file cap (r >>= f) t Q ↔ Obeys file cap r t fun b t' => Obeys file cap (f b) t' Q := by
  rw [Obeys, fold_bind]
  rfl

@[simp] theorem obeys_ite (c : Prop) [Decidable c] (r r' : Routine α) :
    Obeys file cap (if c then r else r') t Q ↔
      (c → Obeys file cap r t Q) ∧ (¬ c → Obeys file cap r' t Q) := by
  split <;> simp [*]

@[simp] theorem obeys_inBounds (x : Option α) :
    Obeys file cap (inBounds x) t Q ↔ ∀ a, x = some a → Q a t := fold_ofOption _ _ _ _

variable {Q : Unit → Ledger → Prop}

@[simp] theorem obeys_getPage? (pid : PageId) (Q : Bool → Ledger → Prop) :
    Obeys file cap (pagerGetPage? pid) t Q ↔ t.pins.length < cap ∧ Q true (t.pin pid) := Iff.rfl

@[simp] theorem obeys_getPage (pid : PageId) :
    Obeys file cap (pagerGetPage pid) t Q ↔ t.pins.length < cap ∧ Q () (t.pin pid) := Iff.rfl

@[simp] theorem obeys_load (pid : PageId) (Q : Page → Ledger → Prop) :
    Obeys file cap (load pid) t Q ↔ (pid ∈ t.pins ∨ pid ∈ t.recent) ∧
      ∀ pg : Page, pg.length = file.pageSize.toNat → Q pg t := Iff.rfl

@[simp] theorem obeys_store (pid : PageId) (pg : Page) :
    Obeys file cap (store pid pg) t Q ↔
      pid ∈ t.pins ∧ pg.length = file.pageSize.toNat ∧ Q () (t.write pid) := Iff.rfl

@[simp] theorem obeys_markDirty (pid : PageId) :
    Obeys file cap (pagerMarkDirty pid) t Q ↔ Q () (t.mark pid) := Iff.rfl

@[simp] theorem obeys_unpin (pid : PageId) :
    Obeys file cap (pagerUnpin pid) t Q ↔ ∃ rest, t.pins.Perm (pid :: rest) ∧
      (pid ∈ t.unmarked → pid ∈ rest) ∧ Q () { t with pins := rest } := Iff.rfl

@[simp] theorem obeys_getFields (Q : PagerFields → Ledger → Prop) :
    Obeys file cap getFields t Q ↔ ∀ f : PagerFields, f.fileId = file → Q f t := Iff.rfl

@[simp] theorem obeys_setFields (f : PagerFields) :
    Obeys file cap (setFields f) t Q ↔ f.fileId = file ∧ Q () t := Iff.rfl

@[simp] theorem obeys_setHeaderDirty : Obeys file cap setHeaderDirty t Q ↔ Q () t := Iff.rfl

@[simp] theorem obeys_note (e : Event) : Obeys file cap (note e) t Q ↔ Q () t := Iff.rfl

@[simp] theorem obeys_getPageSize (Q : UInt32 → Ledger → Prop) :
    Obeys file cap getPageSize t Q ↔ Q file.pageSize t := by
  simp only [getPageSize, obeys_bind, obeys_getFields, obeys_pure]
  constructor
  · intro h
    exact h ⟨file.pageSize, { freshHeader 0 with magic := file.stamp.1, pageSize := file.stamp.2 }, 0⟩ rfl
  · rintro h f rfl
    exact h

@[simp] theorem obeys_getHeader (Q : DbHeader → Ledger → Prop) :
    Obeys file cap getHeader t Q ↔ ∀ hdr : DbHeader, hdr.stamp = file.stamp → Q hdr t := by
  simp only [getHeader, obeys_bind, obeys_getFields, obeys_pure]
  constructor
  · intro h hdr hstamp
    exact h ⟨file.pageSize, hdr, 0⟩ (congrArg (FileId.mk file.pageSize) hstamp)
  · intro h f hf
    exact h f.header (congrArg FileId.stamp hf)

/-- A change of the header that leaves its stamp alone -/
@[simp] theorem obeys_modifyHeader (f : DbHeader → DbHeader) (hf : ∀ hdr, (f hdr).stamp = hdr.stamp) :
    Obeys file cap (modifyHeader f) t Q ↔ Q () t := by
  simp only [modifyHeader, obeys_bind, obeys_getFields, obeys_setFields]
  constructor
  · intro h
    exact (h ⟨file.pageSize, { freshHeader 0 with magic := file.stamp.1, pageSize := file.stamp.2 }, 0⟩ rfl).2
  · rintro h fields rfl
    exact ⟨congrArg (FileId.mk fields.pageSize) (hf fields.header), h⟩

/-- The header is replaced by one with the stamp of the file. -/
theorem obeys_putHeader {hdr : DbHeader} (hstamp : hdr.stamp = file.stamp) (hQ : Q () t) :
    Obeys file cap (modifyHeader fun _ => hdr) t Q := by
  simp only [modifyHeader, obeys_bind, obeys_getFields, obeys_setFields]
  rintro fields rfl
  exact ⟨congrArg (FileId.mk fields.pageSize) hstamp, hQ⟩

end Rules

@[simp] theorem pin_mk (pins recent unmarked : List PageId) (pid : PageId) :
    (⟨pins, recent, unmarked⟩ : Ledger).pin pid =
      ⟨pid :: pins, (pid :: recent).take Ledger.memory, unmarked⟩ := rfl

/-- A page that is marked right after the write -/
@[simp] theorem mark_write (pins recent : List PageId) (pid : PageId) :
    ((⟨pins, recent, []⟩ : Ledger).write pid).mark pid = ⟨pins, recent, []⟩ := by
  simp [Ledger.write, Ledger.mark]

/-- The routine needs `k` pins beside those held and gives them back, and it marks what it writes. -/
def Balanced {α : Type} (file : FileId) (k : Nat) (r : Routine α) : Prop :=
  ∀ ⦃cap⦄ pins recent, pins.length + k ≤ cap → Obeys file cap r ⟨pins, recent, []⟩ fun _ t =>
    ∃ recent', t = ⟨pins, recent', []⟩

theorem Balanced.call {α : Type} {k : Nat} {r : Routine α} {Q : α → Ledger → Prop}
    {pins recent : List PageId} (h : Balanced file k r) (hk : pins.length + k ≤ cap)
    (hQ : ∀ a recent', Q a ⟨pins, recent', []⟩) : Obeys file cap r ⟨pins, recent, []⟩ Q := by
  refine obeys_mono (h pins recent hk) ?_
  rintro a _ ⟨recent', rfl⟩
  exact hQ a recent'

/-- Room for more pins does no harm. -/
theorem Balanced.mono {α : Type} {k k' : Nat} {r : Routine α} (h : Balanced file k r)
    (hk : k ≤ k') : Balanced file k' r := by
  intro cap pins recent hpins
  exact h pins recent (Nat.le_trans (Nat.add_le_add_left hk _) hpins)

/-- The page pinned last is released. -/
theorem unpin_head {pins : List PageId} {P : List PageId → Prop} (hP : P pins) :
    ∃ rest, (pid :: pins).Perm (pid :: rest) ∧ (pid ∈ ([] : List PageId) → pid ∈ rest) ∧ P rest :=
  ⟨pins, List.Perm.refl _, fun h => absurd h List.not_mem_nil, hP⟩

/-- The page pinned before the last one is released. -/
theorem unpin_second {r : PageId} {pins : List PageId} {P : List PageId → Prop} (hP : P (r :: pins)) :
    ∃ rest, (r :: pid :: pins).Perm (pid :: rest) ∧ (pid ∈ ([] : List PageId) → pid ∈ rest) ∧ P rest :=
  ⟨r :: pins, List.Perm.swap .., fun h => absurd h List.not_mem_nil, hP⟩

theorem balanced_pagerAllocPage : Balanced file 1 pagerAllocPage := by
  intro cap pins recent hpins
  simp only [pagerAllocPage, obeys_bind, obeys_getFields, obeys_ite, obeys_getPage, obeys_load,
    obeys_inBounds, obeys_modifyHeader, implies_true, obeys_store, obeys_markDirty, obeys_unpin, obeys_pure,
    obeys_throw, pin_mk, mark_write]
  intro f hf
  have hzero : (zeroPage f.pageSize).length = file.pageSize.toNat := by rw [length_zeroPage, ← hf]
  constructor
  · -- the first free page is taken
    intro _
    refine ⟨hpins, Or.inl (List.mem_cons_self ..), fun pg _ fph _ => ?_⟩
    exact ⟨List.mem_cons_self .., hzero, unpin_head ⟨_, rfl⟩⟩
  · intro _
    refine ⟨trivial, fun _ => ⟨hpins, ?_⟩⟩
    exact ⟨List.mem_cons_self .., hzero, unpin_head ⟨_, rfl⟩⟩

theorem balanced_pagerFreePage (pid : PageId) : Balanced file 1 (pagerFreePage pid) := by
  intro cap pins recent hpins
  simp only [pagerFreePage, obeys_bind, obeys_note, obeys_getPage, obeys_getFields, obeys_inBounds,
    obeys_store, obeys_markDirty, obeys_unpin, obeys_modifyHeader, implies_true, pin_mk, mark_write]
  refine ⟨hpins, fun f hf page hput => ⟨List.mem_cons_self .., ?_, unpin_head ⟨_, rfl⟩⟩⟩
  rw [Codec.length_put? hput, length_zeroPage, ← hf]

/-! ## Runs of routines -/

/-- A routine that gives its pins back does on the cache what it does on the flat store, with at most
    as many pages pinned at any moment as it needs. -/
theorem Kept.run {α : Type} {r : Routine α} {a : α} {recent : List PageId}
    (h : Kept file cap (db.lookups r + n) db p ⟨[], recent, []⟩) (hr : Balanced file cap r)
    (hrun : db.exec r = .ok (a, db')) :
    (∃ q recent', p.exec r = .ok (a, q) ∧ Kept file cap n db' q ⟨[], recent', []⟩) ∧
      Always Pager.step (fun s => s.pinnedCount ≤ cap) r p := by
  have hobeys := hr [] recent (Nat.le_of_eq (Nat.zero_add cap))
  obtain ⟨⟨q, t, hq, hkept, recent', ht⟩, halways⟩ :=
    run_simulates (simulates file cap) r h hrun hobeys
  refine ⟨⟨q, recent', hq, ht ▸ hkept⟩, halways.mono ?_⟩
  rintro s ⟨m, db₁, t₁, hs⟩
  exact hs.pinnedCount_le

/-- It fails on the cache as it does on the flat store. -/
theorem Kept.run_error {α : Type} {r : Routine α} {e : Fault} {recent : List PageId}
    (h : Kept file cap (db.lookups r) db p ⟨[], recent, []⟩) (hr : Balanced file cap r)
    (hrun : db.exec r = .error e) (he : e ≠ .headerPage) : p.exec r = .error e := by
  have hobeys := hr [] recent (Nat.le_of_eq (Nat.zero_add cap))
  refine run_simulates_error (simulates file cap) (fun o db e herr => ?_) r h hrun he hobeys
  -- the flat store refuses page 0 only
  cases o with
  | getPage pid =>
    rw [Db.step] at herr
    split at herr
    next => exact (Except.error.inj herr).symm
    next => contradiction
  | _ => contradiction

/-! ## The database of a pager -/

/-- The database that the cache and the file make up.  Page 0 is the header, which is a field. -/
def data (p : Pager) : Db :=
  ⟨p.fields, fun pid => if pid = 0 then zeroPage p.fields.pageSize else p.content pid⟩

theorem data_zero (p : Pager) : p.data.pages 0 = zeroPage p.fields.pageSize := by
  show (if (0 : PageId) = 0 then zeroPage p.fields.pageSize else p.content 0) = _
  rw [if_pos rfl]

theorem data_pages (p : Pager) (hpid : pid ≠ 0) : p.data.pages pid = p.content pid := by
  show (if pid = 0 then zeroPage p.fields.pageSize else p.content pid) = _
  rw [if_neg hpid]

/-- Only the data pages of the flat store matter. -/
theorem Kept.congr (h : Kept file cap n db p t) (hfields : db'.fields = db.fields)
    (hpages : ∀ pid, pid ≠ 0 → db'.pages pid = db.pages pid) : Kept file cap n db' p t :=
  { h with caches := ⟨h.caches.coherent, h.caches.fields.trans hfields.symm, fun pid hpid hl =>
      (h.caches.content pid hpid hl).trans (hpages pid hpid).symm⟩ }

theorem Kept.budget {m : Nat} (h : Kept file cap n db p t) (hm : p.tick.toNat + m < 2 ^ 64) :
    Kept file cap m db p t :=
  { h with room := hm }

theorem Kept.data (h : Kept file cap n db p t) : Kept file cap n p.data p t := by
  refine h.congr h.caches.fields fun pid hpid => ?_
  rw [data_pages p hpid]
  exact h.caches.content pid hpid id

/-- A flat store whose page 0 is blank is the database of the pager. -/
theorem Kept.data_eq (h : Kept file cap n db p t)
    (hzero : db.pages 0 = zeroPage db.fields.pageSize) : p.data = db := by
  have hpages : p.data.pages = db.pages := funext fun pid => by
    by_cases hpid : pid = 0
    · rw [hpid, data_zero, hzero, h.caches.fields]
    · rw [data_pages p hpid]
      exact h.caches.content pid hpid id
  have hfields : p.data.fields = db.fields := h.caches.fields
  show (⟨p.data.fields, p.data.pages⟩ : Db) = ⟨db.fields, db.pages⟩
  rw [hfields, hpages]

/-- No routine writes to page 0. -/
theorem simulates_data (file : FileId) (cap : Nat) (pg : Page) :
    Simulates Db.step Pager.step (discipline file cap) lookups
      fun n db p t => Kept file cap n db p t ∧ db.pages 0 = pg := by
  intro o n db db' p t r K ⟨h, hpg⟩ hstep hG
  obtain ⟨q, t', hq, hkept, hK⟩ := simulates file cap o n db db' p t r K h hstep hG
  refine ⟨q, t', hq, ⟨hkept, ?_⟩, hK⟩
  cases o with
  | store pid pg' =>
    obtain ⟨-, rfl⟩ := Prod.mk.inj (Except.ok.inj hstep)
    obtain ⟨i, hi⟩ := h.resident pid hG.1
    rw [Db.setPage_pages_ne _ _ (h.caches.coherent.nonzero i pid hi).symm]
    exact hpg
  | getPage pid =>
    rw [Db.step] at hstep
    split at hstep
    next => contradiction
    next =>
      obtain ⟨-, rfl⟩ := Prod.mk.inj (Except.ok.inj hstep)
      exact hpg
  | _ =>
    obtain ⟨-, rfl⟩ := Prod.mk.inj (Except.ok.inj hstep)
    exact hpg

/-- A routine on the cache turns the database of the pager into what it makes of the flat store. -/
theorem Kept.exec {α : Type} {r : Routine α} {a : α} {recent : List PageId}
    (h : Kept file cap n p.data p ⟨[], recent, []⟩) (hr : Balanced file cap r)
    (hroom : p.tick.toNat + p.data.lookups r < 2 ^ 64) (hrun : p.data.exec r = .ok (a, db')) :
    ∃ q recent', p.exec r = .ok (a, q) ∧ q.data = db' ∧ Kept file cap 0 q.data q ⟨[], recent', []⟩ := by
  have hobeys := hr [] recent (Nat.le_of_eq (Nat.zero_add cap))
  have hp : Kept file cap (p.data.lookups r + 0) p.data p ⟨[], recent, []⟩ := h.budget hroom
  obtain ⟨⟨q, t, hq, ⟨hkept, hzero⟩, recent', rfl⟩, -⟩ :=
    run_simulates (simulates_data file cap (p.data.pages 0)) r ⟨hp, rfl⟩ hrun hobeys
  have hps : db'.fields.pageSize = p.fields.pageSize := by
    rw [← hkept.caches.fields, hkept.pageSize, h.pageSize]
  refine ⟨q, recent', hq, hkept.data_eq ?_, hkept.data⟩
  rw [hzero, hps, data_zero]

/-- Between routines, when nothing is pinned, callers may begin to hold more pins or fewer. -/
theorem Kept.withCap {cap' : Nat} {recent : List PageId} (h : Kept file cap n db p ⟨[], recent, []⟩)
    (hcap : cap' + Ledger.memory < maxFrames) : Kept file cap' n db p ⟨[], recent, []⟩ :=
  { h with frames := hcap, few := Nat.zero_le _ }

/-- The ledger of a cache that was just opened is empty. -/
theorem Opened.kept (h : p.Opened) (hcap : cap + Ledger.memory < maxFrames) (hroom : n < 2 ^ 64) :
    Kept p.fields.fileId cap n p.flat p ⟨[], [], []⟩ := by
  have hno {i : FrameId} {pid : PageId} : ¬ p.Holds i pid := fun hi => by
    rw [Holds, h.empty i] at hi
    exact Bool.false_ne_true hi.1
  refine ⟨hcap, h.caches, rfl, h.ordered, ?_, Nat.zero_le _, Nat.zero_le _, fun i pid hi => absurd hi hno,
    fun pid hpid => absurd hpid List.not_mem_nil, fun pid hpid => absurd hpid List.not_mem_nil, fun k => ?_⟩
  · rw [h.tick]
    simpa using hroom
  · simpa using Recent.empty p

end Pager

end MiniDb
