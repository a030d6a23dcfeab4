import MiniDb.Lib.Select
import MiniDb.Pager.Interface

/-!
# The page cache

`pager.c` with its 256 frames and the file behind them.  `Pager.step` is the pager interface as
these functions implement it.
-/

namespace MiniDb

open Bytes Free Select

/-- `MAX_FRAMES` -/
def maxFrames : Nat := 256

/-- An index of `frames` -/
abbrev FrameId := Fin maxFrames

/-- `frame_t` -/
structure Frame where
  pageId : PageId
  isValid : Bool
  isDirty : Bool
  pinCount : UInt32
  usedTick : UInt64
  data : Page

/-- `query_stats_t` -/
structure QueryStats where
  pageLoads : UInt32
  cacheHits : UInt32
  cacheMisses : UInt32
  pagesFlushed : UInt32

/-- `pager_t`, and the bytes of its file by offset; bytes behind the end of the file read
    as 0. -/
structure Pager where
  fields : PagerFields
  frames : FrameId → Frame
  tick : UInt64
  headerDirty : Bool
  dirtyLowWatermark : UInt32
  dirtyHighWatermark : UInt32
  stats : QueryStats
  disk : Nat → UInt8

namespace Pager

/-- `frames[i] = f(frames[i])` -/
def modifyFrame (p : Pager) (i : FrameId) (f : Frame → Frame) : Pager :=
  { p with frames := Function.update p.frames i (f (p.frames i)) }

/-! ## The file -/

/-- The page size in bytes -/
def ps (p : Pager) : Nat := p.fields.pageSize.toNat

/-- `pager_raw_read` into a buffer of zeros -/
def rawRead (p : Pager) (pid : PageId) : Page :=
  (List.range p.ps).map fun i => p.disk (pid.toNat * p.ps + i)

/-- `pager_raw_write` -/
def rawWrite (p : Pager) (pid : PageId) (buf : Page) : Pager :=
  { p with
    disk := fun off =>
      if pid.toNat * p.ps ≤ off ∧ off < pid.toNat * p.ps + p.ps
      then buf.getD (off - pid.toNat * p.ps) 0 else p.disk off }

/-! ## Frames -/

/-- All indices in order -/
def frameIds : List FrameId := List.finRange maxFrames

/-- `find_frame` -/
def findFrame (p : Pager) (pid : PageId) : Option FrameId :=
  frameIds.find? fun i => (p.frames i).isValid && decide ((p.frames i).pageId = pid)

/-- The frame is written to the file and counted. -/
def flushFrame (p : Pager) (i : FrameId) : Pager :=
  let p := p.rawWrite (p.frames i).pageId (p.frames i).data
  let p := { p with stats := { p.stats with pagesFlushed := p.stats.pagesFlushed + 1 } }
  p.modifyFrame i fun f => { f with isDirty := false }

/-- The frame that `evict_frame` chooses when all are valid: the one used longest ago among
    those that are not pinned -/
def leastRecent (p : Pager) : Option FrameId :=
  selectMin (fun i => decide ((p.frames i).pinCount = 0)) (fun i => (p.frames i).usedTick.toNat)
    (2 ^ 64 - 1) frameIds

/-- `evict_frame` -/
def evictFrame (p : Pager) : Option FrameId × Pager :=
  match frameIds.find? fun i => !(p.frames i).isValid with
  | some i => (some i, p)
  | none =>
    match p.leastRecent with
    | none => (none, p)
    | some best =>
      let p := if (p.frames best).isDirty then p.flushFrame best else p
      (some best, p.modifyFrame best fun f => { f with isValid := false })

/-! ## Pages -/

/-- `pager_get_page`: the index of the frame whose buffer is returned, or nothing for `NULL` -/
def getPage (p : Pager) (pid : PageId) : Option FrameId × Pager :=
  let p := { p with stats := { p.stats with pageLoads := p.stats.pageLoads + 1 } }
  match p.findFrame pid with
  | some i =>
    let p := { p with
      stats := { p.stats with cacheHits := p.stats.cacheHits + 1 }
      tick := p.tick + 1 }
    (some i, p.modifyFrame i fun f => { f with pinCount := f.pinCount + 1, usedTick := p.tick })
  | none =>
    let p := { p with stats := { p.stats with cacheMisses := p.stats.cacheMisses + 1 } }
    match p.evictFrame with
    | (none, p) => (none, p)
    | (some i, p) =>
      let p := { p with tick := p.tick + 1 }
      (some i, p.modifyFrame i fun _ => ⟨pid, true, false, 1, p.tick, p.rawRead pid⟩)

/-- The condition of `count_dirty` -/
def dirtyAt (p : Pager) (i : FrameId) : Bool := (p.frames i).isValid && (p.frames i).isDirty

/-- `count_dirty` -/
def countDirty (p : Pager) : Nat := frameIds.countP p.dirtyAt

/-- The frame that `pager_flush_dirty` writes next -/
def nextToFlush (p : Pager) : Option FrameId :=
  selectMin (fun i => p.dirtyAt i && decide ((p.frames i).pinCount = 0))
    (fun i => (p.frames i).usedTick.toNat) (2 ^ 64 - 1) frameIds

/-- The loop of `pager_flush_dirty`; its counter is the first argument. -/
def flushLoop (target : Nat) : Nat → Pager → Pager
  | 0, p => p
  | dirty + 1, p =>
    if target < dirty + 1 then
      match p.nextToFlush with
      | none => p
      | some best => flushLoop target dirty (p.flushFrame best)
    else p

/-- `pager_flush_dirty` -/
def flushDirty (p : Pager) (target : UInt32) : Pager := flushLoop target.toNat p.countDirty p

/-- `pager_mark_dirty` -/
def markDirty (p : Pager) (pid : PageId) : Pager :=
  let p := match p.findFrame pid with
    | some i => p.modifyFrame i fun f => { f with isDirty := true }
    | none => p
  let p := { p with headerDirty := true }
  if 0 < p.dirtyHighWatermark ∧ p.dirtyHighWatermark.toNat ≤ p.countDirty then
    p.flushDirty p.dirtyLowWatermark
  else p

/-- `pager_unpin` -/
def unpin (p : Pager) (pid : PageId) : Pager :=
  match p.findFrame pid with
  | some i =>
    if 0 < (p.frames i).pinCount then
      p.modifyFrame i fun f => { f with pinCount := f.pinCount - 1 }
    else p
  | none => p

/-- One turn of the loop of `pager_flush_all` -/
def writeDirty (p : Pager) (i : FrameId) : Pager :=
  if p.dirtyAt i then
    (p.rawWrite (p.frames i).pageId (p.frames i).data).modifyFrame i fun f =>
      { f with isDirty := false }
  else p

/-- `pager_flush_all`; the header has to fit the buffer for page 0. -/
def flushAll (p : Pager) : Option Pager := do
  let p := frameIds.foldl writeDirty p
  let hbuf ← dbHeaderC.put? (zeroPage p.fields.pageSize) 0 p.fields.header
  let p := p.rawWrite 0 hbuf
  return { p with headerDirty := false }

/-! ## Opening -/

/-- The pager with its 256 frames allocated and none of them in use, and the default watermarks -/
def initial (fields : PagerFields) (disk : Nat → UInt8) : Pager where
  fields := fields
  frames := fun _ => ⟨0, false, false, 0, 0, zeroPage fields.pageSize⟩
  tick := 0
  headerDirty := false
  dirtyLowWatermark := 16
  dirtyHighWatermark := 64
  stats := ⟨0, 0, 0, 0⟩
  disk := disk

/-- `pager_open(path, true)`; the header has to fit the buffer for page 0. -/
def create (pageSize : UInt32) : Option Pager := do
  let p := initial ⟨pageSize, freshHeader pageSize, 1⟩ fun _ => 0
  let buf ← dbHeaderC.put? (zeroPage pageSize) 0 (freshHeader pageSize)
  let p := p.rawWrite 0 buf
  let buf ← heapPageHeaderC.put? (zeroPage pageSize) 0 emptyHeapHeader
  let p := p.rawWrite 1 buf
  let buf ← leafPageHeaderC.put? (zeroPage pageSize) 0 emptyLeafHeader
  return p.rawWrite 2 buf

/-! ## The interface -/

/-- The pager interface over the frames.  The pointer that a caller holds is the buffer of the
    frame with its page. -/
def step : Handler PagerSig Fault Pager
  | .getPage pid, p => .ok ((p.getPage pid).1.isSome, (p.getPage pid).2)
  | .load pid, p =>
    match p.findFrame pid with
    | some i => .ok ((p.frames i).data, p)
    | none => .error .notResident
  | .store pid pg, p =>
    match p.findFrame pid with
    | some i => .ok ((), p.modifyFrame i fun f => { f with data := pg })
    | none => .error .notResident
  | .markDirty pid, p => .ok ((), p.markDirty pid)
  | .unpin pid, p => .ok ((), p.unpin pid)
  | .getFields, p => .ok (p.fields, p)
  | .setFields f, p => .ok ((), { p with fields := f })
  | .setHeaderDirty, p => .ok ((), { p with headerDirty := true })
  | .note _, p => .ok ((), p)

/-- Run a routine on the cache. -/
def exec {α : Type} (p : Pager) (r : Routine α) : Except Fault (α × Pager) := Free.run step r p

end Pager

end MiniDb
