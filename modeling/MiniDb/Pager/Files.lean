import MiniDb.Heap.Runs
import MiniDb.Pager.Ledger

/-!
# Closing and opening files

`pager_close` writes every dirty frame and the header into the file.  `pager_open` on a file that
exists reads the header back.  The id of the last heap page is not stored; it is found again by
following the chain of heap pages.

## Key results

- `openFile_outcome`: what becomes of a file, whatever its bytes are
- `Kept.reopen`: closing and opening changes nothing
-/

namespace MiniDb

open Bytes Chains Free Ledger

/-! ## Reading a page -/

/-- A page is requested, read and released at once. -/
theorem exec_peek {α : Type} {db : Db} {pid : PageId} (hpid : pid ≠ 0) (f : Page → Routine α) :
    db.exec (do
      pagerGetPage pid
      let page ← load pid
      pagerUnpin pid
      f page) = db.exec (f (db.pages pid)) := by
  have hstep : Db.step (.getPage pid) db = .ok (true, db) := if_neg hpid
  show run Db.step (.call (.getPage pid) _) db = _
  rw [run, hstep]
  rfl

theorem lookups_peek {α : Type} {db : Db} {pid : PageId} (hpid : pid ≠ 0) (f : Page → Routine α) :
    db.lookups (do
      pagerGetPage pid
      let page ← load pid
      pagerUnpin pid
      f page) = 1 + db.lookups (f (db.pages pid)) := by
  have hstep : Db.step (.getPage pid) db = .ok (true, db) := if_neg hpid
  show cost Db.step lookups (.call (.getPage pid) _) db = _
  rw [cost, hstep]
  show 1 + (0 + (0 + cost Db.step lookups (f (db.pages pid)) db)) = _
  rw [Nat.zero_add, Nat.zero_add]
  rfl

/-! ## The last heap page -/

/-- The loop of `pager_open` over the heap chain; it makes no turn when there is no heap page. -/
def lastHeapLoop : Nat → PageId → Routine Unit
  | 0, _ => .throw .nonTermination
  | n + 1, pid =>
    if pid = 0 then return ()
    else do
      pagerGetPage pid
      let page ← load pid
      pagerUnpin pid
      let hph := heapPageHeaderC.get page 0
      let fields ← getFields
      setFields { fields with lastHeapPageId := pid }
      lastHeapLoop n hph.nextHeapPageId

/-- `db` with its `last_heap_page_id` replaced -/
def Db.setLastHeap (db : Db) (pid : PageId) : Db :=
  { db with fields := { db.fields with lastHeapPageId := pid } }

section LastHeap

variable {db : Db} {pid : PageId} {l : List PageId} {n : Nat}

theorem lastHeapLoop_zero (n : Nat) : db.exec (lastHeapLoop (n + 1) 0) = .ok ((), db) := rfl

theorem lastHeapLoop_succ (hpid : pid ≠ 0) : db.exec (lastHeapLoop (n + 1) pid) =
    (db.setLastHeap pid).exec (lastHeapLoop n (nextHeap db pid)) := by
  rw [lastHeapLoop, if_neg hpid, exec_peek hpid]
  rfl

/-- The loop ends at the end of the chain. -/
theorem lastHeapLoop_spec (h : Visits (nextHeap db) 0 pid l) (hn : l.length < n) :
    db.exec (lastHeapLoop n pid) =
      .ok ((), db.setLastHeap (l.getLastD db.fields.lastHeapPageId)) := by
  induction l generalizing db pid n with
  | nil =>
    obtain rfl : pid = 0 := h
    obtain ⟨n, rfl⟩ := Nat.exists_eq_add_of_le' hn
    exact lastHeapLoop_zero _
  | cons q l ih =>
    obtain ⟨rfl, hne, hrest⟩ := h
    obtain ⟨n, rfl⟩ := Nat.exists_eq_add_of_le' (Nat.lt_of_le_of_lt (Nat.zero_le _) hn)
    -- the pages are the same after the turn
    have hrest : Visits (nextHeap (db.setLastHeap pid)) 0 (nextHeap db pid) l := hrest
    rw [lastHeapLoop_succ hne, ih hrest (Nat.lt_of_succ_lt_succ hn), List.getLastD_cons]
    rfl

/-- Where the chain does not end, neither does the loop. -/
theorem lastHeapLoop_endless (h : ∀ l, ¬ Visits (nextHeap db) 0 pid l) :
    db.exec (lastHeapLoop n pid) = .error .nonTermination := by
  induction n generalizing db pid with
  | zero => rfl
  | succ n ih =>
    have hne : pid ≠ 0 := fun h0 => h [] h0
    rw [lastHeapLoop_succ hne]
    exact ih fun l hl => h (pid :: l) ⟨rfl, hne, hl⟩

theorem lookups_lastHeapLoop_le (db : Db) (n : Nat) (pid : PageId) :
    db.lookups (lastHeapLoop n pid) ≤ n := by
  induction n generalizing db pid with
  | zero => exact Nat.le_refl 0
  | succ n ih =>
    rw [lastHeapLoop]
    split
    next => exact Nat.zero_le _
    next hne =>
      rw [lookups_peek hne]
      have hrest := ih (db.setLastHeap pid) (nextHeap db pid)
      show 1 + (0 + (0 + (db.setLastHeap pid).lookups (lastHeapLoop n (nextHeap db pid)))) ≤ n + 1
      omega

end LastHeap

namespace Pager

theorem balanced_lastHeapLoop {file : FileId} (n : Nat) (pid : PageId) :
    Balanced file 1 (lastHeapLoop n pid) := by
  intro cap pins recent hpins
  induction n generalizing pid recent with
  | zero => exact obeys_throw _
  | succ n ih =>
    simp only [lastHeapLoop, obeys_ite, obeys_bind, obeys_getPage, obeys_load, obeys_unpin,
      obeys_getFields, obeys_setFields, obeys_pure, pin_mk]
    constructor
    · intro _
      exact ⟨_, rfl⟩
    · intro _
      refine ⟨hpins, Or.inl (List.mem_cons_self ..), fun page _ => unpin_head fun f hf => ⟨hf, ?_⟩⟩
      exact ih _ _

/-! ## pager_open -/

/-- `pread(fd, buf, n, 0)` into a buffer of zeros -/
def readFile (disk : Nat → UInt8) (n : Nat) : List UInt8 := (List.range n).map disk

/-- `page_size` in the first bytes of a file -/
def filePageSize (disk : Nat → UInt8) : UInt32 := u32.get (readFile disk 16) 12

/-- The comparison of the first seven bytes with `DB_MAGIC` -/
def magicOk (hdr : DbHeader) : Bool := hdr.magic.toList.take 7 = dbMagic.toList.take 7

/-- `pager_open(path, false)` on a file of `size` bytes: the pager, or nothing for -1.  The page
    size is taken from a buffer that is not set behind the end of the file, and the header is copied
    out of a buffer of that size. -/
def openFile (size : Nat) (disk : Nat → UInt8) : Except Fault (Option Pager) :=
  if size < 16 then .error .uninitialised
  else
    let pageSize := filePageSize disk
    match dbHeaderC.get? (readFile disk pageSize.toNat) 0 with
    | none => .error .outOfBounds
    | some hdr =>
      if magicOk hdr then
        let p := initial ⟨pageSize, hdr, hdr.firstHeapPageId⟩ disk
        match p.exec (lastHeapLoop maxPages hdr.firstHeapPageId) with
        | .ok (_, p) => .ok (some p)
        | .error e => .error e
      else .ok none

/-- The header in a file -/
def fileHeader (disk : Nat → UInt8) : DbHeader :=
  dbHeaderC.get (readFile disk (filePageSize disk).toNat) 0

/-- The fields of a pager before it follows the chain of heap pages -/
def fileFields (disk : Nat → UInt8) : PagerFields :=
  ⟨filePageSize disk, fileHeader disk, (fileHeader disk).firstHeapPageId⟩

/-- The database in a file -/
def fileDb (disk : Nat → UInt8) : Db := ⟨fileFields disk, (initial (fileFields disk) disk).rawRead⟩

/-- `pager_open` accepts the file, and `l` is its chain of heap pages. -/
structure Opens (size : Nat) (disk : Nat → UInt8) (l : List PageId) : Prop where
  long : 16 ≤ size
  room : dbHeaderC.size ≤ (filePageSize disk).toNat
  magic : magicOk (fileHeader disk) = true
  chain : Visits (nextHeap (fileDb disk)) 0 (fileHeader disk).firstHeapPageId l

section Opening

variable {file : FileId} {cap n size : Nat} {p q : Pager} {db db' : Db} {t : Ledger}
  {disk : Nat → UInt8} {recent l : List PageId}

@[simp] theorem length_readFile (disk : Nat → UInt8) (n : Nat) : (readFile disk n).length = n := by
  rw [readFile, List.length_map, List.length_range]

theorem opened_initial (fields : PagerFields) (disk : Nat → UInt8) : (initial fields disk).Opened :=
  ⟨fun _ => rfl, rfl⟩

/-- A file that was just opened -/
theorem flat_initial (fields : PagerFields) (disk : Nat → UInt8) :
    (initial fields disk).flat = ⟨fields, (initial fields disk).rawRead⟩ := by
  have hcontent : (initial fields disk).content = (initial fields disk).rawRead :=
    funext fun _ => content_of_absent fun _ hi => Bool.false_ne_true hi.1
  rw [flat, hcontent]
  rfl

/-- No frame is dirty. -/
def Clean (p : Pager) : Prop := ∀ i, (p.frames i).isDirty = false

/-- Pages of `p` have been looked up and released, and nothing else was done but to set the last heap
    page. -/
structure OnlyReads (p q : Pager) : Prop where
  clean : q.Clean
  disk : q.disk = p.disk
  pageSize : q.fields.pageSize = p.fields.pageSize
  header : q.fields.header = p.fields.header

theorem Clean.refl (h : p.Clean) : OnlyReads p p := ⟨h, rfl, rfl, rfl⟩

theorem OnlyReads.trans {r : Pager} (h : OnlyReads p q) (h' : OnlyReads q r) : OnlyReads p r :=
  ⟨h'.clean, h'.disk.trans h.disk, h'.pageSize.trans h.pageSize, h'.header.trans h.header⟩

/-- A miss on clean frames writes nothing to the file. -/
theorem Clean.getPage (h : p.Clean) (pid : PageId) : OnlyReads p (p.getPage pid).2 := by
  rcases getPage_cases p pid with ⟨i, s, -, hget⟩ | ⟨i, q, s, -, hq, hget⟩ | ⟨s, -, -, hget⟩
  · -- a hit
    rw [hget]
    refine ⟨fun j => ?_, rfl, rfl, rfl⟩
    show ((p.touched i).frames j).isDirty = false
    rw [touched_frame]
    split
    all_goals exact h _
  · -- the frame given up is not written
    have hq' : q.Clean ∧ q.disk = p.disk := by
      rcases hq with ⟨rfl, -⟩ | ⟨rfl, -, -⟩
      · exact ⟨h, rfl⟩
      · have hevicted : p.evicted i = p.modifyFrame i fun f => { f with isValid := false } := by
          rw [evicted, h i]
          rfl
        rw [hevicted]
        refine ⟨fun j => ?_, rfl⟩
        by_cases hj : j = i
        · subst hj
          rw [modifyFrame_same]
          exact h j
        · rw [modifyFrame_ne _ _ hj]
          exact h j
    have hfields : q.fields = p.fields := hq.eqs.1
    rw [hget]
    refine ⟨fun j => ?_, hq'.2, congrArg PagerFields.pageSize hfields, congrArg PagerFields.header hfields⟩
    show ((q.loaded i pid).frames j).isDirty = false
    rw [loaded_frame]
    split
    · rfl
    · exact hq'.1 j
  · rw [hget]
    exact ⟨h, rfl, rfl, rfl⟩

theorem Clean.unpin (h : p.Clean) (pid : PageId) : OnlyReads p (p.unpin pid) := by
  unfold Pager.unpin
  split
  · split
    · refine ⟨fun j => ?_, rfl, rfl, rfl⟩
      rename_i i _ _
      by_cases hj : j = i
      · subst hj
        rw [modifyFrame_same]
        exact h j
      · rw [modifyFrame_ne _ _ hj]
        exact h j
    · exact h.refl
  · exact h.refl

/-- The walk along the chain leaves the file alone. -/
theorem Clean.lastHeapLoop (h : p.Clean) (n : Nat) (pid : PageId) :
    ∀ q, p.exec (lastHeapLoop n pid) = .ok ((), q) → OnlyReads p q := by
  intro q hrun
  -- page after page, each requested, read and released
  induction n generalizing p pid with
  | zero => contradiction
  | succ n ih =>
    rw [MiniDb.lastHeapLoop] at hrun
    split at hrun
    next =>
      obtain ⟨-, rfl⟩ := Prod.mk.inj (Except.ok.inj hrun)
      exact h.refl
    next =>
      have hget := h.getPage pid
      simp only [Pager.exec, run_bind, pagerGetPage, pagerGetPage?, MiniDb.load, pagerUnpin, getFields,
        MiniDb.setFields, Prog.op, run, Pager.step] at hrun
      cases hok : (p.getPage pid).1.isSome with
      | false =>
        rw [hok] at hrun
        contradiction
      | true =>
        rw [hok] at hrun
        cases hfind : (p.getPage pid).2.findFrame pid with
        | none =>
          rw [if_pos rfl, run_pure] at hrun
          dsimp only at hrun
          rw [hfind] at hrun
          contradiction
        | some i =>
          rw [if_pos rfl, run_pure] at hrun
          dsimp only at hrun
          rw [hfind] at hrun
          have hunpin := hget.trans (hget.clean.unpin pid)
          have hset : OnlyReads p { (p.getPage pid).2.unpin pid with
              fields := { ((p.getPage pid).2.unpin pid).fields with lastHeapPageId := pid } } :=
            ⟨hunpin.clean, hunpin.disk, hunpin.pageSize, hunpin.header⟩
          exact hset.trans (ih hset.clean _ hrun)

/-- What the header of a file says -/
theorem openFile_of_header (hlong : 16 ≤ size) (hroom : dbHeaderC.size ≤ (filePageSize disk).toNat) :
    openFile size disk = if magicOk (fileHeader disk) then
      match (initial (fileFields disk) disk).exec
        (MiniDb.lastHeapLoop maxPages (fileHeader disk).firstHeapPageId) with
      | .ok (_, p) => .ok (some p)
      | .error e => .error e
    else .ok none := by
  have hget : dbHeaderC.get? (readFile disk (filePageSize disk).toNat) 0 = some (fileHeader disk) :=
    dbHeaderC.get?_eq_some _ 0 (by rwa [length_readFile, Nat.zero_add])
  rw [openFile, if_neg (Nat.not_lt.mpr hlong)]
  dsimp only
  rw [hget]
  dsimp only [fileFields]

theorem kept_initial (hn : n < 2 ^ 64) :
    Kept (fileFields disk).fileId 1 n (fileDb disk) (initial (fileFields disk) disk) ⟨[], [], []⟩ := by
  have hkept : Kept (fileFields disk).fileId 1 n (initial (fileFields disk) disk).flat
      (initial (fileFields disk) disk) ⟨[], [], []⟩ :=
    (opened_initial (fileFields disk) disk).kept (by decide) hn
  rw [flat_initial] at hkept
  exact hkept

/-- A file that is accepted: the pager stands for the database in the file, with the last page of
    the chain for its last heap page, and the file is as before. -/
theorem Opens.openFile (h : Opens size disk l) (hcap : cap + Ledger.memory < maxFrames)
    (hn : n + maxPages ≤ 2 ^ 63) : ∃ p recent, openFile size disk = .ok (some p) ∧
      Kept (fileFields disk).fileId cap n ((fileDb disk).setLastHeap (l.getLastD 0)) p ⟨[], recent, []⟩ ∧
      p.disk = disk := by
  have hlen : l.length < maxPages := length_lt_of_nodup h.chain.nodup fun _ hq => h.chain.ne_stop hq
  have hrun := lastHeapLoop_spec h.chain hlen
  have hlast : l.getLastD (fileDb disk).fields.lastHeapPageId = l.getLastD 0 := by
    have hchain := h.chain
    cases l with
    | nil => exact hchain
    | cons q l => rw [List.getLastD_cons, List.getLastD_cons]
  rw [hlast] at hrun
  have hlookups := lookups_lastHeapLoop_le (fileDb disk) maxPages (fileHeader disk).firstHeapPageId
  have hbudget : (fileDb disk).lookups (MiniDb.lastHeapLoop maxPages
      (fileHeader disk).firstHeapPageId) + n < 2 ^ 64 := by omega
  obtain ⟨⟨p, recent, hexec, hp⟩, -⟩ :=
    (kept_initial hbudget).run (balanced_lastHeapLoop _ _) hrun
  have hclean : (initial (fileFields disk) disk).Clean := fun _ => rfl
  refine ⟨p, recent, ?_, hp.withCap hcap, (hclean.lastHeapLoop _ _ p hexec).disk⟩
  rw [openFile_of_header h.long h.room, if_pos h.magic, hexec]

/-- What becomes of any file.  A file of fewer than 16 bytes has no page size to read, a page size
    below that of the header makes the program read behind a buffer, another beginning is refused,
    and a chain of heap pages that comes back to a page is followed forever; every other file is
    opened. -/
theorem openFile_outcome (size : Nat) (disk : Nat → UInt8) :
    (size < 16 ∧ openFile size disk = .error .uninitialised) ∨
    (16 ≤ size ∧ (filePageSize disk).toNat < dbHeaderC.size ∧
      openFile size disk = .error .outOfBounds) ∨
    (16 ≤ size ∧ dbHeaderC.size ≤ (filePageSize disk).toNat ∧ magicOk (fileHeader disk) = false ∧
      openFile size disk = .ok none) ∨
    (16 ≤ size ∧ dbHeaderC.size ≤ (filePageSize disk).toNat ∧ magicOk (fileHeader disk) = true ∧
      (∀ l, ¬ Visits (nextHeap (fileDb disk)) 0 (fileHeader disk).firstHeapPageId l) ∧
      openFile size disk = .error .nonTermination) ∨
    ∃ l p, Opens size disk l ∧ openFile size disk = .ok (some p) ∧
      p.fields = ⟨filePageSize disk, fileHeader disk, l.getLastD 0⟩ ∧ p.disk = disk ∧
      (∀ pid, pid ≠ 0 → p.content pid = p.rawRead pid) ∧ ∀ pid, ¬ p.Pinned pid := by
  -- the checks in the order of the code
  by_cases hlong : 16 ≤ size
  · right
    by_cases hroom : dbHeaderC.size ≤ (filePageSize disk).toNat
    · right
      have hopen := openFile_of_header hlong hroom
      cases hmagic : magicOk (fileHeader disk) with
      | false =>
        left
        rw [hmagic] at hopen
        exact ⟨hlong, hroom, rfl, hopen⟩
      | true =>
        right
        by_cases hchain : ∃ l, Visits (nextHeap (fileDb disk)) 0 (fileHeader disk).firstHeapPageId l
        · -- the file is opened
          right
          obtain ⟨l, hl⟩ := hchain
          have hopens : Opens size disk l := ⟨hlong, hroom, hmagic, hl⟩
          have hcap : 0 + Ledger.memory < maxFrames := by decide
          have hbudget : 0 + maxPages ≤ 2 ^ 63 := by decide
          obtain ⟨p, recent, hp, hkept, hdisk⟩ := hopens.openFile hcap hbudget
          have hfields : p.fields = ⟨filePageSize disk, fileHeader disk, l.getLastD 0⟩ := hkept.caches.fields
          refine ⟨l, p, hopens, hp, hfields, hdisk, fun pid hpid => ?_, fun pid hpin => ?_⟩
          · rw [hkept.caches.content pid hpid id]
            symm
            refine rawRead_congr ?_ fun i _ => ?_
            · rw [ps, hfields]
              rfl
            · rw [hdisk]
              rfl
          · obtain ⟨i, hi, hne⟩ := hpin
            exact absurd ((hkept.pinned_iff hi).mp hne) List.not_mem_nil
        · left
          have hno : ∀ l, ¬ Visits (nextHeap (fileDb disk)) 0 (fileHeader disk).firstHeapPageId l :=
            fun l hl => hchain ⟨l, hl⟩
          -- the walk goes on forever on the flat store, and so it does on the cache
          have hrun : (fileDb disk).exec (MiniDb.lastHeapLoop maxPages (fileHeader disk).firstHeapPageId) =
              .error .nonTermination := lastHeapLoop_endless hno
          have hlookups := lookups_lastHeapLoop_le (fileDb disk) maxPages
            (fileHeader disk).firstHeapPageId
          have hmax : maxPages < 2 ^ 64 := by decide
          have hexec := (kept_initial (Nat.lt_of_le_of_lt hlookups hmax)).run_error
            (balanced_lastHeapLoop _ _) hrun (by decide)
          rw [hmagic, if_pos rfl, hexec] at hopen
          exact ⟨hlong, hroom, rfl, hno, hopen⟩
    · left
      -- the buffer has the bytes of one page, and that is too short for the header
      have hget : dbHeaderC.get? (readFile disk (filePageSize disk).toNat) 0 = none :=
        if_neg (by rwa [length_readFile, Nat.zero_add])
      refine ⟨hlong, Nat.lt_of_not_le hroom, ?_⟩
      rw [openFile, if_neg (Nat.not_lt.mpr hlong)]
      dsimp only
      rw [hget]
  · exact Or.inl ⟨Nat.lt_of_not_le hlong, if_pos (Nat.lt_of_not_le hlong)⟩

end Opening

/-! ## A new file -/

section Creating

variable {pageSize : UInt32} {p : Pager}

/-- The bytes that are not written yet read as zero. -/
theorem rawRead_zero (fields : PagerFields) (pid : PageId) :
    (initial fields fun _ => 0).rawRead pid = zeroPage fields.pageSize := by
  show (List.range fields.pageSize.toNat).map (fun _ => (0 : UInt8)) = _
  rw [List.map_const', List.length_range]
  rfl

/-- `pager_open` writes the three pages of a new database. -/
theorem create_eq (h : Pager.create pageSize = some p) : dbHeaderC.size ≤ pageSize.toNat ∧
    p = (((initial (Db.fresh pageSize).fields fun _ => 0).rawWrite 0
      (dbHeaderC.put (zeroPage pageSize) 0 (freshHeader pageSize))).rawWrite 1 (freshPage pageSize 1)).rawWrite
        2 (freshPage pageSize 2) := by
  simp only [Pager.create, Option.bind_eq_bind, Option.bind_eq_some_iff] at h
  obtain ⟨b₀, hb₀, b₁, hb₁, b₂, hb₂, hp⟩ := h
  obtain ⟨hroom, rfl⟩ := Codec.put?_inv hb₀
  obtain ⟨-, rfl⟩ := Codec.put?_inv hb₁
  obtain ⟨-, rfl⟩ := Codec.put?_inv hb₂
  rw [Nat.zero_add, length_zeroPage] at hroom
  exact ⟨hroom, (Option.some.inj hp).symm⟩

theorem length_freshPage (h : dbHeaderC.size ≤ pageSize.toNat) (pid : PageId) :
    (freshPage pageSize pid).length = pageSize.toNat := by
  have hzero : (zeroPage pageSize).length = pageSize.toNat := length_zeroPage pageSize
  have hheap : heapPageHeaderC.size ≤ dbHeaderC.size := by decide
  have hleaf : leafPageHeaderC.size ≤ dbHeaderC.size := by decide
  rw [freshPage]
  split
  next => rw [Codec.length_put _ _ _ _ (by omega), hzero]
  split
  next => rw [Codec.length_put _ _ _ _ (by omega), hzero]
  next => exact hzero

/-- The file holds the pages of a new database. -/
theorem create_data (h : Pager.create pageSize = some p) : p.data = Db.fresh pageSize := by
  obtain ⟨hroom, hp⟩ := create_eq h
  have hempty : ∀ pid, p.content pid = p.rawRead pid := fun pid =>
    content_of_absent fun i hi => by
      rw [hp] at hi
      exact Bool.false_ne_true hi.1
  have hfields : p.fields = (Db.fresh pageSize).fields := by rw [hp]; rfl
  have hpages : p.data.pages = (Db.fresh pageSize).pages := funext fun pid => by
    show _ = freshPage pageSize pid
    by_cases hzero : pid = 0
    · rw [hzero, data_zero, hfields]
      rfl
    · rw [data_pages p hzero, hempty, hp]
      by_cases htwo : pid = 2
      · rw [htwo, rawRead_rawWrite_same 2 (length_freshPage hroom 2)]
      · rw [rawRead_rawWrite_ne _ htwo]
        by_cases hone : pid = 1
        · rw [hone, rawRead_rawWrite_same 1 (length_freshPage hroom 1)]
        · rw [rawRead_rawWrite_ne _ hone, rawRead_rawWrite_ne _ hzero, rawRead_zero, freshPage,
            if_neg hone, if_neg htwo]
          rfl
  show (⟨p.data.fields, p.data.pages⟩ : Db) = ⟨(Db.fresh pageSize).fields, (Db.fresh pageSize).pages⟩
  rw [hpages]
  exact congrArg (Db.mk · _) hfields

theorem create_opened (h : Pager.create pageSize = some p) : p.Opened := by
  rw [(create_eq h).2]
  exact ⟨fun _ => rfl, rfl⟩

/-- A new file: the cache is empty, and the pager stands for a new database. -/
theorem create_kept {cap n : Nat} (h : Pager.create pageSize = some p)
    (hcap : cap + Ledger.memory < maxFrames) (hn : n < 2 ^ 64) :
    Kept (Db.fresh pageSize).fields.fileId cap n p.data p ⟨[], [], []⟩ := by
  have hfields : p.fields = (Db.fresh pageSize).fields := by
    rw [(create_eq h).2]
    rfl
  rw [← hfields]
  exact ((create_opened h).kept hcap hn).data

end Creating

/-! ## pager_close -/

/-- `pager_close`, as far as its file goes -/
def close (p : Pager) : Option (Nat → UInt8) := p.flushAll.map (·.disk)

section Closing

variable {file : FileId} {cap n size : Nat} {p q : Pager} {db : Db} {t : Ledger}
  {recent : List PageId}

theorem dirtyAt_writeDirty_same (p : Pager) (i : FrameId) : (p.writeDirty i).dirtyAt i = false := by
  unfold writeDirty
  split
  next =>
    rw [dirtyAt, modifyFrame_same]
    exact Bool.and_false _
  next hi => simpa using hi

theorem dirtyAt_writeDirty {i j : FrameId} (h : p.dirtyAt i = false) :
    (p.writeDirty j).dirtyAt i = false := by
  by_cases hij : i = j
  · subst hij
    exact dirtyAt_writeDirty_same p i
  · unfold writeDirty
    split
    next =>
      rw [dirtyAt, modifyFrame_ne _ _ hij]
      exact h
    next => exact h

theorem dirtyAt_foldl_writeDirty {i : FrameId} (is : List FrameId) (h : i ∈ is ∨ p.dirtyAt i = false) :
    (is.foldl writeDirty p).dirtyAt i = false := by
  induction is generalizing p with
  | nil => exact h.resolve_left List.not_mem_nil
  | cons j is ih =>
    apply ih
    rcases h with h | h
    · rcases List.mem_cons.mp h with rfl | h
      · exact Or.inr (dirtyAt_writeDirty_same p i)
      · exact Or.inl h
    · exact Or.inr (dirtyAt_writeDirty h)

/-- The file of `p` holds the header and the pages of `db`. -/
structure Written (db : Db) (p : Pager) : Prop where
  header : p.rawRead 0 = dbHeaderC.put (zeroPage db.fields.pageSize) 0 db.header
  pages : ∀ pid, pid ≠ 0 → p.rawRead pid = db.pages pid

/-- `pager_flush_all` writes the dirty frames and then the header. -/
theorem flushAll_eq (hroom : dbHeaderC.size ≤ p.ps) : p.flushAll =
    some { (frameIds.foldl writeDirty p).rawWrite 0
      (dbHeaderC.put (zeroPage p.fields.pageSize) 0 p.fields.header) with headerDirty := false } := by
  have hsame := sameFrames_foldl_writeDirty frameIds p
  have hput : dbHeaderC.put? (zeroPage p.fields.pageSize) 0 p.fields.header =
      some (dbHeaderC.put (zeroPage p.fields.pageSize) 0 p.fields.header) := by
    apply dbHeaderC.put?_eq_some
    rw [zeroPage, List.length_replicate, Nat.zero_add]
    exact hroom
  rw [Pager.flushAll]
  generalize frameIds.foldl writeDirty p = r at hsame
  rw [hsame.fields, hput]
  rfl

/-- When `pager_flush_all` returns, everything is in the file, and nothing else has changed. -/
theorem Kept.flushAll (h : Kept file cap n db p t) (ht : t.unmarked = [])
    (hroom : dbHeaderC.size ≤ file.pageSize.toNat) :
    ∃ q, p.flushAll = some q ∧ Kept file cap n db q t ∧ Written db q ∧ ∀ i, q.dirtyAt i = false := by
  have hps : p.ps = file.pageSize.toNat := congrArg UInt32.toNat h.pageSize
  obtain ⟨q, hflush, hcoh, hsame, hframes⟩ := flushAll_spec h.caches.coherent (hps ▸ hroom)
  have hpins (j : FrameId) : (q.frames j).pinCount = (p.frames j).pinCount := by
    obtain ⟨d, hd⟩ := hframes.frames j
    rw [hd]
  have hkept : Kept file cap n db q t := h.keeps hframes.keepsPages hpins rfl rfl h.marked
    (hframes.fields ▸ h.file) ⟨hcoh, hframes.fields.trans h.caches.fields, fun pid hpid hl =>
      (hsame pid hpid).trans (h.caches.content pid hpid hl)⟩
  have hroom' : dbHeaderC.size ≤ p.ps := hps ▸ hroom
  have hq := hflush
  rw [flushAll_eq hroom'] at hq
  have hclean (i : FrameId) : (frameIds.foldl writeDirty p).dirtyAt i = false :=
    dirtyAt_foldl_writeDirty frameIds (Or.inl (mem_frameIds i))
  have hwrite := sameFrames_foldl_writeDirty frameIds p
  generalize frameIds.foldl writeDirty p = r at hq hclean hwrite
  have hclean' (i : FrameId) : q.dirtyAt i = false := by
    rw [← Option.some.inj hq]
    exact hclean i
  refine ⟨q, hflush, hkept, ⟨?_, fun pid hpid => ?_⟩, hclean'⟩
  · -- page 0 is the header and zeros
    have hheader : db.header = p.fields.header := congrArg PagerFields.header h.caches.fields.symm
    rw [← Option.some.inj hq, hheader, ← h.caches.fields]
    have hlen : (dbHeaderC.put (zeroPage p.fields.pageSize) 0 p.fields.header).length = r.ps := by
      rw [hwrite.ps, dbHeaderC.length_put]
      · exact List.length_replicate
      · rw [zeroPage, List.length_replicate, Nat.zero_add]
        exact hroom'
    show (r.rawWrite 0 _).rawRead 0 = _
    exact rawRead_rawWrite_same 0 hlen
  · -- a page in a frame is in the file because the frame is not dirty
    rw [← hkept.caches.content pid hpid id]
    by_cases hex : ∃ i, q.Holds i pid
    · obtain ⟨i, hi⟩ := hex
      have hdirty : (q.frames i).isDirty = false := by
        have hi' := hclean' i
        rw [dirtyAt, hi.1] at hi'
        exact hi'
      rw [content_of_holds hkept.ordered.distinct hi]
      exact hcoh.backed i pid hi hdirty (by rw [ht]; exact List.not_mem_nil)
    · exact (content_of_absent fun i hi => hex ⟨i, hi⟩).symm

/-- A database that `pager_open` finds again: the header has its own page size and the magic, and
    the last heap page is the end of the chain. -/
structure Recoverable (db : Db) : Prop where
  pageSize : db.header.pageSize = db.fields.pageSize
  magic : magicOk db.header = true
  last : ∃ l, Visits (nextHeap db) 0 db.header.firstHeapPageId l ∧
    db.fields.lastHeapPageId = l.getLastD 0

theorem filePageSize_eq {disk : Nat → UInt8} {m : Nat} (hm : 16 ≤ m) :
    filePageSize disk = (dbHeaderC.get (readFile disk m) 0).pageSize := by
  have h16 : readFile disk 16 = slice (readFile disk m) 0 16 := by
    rw [readFile, readFile, slice, List.drop_zero, ← List.map_take, List.take_range, Nat.min_eq_left hm]
  have hget (bs : List UInt8) : (dbHeaderC.get bs 0).pageSize = u32.get bs 12 := by
    simp only [dbHeaderC, Codec.get_iso, Codec.get_prod, u32_size, Nat.zero_add]
    rfl
  rw [hget, filePageSize, h16, Codec.get, Codec.get, slice_slice _ _ _ _ _ (by decide), Nat.zero_add]

/-- What `pager_open` reads in the file of a pager that was flushed -/
theorem Written.fileDb (hw : Written db p) (hrec : Recoverable db) (hroom : dbHeaderC.size ≤ p.ps)
    (hfields : p.fields = db.fields) : filePageSize p.disk = db.fields.pageSize ∧
      fileHeader p.disk = db.header ∧ (MiniDb.Pager.fileDb p.disk).pages = p.rawRead := by
  have hps : p.ps = db.fields.pageSize.toNat := by rw [ps, hfields]
  have hread : readFile p.disk db.fields.pageSize.toNat =
      dbHeaderC.put (zeroPage db.fields.pageSize) 0 db.header := by
    rw [← hw.header, readFile, rawRead, hps]
    exact List.map_congr_left fun i _ => by rw [UInt32.toNat_zero, Nat.zero_mul, Nat.zero_add]
  have hget : dbHeaderC.get (readFile p.disk db.fields.pageSize.toNat) 0 = db.header := by
    rw [hread]
    apply dbHeaderC.get_put_same
    rw [zeroPage, List.length_replicate, Nat.zero_add, ← hps]
    exact hroom
  have hsize : filePageSize p.disk = db.fields.pageSize := by
    have hmin : 16 ≤ dbHeaderC.size := by decide
    rw [filePageSize_eq (hmin.trans (hps ▸ hroom)), hget]
    exact hrec.pageSize
  have hheader : fileHeader p.disk = db.header := by rw [fileHeader, hsize, hget]
  refine ⟨hsize, hheader, funext fun pid => rawRead_congr ?_ fun i _ => rfl⟩
  rw [hps, ← hsize]
  rfl

/-- Closing and opening again leaves a pager that stands for the same database. -/
theorem Kept.reopen {cap' m : Nat} (h : Kept file cap n db p ⟨[], recent, []⟩)
    (hrec : Recoverable db) (hroom : dbHeaderC.size ≤ file.pageSize.toNat) (hlong : 16 ≤ size)
    (hcap : cap' + Ledger.memory < maxFrames) (hm : m + maxPages ≤ 2 ^ 63) :
    ∃ disk p' recent', p.close = some disk ∧ openFile size disk = .ok (some p') ∧
      Kept file cap' m db p' ⟨[], recent', []⟩ := by
  obtain ⟨q, hflush, hkept, hw, -⟩ := h.flushAll rfl hroom
  obtain ⟨l, hchain, hlast⟩ := hrec.last
  have hps : q.ps = file.pageSize.toNat := congrArg UInt32.toNat hkept.pageSize
  have hfields := hkept.caches.fields
  have hdb : db.fields.pageSize = file.pageSize := hfields ▸ hkept.pageSize
  obtain ⟨hsize, hheader, hpages⟩ := hw.fileDb hrec (hps ▸ hroom) hfields
  -- the pages of the chain are data pages
  have hnext (pid : PageId) (hpid : pid ≠ 0) : nextHeap (fileDb q.disk) pid = nextHeap db pid := by
    rw [nextHeap, hpages, hw.pages pid hpid, nextHeap]
  have hopens : Opens size q.disk l := by
    refine ⟨hlong, ?_, hheader ▸ hrec.magic, ?_⟩
    · rw [hsize, hdb]
      exact hroom
    · rw [hheader]
      exact hchain.congr hnext
  obtain ⟨p', recent', hopen, hkept', -⟩ := hopens.openFile hcap hm
  refine ⟨q.disk, p', recent', by rw [close, hflush]; rfl, hopen, ?_⟩
  have hid : (fileFields q.disk).fileId = file := by
    rw [← hkept.file, hfields]
    show FileId.mk (filePageSize q.disk) (fileHeader q.disk).stamp = _
    rw [hsize, hheader]
    rfl
  -- the new pager has read the same header, and the last heap page of the chain
  rw [hid] at hkept'
  refine hkept'.congr ?_ fun pid hpid => ?_
  · show db.fields = ⟨filePageSize q.disk, fileHeader q.disk, l.getLastD 0⟩
    rw [hsize, hheader, ← hlast]
    rfl
  · rw [← hw.pages pid hpid, ← hpages]
    rfl

end Closing

end Pager

end MiniDb
