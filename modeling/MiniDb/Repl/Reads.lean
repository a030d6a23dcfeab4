import MiniDb.Repl.Invocations

/-!
# Calls that only read

SELECT, EXPLAIN and the reports request pages, look at them and release them.  No page becomes
dirty, so the program writes nothing into the file but the header, as it has read it.

## Key results

- `Reads.onlyReads`: what such a routine does to the pager
- `main_reads`: the file that a call leaves
-/

namespace MiniDb

open Bytes CText Free Pager Runs

/-! ## Routines -/

/-- The operations that change neither a page nor a field -/
def PagerOp.Reads : PagerOp → Prop
  | .getPage _ | .load _ | .unpin _ | .getFields | .note _ => True
  | .store .. | .markDirty _ | .setFields _ | .setHeaderDirty => False

/-- A routine that performs no others -/
abbrev Reads {α : Type} (r : Routine α) : Prop := Uses PagerOp.Reads r

section Calls

theorem reads_getPage? (pid : PageId) : Reads (pagerGetPage? pid) := Uses.op trivial

theorem reads_getPage (pid : PageId) : Reads (pagerGetPage pid) := by
  refine (reads_getPage? pid).bind fun ok => ?_
  cases ok with
  | false => trivial
  | true => trivial

theorem reads_load (pid : PageId) : Reads (load pid) := Uses.op trivial

theorem reads_unpin (pid : PageId) : Reads (pagerUnpin pid) := Uses.op trivial

theorem reads_getHeader : Reads getHeader := Uses.bind (Uses.op trivial) fun _ => trivial

theorem reads_note (e : Event) : Reads (note e) := Uses.op trivial

theorem reads_inBounds {α : Type} (x : Option α) : Reads (inBounds x) := Uses.ofOption _ x

/-- A page is requested and read. -/
theorem reads_page {α : Type} {pid : PageId} {f : Page → Routine α} (h : ∀ page, Reads (f page)) :
    Reads (do
      pagerGetPage pid
      let page ← load pid
      f page) :=
  (reads_getPage pid).bind fun _ => (reads_load pid).bind h

/-- A page is released before the routine goes on. -/
theorem reads_release {α : Type} {pid : PageId} {r : Routine α} (h : Reads r) : Reads (do
    pagerUnpin pid
    r) := (reads_unpin pid).bind fun _ => h

end Calls

/-! ## The tree -/

section Tree

theorem reads_internalChildForKey (pid : PageId) (page : Page) (key : Key) :
    Reads (internalChildForKey pid page key) := by
  refine (reads_inBounds _).bind fun entries => ?_
  dsimp only
  split
  · trivial
  · exact (reads_note _).bind fun _ => trivial

theorem reads_findLeafLoop (key : Key) (n : Nat) (pid : PageId) : Reads (findLeafLoop key n pid) := by
  induction n generalizing pid with
  | zero => trivial
  | succ n ih =>
    refine reads_page fun page => ?_
    split
    · exact reads_release trivial
    · exact (reads_internalChildForKey pid page key).bind fun child => reads_release (ih child)

theorem reads_bptreeSearch (key : Key) : Reads (bptreeSearch key) := by
  have hleaf : Reads (findLeaf key) := reads_getHeader.bind fun hdr => reads_findLeafLoop ..
  refine hleaf.bind fun leafPid => reads_page fun page => ?_
  refine (reads_inBounds _).bind fun entries => reads_release ?_
  split
  · trivial
  · trivial

theorem reads_bptreeHeight : Reads bptreeHeight := by
  have hloop : ∀ n h pid, Reads (bptreeHeightLoop n h pid) := by
    intro n
    induction n with
    | zero => exact fun _ _ => trivial
    | succ n ih =>
      intro h pid
      refine reads_page fun page => ?_
      split
      · exact reads_release trivial
      · exact reads_release (ih _ _)
  exact reads_getHeader.bind fun hdr => hloop _ _ _

theorem reads_printChildren {print : PageId → Routine (List TreeLine)} (h : ∀ c, Reads (print c))
    (pid : PageId) (n i : Nat) : Reads (printChildren print pid n i) := by
  induction n generalizing i with
  | zero => trivial
  | succ n ih =>
    refine (reads_load pid).bind fun page => (reads_inBounds _).bind fun e => ?_
    exact (h _).bind fun lines => (ih (i + 1)).bind fun rest => trivial

theorem reads_printNode (n : Nat) (pid : PageId) (depth : Nat) : Reads (printNode n pid depth) := by
  induction n generalizing pid depth with
  | zero => trivial
  | succ n ih =>
    refine reads_page fun page => ?_
    split
    · exact (reads_inBounds _).bind fun entries => reads_release trivial
    split
    · refine (reads_inBounds _).bind fun entries => reads_release (reads_page fun page => ?_)
      refine (ih _ _).bind fun first => ?_
      exact (reads_printChildren (fun c => ih c _) ..).bind fun rest => reads_release trivial
    · exact reads_release trivial

theorem reads_bptreePrint : Reads bptreePrint :=
  reads_getHeader.bind fun _ => (reads_printNode ..).bind fun _ => trivial

end Tree

/-! ## The heap and the pages -/

section Heap

theorem reads_fetchRow (ref : RowRef) (rowSize : UInt16) : Reads (fetchRow ref rowSize) := by
  have hfetch : Reads (heapFetch ref) := by
    refine (reads_getPage? ref.pageId).bind fun ok => ?_
    cases ok with
    | false => trivial
    | true =>
      refine (reads_load ref.pageId).bind fun page => (reads_inBounds _).bind fun slot => ?_
      split
      · exact reads_release trivial
      · trivial
  refine hfetch.bind fun found => ?_
  cases found with
  | none => trivial
  | some off =>
    refine (reads_load ref.pageId).bind fun page => (reads_inBounds _).bind fun row => ?_
    exact reads_release trivial

variable {γ : Type} {cb : List UInt8 → RowRef → γ → Bool × γ}

theorem reads_scanSlots (rowSize : UInt16) (pid : PageId) (page : Page) (n i : Nat) (ctx : γ) :
    Reads (scanSlots cb rowSize pid page n i ctx) := by
  induction n generalizing i ctx with
  | zero => trivial
  | succ n ih =>
    refine (reads_inBounds _).bind fun slot => ?_
    split
    · refine (reads_inBounds _).bind fun row => ?_
      dsimp only
      split
      · exact ih _ _
      · trivial
    · exact ih _ _

theorem reads_heapScan (rowSize : UInt16) (ctx : γ) : Reads (heapScan cb rowSize ctx) := by
  have hloop : ∀ n pid ctx, Reads (heapScanLoop cb rowSize n pid ctx) := by
    intro n
    induction n with
    | zero => exact fun _ _ => trivial
    | succ n ih =>
      intro pid ctx
      rw [heapScanLoop]
      split
      · trivial
      refine reads_page fun page => (reads_scanSlots ..).bind fun r => reads_release ?_
      split
      · exact ih _ _
      · trivial
  exact reads_getHeader.bind fun hdr => hloop _ _ _

theorem reads_cmdPages : Reads cmdPages := by
  have hcount : ∀ next n i c, Reads (cmdPagesLoop next n i c) := by
    intro next n
    induction n with
    | zero => exact fun _ _ => trivial
    | succ n ih =>
      intro i c
      rw [cmdPagesLoop]
      split
      · exact reads_page fun page => reads_release (ih _ _)
      · trivial
  have hfree : ∀ n fp, Reads (cmdPagesFree n fp) := by
    intro n
    induction n with
    | zero => exact fun _ => trivial
    | succ n ih =>
      intro fp
      rw [cmdPagesFree]
      split
      · trivial
      refine reads_page fun page => (reads_inBounds _).bind fun fph => reads_release ?_
      exact (ih _).bind fun rest => trivial
  refine reads_getHeader.bind fun hdr => (hcount ..).bind fun counts => ?_
  split
  · exact (hfree ..).bind fun fps => trivial
  · trivial

theorem reads_cmdStats : Reads cmdStats :=
  reads_getHeader.bind fun _ => reads_bptreeHeight.bind fun _ => trivial

end Heap

/-- A statement that only reads -/
theorem reads_execute {lib : CLib} {stmt : Statement} (h : stmt.type = .select ∨ stmt.type = .explain) :
    Reads (execute lib stmt) := by
  cases h with
  | inl hselect =>
    rw [execute_select lib hselect]
    split
    · refine (reads_bptreeSearch _).bind fun found => ?_
      cases found with
      | none => trivial
      | some ref =>
        refine reads_getHeader.bind fun hdr => (reads_fetchRow _ _).bind fun row => ?_
        cases row with
        | none => trivial
        | some row => exact (reads_inBounds _).bind fun values => trivial
    · refine reads_getHeader.bind fun hdr => (reads_heapScan _ _).bind fun sc => ?_
      exact (reads_inBounds _).bind fun sc => trivial
  | inr hexplain =>
    rw [execute, if_pos hexplain]
    exact (Uses.ofOption _ _).bind fun path => trivial

/-! ## The pager -/

section Pager

variable {p q : Pager}

/-- An operation that only reads writes nothing to the file, whether it has to evict a page or not. -/
theorem PagerOp.Reads.onlyReads {o : PagerOp} {r : o.Resp} (ho : o.Reads) (hp : p.Clean)
    (h : Pager.step o p = .ok (r, q)) : OnlyReads p q := by
  cases o with
  | getPage pid =>
    obtain ⟨-, rfl⟩ := Prod.mk.inj (Except.ok.inj h)
    exact hp.getPage pid
  | load pid =>
    cases hf : p.findFrame pid with
    | none =>
      simp only [Pager.step, hf] at h
      contradiction
    | some i =>
      simp only [Pager.step, hf, Except.ok.injEq, Prod.mk.injEq] at h
      exact h.2 ▸ hp.refl
  | unpin pid =>
    obtain ⟨-, rfl⟩ := Prod.mk.inj (Except.ok.inj h)
    exact hp.unpin pid
  | getFields =>
    obtain ⟨-, rfl⟩ := Prod.mk.inj (Except.ok.inj h)
    exact hp.refl
  | note e =>
    obtain ⟨-, rfl⟩ := Prod.mk.inj (Except.ok.inj h)
    exact hp.refl
  | store => exact ho.elim
  | markDirty => exact ho.elim
  | setFields => exact ho.elim
  | setHeaderDirty => exact ho.elim

theorem Reads.onlyReads {α : Type} {r : Routine α} {a : α} (hr : Reads r) (hp : p.Clean)
    (h : p.exec r = .ok (a, q)) : OnlyReads p q := by
  have hstep : ∀ o s b s', PagerOp.Reads o → OnlyReads p s → Pager.step o s = .ok (b, s') →
      OnlyReads p s' := fun o s b s' ho hs hrun => hs.trans (ho.onlyReads hs.clean hrun)
  exact Uses.run hr hstep hp.refl h

/-- A pager that has only read the file `disk`.  When the header was written back, the bytes behind
    it in page 0 have become 0. -/
structure ReadFrom (disk : Nat → UInt8) (p : Pager) : Prop where
  clean : p.Clean
  pageSize : p.fields.pageSize = filePageSize disk
  header : p.fields.header = fileHeader disk
  room : dbHeaderC.size ≤ (filePageSize disk).toNat
  bytes : ∀ off, p.disk off = disk off ∨
    dbHeaderC.size ≤ off ∧ off < (filePageSize disk).toNat ∧ p.disk off = 0

variable {disk : Nat → UInt8}

theorem ReadFrom.onlyReads (h : ReadFrom disk p) (hq : OnlyReads p q) : ReadFrom disk q where
  clean := hq.clean
  pageSize := hq.pageSize.trans h.pageSize
  header := hq.header.trans h.header
  room := h.room
  bytes := hq.disk ▸ h.bytes

/-- Clean frames are not written. -/
theorem Pager.Clean.foldl_writeDirty (h : p.Clean) (is : List FrameId) : is.foldl writeDirty p = p := by
  induction is with
  | nil => rfl
  | cons i is ih =>
    have hskip : p.writeDirty i = p := by
      rw [writeDirty, dirtyAt, h i, Bool.and_false]
      rfl
    rw [List.foldl_cons, hskip, ih]

/-- The header goes back as it was read. -/
theorem put_fileHeader (hroom : dbHeaderC.size ≤ (filePageSize disk).toNat) :
    dbHeaderC.put (zeroPage (filePageSize disk)) 0 (fileHeader disk) = readFile disk dbHeaderC.size ++
      List.replicate ((filePageSize disk).toNat - dbHeaderC.size) 0 := by
  have htake : slice (readFile disk (filePageSize disk).toNat) 0 dbHeaderC.size =
      readFile disk dbHeaderC.size := by
    rw [readFile, readFile, slice, List.drop_zero, ← List.map_take, List.take_range,
      Nat.min_eq_left hroom]
  have henc : dbHeaderC.enc (fileHeader disk) = readFile disk dbHeaderC.size := by
    rw [fileHeader, Codec.get, htake]
    exact dbHeaderC_exact _ (length_readFile disk dbHeaderC.size)
  rw [Codec.put, henc, splice, length_readFile, zeroPage, List.take_zero, List.nil_append,
    Nat.zero_add, List.drop_replicate]

theorem ReadFrom.flushAll (h : ReadFrom disk p) (hflush : p.flushAll = some q) : ReadFrom disk q := by
  have hps : p.ps = (filePageSize disk).toNat := congrArg UInt32.toNat h.pageSize
  rw [flushAll_eq (hps ▸ h.room), h.clean.foldl_writeDirty, h.pageSize, h.header,
    put_fileHeader h.room] at hflush
  obtain rfl := Option.some.inj hflush
  refine ⟨h.clean, h.pageSize, h.header, h.room, fun off => ?_⟩
  simp only [rawWrite, UInt32.toNat_zero, Nat.zero_mul, Nat.zero_add, Nat.zero_le, true_and,
    Nat.sub_zero, hps]
  by_cases hpage : off < (filePageSize disk).toNat
  · rw [if_pos hpage]
    by_cases hheader : off < dbHeaderC.size
    · -- a byte of the header
      left
      rw [List.getD_append _ _ _ _ (by rwa [length_readFile]), readFile, List.getD_eq_getElem?_getD,
        List.getElem?_map, List.getElem?_range hheader]
      rfl
    · right
      refine ⟨Nat.le_of_not_lt hheader, hpage, ?_⟩
      rw [List.getD_append_right _ _ _ _ (by rw [length_readFile]; omega)]
      apply List.getD_replicate
      rw [length_readFile]
      omega
  · rw [if_neg hpage]
    exact h.bytes off

end Pager

/-! ## Calls of the program -/

/-- The lines that only read: a statement is a SELECT or an EXPLAIN, or it is refused. -/
def Command.Reads (lib : CLib) : Command → Prop
  | .sql line => ∀ stmt, parse lib line = .ok stmt → stmt.type = .select ∨ stmt.type = .explain
  | _ => True

/-- The test of a command -/
def Command.reads (lib : CLib) (c : Command) : Bool :=
  match c with
  | .sql line =>
    match parse lib line with
    | .ok stmt => stmt.type = .select || stmt.type = .explain
    | .error _ => true
  | _ => true

theorem Command.Reads.of_reads {lib : CLib} {c : Command} (h : c.reads lib = true) : c.Reads lib := by
  cases c with
  | sql line =>
    intro stmt hparse
    simp only [Command.reads, hparse, Bool.or_eq_true, decide_eq_true_eq] at h
    exact h
  | _ => trivial

section Session

variable {lib : CLib} {disk : Nat → UInt8} {s s' : Session}

theorem ReadFrom.run {α : Type} {r : Routine α} {a : α} (h : ReadFrom disk s.pager) (hr : Reads r)
    (hrun : s.run r = .ok (a, s')) : ReadFrom disk s'.pager := by
  rw [Session.run] at hrun
  cases hexec : s.pager.exec r with
  | error e =>
    rw [hexec] at hrun
    contradiction
  | ok out =>
    rw [hexec] at hrun
    obtain ⟨-, rfl⟩ := Prod.mk.inj (Except.ok.inj hrun)
    exact h.onlyReads (hr.onlyReads h.clean hexec)

/-- A report that only reads -/
theorem ReadFrom.report {α : Type} {r : Routine α} {print : α → Printed} {out : Printed}
    (h : ReadFrom disk s.pager) (hr : Reads r)
    (hrun : (do let t ← s.run r; return (print t.1, t.2)) = .ok (out, s')) :
    ReadFrom disk s'.pager := by
  cases hexec : s.run r with
  | error e =>
    rw [hexec] at hrun
    contradiction
  | ok res =>
    rw [hexec] at hrun
    obtain ⟨-, rfl⟩ := Prod.mk.inj (Except.ok.inj hrun)
    exact h.run hr hexec

theorem ReadFrom.execute {stmt : Statement} {out : Printed} (h : ReadFrom disk s.pager)
    (hstmt : stmt.type = .select ∨ stmt.type = .explain)
    (hrun : s.execute lib stmt = .ok (out, s')) : ReadFrom disk s'.pager := by
  -- the counters are set to zero in debug mode
  obtain ⟨t, ht, hrun⟩ : ∃ t : Session, ReadFrom disk t.pager ∧ (do
      let u ← t.run (MiniDb.execute lib stmt)
      return (Printed.result u.1 (if u.2.debugMode then some u.2.pager.stats else none), u.2)) =
        .ok (out, s') := by
    refine ⟨if s.debugMode then { s with pager := s.pager.resetStats } else s, ?_, hrun⟩
    split
    · exact ⟨h.clean, h.pageSize, h.header, h.room, h.bytes⟩
    · exact h
  cases hexec : t.run (MiniDb.execute lib stmt) with
  | error e =>
    rw [hexec] at hrun
    contradiction
  | ok res =>
    rw [hexec] at hrun
    obtain ⟨-, rfl⟩ := Prod.mk.inj (Except.ok.inj hrun)
    exact ht.run (reads_execute hstmt) hexec

theorem ReadFrom.step {c : Command} {out : Printed} (h : ReadFrom disk s.pager) (hc : c.Reads lib)
    (hrun : s.step lib c = .ok (out, s')) : ReadFrom disk s'.pager := by
  cases c with
  | blank =>
    obtain ⟨-, rfl⟩ := Prod.mk.inj (Except.ok.inj hrun)
    exact h
  | btree =>
    let print : PageId × List TreeLine → Printed := fun tree => .btree tree.1 tree.2
    have hprint : (do let t ← s.run bptreePrint; return (print t.1, t.2)) = .ok (out, s') := hrun
    exact h.report reads_bptreePrint hprint
  | pages => exact h.report reads_cmdPages hrun
  | stats => exact h.report reads_cmdStats hrun
  | log =>
    obtain ⟨-, rfl⟩ := Prod.mk.inj (Except.ok.inj hrun)
    exact h
  -- the flush writes page 0 as it stands in the file
  | flush =>
    rw [Session.step.eq_def] at hrun
    dsimp only at hrun
    cases hflush : s.pager.flushAll with
    | none =>
      rw [hflush] at hrun
      contradiction
    | some q =>
      rw [hflush] at hrun
      obtain ⟨-, rfl⟩ := Prod.mk.inj (Except.ok.inj hrun)
      exact h.flushAll hflush
  | debug =>
    obtain ⟨-, rfl⟩ := Prod.mk.inj (Except.ok.inj hrun)
    exact h
  | unknown line =>
    obtain ⟨-, rfl⟩ := Prod.mk.inj (Except.ok.inj hrun)
    exact h
  -- a statement is executed only when it was parsed
  | sql line =>
    rw [Session.step.eq_def] at hrun
    dsimp only at hrun
    cases hparse : parse lib line with
    | ok stmt =>
      rw [hparse] at hrun
      exact h.execute (hc stmt hparse) hrun
    | error e =>
      rw [hparse] at hrun
      cases e with
      | syntaxError =>
        obtain ⟨-, rfl⟩ := Prod.mk.inj (Except.ok.inj hrun)
        exact h
      | overrun => contradiction
      | pastNul => contradiction
      | nonTermination => contradiction

/-- Opening a file reads it. -/
theorem readFrom_openFile {size : Nat} {p : Pager} (h : Pager.openFile size disk = .ok (some p)) :
    ReadFrom disk p := by
  -- a file that is opened has a magic, a page size and a header
  have hlong : 16 ≤ size := by
    by_contra hshort
    rw [Pager.openFile, if_pos (Nat.lt_of_not_le hshort)] at h
    contradiction
  have hroom : dbHeaderC.size ≤ (filePageSize disk).toNat := by
    by_contra hsmall
    have hget : dbHeaderC.get? (readFile disk (filePageSize disk).toNat) 0 = none :=
      if_neg (by rwa [length_readFile, Nat.zero_add])
    rw [Pager.openFile, if_neg (Nat.not_lt.mpr hlong)] at h
    dsimp only at h
    rw [hget] at h
    contradiction
  rw [openFile_of_header hlong hroom] at h
  split at h
  next =>
    cases hexec : (initial (fileFields disk) disk).exec
        (lastHeapLoop maxPages (fileHeader disk).firstHeapPageId) with
    | error e =>
      rw [hexec] at h
      contradiction
    | ok out =>
      obtain ⟨u, q⟩ := out
      rw [hexec] at h
      dsimp only at h
      obtain rfl := Option.some.inj (Except.ok.inj h)
      have hclean : (initial (fileFields disk) disk).Clean := fun _ => rfl
      -- the walk to the last heap page fills the cache and changes nothing else
      have hreads := hclean.lastHeapLoop maxPages (fileHeader disk).firstHeapPageId q hexec
      exact ⟨hreads.clean, hreads.pageSize, hreads.header, hroom, fun off => Or.inl (congrFun hreads.disk off)⟩
  next => exact absurd (Except.ok.inj h).symm (Option.some_ne_none p)

end Session

/-- A call whose lines only read leaves a file with the bytes it found, but that page 0 is filled with
    zeros behind the header. -/
theorem main_reads {lib : CLib} {call : Invocation} {file : DbFile} {out : Option (List Printed)}
    {file' : Option DbFile} (hreads : ∀ c ∈ commands call.lines, c.Reads lib)
    (hrun : main lib call (some file) = .ok (out, file')) :
    ∃ left : DbFile, file' = some left ∧ ∀ off, left.bytes off = file.bytes off ∨
      dbHeaderC.size ≤ off ∧ off < (filePageSize file.bytes).toNat ∧ left.bytes off = 0 := by
  cases hopen : openOrCreate call.systemPageSize (some file) with
  | error e =>
    rw [main, hopen] at hrun
    contradiction
  | ok opened =>
    cases opened with
    | none =>
      -- the file is refused
      rw [main, hopen] at hrun
      obtain ⟨-, rfl⟩ := Prod.mk.inj (Except.ok.inj hrun)
      exact ⟨file, rfl, fun off => Or.inl rfl⟩
    | some p =>
      have hp : ReadFrom file.bytes p := readFrom_openFile hopen
      have hkeep : ∀ (c : Command) (s : Session), ReadFrom file.bytes s.pager → c.Reads lib →
          (∀ out s', s.step lib c = .ok (out, s') → ReadFrom file.bytes s'.pager) ∧
            ∀ e, s.step lib c = .error e → True :=
        fun c s hs hc => ⟨fun out s' hstep => hs.step hc hstep, fun _ _ => trivial⟩
      rw [main_eq hopen] at hrun
      cases hlines : runAll (Session.step lib) (commands call.lines) ⟨p, false, false⟩ with
      | error e =>
        rw [hlines] at hrun
        contradiction
      | ok res =>
        obtain ⟨outs, s⟩ := res
        rw [hlines] at hrun
        dsimp only at hrun
        have hs : ReadFrom file.bytes s.pager := (runAll_inv hkeep hp fun c hc =>
          hreads c.1 (op_mem_of_mem_calls hc)).1 outs s hlines
        -- closing writes the header back
        rw [Pager.close] at hrun
        cases hflush : s.pager.flushAll with
        | none =>
          rw [hflush] at hrun
          contradiction
        | some q =>
          rw [hflush] at hrun
          obtain ⟨-, rfl⟩ := Prod.mk.inj (Except.ok.inj hrun)
          exact ⟨_, rfl, (hs.flushAll hflush).bytes⟩

/-- The file of a call that fills a table -/
theorem isSome_filledFile : ((main CLib.wrapping ⟨700, ["CREATE TABLE t (n INT)",
    "INSERT INTO t VALUES (5)", "INSERT INTO t VALUES (7)"].map utf8⟩ none).toOption.bind
      Prod.snd).isSome = true := by
  decide +kernel

def filledFile : DbFile := Option.get _ isSome_filledFile

/-- A call that looks at the table -/
def lookingCall : Invocation :=
  ⟨4096, ["SELECT * FROM t", "EXPLAIN DELETE FROM t WHERE n = 5", ".btree", ".stats", ".pages",
    "SELECT * FROM t WHERE id = 2", "SELECT n FROM t", ".flush"].map utf8⟩

theorem main_reads_700 : ∃ out file', main CLib.wrapping lookingCall (some filledFile) = .ok (out, file') ∧
    ∃ left : DbFile, file' = some left ∧ ∀ off, left.bytes off = filledFile.bytes off ∨
      dbHeaderC.size ≤ off ∧ off < (filePageSize filledFile.bytes).toNat ∧ left.bytes off = 0 := by
  obtain ⟨res, hrun⟩ := exists_ok_of_isSome (show
    (main CLib.wrapping lookingCall (some filledFile)).toOption.isSome = true by decide +kernel)
  have hreads : ∀ c ∈ commands lookingCall.lines, c.reads CLib.wrapping = true := by decide +kernel
  exact ⟨res.1, res.2, hrun, main_reads (fun c hc => .of_reads (hreads c hc)) hrun⟩

end MiniDb
