import MiniDb.Lib.Bytes
import MiniDb.Lib.Free
import MiniDb.Lib.Lists
import MiniDb.Lib.Runs
import MiniDb.Lib.CText
import MiniDb.PageFormat
import MiniDb.Pager.Interface
import MiniDb.Pager.Logic
import MiniDb.Pager.Alloc
import MiniDb.Lib.Select
import MiniDb.Pager.Cache
import MiniDb.Pager.CacheSpec
import MiniDb.Pager.Requests
import MiniDb.Pager.Watermarks
import MiniDb.Pager.Retention
import MiniDb.Pager.Transparent
import MiniDb.Pager.Allocation
import MiniDb.Pager.Ledger
import MiniDb.Pager.Counters
import MiniDb.Bptree.Node
import MiniDb.Bptree.NodeSpec
import MiniDb.Bptree.Code
import MiniDb.Bptree.NodeLoops
import MiniDb.Bptree.Tree
import MiniDb.Bptree.SearchSpec
import MiniDb.Bptree.ParentSpec
import MiniDb.Bptree.InsertSpec
import MiniDb.Bptree.RepairSpec
import MiniDb.Bptree.DeleteSpec
import MiniDb.Bptree.Runs
import MiniDb.Bptree.Invariants
import MiniDb.Bptree.WellFormed
import MiniDb.Bptree.Calls
import MiniDb.Bptree.Pins
import MiniDb.Bptree.Print
import MiniDb.Lib.Chains
import MiniDb.Heap.Code
import MiniDb.Heap.PageSpec
import MiniDb.Heap.Pins
import MiniDb.Heap.Spec
import MiniDb.Heap.Runs
import MiniDb.Heap.Reuse
import MiniDb.Pager.Files
import MiniDb.Storage
import MiniDb.Accounting
import MiniDb.Sql.Schema
import MiniDb.Sql.SchemaSpec
import MiniDb.Sql.Statement
import MiniDb.Sql.Executor
import MiniDb.Sql.CreateSpec
import MiniDb.Sql.Parser
import MiniDb.Sql.ParserSpec
import MiniDb.Sql.Cursor
import MiniDb.Sql.StatementText
import MiniDb.Sql.RoundTrip
import MiniDb.Sql.WrittenLists
import MiniDb.Sql.LongLiterals
import MiniDb.Sql.Accepted
import MiniDb.Sql.CreateFrame
import MiniDb.Sql.Table
import MiniDb.Sql.TableSpec
import MiniDb.Sql.TableRuns
import MiniDb.Sql.Resolution
import MiniDb.Sql.Pins
import MiniDb.Sql.Cost
import MiniDb.Repl.Code
import MiniDb.Repl.Reports
import MiniDb.Repl.Session
import MiniDb.Repl.Invocations
import MiniDb.Repl.Restart
import MiniDb.Repl.Reads
