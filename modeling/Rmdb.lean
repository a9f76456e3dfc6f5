import Rmdb.Transaction.LockManager
import Rmdb.Index.IndexHandle
import Rmdb.Lib.Weave
import Rmdb.Index.Levels
import Rmdb.Lib.Separated
import Rmdb.Index.Search
import Rmdb.Index.Repair
import Rmdb.Index.Insert
import Rmdb.Index.Redistribute
import Rmdb.Index.Coalesce
import Rmdb.Index.Leaves
import Rmdb.Index.InsertEntry
import Rmdb.Index.DeleteEntry
import Rmdb.Index.Refinement
import Rmdb.Index.Structure
import Rmdb.Common.Value
import Rmdb.Execution.Table
import Rmdb.Execution.Executor
import Rmdb.Execution.Agreement
import Rmdb.Transaction.Abort
import Rmdb.Record.Scan
import Rmdb.Recovery.LogManager
import Rmdb.Common.Bytes
import Rmdb.Recovery.LogRecord
import Rmdb.Recovery.ReadLog
import Rmdb.Recovery.Identifiers
import Rmdb.Server.ClientHandler
import Rmdb.Server.Sessions
import Rmdb.Server.OneEnd
import Rmdb.Server.Settled
import Rmdb.Storage.BufferPool
import Rmdb.Storage.Transparency
import Rmdb.Common.Condition
import Rmdb.Optimizer.Analyze
import Rmdb.Optimizer.Planner
import Rmdb.Execution.QueryExecutor
import Rmdb.Optimizer.Placement
import Rmdb.Execution.Pass
import Rmdb.Execution.Meaning
import Rmdb.Execution.JoinCorrect
import Rmdb.System.SmManager
import Rmdb.System.InitTree
import Rmdb.System.Catalog
import Rmdb.System.Atomic
import Rmdb.Storage.DiskOutcome
import Rmdb.Storage.Discipline
import Rmdb.Record.PutBack
import Rmdb.Lib.Stream
import Rmdb.System.DbFile
import Rmdb.Transaction.LockSet
import Rmdb.Execution.Interface
import Rmdb.Lib.History
import Rmdb.Storage.Threads
import Rmdb.Storage.ThreadFrames
import Rmdb.Storage.ThreadPins
import Rmdb.Storage.ThreadNumbers
import Rmdb.Storage.Concurrent
import Rmdb.Execution.InsertRace
import Rmdb.Execution.Statements
import Rmdb.Execution.DirtyReads
import Rmdb.Lib.Loop
import Rmdb.Record.FreePages
import Rmdb.Recovery.Latch
import Rmdb.Recovery.ReadLoops
import Rmdb.Index.Scan
import Rmdb.Recovery.Compensation
import Rmdb.Index.Prefix
import Rmdb.Execution.Restart
import Rmdb.Execution.SortExecutor
import Rmdb.Execution.ExternalSort
import Rmdb.Common.Literal
import Rmdb.Execution.AggExecutor
import Rmdb.Execution.Limit
import Rmdb.Execution.Rollback
import Rmdb.Execution.Aggregates
import Rmdb.Lib.FloatOrder
import Rmdb.Optimizer.Compatible
import Rmdb.Common.DateTime
import Rmdb.Index.ValueOrder
import Rmdb.Common.Convert
import Rmdb.Execution.InsertStatement
import Rmdb.Execution.UpdateStatement
import Rmdb.Execution.SeqScan
import Rmdb.Lib.Operator
import Rmdb.Execution.Operators
import Rmdb.Execution.Protocol
import Rmdb.Execution.Reading
import Rmdb.Lib.Replay
import Rmdb.Recovery.RecoveryManager
import Rmdb.Lib.Recency
import Rmdb.Storage.Replacer
import Rmdb.Storage.FailedFetch
import Rmdb.Storage.Offsets
import Rmdb.System.IndexNames
import Rmdb.Server.RecordPrinter
import Rmdb.System.CsvLine
import Rmdb.System.LoadData
import Rmdb.Lib.Decoder
import Rmdb.System.IndexLayout
import Rmdb.Execution.DateTimes
import Rmdb.Execution.SortFiles
import Rmdb.Index.NodeSearch
import Rmdb.Recovery.AfterAborts
import Rmdb.Recovery.Restarts
import Rmdb.Transaction.Serial
import Rmdb.Execution.IndexScan
import Rmdb.Execution.RowValues
import Rmdb.Execution.AccessPath
import Rmdb.System.Reopen
import Rmdb.Record.PoolClose
