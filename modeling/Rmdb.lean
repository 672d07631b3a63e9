import Rmdb.Lib.BinSearch
import Rmdb.Lib.Run
import Rmdb.Lib.Chase
import Rmdb.Index.Node
import Rmdb.Index.Handle
import Rmdb.Index.Key
import Rmdb.Index.Levels
import Rmdb.Index.Climb
import Rmdb.Index.Shrink
import Rmdb.Index.Balance
import Rmdb.Index.Tree
import Rmdb.Index.Insert
import Rmdb.Index.Delete
import Rmdb.Index.Refine
import Rmdb.Index.Reopen
import Rmdb.Txn.Types
import Rmdb.Txn.Ser
import Rmdb.Txn.SerGraph
import Rmdb.Txn.Manager
import Rmdb.Txn.Finish
import Rmdb.Txn.Wal
import Rmdb.Exec.Scan
import Rmdb.Exec.Write
import Rmdb.Exec.Select
import Rmdb.Exec.Session
import Rmdb.Exec.Load
import Rmdb.Row.Stmt
import Rmdb.Row.Finish
import Rmdb.Row.Step
import Rmdb.Row.Ends
import Rmdb.Row.Load
import Rmdb.Txn.Words
import Rmdb.Mvcc.Chains
import Rmdb.Mvcc.Tracks
import Rmdb.Mvcc.Held
import Rmdb.Mvcc.Recent
import Rmdb.Mvcc.Increment
import Rmdb.Mvcc.Latched
import Rmdb.Mvcc.Versioned
import Rmdb.Mvcc.Locks
import Rmdb.Mvcc.Gate
import Rmdb.Mvcc.GateInv
import Rmdb.Mvcc.GateSound
import Rmdb.Mvcc.Sections
import Rmdb.Mvcc.Clock
import Rmdb.Mvcc.Visible
import Rmdb.Mvcc.Atomic
import Rmdb.Recovery.Replay
import Rmdb.Recovery.Value
import Rmdb.Recovery.History
import Rmdb.Recovery.Correct
import Rmdb.Recovery.Sessions
import Rmdb.Recovery.Restart
import Rmdb.Recovery.Server
import Rmdb.Wal.Frame
import Rmdb.Wal.Scan
import Rmdb.Wal.RoundTrip
import Rmdb.Wal.LogManager
import Rmdb.Wal.Durable
import Rmdb.Wal.Round
import Rmdb.Wal.Calls
import Rmdb.Wal.Checkpoint
import Rmdb.Wal.Conns
import Rmdb.Wal.Pages
import Rmdb.Wal.WriteAhead
import Rmdb.Wal.Size
import Rmdb.Lock.Exclusive
import Rmdb.Lock.Deadlock
import Rmdb.Buffer.Pool
import Rmdb.Buffer.Frames
import Rmdb.Buffer.Contents
import Rmdb.Buffer.Calls
import Rmdb.Buffer.Refine
import Rmdb.Buffer.Threads
import Rmdb.Buffer.Sound
import Rmdb.Buffer.Stale
import Rmdb.Buffer.Failures
import Rmdb.Buffer.Cleaner
import Rmdb.Buffer.Files
import Rmdb.Session.Handlers
import Rmdb.Session.Explicit
import Rmdb.Lib.FloatOrder
import Rmdb.Lib.Segment
import Rmdb.Query.RangeScan
import Rmdb.Query.ScanIter
import Rmdb.Mvcc.Conflict
import Rmdb.Query.Readers
import Rmdb.Mvcc.DelKeys
import Rmdb.Mvcc.Pruned
import Rmdb.Mvcc.Refused
import Rmdb.Mvcc.Unique
import Rmdb.Mvcc.Assign
import Rmdb.Index.Scan
import Rmdb.Record.FreeList
import Rmdb.Wal.Decode
import Rmdb.Sql.Sum
import Rmdb.Sql.Union
import Rmdb.Buffer.Replacer
import Rmdb.Lib.Cycle
import Rmdb.Lock.Victim
import Rmdb.Lib.Runs
import Rmdb.Wal.ByteDiff
import Rmdb.Lib.Iter
import Rmdb.Query.JoinIter
import Rmdb.Lib.Decimal
import Rmdb.Lib.Grammar
import Rmdb.Lib.SortedMap
import Rmdb.Catalog.Stream
import Rmdb.Catalog.Meta
import Rmdb.Lib.Format
import Rmdb.Lib.BigEndian
import Rmdb.Wire.Reader
import Rmdb.Wire.Params
import Rmdb.Wire.Sink
import Rmdb.Wire.Request
import Rmdb.Wire.Accept
import Rmdb.Lib.Munch
import Rmdb.Parser.Lexer
import Rmdb.Parser.Grammar
import Rmdb.Parser.Lexemes
import Rmdb.Parser.Fast
import Rmdb.Parser.Pieces
import Rmdb.Parser.Agree
import Rmdb.Parser.Update
import Rmdb.Wire.Bind
import Rmdb.Wire.Substitute
import Rmdb.Sql.Insert
import Rmdb.Sql.InsertArity
import Rmdb.Query.Where
import Rmdb.Query.Propagate
import Rmdb.Lib.StableSort
import Rmdb.Lib.Throws
import Rmdb.Sql.Pipeline
import Rmdb.Wire.Socket
import Rmdb.Wire.Response
import Rmdb.Wire.Select
import Rmdb.Wire.Connection
import Rmdb.Wire.Statements
import Rmdb.Catalog.Ddl
import Rmdb.Catalog.Kept
import Rmdb.Catalog.Opened
import Rmdb.Catalog.Statements
