import Twill.Value
import Twill.Sql
import Twill.Lib.Assoc
import Twill.Lib.Mvcc
import Twill.Lib.MvccFacts
import Twill.Lib.MvccOverlay
import Twill.Lib.Sort
import Twill.Lib.Except
import Twill.Vector
import Twill.Eval
import Twill.Rls
import Twill.Store
import Twill.Wal
import Twill.Select
import Twill.Relational
import Twill.Dml
import Twill.Ddl
import Twill.Conn
import Twill.StoreFacts
import Twill.Plan
import Twill.PlanFacts
import Twill.RlsWrite
import Twill.Upsert
import Twill.Steps
import Twill.DdlFacts
import Twill.Invariant
import Twill.RlsRead
import Twill.Snapshot
import Twill.Lib.MvccStamps
import Twill.Layers
import Twill.Pending
import Twill.Lib.MvccTrace
import Twill.Conflict
import Twill.Lib.Framing
import Twill.Storage.Types
import Twill.Storage.LocalFile
import Twill.Storage.LocalRecovery
import Twill.Storage.LocalFault
import Twill.Lib.Transition
import Twill.Storage.LocalOpen
import Twill.Storage.FsStore
import Twill.Lib.StateExcept
import Twill.Storage.ObjectStorage
import Twill.Storage.ObjectCodec
import Twill.Storage.CrcBursts
import Twill.Lib.Versions
import Twill.Storage.ObjectPages
import Twill.Storage.ObjectRuns
import Twill.Commit.GroupCommit
import Twill.Commit.CommitInvariant
import Twill.Commit.CommitSafety
import Twill.Storage.ObjectLog
import Twill.Storage.ObjectLogInvariant
import Twill.Storage.ObjectLogOrder
import Twill.Atomic
import Twill.Lib.MvccDurable
import Twill.Replay
import Twill.Mirror
import Twill.Savepoints
import Twill.Controller.Lifecycle
import Twill.Controller.LifecycleSafety
import Twill.Storage.Branch
import Twill.Storage.Line
import Twill.Storage.BranchView
import Twill.Storage.BranchIds
import Twill.Storage.LocalCrash
import Twill.Storage.LongWrites
import Twill.Storage.SubBranches
import Twill.Lib.Acyclic
import Twill.Views
import Twill.ViewCycles
import Twill.Expansion
import Twill.Termination
import Twill.VectorNodes
import Twill.IndexUpkeep
import Twill.IndexMirror
import Twill.Commit.WriteLane
import Twill.Commit.WriteLaneSafety
import Twill.Lib.Text
import Twill.Lex
import Twill.Statement
import Twill.Principal
import Twill.Server.Introspect
import Twill.LexFacts
import Twill.Server.Datapath
import Twill.Server.Routing
import Twill.Lib.Program
import Twill.Server.Session
import Twill.Server.ErrorRecovery
import Twill.Server.TransactionStatus
import Twill.Server.Portals
import Twill.Lib.Terminated
import Twill.RowKeys
import Twill.Lib.Binary64
import Twill.Compare
import Twill.Lib.KeyOrder
import Twill.OrderBy
import Twill.Cli.Migrate
import Twill.Cli.MigrateSafety
import Twill.Lib.Bytes
import Twill.Server.WireTypes
import Twill.Like
import Twill.Lib.Calendar
import Twill.Numerals
import Twill.Datetime
import Twill.StringLiterals
import Twill.EvalAlike
import Twill.Lib.JoinAlgebra
import Twill.Joins
import Twill.VectorGraph
import Twill.Json
import Twill.JsonText
import Twill.Lib.ByteReader
import Twill.WalBytes
import Twill.WalRoundTrip
import Twill.VectorPages
import Twill.PageRoundTrip
import Twill.Lib.Cursor
import Twill.SqlParser
import Twill.SetOperations
import Twill.Lib.Utf8
import Twill.Lib.CountedReader
import Twill.Server.Protocol
import Twill.Lib.MvccValues
import Twill.Autoincrement
import Twill.Widths
import Twill.Autocommit
import Twill.Server.JsonBody
import Twill.Server.PgrstInsert
import Twill.Server.JsonReader
import Twill.Server.JsonRows
import Twill.Server.JsonRoundTrip
import Twill.Lexemes
import Twill.Server.Placeholders
import Twill.Base64
