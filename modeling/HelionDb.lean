import HelionDb.KeyPairs
import HelionDb.Loop
import HelionDb.Reach
import HelionDb.Types
import HelionDb.KeyedList
import HelionDb.Btree
import HelionDb.Table
import HelionDb.TableIndexes
import HelionDb.Mvcc
import HelionDb.Wal
import HelionDb.Catalog
import HelionDb.Engine
import HelionDb.Executor
import HelionDb.Chains
import HelionDb.Commit
import HelionDb.Serial
import HelionDb.WellFormed
import HelionDb.IndexDefinitions
import HelionDb.ChainRule
import HelionDb.Session
import HelionDb.IndexMaintenance
import HelionDb.Steady
import HelionDb.IndexConsistency
import HelionDb.Statements
import HelionDb.Uniqueness
import HelionDb.RecoveryChains
import HelionDb.CrashAtomicity
import HelionDb.SnapshotStability
import HelionDb.FirstCommitter
import HelionDb.Concurrent
import HelionDb.ConcurrentCommit
import HelionDb.CheckpointRace
import HelionDb.Users
import HelionDb.Permissions
import HelionDb.Database
import HelionDb.UserRecovery
import HelionDb.PermissionRecovery
import HelionDb.Restarts
import HelionDb.Sql
import HelionDb.Eval
import HelionDb.Planner
import HelionDb.Query
import HelionDb.ExecuteAs
import HelionDb.Privileges
import HelionDb.PlannedQuery
import HelionDb.OutputCoverage
import HelionDb.Relational
import HelionDb.Noninterference
import HelionDb.Protocol
import HelionDb.Server
import HelionDb.Streams
import HelionDb.StreamIsolation
import HelionDb.PreparedStatements
import HelionDb.DroppedUsers
import HelionDb.Lexer
import HelionDb.Substitution
import HelionDb.StatementPhases
import HelionDb.ConcurrentInserts
import HelionDb.Contents
import HelionDb.ConcurrentStatements
import HelionDb.IndexDdl
import HelionDb.TableDdl
import HelionDb.Json
import HelionDb.WhereClause
import HelionDb.Structured
import HelionDb.RowWrites
import HelionDb.SchemaInvariant
import HelionDb.SchemaRuns
import HelionDb.SqlExpr
import HelionDb.ScalarLiterals
import HelionDb.StructuredWrites
import HelionDb.WriteAgreement
import HelionDb.Like
import HelionDb.Wildcard
import HelionDb.WhereMeaning
import HelionDb.WhereFilter
import HelionDb.WhereFields
import HelionDb.WhereObjects
import HelionDb.Kleene
import HelionDb.SqlMeaning
import HelionDb.SqlConversion
import HelionDb.Locality
import HelionDb.Pushdown
import HelionDb.PushedPlans
import HelionDb.SnapshotRace
import HelionDb.TimeTravel
import HelionDb.FailedTransactions
import HelionDb.LogFailures
import HelionDb.KeyEquality
import HelionDb.IndexScan
import HelionDb.EquiJoins
import HelionDb.IndexJoin
import HelionDb.JoinedLists
import HelionDb.HashJoin
import HelionDb.ChangeReplay
import HelionDb.DiskEngine
import HelionDb.DiskReload
import HelionDb.EngineMirror
import HelionDb.FindMany
import HelionDb.NestedRows
import HelionDb.IncludeJoin
import HelionDb.NestedIncludes
import HelionDb.ThreeValues
import HelionDb.Evaluators
import HelionDb.Comparators
import HelionDb.ValueOrder
import HelionDb.SortKeys
import HelionDb.NumericLiterals
import HelionDb.IntegerColumns
import HelionDb.InsertPlans
import HelionDb.SelectLists
import HelionDb.IntegerArithmetic
import HelionDb.Revocations
import HelionDb.InsertGrants
import HelionDb.SqlStatement
import HelionDb.SelectExpressions
import HelionDb.FromClauses
import HelionDb.StatementClauses
import HelionDb.ByteOffsets
import HelionDb.Parser
import HelionDb.KeywordSearch
import HelionDb.UserPasswords
import HelionDb.IndexStatements
import HelionDb.ParserPanics
import HelionDb.OwnStatements
import HelionDb.EngineClauses
import HelionDb.StatementSequences
import HelionDb.Principals
import HelionDb.CreateRequests
import HelionDb.Representatives
import HelionDb.NestedObjects
import HelionDb.IncludedRows
import HelionDb.FlatResults
import HelionDb.Migrations
import HelionDb.StoppedFlushes
import HelionDb.RestoredTables
import HelionDb.Frames
import HelionDb.WalBuffer
import HelionDb.AppendedRecords
import HelionDb.TracedReplay
import HelionDb.LostRecords
import HelionDb.RecoveredRows
import HelionDb.SingleInserts
import HelionDb.Conjunctions
import HelionDb.SideLocality
import HelionDb.WidenedColumns
import HelionDb.NestedLoops
import HelionDb.IndexCalls
import HelionDb.IndexUpdates
import HelionDb.OptimizedPlans
import HelionDb.ClientQuery
import HelionDb.IndexRanges
import HelionDb.PlainRuns
import HelionDb.PlainRequests
import HelionDb.OldFormat
