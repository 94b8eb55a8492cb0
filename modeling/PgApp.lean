import PgApp.Interleave.Prog
import PgApp.Interleave.System
import PgApp.Interleave.Slots
import PgApp.Interleave.Account
import PgApp.Core.Base
import PgApp.Core.Validation
import PgApp.Mq.Tables
import PgApp.Mq.Stmt
import PgApp.Mq.Store
import PgApp.Mq.History
import PgApp.Mq.Frame
import PgApp.Mq.Conserve
import PgApp.Mq.Sends
import PgApp.Mq.Autocommit
import PgApp.Mq.Rows
import PgApp.Mq.Delivery
import PgApp.Mq.Tokens
import PgApp.Mq.Acks
import PgApp.Mq.Reads
import PgApp.Mq.Redelivery
import PgApp.Mq.Window
import PgApp.Mq.Footprint
import PgApp.Mq.Isolation
import PgApp.Mq.Alone
import PgApp.Mq.Channel
import PgApp.Mq.Unknown
import PgApp.Mq.DeadLetters
import PgApp.Mq.ReadAlone
import PgApp.Mq.BatchRun
import PgApp.Mq.Batch
import PgApp.Config.Tables
import PgApp.Config.Stmt
import PgApp.Config.Store
import PgApp.Config.Locks
import PgApp.Config.Moves
import PgApp.Config.Calls
import PgApp.Config.Snapshot
import PgApp.Config.Releases
import PgApp.Config.GetRelease
import PgApp.Config.Watch
import PgApp.Config.WatchClient
import PgApp.Config.SchemaGate
import PgApp.Cache.Tables
import PgApp.Cache.Integer
import PgApp.Cache.Stmt
import PgApp.Cache.Store
import PgApp.Cache.Rows
import PgApp.Cache.Alone
import PgApp.Cache.Abstract
import PgApp.Cache.Refine
import PgApp.Cache.Simulation
import PgApp.Cache.Capacity
import PgApp.Cache.Frame
import PgApp.Cache.Stamps
import PgApp.Cache.LruPrefix
import PgApp.Cache.Survival
import PgApp.Cache.WriteCases
import PgApp.Cache.WriteUse
import PgApp.Cache.Oversize
import PgApp.Cache.Numbers
import PgApp.Cache.Locks
import PgApp.Cache.Order
import PgApp.Cache.Programs
import PgApp.Cache.Sweep
import PgApp.Cache.Generations
import PgApp.Cache.Invalidation
import PgApp.Cache.SetNx
import PgApp.Cache.Eviction
import PgApp.Cache.OneKey
import PgApp.Cache.Contention
import PgApp.Cache.Register
import PgApp.Cache.Issued
import PgApp.Cache.Cleanup
import PgApp.Server.CacheGrpc
import PgApp.Auth.Store
import PgApp.Auth.Gate
import PgApp.Auth.Ledger
import PgApp.Auth.Credentials
import PgApp.Interleave.Serving
import PgApp.Admin.Stmt
import PgApp.Admin.Store
import PgApp.Server.AdminHttp
import PgApp.Server.AdminFrame
import PgApp.Paging.Walk
import PgApp.Core.Calendar
import PgApp.Polling.Loops
import PgApp.Cache.Sound
import PgApp.Mq.Rooted
import PgApp.Config.Checksum
import PgApp.Server.ServerConfig
import PgApp.Server.Grpc
import PgApp.Server.Lists
import PgApp.Server.PagedLists
import PgApp.Server.CacheUsage
import PgApp.Server.QueueFigures
import PgApp.Server.LogFilter
import PgApp.Server.Limits
import PgApp.Server.Envelope
import PgApp.Server.LongPoll
import PgApp.Server.Durations
import PgApp.Server.WatchRpc
import PgApp.Core.Identifiers
import PgApp.Mq.Ceiling
import PgApp.Interleave.Part
import PgApp.Interleave.Dropped
import PgApp.Mq.Listen
import PgApp.Mq.Notices
import PgApp.Mq.SendRun
import PgApp.Mq.Announce
import PgApp.Server.MqService
import PgApp.Server.Listening
import PgApp.Server.MqDropped
import PgApp.Server.MqWakeups
import PgApp.Interleave.Serial
import PgApp.Keyed.Lists
import PgApp.Config.Versioned
import PgApp.Config.Documents
import PgApp.Config.SerialCalls
import PgApp.Config.SerialAnswers
import PgApp.Server.ConfigService
import PgApp.Server.ConfigSerial
import PgApp.Mq.Settled
import PgApp.Server.MqDelivery
import PgApp.Keyed.Forgetful
import PgApp.Cache.Forgetful
import PgApp.Server.CacheService
import PgApp.Keyed.Tally
import PgApp.Server.HealthGrpc
