import Eddyq.Lib.Runs
import Eddyq.Lib.ZSet
import Eddyq.Job
import Eddyq.Redis.Store
import Eddyq.Redis.Group
import Eddyq.Redis.Jobs
import Eddyq.Redis.Claim
import Eddyq.Redis.Schedule
import Eddyq.Redis.System
import Eddyq.Redis.Cells
import Eddyq.Redis.Agreement
import Eddyq.Redis.Refinement
import Eddyq.Redis.Simulation
import Eddyq.Redis.Reached
import Eddyq.Lib.Rows
import Eddyq.Pg.Tables
import Eddyq.Pg.Admin
import Eddyq.Pg.Enqueue
import Eddyq.Pg.EnqueuePaths
import Eddyq.Pg.Claim
import Eddyq.Redis.Pass
import Eddyq.Redis.Cleanup
import Eddyq.Cleanups
import Eddyq.Lib.Walk
import Eddyq.Pg.Walks
import Eddyq.Pg.Verdict
import Eddyq.Pg.Schedule
import Eddyq.Pg.System
import Eddyq.Pg.Inversion
import Eddyq.Pg.Counters
import Eddyq.Pg.CounterRuns
import Eddyq.Pg.FanIn
import Eddyq.Pg.FanInRuns
import Eddyq.Pg.Callbacks
import Eddyq.Pg.Ticks
import Eddyq.Redis.Ticks
import Eddyq.Ticks
import Eddyq.Lib.Leases
import Eddyq.Pg.Leases
import Eddyq.Fencing
import Eddyq.Runtime.Held
import Eddyq.Runtime.Careful
import Eddyq.Pg.Backend
import Eddyq.Shutdown
import Eddyq.Redis.Firing
import Eddyq.Pg.Firing
import Eddyq.Pg.ScheduleRows
import Eddyq.Schedules
import Eddyq.Redeploys
import Eddyq.Lib.Rosters
import Eddyq.Pg.Rosters
import Eddyq.Redis.Rosters
import Eddyq.Rosters
import Eddyq.Redis.Gates
import Eddyq.Redis.ClaimSafety
import Eddyq.Dedup
import Eddyq.Lib.Lives
import Eddyq.Pg.Lives
import Eddyq.Redis.Lives
import Eddyq.Lives
import Eddyq.LifeCycle
import Eddyq.Pg.LifeCycle
import Eddyq.Redis.LifeCycle
import Eddyq.Twins
import Eddyq.Lib.Locks
import Eddyq.Pg.Transactions
import Eddyq.Pg.Budgets
import Eddyq.Pg.Interleaved
import Eddyq.Pg.Commits
import Eddyq.Pg.CapSafety
import Eddyq.Runtime.Flight
import Eddyq.Permits
import Eddyq.Lib.Elections
import Eddyq.Pg.Leader
import Eddyq.Redis.Leader
import Eddyq.Runtime.Leader
import Eddyq.Leaders
import Eddyq.Lib.Buckets
import Eddyq.Redis.Rates
import Eddyq.Pg.Rates
import Eddyq.Redis.Order
import Eddyq.Redis.Timed
import Eddyq.Turns
import Eddyq.Runtime.Beats
import Eddyq.Pg.Beats
import Eddyq.Redis.Beats
import Eddyq.Heartbeats
import Eddyq.Pg.Repairs
import Eddyq.Pg.Seeds
import Eddyq.Pg.Settings
import Eddyq.Pg.WorkConserving
import Eddyq.Redis.Seen
import Eddyq.Redis.Settings
import Eddyq.Settings
import Eddyq.Recovery
import Eddyq.Removal
import Eddyq.Redis.Stats
import Eddyq.Redis.Listing
import Eddyq.Dashboard
import Eddyq.Pg.StatsCache
import Eddyq.Lib.Best
import Eddyq.Globs
import Eddyq.Rules
import Eddyq.Redis.Retention
import Eddyq.Redis.Backfill
import Eddyq.Redis.Finalized
import Eddyq.Lib.Time
import Eddyq.Runtime.Retry
import Eddyq.Lib.Decimal
import Eddyq.Redis.Bulk
import Eddyq.Lib.Json
import Eddyq.Lib.Double
import Eddyq.Runtime.Envelope
import Eddyq.Pg.Sync
import Eddyq.JsonText
import Eddyq.Redis.Cjson
import Eddyq.Redis.ScheduleWire
import Eddyq.Redis.Carried
import Eddyq.Redis.ClaimWire
import Eddyq.Redis.Delivery
import Eddyq.Pg.Patterns
import Eddyq.Lib.LuaPatterns
import Eddyq.Redis.GlobPatterns
import Eddyq.Runtime.Abort
import Eddyq.Redis.Scores
import Eddyq.Pg.Migrate
import Eddyq.Pg.MigrateRuns
import Eddyq.Napi.Items
import Eddyq.Napi.Workers
import Eddyq.Napi.App
import Eddyq.Napi.Bulk
import Eddyq.Lib.Utf8
import Eddyq.Runtime.Truncation
import Eddyq.Lib.Templates
import Eddyq.Redis.Keys
import Eddyq.Runtime.Polling
import Eddyq.Runtime.Recovery
import Eddyq.Pg.Rollbacks
import Eddyq.Redis.Library
import Eddyq.Redis.Announcements
import Eddyq.Redis.RetentionText
import Eddyq.Lib.Logs
import Eddyq.Nest.Teardown
import Eddyq.Nest.Bootstrap
import Eddyq.Nest.Handle
