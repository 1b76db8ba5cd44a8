import Eddyq.Pg.Enqueue

/-!
# Verdicts, recovery and retention on Postgres

Every function that takes jobs out of `running` gives their slots back and settles their batches: `markCompleted`,
`markFailed`, and `recover`, the common body of `sweep_stale` and `reclaim_in_flight`, which decrements by aggregated
deltas. `cancel` takes pending jobs only. `reconcileCounters` restates the counters, `cleanup` deletes finalized rows.
-/

namespace Eddyq.Pg

open Eddyq.Lib

/-! ## Giving slots back -/

/-- `UPDATE eddyq_groups SET running_count = GREATEST(running_count - 1, 0) WHERE key = $1`. -/
def dropGroup (db : Db) (key : String) : Db :=
  { db with groups := updateWhere (·.key = key) (fun g => { g with
      runningCount := max (g.runningCount - 1) 0 }) db.groups }

/-- `UPDATE eddyq_queues SET running_count = GREATEST(running_count - 1, 0) WHERE name = $1`. -/
def dropQueue (db : Db) (name : String) : Db :=
  { db with queues := updateWhere (·.name = name) (fun q => { q with
      runningCount := max (q.runningCount - 1) 0 }) db.queues }

/-- Give back the slots of one job: its group's, if it has one, and its queue's. -/
def dropSlots (db : Db) (group : Option String) (queue : String) : Db :=
  dropQueue (match group with
    | some g => dropGroup db g
    | none => db) queue

/-- Settle the batch of a terminal job, if it has one. -/
def settleBatch (db : Db) (batch : Option BatchId) (o : TerminalOutcome) (now : ℤ) : Except Error Db :=
  match batch with
  | some b => settleTerminal db b o now
  | none => .ok db

/-! ## Verdicts -/

/-- The gate: `id = $1 AND state = 'running' AND worker_id = $2`. -/
def JobRow.leasedTo (id : JobId) (worker : WorkerId) (j : JobRow) : Bool :=
  j.id = id && j.running && j.workerId = some worker

/-- `SET state = 'completed', heartbeat_at = NULL, worker_id = NULL, finalized_at = NOW(), result = $3`. -/
def JobRow.complete (result : Option Json) (now : ℤ) (j : JobRow) : JobRow :=
  { j with state := .completed, heartbeatAt := none, workerId := none, finalizedAt := some now, result := result }

/-- `mark_completed`. -/
def markCompleted (db : Db) (id : JobId) (worker : WorkerId) (result : Option Json) (now : ℤ) : Except Error Db :=
  match db.jobs.find? (·.leasedTo id worker) with
  | none => .ok db
  | some j =>
    let db := { db with jobs := updateWhere (·.leasedTo id worker) (·.complete result now) db.jobs }
    settleBatch (dropSlots db j.groupKey j.queue) j.batchId .completed now

/-- `SET state = 'pending', heartbeat_at = NULL, worker_id = NULL, scheduled_at = $2, errors = ...`. -/
def JobRow.retry (at' : ℤ) (error : Json) (j : JobRow) : JobRow :=
  { j with
    state := .pending, heartbeatAt := none, workerId := none, scheduledAt := at', errors := appendError j.errors error }

/-- `SET state = 'failed', heartbeat_at = NULL, worker_id = NULL, errors = ..., finalized_at = NOW()`. -/
def JobRow.fail (error : Json) (now : ℤ) (j : JobRow) : JobRow :=
  { j with
    state := .failed, heartbeatAt := none, workerId := none, errors := appendError j.errors error
    finalizedAt := some now }

/-- `mark_failed`: a retry gives the slots back but does not settle the batch. -/
def markFailed (db : Db) (id : JobId) (worker : WorkerId) (error : Json) (retryAt : Option ℤ) (now : ℤ) :
    Except Error Db :=
  match db.jobs.find? (·.leasedTo id worker), retryAt with
  | none, _ => .ok db
  | some j, some t =>
    let db := { db with jobs := updateWhere (·.leasedTo id worker) (·.retry t error) db.jobs }
    .ok (dropSlots db j.groupKey j.queue)
  | some j, none =>
    let db := { db with jobs := updateWhere (·.leasedTo id worker) (·.fail error now) db.jobs }
    settleBatch (dropSlots db j.groupKey j.queue) j.batchId .failed now

/-- `id = $1 AND state = 'pending'`. -/
def JobRow.pendingAs (id : JobId) (j : JobRow) : Bool := j.id = id && j.state = .pending

/-- `SET state = 'cancelled', finalized_at = NOW()`. -/
def JobRow.cancel (now : ℤ) (j : JobRow) : JobRow := { j with state := .cancelled, finalizedAt := some now }

/-- `cancel`: whether the job was eligible. -/
def cancel (db : Db) (id : JobId) (now : ℤ) : Except Error (Db × Bool) :=
  match db.jobs.find? (·.pendingAs id) with
  | none => .ok (db, false)
  | some j => do
    let db := { db with jobs := updateWhere (·.pendingAs id) (·.cancel now) db.jobs }
    return (← settleBatch db j.batchId .cancelled now, true)

/-- `update_heartbeat_batch`. -/
def updateHeartbeatBatch (db : Db) (ids : List JobId) (now : ℤ) : Db :=
  { db with jobs := updateWhere (fun j => j.id ∈ ids && j.running) (fun j => { j with heartbeatAt := some now }) db.jobs }

/-! ## Recovery -/

/-- Whether a recovered job has spent its stall budget. -/
def JobRow.stalledOut (j : JobRow) : Bool := j.stalledCount + 1 > j.maxStalledCount

/-- The new row of a recovered job. -/
def JobRow.recover (error : Json) (now : ℤ) (j : JobRow) : JobRow :=
  { j with
    stalledCount := j.stalledCount + 1
    state := if j.stalledOut then .failed else .pending
    attempt := if j.stalledOut then j.attempt else max (j.attempt - 1) 0
    heartbeatAt := none
    workerId := none
    errors := appendError j.errors error
    finalizedAt := if j.stalledOut then some now else none }

/-- `_drop_groups`: every group by its number of swept rows. -/
def dropGroups (swept : List JobRow) (groups : List GroupRow) : List GroupRow :=
  updateWhere (fun g => swept.any (·.groupKey = some g.key))
    (fun g => { g with runningCount := max (g.runningCount - swept.countP (·.groupKey = some g.key)) 0 }) groups

/-- `_drop_queues`. -/
def dropQueues (swept : List JobRow) (queues : List QueueRow) : List QueueRow :=
  updateWhere (fun q => swept.any (·.queue = q.name))
    (fun q => { q with runningCount := max (q.runningCount - swept.countP (·.queue = q.name)) 0 }) queues

/-- The swept rows that failed in a batch. -/
def JobRow.failedIn (b : BatchId) (j : JobRow) : Bool := j.batchId = some b && j.state = .failed

/-- Fire what is done, one batch after the other. -/
def fireAll (db : Db) : List BatchId → ℤ → Except Error Db
  | [], _ => .ok db
  | b :: bs, now => do fireAll (← tryClaimAndFire db b now) bs now

/-- The body of `sweep_stale` and `reclaim_in_flight`: recover the running rows that match, give their slots back,
bump the failed counter of their batches, then fire. Returns how many rows were recovered. -/
def recover (db : Db) (p : JobRow → Bool) (error : Json) (now : ℤ) : Except Error (Db × Nat) := do
  let hit : JobRow → Bool := fun j => j.running && p j
  let swept := (db.jobs.filter hit).map (·.recover error now)
  let db := { db with
    jobs := updateWhere hit (·.recover error now) db.jobs
    groups := dropGroups swept db.groups
    queues := dropQueues swept db.queues }
  let bumped : BatchRow → Bool := fun b => swept.any (·.failedIn b.id)
  let db ← updateBatches db bumped (fun b => b.bump .failed (swept.countP (·.failedIn b.id)))
  let fired := orderBy (fun a b => decide (a ≤ b)) ((db.batches.filter bumped).map (·.id))
  return (← fireAll db fired now, swept.length)

/-- The error entry of a swept job. -/
def sweepEntry (now : ℤ) : Json := .obj [("at", .num now), ("message", .str "worker lost contact — job recovered")]

/-- The error entry of a reclaimed job. -/
def reclaimEntry (now : ℤ) : Json := .obj [("at", .num now), ("message", .str "worker shutting down — job recovered")]

/-- No heartbeat, or one that is too old. -/
def JobRow.stale (now : ℤ) (staleAfterSecs : Nat) (j : JobRow) : Bool :=
  j.heartbeatAt.all (fun t => t < now - staleAfterSecs * 1000)

/-- `sweep_stale`. -/
def sweepStale (db : Db) (staleAfterSecs : Nat) (now : ℤ) : Except Error (Db × Nat) :=
  recover db (·.stale now staleAfterSecs) (sweepEntry now) now

/-- `reclaim_in_flight`. -/
def reclaimInFlight (db : Db) (ids : List JobId) (now : ℤ) : Except Error (Db × Nat) :=
  if ids = [] then .ok (db, 0) else recover db (fun j => j.id ∈ ids) (reclaimEntry now) now

/-! ## Counters -/

/-- A group row whose counter is above the number of its running jobs. -/
def Db.groupDrifted (db : Db) (g : GroupRow) : Bool :=
  0 < g.runningCount && (db.jobs.countP (·.runsIn g.key) : ℤ) < g.runningCount

/-- A queue row whose counter is above the number of its running jobs. -/
def Db.queueDrifted (db : Db) (q : QueueRow) : Bool :=
  0 < q.runningCount && (db.jobs.countP (·.runsOn q.name) : ℤ) < q.runningCount

/-- `reconcile_counters`: how many group and queue rows were lowered. -/
def reconcileCounters (db : Db) : Db × Nat × Nat :=
  ({ db with
      groups := updateWhere db.groupDrifted (fun g => { g with
        runningCount := min g.runningCount (db.jobs.countP (·.runsIn g.key)) }) db.groups
      queues := updateWhere db.queueDrifted (fun q => { q with
        runningCount := min q.runningCount (db.jobs.countP (·.runsOn q.name)) }) db.queues },
    db.groups.countP db.groupDrifted, db.queues.countP db.queueDrifted)

/-! ## Retention -/

/-- The rows of a state that retention may delete, newest first. -/
def ranked (db : Db) (st : JobState) : List JobRow :=
  orderBy (fun a b => decide (b.finalizedAt.getD 0 ≤ a.finalizedAt.getD 0))
    (db.jobs.filter (fun j => j.state = st && j.finalizedAt.isSome))

/-- Finalized before a time. -/
def JobRow.finalizedBefore (t : ℤ) (j : JobRow) : Bool := j.finalizedAt.any (· < t)

/-- The ids `cleanup_jobs_state` deletes: expired by age, or beyond the newest `count`. -/
def cleanupIds (db : Db) (st : JobState) (ageSecs : Option Nat) (count : Option ℤ) (now : ℤ) : List JobId :=
  let rows := ranked db st
  let aged := match ageSecs with
    | some s => (rows.filter (·.finalizedBefore (now - s * 1000))).map (·.id)
    | none => []
  let extra := match count with
    | some n => (rows.drop (max n 0).toNat).map (·.id)
    | none => []
  aged ++ extra

/-- `cleanup_jobs_state`. -/
def cleanupJobsState (db : Db) (st : JobState) (ageSecs : Option Nat) (count : Option ℤ) (now : ℤ) : Db :=
  { db with jobs := db.jobs.filter (fun j => j.id ∉ cleanupIds db st ageSecs count now) }

/-- The completed batches, newest first. -/
def rankedBatches (db : Db) : List BatchRow :=
  orderBy (fun a b => decide (b.finalizedAt.getD 0 ≤ a.finalizedAt.getD 0))
    (db.batches.filter (fun b => b.complete && b.finalizedAt.isSome))

/-- The ids `cleanup_batches` deletes. -/
def cleanupBatchIds (db : Db) (ageSecs : Option Nat) (count : Option ℤ) (now : ℤ) : List BatchId :=
  let rows := rankedBatches db
  let aged := match ageSecs with
    | some s => (rows.filter (fun b => b.finalizedAt.any (· < now - s * 1000))).map (·.id)
    | none => []
  let extra := match count with
    | some n => (rows.drop (max n 0).toNat).map (·.id)
    | none => []
  aged ++ extra

/-- `cleanup_batches`; the foreign key sets `batch_id` of their jobs to `NULL`. -/
def cleanupBatches (db : Db) (ageSecs : Option Nat) (count : Option ℤ) (now : ℤ) : Db :=
  let ids := cleanupBatchIds db ageSecs count now
  { db with
    batches := db.batches.filter (fun b => b.id ∉ ids)
    jobs := updateWhere (fun j => j.batchId.any (· ∈ ids)) (fun j => { j with batchId := none }) db.jobs }

/-- `Retention`. -/
structure Retention where
  completedSecs : Option Nat := none
  failedSecs : Option Nat := none
  cancelledSecs : Option Nat := none
  batchSecs : Option Nat := none
  completedCount : Option ℤ := none
  failedCount : Option ℤ := none
  cancelledCount : Option ℤ := none
  batchCount : Option ℤ := none

/-- `cleanup`; each delete is a transaction of its own. -/
def cleanup (db : Db) (r : Retention) (now : ℤ) : Db :=
  let db := cleanupJobsState db .completed r.completedSecs r.completedCount now
  let db := cleanupJobsState db .failed r.failedSecs r.failedCount now
  let db := cleanupJobsState db .cancelled r.cancelledSecs r.cancelledCount now
  cleanupBatches db r.batchSecs r.batchCount now

/-- `clean_jobs`: up to `limit` rows of a state, oldest first. -/
def cleanJobs (db : Db) (st : JobState) (graceSecs limit : Nat) (now : ℤ) : Db :=
  let victims := (orderBy (fun a b => decide (a.finalizedAt.getD 0 ≤ b.finalizedAt.getD 0))
    (db.jobs.filter (fun j => j.state = st && j.finalizedBefore (now - graceSecs * 1000)))).take limit
  { db with jobs := db.jobs.filter (fun j => j.id ∉ victims.map (·.id)) }

end Eddyq.Pg
