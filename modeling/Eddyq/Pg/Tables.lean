import Eddyq.Lib.Rows
import Eddyq.Lib.Runs
import Eddyq.Job
import Mathlib.Data.Rat.Floor
import Mathlib.Data.List.Sort

/-!
# The Postgres tables

The tables of the migrations as lists of rows, with the constraints a statement can run into: the unique index on
live jobs, the foreign key of `batch_id` and the `CHECK`s. The columns no function reads (`updated_at`) are left out.
A transaction body is a function into `Except Error`: an error rolls everything back. Counters are integers without
a bound; a statement that would leave the 32-bit range fails and rolls back on Postgres.
-/

namespace Eddyq.Pg

open Eddyq.Lib

abbrev BatchId := Nat

/-- `i32::MAX`: no cap. -/
def unlimited : ℤ := 2147483647

/-- `eddyq_jobs`. -/
structure JobRow where
  id : JobId
  queue : String
  kind : String
  payload : Json
  state : JobState
  priority : ℤ
  attempt : ℤ
  maxAttempts : ℤ
  scheduledAt : ℤ
  heartbeatAt : Option ℤ
  workerId : Option WorkerId
  errors : List Json
  result : Option Json
  uniqueKey : Option String
  groupKey : Option String
  tags : List String
  metadata : Json
  createdAt : ℤ
  finalizedAt : Option ℤ
  batchId : Option BatchId
  stalledCount : ℤ
  maxStalledCount : ℤ

/-- `eddyq_groups`; tokens are exact. -/
structure GroupRow where
  key : String
  runningCount : ℤ := 0
  maxConcurrency : ℤ := unlimited
  paused : Bool := false
  rateCount : Option ℤ := none
  ratePeriodMs : Option ℤ := none
  tokens : ℚ := 0
  tokensRefilledAt : Option ℤ := none

/-- `eddyq_queues`. -/
structure QueueRow where
  name : String
  runningCount : ℤ := 0
  maxConcurrency : ℤ := unlimited
  paused : Bool := false
  defaultTimeoutMs : Option ℤ := none

/-- `eddyq_group_rules`. -/
structure RuleRow where
  pattern : String
  maxConcurrency : Option ℤ
  rateCount : Option ℤ
  ratePeriodMs : Option ℤ
  priority : ℤ

/-- `eddyq_batches`; `complete` is `state = 'complete'`. The callback is stored as JSON and read back unchanged. -/
structure BatchRow where
  id : BatchId
  complete : Bool := false
  total : ℤ
  completed : ℤ := 0
  failed : ℤ := 0
  cancelled : ℤ := 0
  onComplete : Option DynEnqueue
  callbackEnqueuedAt : Option ℤ := none
  metadata : Json
  createdAt : ℤ
  finalizedAt : Option ℤ := none

/-- `eddyq_schedules`. -/
structure ScheduleRow where
  name : String
  kind : String
  payload : Json
  cronExpr : Option String
  intervalMs : Option ℤ
  nextRunAt : ℤ
  lastRunAt : Option ℤ := none
  enabled : Bool := true
  priority : ℤ
  maxAttempts : ℤ
  queue : String

/-- All tables of one line, with the sequences of the serial columns. -/
structure Db where
  jobs : List JobRow := []
  groups : List GroupRow := []
  queues : List QueueRow := []
  rules : List RuleRow := []
  batches : List BatchRow := []
  schedules : List ScheduleRow := []
  nextJob : Nat := 1
  nextBatch : Nat := 1

/-- The tables right after the migrations. -/
def Db.empty : Db := {}

/-! ## Jobs -/

/-- A job that is running. -/
def JobRow.running (j : JobRow) : Bool := j.state = .running

/-- A job that is running in a group. -/
def JobRow.runsIn (key : String) (j : JobRow) : Bool := j.running && j.groupKey = some key

/-- A job that is running on a queue. -/
def JobRow.runsOn (name : String) (j : JobRow) : Bool := j.running && j.queue = name

/-- `eddyq_jobs_unique`: the rows that hold a kind and a unique key. -/
def JobRow.holds (kind key : String) (j : JobRow) : Bool :=
  !j.state.terminal && j.kind = kind && j.uniqueKey = some key

/-- `MAX_ERROR_ENTRIES`. -/
def maxErrorEntries : Nat := 10

/-- Append to the error log and keep the newest entries. -/
def appendError (errors : List Json) (e : Json) : List Json :=
  (errors ++ [e]).drop (errors.length + 1 - maxErrorEntries)

/-- The job row of a request. -/
def newJob (r : DynEnqueue) (id : JobId) (now : ℤ) : JobRow where
  id := id
  queue := r.queue
  kind := r.kind
  payload := r.payload
  state := .pending
  priority := r.priority
  attempt := 0
  maxAttempts := r.maxAttempts
  scheduledAt := r.scheduledAt.getD now
  heartbeatAt := none
  workerId := none
  errors := []
  result := none
  uniqueKey := r.uniqueKey
  groupKey := r.groupKey
  tags := r.tags
  metadata := r.metadata
  createdAt := now
  finalizedAt := none
  batchId := r.batchId
  stalledCount := 0
  maxStalledCount := r.maxStalledCount

/-- `INSERT INTO eddyq_jobs ... ON CONFLICT DO NOTHING RETURNING id`: `none` for a live duplicate, an error for a
batch that does not exist. The sequence moves either way. -/
def insertRow (db : Db) (r : DynEnqueue) (now : ℤ) : Except Error (Db × Option JobId) :=
  let id := db.nextJob
  let db := { db with nextJob := id + 1 }
  if r.uniqueKey.any (fun k => db.jobs.any (·.holds r.kind k)) then .ok (db, none)
  else if r.batchId.any (fun b => db.batches.all (·.id ≠ b)) then
    .error (.database "insert or update on table \"eddyq_jobs\" violates foreign key constraint \"eddyq_jobs_batch_id_fkey\"")
  else .ok ({ db with jobs := db.jobs ++ [newJob r id now] }, some id)

/-! ## Groups -/

/-- Try `f` at every suffix of the text. -/
def likeAny (f : List Char → Except Error Bool) : List Char → Except Error Bool
  | [] => f []
  | c :: cs => do
    if ← f (c :: cs) then return true
    likeAny f cs

/-- `LIKE`: `%` is any text, `_` one character, a backslash takes the next character as it is and must not be last. -/
def likeMatch : List Char → List Char → Except Error Bool
  | [], t => .ok t.isEmpty
  | '%' :: p, t => likeAny (likeMatch p) t
  | _ :: _, [] => .ok false
  | '_' :: p, _ :: t => likeMatch p t
  | ['\\'], _ :: _ => .error (.database "LIKE pattern must not end with escape character")
  | '\\' :: c :: p, d :: t => if c = d then likeMatch p t else .ok false
  | c :: p, d :: t => if c = d then likeMatch p t else .ok false

/-- `REPLACE(REPLACE(pattern, '*', '%'), '?', '_')`. -/
def likePattern (pattern : String) : List Char :=
  pattern.toList.map (fun c => if c = '*' then '%' else if c = '?' then '_' else c)

/-- The rules whose pattern the key matches. -/
def matchingRules (key : String) : List RuleRow → Except Error (List RuleRow)
  | [] => .ok []
  | r :: rs => do
    let hit ← likeMatch (likePattern r.pattern) key.toList
    let rest ← matchingRules key rs
    return if hit then r :: rest else rest

/-- `ORDER BY priority DESC, LENGTH(pattern) DESC`. -/
def ruleLe (a b : RuleRow) : Bool :=
  a.priority > b.priority || (a.priority = b.priority && a.pattern.length ≥ b.pattern.length)

/-- The group row a rule prescribes. -/
def RuleRow.toGroup (r : RuleRow) (key : String) (now : ℤ) : GroupRow where
  key := key
  maxConcurrency := r.maxConcurrency.getD unlimited
  rateCount := r.rateCount
  ratePeriodMs := r.ratePeriodMs
  tokens := r.rateCount.getD 0
  tokensRefilledAt := r.rateCount.map (fun _ => now)

/-- `materialize_from_rule`: a row for the group from the best rule, unless it has one. The `CHECK` is tested before
the conflict. -/
def materializeFromRule (db : Db) (key : String) (now : ℤ) : Except Error Db := do
  let hits ← matchingRules key db.rules
  match (orderBy ruleLe hits).head? with
  | none => return db
  | some r =>
    if (r.toGroup key now).maxConcurrency < 0 then
      .error (.database "new row for relation \"eddyq_groups\" violates check constraint \"eddyq_groups_max_concurrency_check\"")
    else if db.groups.any (·.key = key) then return db
    else return { db with groups := db.groups ++ [r.toGroup key now] }

/-! ## Upserts -/

/-- `INSERT INTO eddyq_groups ... ON CONFLICT (key) DO UPDATE`. -/
def upsertGroup (db : Db) (new : GroupRow) (f : GroupRow → GroupRow) : Db :=
  if db.groups.any (·.key = new.key) then { db with groups := updateWhere (·.key = new.key) f db.groups }
  else { db with groups := db.groups ++ [new] }

/-- `INSERT INTO eddyq_queues ... ON CONFLICT (name) DO UPDATE`. -/
def upsertQueue (db : Db) (new : QueueRow) (f : QueueRow → QueueRow) : Db :=
  if db.queues.any (·.name = new.name) then { db with queues := updateWhere (·.name = new.name) f db.queues }
  else { db with queues := db.queues ++ [new] }

end Eddyq.Pg
