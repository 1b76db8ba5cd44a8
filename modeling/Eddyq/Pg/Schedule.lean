import Eddyq.Pg.Tables

/-!
# Schedules on Postgres

`schedule.rs`. `now` is the database's clock and `clock` the process's, read once for a call.
-/

namespace Eddyq.Pg

open Eddyq.Lib

/-- What an upsert sets: all but the trigger and the time. -/
structure ScheduleBody where
  name : String
  kind : String
  payload : Json
  priority : ℤ
  maxAttempts : ℤ
  queue : String

/-- `INSERT INTO eddyq_schedules ... ON CONFLICT (name) DO UPDATE`: a row with the same trigger keeps its next run. -/
def upsertScheduleRow (db : Db) (b : ScheduleBody) (cronExpr : Option String) (intervalMs : Option ℤ)
    (same : ScheduleRow → Bool) (next : ℤ) : Db :=
  if db.schedules.any (·.name = b.name) then
    { db with schedules := updateWhere (·.name = b.name) (fun s => { s with
        kind := b.kind
        payload := b.payload
        cronExpr := cronExpr
        intervalMs := intervalMs
        nextRunAt := if same s then s.nextRunAt else next
        priority := b.priority
        maxAttempts := b.maxAttempts
        queue := b.queue }) db.schedules }
  else
    { db with schedules := db.schedules ++ [{
        name := b.name, kind := b.kind, payload := b.payload, cronExpr := cronExpr, intervalMs := intervalMs
        nextRunAt := next, priority := b.priority, maxAttempts := b.maxAttempts, queue := b.queue }] }

/-- `upsert_schedule_raw`. -/
def upsertScheduleRaw (cron : Cron) (db : Db) (b : ScheduleBody) (expr : String) (clock : ℤ) : Except Error Db := do
  validateQueueName b.queue
  let next ← cron.nextRun expr clock
  return upsertScheduleRow db b (some expr) none (·.cronExpr = some expr) next

/-- `upsert_interval_schedule_raw`. -/
def upsertIntervalScheduleRaw (db : Db) (b : ScheduleBody) (intervalMs clock : ℤ) : Except Error Db := do
  validateQueueName b.queue
  if intervalMs ≤ 0 then .error (.invalidArgument "interval_ms must be > 0")
  else return upsertScheduleRow db b none (some intervalMs) (·.intervalMs = some intervalMs) (clock + intervalMs)

/-- An error of `sync_schedules` names the schedule. -/
def nameError (name : String) : Error → Error
  | .invalidArgument msg => .invalidArgument (name ++ ": " ++ msg)
  | .cron msg => .cron (name ++ ": " ++ msg)
  | e => e

/-- The first pass of `sync_schedules`: validate everything and compute the next runs. -/
def prepareSchedules (cron : Cron) (clock : ℤ) :
    List (ScheduleBody × String) → Except Error (List (ScheduleBody × String × ℤ))
  | [] => .ok []
  | (b, expr) :: ds => do
    (validateQueueName b.queue).mapError (nameError b.name)
    let next ← (cron.nextRun expr clock).mapError (nameError b.name)
    return (b, expr, next) :: (← prepareSchedules cron clock ds)

/-- `sync_schedules`. -/
def syncSchedules (cron : Cron) (db : Db) (declared : List (ScheduleBody × String)) (clock : ℤ) : Except Error Db := do
  let prepared ← prepareSchedules cron clock declared
  let db := prepared.foldl (fun db p => upsertScheduleRow db p.1 (some p.2.1) none (·.cronExpr = some p.2.1) p.2.2) db
  return { db with schedules := db.schedules.filter (fun s => s.name ∈ declared.map (·.1.name)) }

/-- `remove_schedule`. -/
def removeSchedule (db : Db) (name : String) : Db :=
  { db with schedules := db.schedules.filter (·.name ≠ name) }

/-- `set_enabled`: the next run stays. -/
def setScheduleEnabled (db : Db) (name : String) (enabled : Bool) : Db :=
  { db with schedules := updateWhere (·.name = name) (fun s => { s with enabled := enabled }) db.schedules }

/-! ## The tick -/

/-- Enabled and due. -/
def ScheduleRow.due (now : ℤ) (s : ScheduleRow) : Bool := s.enabled && s.nextRunAt ≤ now

/-- The job of a schedule. -/
def ScheduleRow.request (s : ScheduleRow) (now : ℤ) : DynEnqueue :=
  { kind := s.kind, payload := s.payload, maxAttempts := s.maxAttempts, priority := s.priority, queue := s.queue
    scheduledAt := some now }

/-- The next run from whichever trigger the row carries. -/
def ScheduleRow.next (cron : Cron) (s : ScheduleRow) (clock : ℤ) : Except Error ℤ :=
  match s.intervalMs, s.cronExpr with
  | some ms, _ => .ok (clock + ms)
  | none, some expr => cron.nextRun expr clock
  | none, none => .error (.cron s!"schedule {s.name.quote} has neither cron_expr nor interval_ms (CHECK violated)")

/-- Fire one schedule: insert its job, then compute and store the next run. -/
def fireSchedule (cron : Cron) (db : Db) (s : ScheduleRow) (now clock : ℤ) : Except Error Db := do
  let db := { db with jobs := db.jobs ++ [newJob (s.request now) db.nextJob now], nextJob := db.nextJob + 1 }
  let next ← s.next cron clock
  return { db with schedules := updateWhere (·.name = s.name) (fun r => { r with
    nextRunAt := next, lastRunAt := some now }) db.schedules }

/-- The loop over the due schedules; the first error ends it. -/
def fireSchedules (cron : Cron) (db : Db) : List ScheduleRow → ℤ → ℤ → Except Error Db
  | [], _, _ => .ok db
  | s :: ss, now, clock => do fireSchedules cron (← fireSchedule cron db s now clock) ss now clock

/-- `tick`, with the advisory lock held: one transaction over all due schedules. -/
def tick (cron : Cron) (db : Db) (now clock : ℤ) : Except Error Db :=
  fireSchedules cron db (db.schedules.filter (·.due now)) now clock

end Eddyq.Pg
