import Eddyq.Pg.Admin
import Eddyq.Pg.Claim
import Eddyq.Pg.Schedule
import Eddyq.Pg.Verdict

/-!
# Runs of the Postgres backend

The transactions of the backend as the steps of a system: `Op` lists the calls that write and `Op.run` is what one
does to the tables, with the error it returns, if any. A transaction that returns an error has been rolled back.
`Db.Reached cron ok` are the tables that calls meeting the guard `ok` reach from the empty ones.
-/

namespace Eddyq.Pg

open Eddyq.Lib

/-- `eddyq_enqueue`: the SQL function does not check the queue name. -/
def sqlEnqueue (db : Db) (r : DynEnqueue) (now : ℤ) : Except Error Db := do
  let (db, id) ← insertRow db { r with batchId := none, maxStalledCount := 1 } now
  match id, r.groupKey with
  | some _, some key => materializeFromRule db key now
  | _, _ => return db

/-- The calls that write. -/
inductive Op
  | enqueue (r : DynEnqueue) (now : ℤ)
  | enqueueMany (rs : List DynEnqueue) (now : ℤ)
  | sqlEnqueue (r : DynEnqueue) (now : ℤ)
  | enqueueBatch (items : List DynEnqueue) (onComplete : Option DynEnqueue) (metadata : Json) (now : ℤ)
  | claim (a : ClaimArgs) (now clock : ℤ) (order : MapOrder)
  | heartbeat (ids : List JobId) (now : ℤ)
  | completed (id : JobId) (worker : WorkerId) (result : Option Json) (now : ℤ)
  | failed (id : JobId) (worker : WorkerId) (error : Json) (retryAt : Option ℤ) (now : ℤ)
  | cancel (id : JobId) (now : ℤ)
  | sweepStale (staleAfterSecs : Nat) (now : ℤ)
  | reclaimInFlight (ids : List JobId) (now : ℤ)
  | reconcile
  | cleanup (r : Retention) (now : ℤ)
  | cleanJobs (st : JobState) (graceSecs limit : Nat) (now : ℤ)
  | tick (now clock : ℤ)
  | upsertSchedule (b : ScheduleBody) (expr : String) (clock : ℤ)
  | upsertInterval (b : ScheduleBody) (intervalMs clock : ℤ)
  | syncSchedules (declared : List (ScheduleBody × String)) (clock : ℤ)
  | removeSchedule (name : String)
  | setScheduleEnabled (name : String) (enabled : Bool)
  | groupSetConcurrency (key : String) (cap : ℤ)
  | groupSetPaused (key : String) (paused : Bool)
  | groupSetRate (key : String) (count periodMs : Nat) (now : ℤ)
  | groupClearRate (key : String)
  | groupSetRule (pattern : String) (rule : GroupRule)
  | groupRemoveRule (pattern : String)
  | queueSetConcurrency (name : String) (cap : ℤ)
  | queueSetPaused (name : String) (paused : Bool)
  | queueSetTimeout (name : String) (timeoutMs : Option Nat)

/-- A transaction commits its tables or leaves the old ones. -/
def commit (db : Db) : Except Error Db → Db × Option Error
  | .ok db' => (db', none)
  | .error e => (db, some e)

/-- A transaction that also returns a value. -/
def commitFst {α : Type} (db : Db) (r : Except Error (Db × α)) : Db × Option Error := commit db (r.map Prod.fst)

/-- What a call does to the tables, and its error. -/
def Op.run (cron : Cron) (db : Db) : Op → Db × Option Error
  | .enqueue r now => match Pg.enqueueDyn db r now with
    | (db', .ok _) => (db', none)
    | (db', .error e) => (db', some e)
  | .enqueueMany rs now => commitFst db (enqueueManyDyn db rs now)
  | .sqlEnqueue r now => commit db (Pg.sqlEnqueue db r now)
  | .enqueueBatch items cb metadata now => commitFst db (Pg.enqueueBatch db items cb metadata now)
  | .claim a now clock order => ((claimBatch db a now clock order).1, none)
  | .heartbeat ids now => (updateHeartbeatBatch db ids now, none)
  | .completed id w result now => commit db (markCompleted db id w result now)
  | .failed id w e retryAt now => commit db (markFailed db id w e retryAt now)
  | .cancel id now => commitFst db (Pg.cancel db id now)
  | .sweepStale secs now => commitFst db (Pg.sweepStale db secs now)
  | .reclaimInFlight ids now => commitFst db (Pg.reclaimInFlight db ids now)
  | .reconcile => ((reconcileCounters db).1, none)
  | .cleanup r now => (Pg.cleanup db r now, none)
  | .cleanJobs st grace limit now => (Pg.cleanJobs db st grace limit now, none)
  | .tick now clock => commit db (Pg.tick cron db now clock)
  | .upsertSchedule b expr clock => commit db (upsertScheduleRaw cron db b expr clock)
  | .upsertInterval b ms clock => commit db (upsertIntervalScheduleRaw db b ms clock)
  | .syncSchedules declared clock => commit db (Pg.syncSchedules cron db declared clock)
  | .removeSchedule name => (Pg.removeSchedule db name, none)
  | .setScheduleEnabled name e => (Pg.setScheduleEnabled db name e, none)
  | .groupSetConcurrency key cap => (Pg.groupSetConcurrency db key cap, none)
  | .groupSetPaused key p => (Pg.groupSetPaused db key p, none)
  | .groupSetRate key count period now => commit db (Pg.groupSetRate db key count period now)
  | .groupClearRate key => (Pg.groupClearRate db key, none)
  | .groupSetRule pattern rule => commit db (Pg.groupSetRule db pattern rule)
  | .groupRemoveRule pattern => (Pg.groupRemoveRule db pattern, none)
  | .queueSetConcurrency name cap => (Pg.queueSetConcurrency db name cap, none)
  | .queueSetPaused name p => (Pg.queueSetPaused db name p, none)
  | .queueSetTimeout name t => (Pg.queueSetTimeout db name t, none)

/-- The tables after a call. -/
def Op.apply (cron : Cron) (db : Db) (op : Op) : Db := (op.run cron db).1

/-- What `enqueue` leaves, whether it returns an id or an error. -/
theorem Op.apply_enqueue (cron : Cron) (db : Db) (r : DynEnqueue) (now : ℤ) :
    (Op.enqueue r now).apply cron db = (enqueueDyn db r now).1 := by
  unfold Op.apply Op.run
  dsimp only
  split
  · next he => rw [he]
  · next he => rw [he]

/-- The tables reached from the empty ones by calls that meet the guard. -/
def Db.Reached (cron : Cron) (ok : Db → Op → Prop) (db : Db) : Prop := Reach (Guarded ok (Op.apply cron)) Db.empty db

end Eddyq.Pg
