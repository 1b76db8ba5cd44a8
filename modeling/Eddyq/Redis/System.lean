import Eddyq.Redis.Claim
import Eddyq.Redis.Schedule

/-!
# Runs of the Redis backend

Redis runs each function of the library atomically, so a run of any number of processes is a sequence of calls.
`Op` lists the calls that write, `Op.apply` is what one does to the store. `Store.Reached ok` are the stores that calls
meeting the guard `ok` reach from the empty one; with no guard, late and repeated verdicts are included.
-/

namespace Eddyq.Redis

open Eddyq.Lib

/-- The calls that write. -/
inductive Op
  | enqueue (a : EnqueueArgs) (now : ℤ)
  | enqueueMany (as : List EnqueueArgs) (now : ℤ)
  | claim (a : ClaimArgs)
  | heartbeat (now : ℤ) (ids : List JobId)
  | complete (id : JobId) (worker : WorkerId) (now : ℤ) (result : String)
  | fail (id : JobId) (worker : WorkerId) (now : ℤ) (error : String) (retryAt : ℤ)
  | sweepStale (staleBefore : ℤ) (batchMax : Nat)
  | promoteDelayed (now : ℤ) (batchMax : Nat)
  | reclaimInFlight (now : ℤ) (ids : List JobId)
  | cancel (id : JobId) (now : ℤ)
  | cleanup (a : CleanupArgs)
  | scheduleUpsert (a : UpsertArgs)
  | scheduleRemove (name : String)
  | scheduleSetEnabled (name : String) (enabled nextRun : ℤ)
  | scheduleFire (a : FireArgs)
  | groupSetConcurrency (key : String) (max : ℤ)
  | groupSetPaused (key : String) (p : ℤ)
  | groupSetRate (key : String) (count period now : ℤ)
  | groupClearRate (key : String)
  | groupSetRule (pattern : String) (rule : GroupRule)
  | groupRemoveRule (pattern : String)
  | queueSetConcurrency (name : String) (max : ℤ)
  | queueSetPaused (name : String) (p : ℤ)
  | queueSetTimeout (name : String) (timeout : ℤ)

/-- What a call does to the store. -/
def Op.apply (s : Store) : Op → Store
  | .enqueue a now => (fnEnqueue s a now).1
  | .enqueueMany as now => (fnEnqueueMany s as now).1
  | .claim a => (fnClaim s a).1
  | .heartbeat now ids => (fnHeartbeat s now ids).1
  | .complete id w now result => (fnComplete s id w now result).1
  | .fail id w now error retryAt => (fnFail s id w now error retryAt).1
  | .sweepStale t n => (fnSweepStale s t n).1
  | .promoteDelayed now n => (fnPromoteDelayed s now n).1
  | .reclaimInFlight now ids => (fnReclaimInFlight s now ids).1
  | .cancel id now => (fnCancel s id now).1
  | .cleanup a => (fnCleanup s a).1
  | .scheduleUpsert a => fnScheduleUpsert s a
  | .scheduleRemove name => (fnScheduleRemove s name).1
  | .scheduleSetEnabled name e next => (fnScheduleSetEnabled s name e next).1
  | .scheduleFire a => (fnScheduleFire s a).1
  | .groupSetConcurrency key max => fnGroupSetConcurrency s key max
  | .groupSetPaused key p => fnGroupSetPaused s key p
  | .groupSetRate key count period now => fnGroupSetRate s key count period now
  | .groupClearRate key => fnGroupClearRate s key
  | .groupSetRule pattern rule => fnGroupSetRule s pattern rule
  | .groupRemoveRule pattern => fnGroupRemoveRule s pattern
  | .queueSetConcurrency name max => fnQueueSetConcurrency s name max
  | .queueSetPaused name p => fnQueueSetPaused s name p
  | .queueSetTimeout name t => fnQueueSetTimeout s name t

/-- The stores reached from the empty one by calls that meet the guard. -/
def Store.Reached (ok : Store → Op → Prop) (s : Store) : Prop := Reach (Guarded ok Op.apply) Store.empty s

/-- The owner the HASH records: the field the verdicts look at. -/
def Store.owner (s : Store) (id : JobId) : Option String := (s.hash id).lockedBy

/-- The state the HASH records. -/
def Store.state (s : Store) (id : JobId) : Option JobState := (s.hash id).state

/-- The job is running, leased to that worker. -/
def Store.LeasedTo (s : Store) (id : JobId) (w : WorkerId) : Prop :=
  s.state id = some .running ∧ s.owner id = some w

instance (s : Store) (id : JobId) (w : WorkerId) : Decidable (s.LeasedTo id w) :=
  inferInstanceAs (Decidable (_ ∧ _))

end Eddyq.Redis
