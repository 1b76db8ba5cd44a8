import Eddyq.Pg.Tables

/-!
# Enqueue and batches on Postgres

The dynamic enqueue paths (the typed ones resolve their options to the same request, without a batch) and the batch
primitive: `enqueueBatch`, the settlement of one terminal job (`settleTerminal`) and the firing of the callback
(`tryClaimAndFire`). Notifications are not rows and are left out.
-/

namespace Eddyq.Pg

open Eddyq.Lib

/-! ## Single and bulk enqueue -/

/-- `insert_dyn`: the new id, or `none` for a live duplicate. -/
def insertDyn (db : Db) (r : DynEnqueue) (now : ℤ) : Except Error (Db × Option JobId) := do
  validateQueueName r.queue
  let (db, id) ← insertRow db r now
  match id, r.groupKey with
  | some _, some key => return (← materializeFromRule db key now, id)
  | _, _ => return (db, id)

/-- `enqueue_dyn`: each statement commits by itself, so an error while the group row is made leaves the job. -/
def enqueueDyn (db : Db) (r : DynEnqueue) (now : ℤ) : Db × Except Error (Option JobId) :=
  match insertDyn db r now with
  | .ok (db', id) => (db', .ok id)
  | .error e =>
    match validateQueueName r.queue, insertRow db r now with
    | .ok _, .ok (db', _) => (db', .error e)
    | _, _ => (db, .error e)

/-- One `INSERT ... SELECT ... FROM UNNEST ... ON CONFLICT DO NOTHING`, row by row; the number inserted. -/
def insertRows (db : Db) : List DynEnqueue → ℤ → Except Error (Db × Nat)
  | [], _ => .ok (db, 0)
  | r :: rs, now => do
    let (db, id) ← insertRow db r now
    let (db, n) ← insertRows db rs now
    return (db, if id.isSome then n + 1 else n)

/-- Materialize every distinct group of the requests, in order. -/
def materializeAll (db : Db) : List String → ℤ → Except Error Db
  | [], _ => .ok db
  | key :: keys, now => do materializeAll (← materializeFromRule db key now) keys now

/-- `Vec::sort` and `dedup` of the group keys. -/
def distinctGroups (rs : List DynEnqueue) : List String :=
  (orderBy (fun a b => decide (a ≤ b)) (rs.filterMap (·.groupKey))).dedup

/-- Every queue name of a bulk request is checked before anything is inserted. -/
def validateQueues : List DynEnqueue → Except Error Unit
  | [] => .ok ()
  | r :: rs => do validateQueueName r.queue; validateQueues rs

/-- `enqueue_many_dyn_in_tx`: how many rows were inserted. -/
def enqueueManyDyn (db : Db) (rs : List DynEnqueue) (now : ℤ) : Except Error (Db × Nat) :=
  if rs.isEmpty then .ok (db, 0)
  else do
    validateQueues rs
    let (db, n) ← insertRows db rs now
    return (← materializeAll db (distinctGroups rs) now, n)

/-! ## Callbacks -/

/-- `eddyq.batch.<id>.callback`. -/
def callbackKey (b : BatchId) : String := "eddyq.batch." ++ Nat.repr b ++ ".callback"

/-- The counts of a batch when its callback is built. -/
structure BatchSettleSummary where
  total : ℤ
  completed : ℤ
  failed : ℤ
  cancelled : ℤ
  durationMs : ℤ

/-- The `_eddyq_batch` envelope. -/
def batchEnvelope (b : BatchId) (s : BatchSettleSummary) : Json :=
  .obj [("batchId", .num b), ("total", .num s.total), ("completed", .num s.completed), ("failed", .num s.failed),
    ("cancelled", .num s.cancelled), ("durationMs", .num s.durationMs)]

/-- `build_callback_dyn`. -/
def buildCallbackDyn (spec : DynEnqueue) (b : BatchId) (s : BatchSettleSummary) : DynEnqueue :=
  let payload := match spec.payload with
    | .obj fields => .obj (fields.filter (fun f => f.1 ≠ "_eddyq_batch") ++ [("_eddyq_batch", batchEnvelope b s)])
    | original => .obj [("_eddyq_batch", batchEnvelope b s), ("_payload", original)]
  { spec with payload := payload, uniqueKey := some (callbackKey b) }

/-- Counters that have reached the total. -/
def BatchRow.done (b : BatchRow) : Bool := b.completed + b.failed + b.cancelled = b.total

/-- The claim of the callback slot: `UPDATE ... SET callback_enqueued_at = NOW(), state = 'complete', ...`. -/
def BatchRow.claim (b : BatchRow) (now : ℤ) : BatchRow :=
  { b with callbackEnqueuedAt := some now, complete := true, finalizedAt := some now }

/-- The rows `try_claim_and_fire` may claim. -/
def BatchRow.claimable (id : BatchId) (b : BatchRow) : Bool :=
  b.id = id && b.callbackEnqueuedAt.isNone && b.done

/-- `try_claim_and_fire`. -/
def tryClaimAndFire (db : Db) (id : BatchId) (now : ℤ) : Except Error Db :=
  match db.batches.find? (·.claimable id) with
  | none => .ok db
  | some b =>
    let db := { db with batches := updateWhere (·.claimable id) (·.claim now) db.batches }
    match b.onComplete with
    | none => .ok db
    | some spec => do
      let callback := buildCallbackDyn spec id
        { total := b.total, completed := b.completed, failed := b.failed, cancelled := b.cancelled
          durationMs := now - b.createdAt }
      return (← insertDyn db callback now).1

/-- `TerminalOutcome`. -/
inductive TerminalOutcome
  | completed | failed | cancelled
  deriving DecidableEq

/-- Bump the counter of an outcome. -/
def BatchRow.bump (b : BatchRow) (o : TerminalOutcome) (n : ℤ) : BatchRow :=
  match o with
  | .completed => { b with completed := b.completed + n }
  | .failed => { b with failed := b.failed + n }
  | .cancelled => { b with cancelled := b.cancelled + n }

/-- `eddyq_batches_counts_check`. -/
def BatchRow.countsOk (b : BatchRow) : Bool := b.completed + b.failed + b.cancelled ≤ b.total

/-- An update of the batches, refused as a whole when a row breaks its `CHECK`. -/
def updateBatches (db : Db) (p : BatchRow → Bool) (f : BatchRow → BatchRow) : Except Error Db :=
  if (db.batches.filter p).all (fun b => (f b).countsOk) then .ok { db with batches := updateWhere p f db.batches }
  else .error (.database
    "new row for relation \"eddyq_batches\" violates check constraint \"eddyq_batches_counts_check\"")

/-- `settle_terminal`. -/
def settleTerminal (db : Db) (id : BatchId) (o : TerminalOutcome) (now : ℤ) : Except Error Db := do
  let db ← updateBatches db (·.id = id) (·.bump o 1)
  match db.batches.find? (·.id = id) with
  | none => return db
  | some b => if b.callbackEnqueuedAt.isSome || !b.done then return db else tryClaimAndFire db id now

/-! ## Batches -/

/-- The row of a new batch; the total is set once the items are in. -/
def newBatch (id : BatchId) (onComplete : Option DynEnqueue) (metadata : Json) (now : ℤ) : BatchRow where
  id := id
  total := 0
  onComplete := onComplete
  createdAt := now
  metadata := match metadata with
    | .null => .obj []
    | m => m

/-- `enqueue_batch_in_tx`: the batch's id and how many items were inserted. -/
def enqueueBatch (db : Db) (items : List DynEnqueue) (onComplete : Option DynEnqueue) (metadata : Json) (now : ℤ) :
    Except Error (Db × BatchId × Nat) := do
  let id := db.nextBatch
  let db := { db with nextBatch := id + 1, batches := db.batches ++ [newBatch id onComplete metadata now] }
  let (db, inserted) ← enqueueManyDyn db (items.map (fun r => { r with batchId := some id })) now
  let db ← updateBatches db (·.id = id) (fun b => { b with total := inserted })
  if inserted = 0 then
    let db := { db with batches := updateWhere (·.id = id) (·.claim now) db.batches }
    match onComplete with
    | none => return (db, id, inserted)
    | some spec => do
      let callback := buildCallbackDyn spec id
        { total := 0, completed := 0, failed := 0, cancelled := 0, durationMs := 0 }
      return ((← insertDyn db callback now).1, id, inserted)
  else return (db, id, inserted)

end Eddyq.Pg
