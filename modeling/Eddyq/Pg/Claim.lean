import Eddyq.Pg.Tables

/-!
# Claiming on Postgres

`claim_batch`, one definition for each statement and for what the process does with its rows: the unlocked read of the
queue rows and the locked read of those that need it, the ungrouped pick on each queue, the loose index scan for group
keys, the locked group rows and the existence read, the pick from each group, and the final update with the counters.
The picks take the rows that are not locked by someone else (`free`), so that the same definitions serve a claim that
runs alone (`claimBatch`) and one that is interleaved with others.
-/

namespace Eddyq.Pg

open Eddyq.Lib

/-- The arguments of `claim_batch`. -/
structure ClaimArgs where
  worker : WorkerId
  batchSize : Nat
  kinds : List String
  queues : List String

/-- A job picked so far. -/
structure Accepted where
  id : JobId
  group : Option String
  queue : String
  deriving DecidableEq

/-- What the process keeps about a group it may claim from. -/
structure GroupState where
  slots : ℤ
  refilledTokens : ℚ := 0
  rateLimited : Bool := false

/-- The local variables: the remaining budget of each queue that has a row, and the picks. -/
structure Claiming where
  budget : String → Option ℤ := fun _ => none
  accepted : List Accepted := []

/-! ## Phase 0: queue budgets -/

/-- `queue_row_needs_lock`. -/
def queueRowNeedsLock (q : QueueRow) : Bool :=
  !q.paused && q.maxConcurrency < unlimited && q.runningCount < q.maxConcurrency

/-- The free slots a queue row shows. -/
def QueueRow.slots (q : QueueRow) : ℤ := if q.paused then 0 else max (q.maxConcurrency - q.runningCount) 0

/-- `SELECT ... FROM eddyq_queues WHERE name = ANY($1)`. -/
def readQueues (db : Db) (names : List String) : List QueueRow := db.queues.filter (fun q => q.name ∈ names)

/-- The rows to read again under lock. -/
def bindingNames (rows : List QueueRow) : List String := (rows.filter queueRowNeedsLock).map (·.name)

/-- Insert the slots of the rows. -/
def setBudgets (b : String → Option ℤ) (rows : List QueueRow) : String → Option ℤ :=
  rows.foldl (fun b q => Function.update b q.name (some q.slots)) b

/-- A queue whose row is held by a peer has no budget on this poll. -/
def zeroBudgets (b : String → Option ℤ) (names : List String) : String → Option ℤ :=
  names.foldl (fun b n => Function.update b n (some 0)) b

/-- `budget_for`: a queue without a row is unlimited. -/
def Claiming.budgetFor (c : Claiming) (q : String) : ℤ := (c.budget q).getD unlimited

/-- `entry(q).and_modify(|b| (b - n).max(0))`. -/
def spend (b : String → Option ℤ) (q : String) (n : ℤ) : String → Option ℤ :=
  Function.update b q ((b q).map (fun x => max (x - n) 0))

/-! ## Picks -/

/-- `ORDER BY priority DESC, scheduled_at ASC, id ASC`. -/
def claimLe (a b : JobRow) : Bool :=
  a.priority > b.priority || (a.priority = b.priority &&
    (a.scheduledAt < b.scheduledAt || (a.scheduledAt = b.scheduledAt && a.id ≤ b.id)))

/-- The first `n` matching rows that nobody else has locked: `ORDER BY ... LIMIT n FOR UPDATE SKIP LOCKED`. -/
def pick (db : Db) (free : JobId → Bool) (p : JobRow → Bool) (n : Nat) : List JobRow :=
  (orderBy claimLe (db.jobs.filter (fun j => p j && free j.id))).take n

/-- A due pending job of a subscribed kind. -/
def JobRow.due (now : ℤ) (kinds : List String) (j : JobRow) : Bool :=
  j.state = .pending && j.scheduledAt ≤ now && j.kind ∈ kinds

/-- The candidates of the fast lane on one queue. -/
def ungroupedOn (a : ClaimArgs) (now : ℤ) (q : String) (j : JobRow) : Bool :=
  j.due now a.kinds && j.groupKey.isNone && j.queue = q

/-- The candidates of one group on the open queues. -/
def groupedIn (a : ClaimArgs) (now : ℤ) (openQueues : List String) (key : String) (j : JobRow) : Bool :=
  j.due now a.kinds && j.groupKey = some key && j.queue ∈ openQueues

/-! ## Phase 1: the fast lane -/

/-- The `LIMIT` of the pick on a queue; none when it is skipped. -/
def ungroupedLimit (a : ClaimArgs) (c : Claiming) (q : String) : Nat :=
  if c.accepted.length ≥ a.batchSize ∨ c.budgetFor q ≤ 0 then 0
  else (min (c.budgetFor q) ((a.batchSize - c.accepted.length : Nat) : ℤ)).toNat

/-- Accept the rows of a queue. -/
def acceptUngrouped (c : Claiming) (q : String) (rows : List JobRow) : Claiming where
  budget := spend c.budget q rows.length
  accepted := c.accepted ++ rows.map (fun j => { id := j.id, group := none, queue := q })

/-- One queue of the fast lane. -/
def claimUngrouped (db : Db) (free : JobId → Bool) (a : ClaimArgs) (now : ℤ) (c : Claiming) (q : String) : Claiming :=
  if ungroupedLimit a c q = 0 then c
  else acceptUngrouped c q (pick db free (ungroupedOn a now q) (ungroupedLimit a c q))

/-! ## Phase 2: groups -/

/-- The queues that still have budget. -/
def openQueues (a : ClaimArgs) (c : Claiming) : List String := a.queues.filter (fun q => 0 < c.budgetFor q)

/-- The least of some keys. -/
def least {α : Type} (lt : α → α → Bool) : List α → Option α
  | [] => none
  | x :: xs => some (xs.foldl (fun m y => if lt y m then y else m) x)

/-- The recursive term: seek the next key past the last one, until there is none. -/
def walkFrom {α : Type} (lt : α → α → Bool) (keys : List α) : Nat → Option α → List α
  | 0, _ => []
  | _ + 1, none => []
  | n + 1, some k => k :: walkFrom lt keys n (least lt (keys.filter (lt k)))

/-- A loose index scan. Every step moves to a greater key, so the keys themselves bound the steps. -/
def looseScan {α : Type} (lt : α → α → Bool) (keys : List α) : List α :=
  walkFrom lt keys (keys.length + 1) (least lt keys)

/-- `GROUP_WALK`. -/
def groupWalk (db : Db) (now : ℤ) (kinds queues : List String) : List String :=
  looseScan (fun a b => decide (a < b))
    ((db.jobs.filter (fun j => j.due now kinds && j.queue ∈ queues)).filterMap (·.groupKey))

/-- `(j.queue, j.group_key) > (w.queue, w.key)`. -/
def pairLt (a b : String × String) : Bool := a.1 < b.1 || (a.1 = b.1 && a.2 < b.2)

/-- `GROUP_WALK_BY_QUEUE`. -/
def groupWalkByQueue (db : Db) (now : ℤ) (kinds queues : List String) : List String :=
  ((looseScan pairLt ((db.jobs.filter (fun j => j.due now kinds && j.queue ∈ queues)).filterMap
    (fun j => j.groupKey.map (fun k => (j.queue, k))))).map Prod.snd).dedup

/-- The keys of the groups with work on an open queue. -/
def activeGroupKeys (db : Db) (a : ClaimArgs) (now : ℤ) (c : Claiming) : List String :=
  let qs := openQueues a c
  if a.batchSize - c.accepted.length = 0 ∨ qs = [] then []
  else if qs.length < a.queues.length then groupWalkByQueue db now a.kinds qs
  else groupWalk db now a.kinds qs

/-- The tokens of a rate-limited group at this moment. -/
def refilled (g : GroupRow) (rc rp clock : ℤ) : ℚ :=
  let elapsed : ℤ := (g.tokensRefilledAt.map (fun t => max (clock - t) 0)).getD 0
  max (min (g.tokens + (elapsed * rc : ℚ) / rp) rc) 0

/-- The slots of a locked group row: what concurrency leaves, and the whole tokens. -/
def GroupRow.toState (g : GroupRow) (clock : ℤ) : GroupState :=
  let conc : ℤ := if g.paused then 0 else max (g.maxConcurrency - g.runningCount) 0
  match g.rateCount, g.ratePeriodMs with
  | some rc, some rp =>
    if 0 < rc ∧ 0 < rp then
      let tokens := refilled g rc rp clock
      { slots := min conc (min (max ⌊tokens⌋ 0) unlimited), refilledTokens := tokens, rateLimited := true }
    else { slots := min conc unlimited }
  | _, _ => { slots := min conc unlimited }

/-- The rows of the groups, less those locked by someone else. -/
def lockGroups (db : Db) (free : String → Bool) (keys : List String) : List GroupRow :=
  db.groups.filter (fun g => g.key ∈ keys && free g.key)

/-- `SELECT key FROM eddyq_groups WHERE key = ANY($1)`. -/
def existingKeys (db : Db) (keys : List String) : List String :=
  (db.groups.filter (fun g => g.key ∈ keys)).map (·.key)

/-- The groups to claim from: the locked rows, and the keys that have no row at all. -/
def groupSlots (rows : List GroupRow) (keys existing : List String) (clock : ℤ) : List (String × GroupState) :=
  rows.map (fun g => (g.key, g.toState clock)) ++
    (keys.filter (· ∉ existing)).map (fun k => (k, { slots := unlimited }))

/-! ## Phase 3: the slow lane -/

/-- The `LIMIT` of the pick from a group; none when it is skipped. -/
def groupedLimit (a : ClaimArgs) (c : Claiming) (g : GroupState) : Nat :=
  if c.accepted.length ≥ a.batchSize ∨ g.slots ≤ 0 then 0
  else (min g.slots ((a.batchSize - c.accepted.length : Nat) : ℤ)).toNat

/-- Accept the rows of a group while batch, slots and queue budgets allow. -/
def acceptGrouped (a : ClaimArgs) (key : String) : List JobRow → ℤ → Claiming → Claiming
  | [], _, c => c
  | j :: js, slots, c =>
    if c.accepted.length ≥ a.batchSize ∨ slots ≤ 0 then c
    else if c.budgetFor j.queue ≤ 0 then acceptGrouped a key js slots c
    else acceptGrouped a key js (slots - 1)
      { budget := spend c.budget j.queue 1
        accepted := c.accepted ++ [{ id := j.id, group := some key, queue := j.queue }] }

/-- One group of the slow lane. -/
def claimGrouped (db : Db) (free : JobId → Bool) (a : ClaimArgs) (now : ℤ) (qs : List String) (c : Claiming)
    (g : String × GroupState) : Claiming :=
  if groupedLimit a c g.2 = 0 then c
  else acceptGrouped a g.1 (pick db free (groupedIn a now qs g.1) (groupedLimit a c g.2)) g.2.slots c

/-! ## Phase 4: the update -/

/-- `SET state = 'running', attempt = attempt + 1, heartbeat_at = NOW(), worker_id = $2`. -/
def JobRow.start (worker : WorkerId) (now : ℤ) (j : JobRow) : JobRow :=
  { j with state := .running, attempt := j.attempt + 1, heartbeatAt := some now, workerId := some worker }

/-- The rows the update returns. -/
def claimedRows (db : Db) (ids : List JobId) (worker : WorkerId) (now : ℤ) : List JobRow :=
  (db.jobs.filter (fun j => j.id ∈ ids)).map (·.start worker now)

/-- How many of the rows are in a group. -/
def groupDelta (rows : List JobRow) (key : String) : ℤ := rows.countP (·.groupKey = some key)

/-- How many of the rows are on a queue. -/
def queueDelta (rows : List JobRow) (name : String) : ℤ := rows.countP (·.queue = name)

/-- The counter upsert of one group, with the token balance of a rate-limited one. -/
def bumpGroup (slots : List (String × GroupState)) (rows : List JobRow) (clock : ℤ) (db : Db) (key : String) : Db :=
  let delta := groupDelta rows key
  match (slots.find? (fun s => s.1 = key)).map Prod.snd with
  | some st =>
    if st.rateLimited then
      let remaining := max (st.refilledTokens - delta) 0
      upsertGroup db { key := key, runningCount := delta, tokens := remaining, tokensRefilledAt := some clock }
        (fun g => { g with
          runningCount := g.runningCount + delta, tokens := remaining, tokensRefilledAt := some clock })
    else upsertGroup db { key := key, runningCount := delta } (fun g => { g with
      runningCount := g.runningCount + delta })
  | none => upsertGroup db { key := key, runningCount := delta } (fun g => { g with
      runningCount := g.runningCount + delta })

/-- The counter update of one queue; a queue without a row is not tracked. -/
def bumpQueue (rows : List JobRow) (db : Db) (name : String) : Db :=
  { db with queues := updateWhere (·.name = name) (fun q => { q with
      runningCount := q.runningCount + queueDelta rows name }) db.queues }

/-- The writes of a claim, for the picks it made. -/
def commitClaim (db : Db) (a : ClaimArgs) (slots : List (String × GroupState)) (ids : List JobId) (now clock : ℤ) :
    Db :=
  let rows := claimedRows db ids a.worker now
  let db := { db with jobs := updateWhere (fun j => j.id ∈ ids) (·.start a.worker now) db.jobs }
  let db := (rows.filterMap (·.groupKey)).dedup.foldl (bumpGroup slots rows clock) db
  (rows.map (·.queue)).dedup.foldl (bumpQueue rows) db

/-! ## A claim that runs alone -/

/-- One entry of the reply. -/
structure ClaimedJob where
  id : JobId
  kind : String
  payload : Json
  attempt : ℤ
  maxAttempts : ℤ
  stalledCount : ℤ
  maxStalledCount : ℤ
  groupKey : Option String
  queue : String
  workerId : WorkerId
  timeoutMs : Option ℤ

/-- `default_timeout_ms` of the queue, from the unlocked read. -/
def queueTimeout (rows : List QueueRow) (name : String) : Option ℤ :=
  (rows.find? (·.name = name)).bind (fun q => q.defaultTimeoutMs.filter (0 < ·))

/-- The reply for a claimed row. -/
def JobRow.toClaimed (j : JobRow) (worker : WorkerId) (timeoutMs : Option ℤ) : ClaimedJob where
  id := j.id
  kind := j.kind
  payload := j.payload
  attempt := j.attempt
  maxAttempts := j.maxAttempts
  stalledCount := j.stalledCount
  maxStalledCount := j.maxStalledCount
  groupKey := j.groupKey
  queue := j.queue
  workerId := worker
  timeoutMs := timeoutMs

/-- The order in which a `HashMap` lists its entries: some order. -/
structure MapOrder where
  list : List (String × GroupState) → List (String × GroupState)
  perm : ∀ l, (list l).Perm l

/-- The entries as they were read are one such order. -/
theorem MapOrder.asRead (l : List (String × GroupState)) : l.Perm l := .refl l

/-- The budgets after phase 0: what the locked read shows replaces what the unlocked read showed. -/
def queueBudgets (rows locked : List QueueRow) : String → Option ℤ :=
  let b := setBudgets (fun _ => none) rows
  if bindingNames rows = [] then b else setBudgets (zeroBudgets b (bindingNames rows)) locked

/-- The picks of a claim that nobody interferes with. -/
def claimPicks (db : Db) (a : ClaimArgs) (now clock : ℤ) (order : MapOrder) :
    Claiming × List (String × GroupState) :=
  let rows := readQueues db a.queues
  let c : Claiming := { budget := queueBudgets rows (readQueues db (bindingNames rows)) }
  let c := a.queues.foldl (claimUngrouped db (fun _ => true) a now) c
  let keys := activeGroupKeys db a now c
  let slots := groupSlots (lockGroups db (fun _ => true) keys) keys (existingKeys db keys) clock
  ((order.list slots).foldl (claimGrouped db (fun _ => true) a now (openQueues a c)) c, slots)

/-- `claim_batch` with no concurrent transaction; `now` is the database's clock and `clock` the process's. -/
def claimBatch (db : Db) (a : ClaimArgs) (now clock : ℤ) (order : MapOrder) : Db × List ClaimedJob :=
  if a.batchSize = 0 ∨ a.kinds = [] ∨ a.queues = [] then (db, [])
  else
    let rows := readQueues db a.queues
    let c : Claiming := { budget := queueBudgets rows (readQueues db (bindingNames rows)) }
    if a.queues.all (fun q => c.budgetFor q ≤ 0) then (db, [])
    else
      let p := claimPicks db a now clock order
      if p.1.accepted = [] then (db, [])
      else
        let ids := p.1.accepted.map (·.id)
        (commitClaim db a p.2 ids now clock,
          (claimedRows db ids a.worker now).map (fun j => j.toClaimed a.worker (queueTimeout rows j.queue)))

end Eddyq.Pg
