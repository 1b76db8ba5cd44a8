import Eddyq.Redis.Group

/-!
# The job functions of the Redis library

`eddyq_enqueue`, the verdicts `eddyq_complete` and `eddyq_fail` with inline retention, the recovery functions
`eddyq_sweep_stale`, `eddyq_promote_delayed` and `eddyq_reclaim_in_flight`, `eddyq_cancel`, `eddyq_heartbeat` and
`eddyq_cleanup`, command by command. A function runs atomically, and a script error (concatenating a field the HASH
does not have into a key) stops it with what it has written so far: the reply is then `none`, and a loop ends.
-/

namespace Eddyq.Redis

open Eddyq.Lib

/-! ## Helpers -/

/-- An integer as the nearest double, ties to even: what Lua and Redis keep of a score. -/
def toDouble (n : ℤ) : ℤ :=
  let m := n.natAbs
  if m ≤ 2 ^ 53 then n
  else
    let e := Nat.log2 m - 52
    let q := m / 2 ^ e
    let r := m % 2 ^ e
    let half := 2 ^ (e - 1)
    let q' := if r > half ∨ (r = half ∧ q % 2 = 1) then q + 1 else q
    n.sign * (q' * 2 ^ e : Nat)

/-- `wait_score`: higher priorities first, then earlier times. -/
def waitScore (priority scheduledAt : ℤ) : ℤ := toDouble (-priority * 10 ^ 13 + scheduledAt)

/-- `x and x ~= ''`: a field that is there and not empty. -/
def given (x : Option String) : Option String := x.filter (· ≠ "")

@[simp] theorem given_none : given none = none := rfl
@[simp] theorem given_empty : given (some "") = none := rfl
theorem given_some {x : String} (h : x ≠ "") : given (some x) = some x := by simp [given, h]

/-- A field that is given is one that is not empty. -/
theorem given_eq_some {o : Option String} {x : String} : given o = some x ↔ o.getD "" = x ∧ x ≠ "" := by
  cases o with
  | none => simp [given, eq_comm]
  | some y => by_cases hy : y = "" <;> simp [given, hy]

/-- `ZREM` from the sets of a running job: `active`, the group's and the queue's. -/
def leaveRunning (s : Store) (id : JobId) (gkey queue : Option String) : Store :=
  let s := s.zrem .active id
  let s := match given gkey with
    | some g => s.zrem (.grouprun g) id
    | none => s
  match given queue with
  | some q => s.zrem (.nqrun q) id
  | none => s

/-- `ZADD` to a global state set and, when the queue is known, to its mirror. -/
def zaddBoth (s : Store) (zset : ZKey) (nq : Option ZKey) (score : ℤ) (id : JobId) : Store :=
  let s := s.zadd zset score id
  match nq with
  | some k => s.zadd k score id
  | none => s

/-- `ZREM` from a global state set and its mirror. -/
def zremBoth (s : Store) (zset : ZKey) (nq : Option ZKey) (id : JobId) : Store :=
  let s := s.zrem zset id
  match nq with
  | some k => s.zrem k id
  | none => s

/-! ## Enqueue -/

/-- The arguments of `eddyq_enqueue`, decoded; `""` and `0` are the wire's "not given". -/
structure EnqueueArgs where
  kind : String
  payload : String := "{}"
  priority : ℤ := 0
  maxAttempts : ℤ := 3
  scheduledAtMs : ℤ := 0
  uniqueKey : String := ""
  groupKey : String := ""
  queue : String
  tags : List String := []
  metadata : String := "{}"
  removeOnComplete : Option RetentionRule := none
  removeOnFail : Option RetentionRule := none
  maxStalledCount : ℤ := 1

/-- `dyn_to_argv`; `text` is how `serde_json` writes a value. -/
def dynToArgv (text : Json → String) (r : DynEnqueue) : EnqueueArgs where
  kind := r.kind
  payload := text r.payload
  priority := r.priority
  maxAttempts := r.maxAttempts
  scheduledAtMs := r.scheduledAt.getD 0
  uniqueKey := r.uniqueKey.getD ""
  groupKey := r.groupKey.getD ""
  queue := r.queue
  tags := r.tags
  metadata := text r.metadata
  removeOnComplete := r.removeOnComplete
  removeOnFail := r.removeOnFail
  maxStalledCount := r.maxStalledCount

/-- When the job becomes due. -/
def EnqueueArgs.effectiveScheduled (a : EnqueueArgs) (now : ℤ) : ℤ :=
  if a.scheduledAtMs = 0 then now else a.scheduledAtMs

/-- The fields a new job sets. -/
def EnqueueArgs.toHash (a : EnqueueArgs) (id : JobId) (now : ℤ) (h : JobHash) : JobHash :=
  { h with
    id := some id
    kind := some a.kind
    payload := some a.payload
    priority := some a.priority
    maxAttempts := some a.maxAttempts
    attempt := some 0
    stalledCount := some 0
    maxStalledCount := some a.maxStalledCount
    state := some (if a.effectiveScheduled now ≤ now then .pending else .scheduled)
    queue := some a.queue
    groupKey := some a.groupKey
    uniqueKey := some a.uniqueKey
    tags := some a.tags
    metadata := some a.metadata
    removeOnComplete := a.removeOnComplete
    removeOnFail := a.removeOnFail
    scheduledAt := some (a.effectiveScheduled now)
    createdAt := some now }

/-- `SADD` of an id to several sets. -/
def saddAll (s : Store) (ks : List SKey) (id : JobId) : Store := ks.foldl (fun s k => s.sadd k id) s

/-- `SREM` of an id from several sets. -/
def sremAll (s : Store) (ks : List SKey) (id : JobId) : Store := ks.foldl (fun s k => s.srem k id) s

/-- The writes of an enqueue that is not a duplicate, for the new id. -/
def insertJob (s : Store) (a : EnqueueArgs) (id : JobId) (now : ℤ) : Store :=
  let s := s.hset id (a.toHash id now)
  let s := s.sadd (.queueset a.queue) id
  let s := s.sadd (.kindset a.kind) id
  let s := { s with queuesSeen := s.queuesSeen.insert a.queue }
  let s := maybeMaterializeGroup s a.groupKey now
  let s := saddAll s (a.tags.map .tagset) id
  if a.effectiveScheduled now ≤ now then
    s.zadd (.wait a.queue) (waitScore a.priority (a.effectiveScheduled now)) id
  else
    let s := s.zadd .delayed (a.effectiveScheduled now) id
    s.zadd (.nqscheduled a.queue) (a.effectiveScheduled now) id

/-- `eddyq_enqueue`: the new id, or `none` when the unique key is reserved. -/
def fnEnqueue (s : Store) (a : EnqueueArgs) (now : ℤ) : Store × Option JobId :=
  if a.uniqueKey ≠ "" ∧ (s.unique a.uniqueKey).isSome then (s, none)
  else
    let id := s.idgen + 1
    let s := { s with idgen := id }
    let s := if a.uniqueKey ≠ "" then s.setUnique a.uniqueKey id else s
    (insertJob s a id now, some id)

/-- `eddyq_enqueue_many`: one after the other, with one clock reading. -/
def fnEnqueueMany (s : Store) : List EnqueueArgs → ℤ → Store × List (Option JobId)
  | [], _ => (s, [])
  | a :: as, now =>
    let (s₁, r) := fnEnqueue s a now
    let (s₂, rs) := fnEnqueueMany s₁ as now
    (s₂, r :: rs)

/-! ## Unique keys and deletion -/

/-- `drop_unique_if_owner`: the reservation holds the owner's id, or the legacy `'1'`. -/
def dropUniqueIfOwner (s : Store) (uniq : Option String) (id : JobId) : Store :=
  match given uniq with
  | none => s
  | some u => if s.unique u = some id ∨ s.unique u = some 1 then s.delUnique u else s

/-- `release_unique`. -/
def releaseUnique (s : Store) (id : JobId) : Store := dropUniqueIfOwner s (s.hash id).uniqueKey id

/-- The id sets a HASH puts its job in. -/
def JobHash.indexKeys (h : JobHash) : List SKey :=
  (given h.queue).toList.map .queueset ++ (given h.kind).toList.map .kindset ++ (h.tags.getD []).map .tagset

/-- `delete_job`. -/
def deleteJob (s : Store) (id : JobId) : Store :=
  let h := s.hash id
  let s := sremAll s h.indexKeys id
  let s := dropUniqueIfOwner s h.uniqueKey id
  let s := s.delErrors id
  s.delJob id

/-! ## Retention -/

/-- `RETENTION_PRUNE_CAP`. -/
def retentionPruneCap : Nat := 500

/-- The count pass of `apply_retention`: walk the oldest entries, skipping the finalizing job, until `want` others
have been counted or the cap is reached; the ones not yet taken join the victims. -/
def countVictims (self : JobId) (want : Nat) : List JobId → Nat → List JobId → List JobId
  | [], _, victims => victims
  | v :: vs, counted, victims =>
    if counted ≥ want ∨ victims.length ≥ retentionPruneCap then victims
    else if v = self then countVictims self want vs counted victims
    else countVictims self want vs (counted + 1) (if v ∈ victims then victims else victims ++ [v])

/-- The age pass of `apply_retention`: the expired entries, except the finalizing job. -/
def agedVictims (s : Store) (self : JobId) (nq : ZKey) (age : Option Nat) (now : ℤ) : List JobId :=
  match age with
  | some a => ((s.zsets nq).rangeByScore (fun sc => sc < now - a * 1000) retentionPruneCap).filter (· ≠ self)
  | none => []

/-- The entries of the queue's set that a rule prunes: expired ones, then those beyond the newest `keep`. -/
def retentionVictims (s : Store) (self : JobId) (nq : ZKey) (age keep : Option Nat) (now : ℤ) : List JobId :=
  let aged := agedVictims s self nq age now
  match keep with
  | some n =>
    if aged.length < retentionPruneCap ∧ (s.zsets nq).card > n then
      let want := min ((s.zsets nq).card - n) retentionPruneCap
      countVictims self want ((s.zsets nq).range 0 (want + 1)) 0 aged
    else aged
  | none => aged

/-- Tear a pruned job down and take it out of both sets. -/
def pruneJob (zset nq : ZKey) (s : Store) (v : JobId) : Store := ((deleteJob s v).zrem zset v).zrem nq v

/-- `apply_retention`: record the finalized job, prune its queue's set by the rule; `true` when the caller must drop
the job itself. -/
def applyRetention (s : Store) (id : JobId) (zset : ZKey) (nq : Option ZKey) (rule : Option RetentionRule)
    (now : ℤ) : Store × Bool :=
  match rule with
  | none => (zaddBoth s zset nq now id, false)
  | some (.bool true) => (s, true)
  | some (.bool false) => (zaddBoth s zset nq now id, false)
  | some (.rule age keep) =>
    let dropSelf : Bool := keep = some 0
    let s := if dropSelf then s else zaddBoth s zset nq now id
    match nq with
    | none => (s, dropSelf)
    | some nqk =>
      if age = none ∧ keep = none then (s, dropSelf)
      else ((retentionVictims s id nqk age keep now).foldl (pruneJob zset nqk) s, dropSelf)

/-- Apply the rule and drop the job when it says so. -/
def finalize (s : Store) (id : JobId) (zset : ZKey) (nq : Option ZKey) (rule : Option RetentionRule) (now : ℤ) :
    Store :=
  match applyRetention s id zset nq rule now with
  | (s, true) => deleteJob (zremBoth s zset nq id) id
  | (s, false) => s

/-- The invariant rule of `finalize`: what recording the job, pruning another and dropping the job keep. -/
theorem finalize_inv {P : Store → Prop} {s : Store} {id : JobId} {zset : ZKey} {nq : Option ZKey} {now : ℤ} (h : P s)
    (record : P (zaddBoth s zset nq now id)) (prune : ∀ k x v, P x → P (pruneJob zset k x v))
    (drop : ∀ x, P x → P (deleteJob (zremBoth x zset nq id) id)) (rule : Option RetentionRule) :
    P (finalize s id zset nq rule now) := by
  have hprune : ∀ (k : ZKey) (x : Store) (victims : List JobId), P x → P (victims.foldl (pruneJob zset k) x) :=
    fun k x victims hx => List.foldlRecOn victims _ hx (fun y hy v _ => prune k y v hy)
  unfold finalize applyRetention
  match rule with
  | none => exact record
  | some (.bool true) => exact drop s h
  | some (.bool false) => exact record
  | some (.rule age keep) =>
    dsimp only
    cases nq with
    | none =>
      by_cases hd : keep = some 0
      · simpa [hd] using drop s h
      · simpa [hd] using record
    | some k =>
      by_cases hn : age = none ∧ keep = none
      · simpa [hn] using record
      · by_cases hd : keep = some 0
        · simpa [hn, hd] using drop _ (hprune k s _ h)
        · simpa [hn, hd] using hprune k _ _ record

/-! ## Verdicts -/

/-- `eddyq_complete`: 1 when completed, 0 for a stale lease. -/
def fnComplete (s : Store) (id : JobId) (worker : WorkerId) (now : ℤ) (result : String) : Store × Nat :=
  if (s.hash id).lockedBy ≠ some worker then (s, 0)
  else
    let h := s.hash id
    let s := leaveRunning s id h.groupKey h.queue
    let s := s.hset id (fun h => { h with
      state := some .completed, completedAt := some now, result := some result })
    let s := releaseUnique s id
    (finalize s id .completed ((given h.queue).map .nqcompleted) h.removeOnComplete now, 1)

/-- The reply of `eddyq_fail`. -/
inductive FailReply
  | stale
  | scheduled (attempt : ℤ)
  | failed (attempt : ℤ)
  deriving DecidableEq, Repr

/-- `eddyq_fail`; `retryAt < 0` means no retry. -/
def fnFail (s : Store) (id : JobId) (worker : WorkerId) (now : ℤ) (error : String) (retryAt : ℤ) :
    Store × Option FailReply :=
  if (s.hash id).lockedBy ≠ some worker then (s, some .stale)
  else
    let s := s.pushError id error
    let h := s.hash id
    let s := leaveRunning s id h.groupKey h.queue
    if retryAt ≥ 0 then
      if retryAt ≤ now then
        let s := s.hset id (fun h => { h with state := some .pending, failedAt := some now })
        match h.queue with
        | none => (s, none)
        | some q =>
          (s.zadd (.wait q) (waitScore (h.priority.getD 0) retryAt) id, some (.scheduled (h.attempt.getD 0)))
      else
        let s := s.hset id (fun h => { h with
          state := some .scheduled, failedAt := some now, scheduledAt := some retryAt })
        (zaddBoth s .delayed ((given h.queue).map .nqscheduled) retryAt id, some (.scheduled (h.attempt.getD 0)))
    else
      let s := s.hset id (fun h => { h with state := some .failed, failedAt := some now })
      let s := releaseUnique s id
      (finalize s id .failed ((given h.queue).map .nqfailed) h.removeOnFail now,
        some (.failed (h.attempt.getD 0)))

/-! ## Recovery -/

/-- The body that `eddyq_sweep_stale` and `eddyq_reclaim_in_flight` share: take a running job out of the running sets
and fail it when its stall budget is spent, else give it back to the wait set with the attempt refunded. `false` is
a script error. -/
def recoverOne (time : ℤ) (error : String) (s : Store) (id : JobId) : Store × Bool :=
  let h := s.hash id
  let newStalled := h.stalledCount.getD 0 + 1
  let s := leaveRunning s id h.groupKey h.queue
  if newStalled > h.maxStalledCount.getD 1 then
    let s := s.hset id (fun h => { h with
      state := some .failed, stalledCount := some newStalled, failedAt := some time })
    let s := zaddBoth s .failed ((given h.queue).map .nqfailed) time id
    let s := s.pushError id error
    (releaseUnique s id, true)
  else
    let s := s.hset id (fun h' => { h' with
      state := some .pending, stalledCount := some newStalled, attempt := some (max (h.attempt.getD 0 - 1) 0),
      lockedBy := some "", lockedAt := some 0 })
    match h.queue with
    | none => (s, false)
    | some q => (s.zadd (.wait q) (waitScore (h.priority.getD 0) time) id, true)

/-- The error entry of a swept job. -/
def sweepError : String := "\x7b\"name\":\"StaleSweep\",\"message\":\"worker lost contact — job recovered\"\x7d"

/-- The error entry of a reclaimed job. -/
def reclaimError : String :=
  "\x7b\"name\":\"ForceReclaim\",\"message\":\"worker shutting down — stall budget exhausted\"\x7d"

/-- `eddyq_sweep_stale`: how many jobs it recovered. -/
def fnSweepStale (s : Store) (staleBefore : ℤ) (batchMax : Nat) : Store × Option Nat :=
  forEachCount (recoverOne staleBefore sweepError) (fun _ _ => true)
    ((s.zsets .active).rangeByScore (fun sc => sc ≤ staleBefore) batchMax) s

/-- `HGET state` says `running`. -/
def isRunning (s : Store) (id : JobId) : Bool := (s.hash id).state = some .running

/-- One job of `eddyq_reclaim_in_flight`: only a running one is taken. -/
def reclaimOne (now : ℤ) (s : Store) (id : JobId) : Store × Bool :=
  if isRunning s id then recoverOne now reclaimError s id else (s, true)

/-- `eddyq_reclaim_in_flight`: how many of the ids were running. -/
def fnReclaimInFlight (s : Store) (now : ℤ) (ids : List JobId) : Store × Option Nat :=
  forEachCount (reclaimOne now) isRunning ids s

/-- One job of `eddyq_promote_delayed`. -/
def promoteOne (now : ℤ) (s : Store) (id : JobId) : Store × Bool :=
  let h := s.hash id
  let s := zremBoth s .delayed ((given h.queue).map .nqscheduled) id
  let s := s.hset id (fun h => { h with state := some .pending })
  match h.queue with
  | none => (s, false)
  | some q => (s.zadd (.wait q) (waitScore (h.priority.getD 0) now) id, true)

/-- `eddyq_promote_delayed`: how many jobs it promoted. -/
def fnPromoteDelayed (s : Store) (now : ℤ) (batchMax : Nat) : Store × Option Nat :=
  forEachCount (promoteOne now) (fun _ _ => true)
    ((s.zsets .delayed).rangeByScore (fun sc => sc ≤ now) batchMax) s

/-- One job of `eddyq_heartbeat`. -/
def heartbeatOne (now : ℤ) (s : Store) (id : JobId) : Store × Bool :=
  if isRunning s id then ((s.hset id (fun h => { h with lockedAt := some now })).zadd .active now id, true)
  else (s, true)

/-- `eddyq_heartbeat`: how many of the ids were running. -/
def fnHeartbeat (s : Store) (now : ℤ) (ids : List JobId) : Store × Option Nat :=
  forEachCount (heartbeatOne now) isRunning ids s

/-! ## Cancel and cleanup -/

/-- The end of a cancellation, after the job has left its waiting set. -/
def markCancelled (s : Store) (id : JobId) (queue : Option String) (now : ℤ) : Store :=
  let s := s.hset id (fun h => { h with state := some .cancelled, cancelledAt := some now })
  let s := releaseUnique s id
  zaddBoth s .cancelled ((given queue).map .nqcancelled) now id

/-- `eddyq_cancel`: `some true` when the job was waiting; `none` is a script error. -/
def fnCancel (s : Store) (id : JobId) (now : ℤ) : Store × Option Bool :=
  let h := s.hash id
  match h.state with
  | some .pending =>
    match h.queue with
    | none => (s, none)
    | some q => (markCancelled (s.zrem (.wait q) id) id h.queue now, some true)
  | some .scheduled =>
    (markCancelled (zremBoth s .delayed ((given h.queue).map .nqscheduled) id) id h.queue now, some true)
  | _ => (s, some false)

/-- The victims of one state in `eddyq_cleanup`: expired entries, then those beyond the newest `count`. -/
def cleanupVictims (z : ZSet JobId) (now age count : ℤ) (limit : Nat) : List JobId :=
  let aged : List JobId := if age ≥ 0 then z.rangeByScore (fun sc => sc < now - age * 1000) limit else []
  if count ≥ 0 ∧ aged.length < limit then
    let want := min ((z.card : ℤ) - count) limit
    let ids : List JobId := if want > 0 then z.range 0 want.toNat else []
    (aged ++ ids.filter (· ∉ aged)).take limit
  else aged

/-- Tear down one victim of `eddyq_cleanup`; the mirror is found through the HASH. -/
def cleanupOne (zset : ZKey) (nqKey : String → ZKey) (s : Store) (id : JobId) : Store :=
  let queue := (s.hash id).queue
  zremBoth (deleteJob s id) zset ((given queue).map nqKey) id

/-- The sweep of one state, and how many jobs it deleted. -/
def cleanupState (s : Store) (zset : ZKey) (nqKey : String → ZKey) (now age count : ℤ) (limit : Nat) :
    Store × Nat :=
  if age < 0 ∧ count < 0 then (s, 0)
  else
    let victims := cleanupVictims (s.zsets zset) now age count limit
    (victims.foldl (cleanupOne zset nqKey) s, victims.length)

/-- The settings of one `eddyq_cleanup` call; a negative age or count is "no rule". -/
structure CleanupArgs where
  now : ℤ
  ageCompleted : ℤ := -1
  ageFailed : ℤ := -1
  ageCancelled : ℤ := -1
  countCompleted : ℤ := -1
  countFailed : ℤ := -1
  countCancelled : ℤ := -1
  batchLimit : Nat := 0

/-- `eddyq_cleanup`: how many completed, failed and cancelled jobs it deleted. -/
def fnCleanup (s : Store) (a : CleanupArgs) : Store × Nat × Nat × Nat :=
  let limit := if a.batchLimit = 0 then 500 else a.batchLimit
  let c := cleanupState s .completed .nqcompleted a.now a.ageCompleted a.countCompleted limit
  let f := cleanupState c.1 .failed .nqfailed a.now a.ageFailed a.countFailed limit
  let x := cleanupState f.1 .cancelled .nqcancelled a.now a.ageCancelled a.countCancelled limit
  (x.1, c.2, f.2, x.2)

end Eddyq.Redis
