import Eddyq.Redis.Jobs

/-!
# The claim function of the Redis library

`eddyq_claim` walks the listed queues in order; in each it pages through the wait set, skipping jobs of other kinds
and of blocked groups, until the batch is full, the queue has no room, the set is exhausted or `CLAIM_SCAN_LIMIT`
entries have been examined. `claimEntry` is the body of the innermost loop, `claimSlice` the loop over one page,
`claimPages` the paging loop and `claimQueues` the loop over the queues.
-/

namespace Eddyq.Redis

/-- `CLAIM_SCAN_LIMIT`. -/
def claimScanLimit : Nat := 1000

/-- One entry of the reply. -/
structure ClaimedJob where
  id : JobId
  kind : String
  payload : Option String
  priority : ℤ
  maxAttempts : ℤ
  attempt : ℤ
  stalledCount : ℤ
  maxStalledCount : ℤ
  queue : Option String
  groupKey : Option String
  workerId : WorkerId
  timeoutMs : Option ℤ
  deriving DecidableEq

/-- The arguments of `eddyq_claim`. -/
structure ClaimArgs where
  batchSize : Nat
  worker : WorkerId
  now : ℤ
  queues : List String
  kinds : List String

/-- The local variables of the loops; `room = none` means that the queue has no cap. -/
structure ClaimState where
  store : Store
  out : List ClaimedJob := []
  isOpen : Bool := true
  room : Option ℤ := none
  blocked : List String := []
  scanned : Nat := 0

/-- `taken`: one entry of the reply for each job. -/
def ClaimState.taken (c : ClaimState) : Nat := c.out.length

/-- The gate on the group of a candidate: pause, concurrency cap, rate limit. Returns whether the job may start and
the store with the token bucket written back. -/
def groupGate (s : Store) (gkey : String) (now : ℤ) : Store × Bool :=
  match readGroupMeta s gkey with
  | none => (s, true)
  | some m =>
    if ¬ groupHasLimits m then (s, true)
    else if m.paused then (s, false)
    else if m.maxConcurrency ≥ 0 ∧ ((s.zsets (.grouprun gkey)).card : ℤ) ≥ m.maxConcurrency then (s, false)
    else if m.rateCount ≥ 0 then
      let m' := refillTokens m now
      if m'.tokens < 1 then (persistTokens s gkey m', false)
      else (persistTokens s gkey { m' with tokens := m'.tokens - 1 }, true)
    else (s, true)

/-- The move of a claimed job from the wait set to the running sets. -/
def startJob (s : Store) (a : ClaimArgs) (queue : String) (id : JobId) (attempt : ℤ) (gkey : Option String) : Store :=
  let s := s.zrem (.wait queue) id
  let s := s.zadd .active a.now id
  let s := s.hset id (fun h => { h with
    state := some .running, attempt := some attempt, lockedAt := some a.now, lockedBy := some a.worker })
  let s := match gkey with
    | some g => s.zadd (.grouprun g) a.now id
    | none => s
  s.zadd (.nqrun queue) a.now id

/-- The reply for a claimed job. -/
def claimReply (h : JobHash) (a : ClaimArgs) (id : JobId) (kind : String) (timeoutMs : Option ℤ) : ClaimedJob :=
  { id := id
    kind := kind
    payload := h.payload
    priority := h.priority.getD 0
    maxAttempts := h.maxAttempts.getD 3
    attempt := h.attempt.getD 0 + 1
    stalledCount := h.stalledCount.getD 0
    maxStalledCount := h.maxStalledCount.getD 1
    queue := h.queue
    groupKey := given h.groupKey
    workerId := a.worker
    timeoutMs := timeoutMs }

/-- One candidate of the wait set. `false` ends the loop over the slice. -/
def claimEntry (a : ClaimArgs) (queue : String) (timeoutMs : Option ℤ) (c : ClaimState) (id : JobId) :
    ClaimState × Bool :=
  if c.taken ≥ a.batchSize ∨ ¬ c.isOpen then (c, false)
  else
    let c := { c with scanned := c.scanned + 1 }
    let h := c.store.hash id
    let g := given h.groupKey
    match h.kind with
    | none => (c, true)
    | some kind =>
      if kind ∉ a.kinds ∨ h.state ≠ some .pending ∨ g.any (· ∈ c.blocked) then (c, true)
      else
        match groupGate c.store (h.groupKey.getD "") a.now with
        | (s, false) => ({ c with store := s, blocked := g.toList ++ c.blocked }, true)
        | (s, true) =>
          if (s.zscore (.wait queue) id).isNone then ({ c with store := s }, true)
          else
            let room := c.room.map (· - 1)
            ({ c with
              store := startJob s a queue id (h.attempt.getD 0 + 1) g
              out := c.out ++ [claimReply h a id kind timeoutMs]
              room := room
              isOpen := c.isOpen && room.all (0 < ·) }, true)

/-- The loop over one page. -/
def claimSlice (a : ClaimArgs) (queue : String) (timeoutMs : Option ℤ) (slice : List JobId) (c : ClaimState) :
    ClaimState :=
  (Lib.forEach (claimEntry a queue timeoutMs) slice c).1

/-- The paging loop. A page that does not end the loop examines all its entries, so `CLAIM_SCAN_LIMIT` rounds are
enough. -/
def claimPages (a : ClaimArgs) (queue : String) (timeoutMs : Option ℤ) : Nat → Nat → ClaimState → ClaimState
  | 0, _, c => c
  | fuel + 1, offset, c =>
    if c.isOpen ∧ c.taken < a.batchSize ∧ c.scanned < claimScanLimit then
      let page := a.batchSize * 4
      let slice := (c.store.zsets (.wait queue)).range offset page
      if slice = [] then c
      else
        let c' := claimSlice a queue timeoutMs slice c
        if slice.length < page then c'
        else claimPages a queue timeoutMs fuel (offset + slice.length - (c'.taken - c.taken)) c'
    else c

/-- The gate on a whole queue, read once: whether it is open, and its room. -/
def queueGate (s : Store) (queue : String) : Bool × Option ℤ :=
  match readNqMeta s queue with
  | none => (true, none)
  | some m =>
    if ¬ nqHasLimits m then (true, none)
    else if m.paused then (false, none)
    else if m.maxConcurrency ≥ 0 then
      let room := m.maxConcurrency - (s.zsets (.nqrun queue)).card
      (room > 0, some room)
    else (true, none)

/-- The queue's default timeout travels with the claim. -/
def queueTimeout (s : Store) (queue : String) : Option ℤ :=
  (readNqMeta s queue).bind (fun m => if m.defaultTimeoutMs > 0 then some m.defaultTimeoutMs else none)

/-- The loop over the queues. -/
def claimQueues (a : ClaimArgs) : List String → Store → List ClaimedJob → Store × List ClaimedJob
  | [], s, out => (s, out)
  | q :: qs, s, out =>
    if out.length ≥ a.batchSize then (s, out)
    else
      let gate := queueGate s q
      let c := claimPages a q (queueTimeout s q) claimScanLimit 0
        { store := s, out := out, isOpen := gate.1, room := gate.2 }
      claimQueues a qs c.store c.out

/-- `eddyq_claim`. -/
def fnClaim (s : Store) (a : ClaimArgs) : Store × List ClaimedJob := claimQueues a a.queues s []

end Eddyq.Redis
