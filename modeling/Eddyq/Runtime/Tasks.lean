import Eddyq.Job
import Eddyq.Lib.Runs
import Mathlib.Data.List.Count

/-!
# The tasks of one process

`runtime.rs` and the shutdown calls of `queue.rs`: the fetcher, the workers and the caller of a shutdown as tasks that
take turns at their `await` points. The fetcher claims as many rows as workers are idle, puts each into `in_flight` and
sends it down a channel; a worker takes a row out of the channel, runs its handler, takes the row out of `in_flight` and
reports. Once the token is cancelled nobody claims or receives any more.

A call to the backend is under way between two steps, and its commit is a step of its own. An aborted task is dropped at
any of its `await` points; the call it was waiting for may still commit (`detached`). What the steps add to `Log` is not
in the code: it records where the claimed jobs have gone.
-/

namespace Eddyq.Runtime

/-- What the runtime asks of a backend, seen from one process: which jobs are running under it, and what a committed
`claim_batch`, a verdict and a `reclaim_in_flight` do to that. -/
structure Backend (σ : Type) where
  inv : σ → Prop
  running : σ → JobId → Bool
  claim : σ → Nat → List JobId → σ → Prop
  report : σ → JobId → σ → Prop
  reclaim : σ → List JobId → σ → Prop
  /-- A call by someone else that takes no job away from this process. -/
  other : σ → σ → Prop
  claim_inv : ∀ {s n rows s'}, inv s → claim s n rows s' → inv s'
  report_inv : ∀ {s id s'}, inv s → report s id s' → inv s'
  reclaim_inv : ∀ {s ids s'}, inv s → reclaim s ids s' → inv s'
  other_inv : ∀ {s s'}, inv s → other s s' → inv s'
  /-- A claim hands out at most so many distinct jobs, none of which was running. -/
  claim_rows : ∀ {s n rows s'}, inv s → claim s n rows s' →
    rows.length ≤ n ∧ rows.Nodup ∧ ∀ id ∈ rows, running s id = false
  claim_running : ∀ {s n rows s'}, inv s → claim s n rows s' → ∀ id, running s' id = (decide (id ∈ rows) || running s id)
  report_running : ∀ {s id s'}, inv s → report s id s' → ∀ i, running s' i = (running s i && decide (i ≠ id))
  reclaim_running : ∀ {s ids s'}, inv s → reclaim s ids s' → ∀ i, running s' i = (running s i && decide (i ∉ ids))
  other_running : ∀ {s s'}, inv s → other s s' → ∀ i, running s' i = running s i

/-- `worker_concurrency` and `fetch_batch_size`. -/
structure Config where
  concurrency : Nat
  batchSize : Nat

/-- Where the fetcher is. `full` remembers that the batch was full. -/
inductive Fetcher
  /-- At the top of the loop, waiting for an idle worker. -/
  | top
  /-- `claim_batch` is under way. -/
  | claiming (n : Nat)
  /-- It has committed, and the rows are on their way. -/
  | claimed (full : Bool) (rows : List JobId)
  /-- In the loop over the rows. -/
  | sending (full : Bool) (rows : List JobId)
  /-- In the loop, with a row in `in_flight` that is being sent. -/
  | entered (full : Bool) (id : JobId) (rows : List JobId)
  /-- Sleeping until the next poll. -/
  | resting
  /-- Dropped while `claim_batch` was under way. -/
  | detached (n : Nat)
  | stopped
  deriving DecidableEq

/-- Where a worker is. -/
inductive Worker
  /-- Waiting for the receiver or for a row. -/
  | waiting
  /-- Running the handler. -/
  | handling (id : JobId)
  /-- Out of `in_flight`, with `mark_completed` or `mark_failed` under way. -/
  | reporting (id : JobId)
  /-- Dropped while the verdict was under way. -/
  | detached (id : JobId)
  | stopped
  deriving DecidableEq

/-- `shutdown_with` in its three modes, and `shutdown_drain_bounded`. -/
inductive Mode
  | drain | bounded | force | abandon
  deriving DecidableEq

/-- How a shutdown ended. -/
inductive Outcome
  | drained | clean | escalated | forced | abandoned
  deriving DecidableEq

/-- Where the shutdown call is. -/
inductive Call
  | uncalled
  /-- The token is cancelled. -/
  | cancelled (m : Mode)
  /-- The snapshot of `in_flight` is taken; a bounded drain waits for the tasks. -/
  | snapped (bounded : Bool) (snap : List JobId)
  /-- The tasks are aborted and `reclaim_in_flight` is under way. -/
  | aborted (bounded : Bool) (snap : List JobId)
  | returned (o : Outcome)
  deriving DecidableEq

/-- The token is cancelled first. -/
def Call.isCancelled : Call → Bool
  | .uncalled => false
  | _ => true

/-- Tasks have been aborted. -/
def Call.isAborted : Call → Bool
  | .aborted .. | .returned .escalated | .returned .forced | .returned .abandoned => true
  | _ => false

/-- Where the claimed jobs have gone. -/
structure Log where
  granted : List JobId := []
  byWorker : List JobId := []
  givenBack : List JobId := []
  /-- Dropped with their task. -/
  lost : List JobId := []
  /-- Claimed and with no worker when the token was cancelled, or claimed after that. -/
  late : List JobId := []
  /-- Claimed and not in `in_flight` when the snapshot was taken, or claimed after that. -/
  missed : List JobId := []

/-- The state of the process and its backend. -/
structure Process (σ : Type) where
  store : σ
  fetcher : Fetcher := .top
  idle : Nat
  channel : List JobId := []
  workers : List Worker
  inFlight : List JobId := []
  call : Call := .uncalled
  log : Log := {}

/-- `Runtime::start`. -/
def Process.start {σ : Type} (cfg : Config) (s : σ) : Process σ where
  store := s
  idle := cfg.concurrency
  workers := List.replicate cfg.concurrency .waiting

/-- The capacity of the channel. -/
def Config.capacity (cfg : Config) : Nat := max cfg.concurrency 1

/-- The rows that the fetcher has not put into `in_flight`. -/
def Fetcher.rows : Fetcher → List JobId
  | .claimed _ rows | .sending _ rows | .entered _ _ rows => rows
  | _ => []

/-- The row that the fetcher is sending. -/
def Fetcher.sent : Fetcher → List JobId
  | .entered _ id _ => [id]
  | _ => []

/-- What a worker is working on. -/
def Worker.handled : Worker → Option JobId
  | .handling id => some id
  | _ => none

/-- What a worker is reporting. -/
def Worker.reported : Worker → Option JobId
  | .reporting id | .detached id => some id
  | _ => none

/-- All workers have ended: the receiver is closed, and there is nobody to wait for. -/
def Process.idleWorkers {σ : Type} (p : Process σ) : Bool := p.workers.all (· = .stopped)

/-- The outcome when all tasks have ended. -/
def Call.outcome : Call → Option Outcome
  | .cancelled .drain => some .drained
  | .snapped true _ => some .clean
  | _ => none

section Step

variable {σ : Type} (B : Backend σ) (cfg : Config) (careful : Prop)

/-- One step of a task. The guards named `ok` are asked of careful runs only. -/
inductive Step : Process σ → Process σ → Prop
  /-- The fetcher sees an idle worker, reads how many there are and claims. -/
  | claim {p : Process σ} (pc : p.fetcher = .top) (live : p.call.isCancelled = false) (free : 0 < p.idle) :
      Step p { p with fetcher := .claiming (min cfg.batchSize p.idle) }
  /-- The claim commits. -/
  | commit {p : Process σ} {n : Nat} {rows : List JobId} {s : σ} (pc : p.fetcher = .claiming n)
      (done : B.claim p.store n rows s) (ok : careful → p.call.isAborted → rows = []) :
      Step p { p with
        store := s
        fetcher := .claimed (rows.length = n && 0 < rows.length) rows
        log := { p.log with
          granted := p.log.granted ++ rows, late := p.log.late ++ rows, missed := p.log.missed ++ rows } }
  /-- The claim of a fetcher that was dropped commits. -/
  | commitDetached {p : Process σ} {n : Nat} {rows : List JobId} {s : σ} (pc : p.fetcher = .detached n)
      (done : B.claim p.store n rows s) (ok : careful → rows = []) :
      Step p { p with
        store := s
        fetcher := .stopped
        log := { p.log with
          granted := p.log.granted ++ rows, lost := p.log.lost ++ rows, late := p.log.late ++ rows
          missed := p.log.missed ++ rows } }
  /-- The rows arrive. -/
  | reply {p : Process σ} {full : Bool} {rows : List JobId} (pc : p.fetcher = .claimed full rows) :
      Step p { p with fetcher := .sending full rows }
  /-- The next row: forget a permit and put it into `in_flight`. -/
  | enter {p : Process σ} {full : Bool} {id : JobId} {rows : List JobId} (pc : p.fetcher = .sending full (id :: rows))
      (permit : 0 < p.idle) :
      Step p { p with fetcher := .entered full id rows, idle := p.idle - 1, inFlight := p.inFlight.insert id }
  /-- `expect("claimed no more jobs than idle workers")`. -/
  | panic {p : Process σ} {full : Bool} {id : JobId} {rows : List JobId} (pc : p.fetcher = .sending full (id :: rows))
      (spent : p.idle = 0) :
      Step p { p with fetcher := .stopped, log := { p.log with lost := p.log.lost ++ id :: rows } }
  /-- The row is in the channel. -/
  | send {p : Process σ} {full : Bool} {id : JobId} {rows : List JobId} (pc : p.fetcher = .entered full id rows)
      (isOpen : p.idleWorkers = false) (room : p.channel.length < cfg.capacity) :
      Step p { p with fetcher := .sending full rows, channel := p.channel ++ [id] }
  /-- The channel is closed: the fetcher leaves with the rows it has. -/
  | closed {p : Process σ} {full : Bool} {id : JobId} {rows : List JobId} (pc : p.fetcher = .entered full id rows)
      (gone : p.idleWorkers = true) :
      Step p { p with fetcher := .stopped, log := { p.log with lost := p.log.lost ++ id :: rows } }
  /-- No row is left: fetch again at once after a full batch, else sleep. -/
  | rest {p : Process σ} {full : Bool} (pc : p.fetcher = .sending full []) :
      Step p { p with fetcher := if full then .top else .resting }
  /-- A wakeup or the end of the sleep. -/
  | wake {p : Process σ} (pc : p.fetcher = .resting) : Step p { p with fetcher := .top }
  /-- The fetcher sees the token. -/
  | stopFetcher {p : Process σ} (pc : p.fetcher = .top ∨ p.fetcher = .resting) (off : p.call.isCancelled = true) :
      Step p { p with fetcher := .stopped }
  /-- A worker takes a row out of the channel; the token comes first. -/
  | receive {p : Process σ} {ws ws' : List Worker} {id : JobId} {rest : List JobId}
      (at' : p.workers = ws ++ .waiting :: ws') (live : p.call.isCancelled = false) (head : p.channel = id :: rest) :
      Step p { p with workers := ws ++ .handling id :: ws', channel := rest }
  /-- The handler has ended, one way or another, or there is none for this kind. -/
  | finish {p : Process σ} {ws ws' : List Worker} {id : JobId} (at' : p.workers = ws ++ .handling id :: ws') :
      Step p { p with workers := ws ++ .reporting id :: ws', inFlight := p.inFlight.filter (· ≠ id) }
  /-- The verdict commits, and the worker is idle again. -/
  | report {p : Process σ} {ws ws' : List Worker} {id : JobId} {s : σ} (at' : p.workers = ws ++ .reporting id :: ws')
      (done : B.report p.store id s) :
      Step p { p with
        store := s, workers := ws ++ .waiting :: ws', idle := p.idle + 1
        log := { p.log with byWorker := p.log.byWorker ++ if B.running p.store id then [id] else [] } }
  /-- The verdict of a worker that was dropped commits. -/
  | reportDetached {p : Process σ} {ws ws' : List Worker} {id : JobId} {s : σ}
      (at' : p.workers = ws ++ .detached id :: ws') (done : B.report p.store id s) :
      Step p { p with
        store := s, workers := ws ++ .stopped :: ws'
        log := { p.log with byWorker := p.log.byWorker ++ if B.running p.store id then [id] else [] } }
  /-- A worker sees the token. -/
  | stopWorker {p : Process σ} {ws ws' : List Worker} (at' : p.workers = ws ++ .waiting :: ws')
      (off : p.call.isCancelled = true) : Step p { p with workers := ws ++ .stopped :: ws' }
  /-- A shutdown is called and cancels the token. -/
  | shutdown {p : Process σ} (m : Mode) (first : p.call = .uncalled) :
      Step p { p with
        call := .cancelled m
        log := { p.log with late := p.fetcher.rows ++ p.fetcher.sent ++ p.channel ++ p.log.lost } }
  /-- The snapshot of `in_flight`. -/
  | snapshot {p : Process σ} {m : Mode} (pc : p.call = .cancelled m) (kind : m = .bounded ∨ m = .force) :
      Step p { p with
        call := .snapped (m = .bounded) p.inFlight, log := { p.log with missed := p.fetcher.rows ++ p.log.lost } }
  /-- Every task has ended. -/
  | awaited {p : Process σ} {o : Outcome} (pc : p.call.outcome = some o) (fetcher : p.fetcher = .stopped)
      (workers : p.idleWorkers = true) (ok : careful → p.log.late = []) :
      Step p { p with call := .returned o }
  /-- The tasks are aborted: at once, or at the end of the grace period. -/
  | abort {p : Process σ} {bounded : Bool} {snap : List JobId} (pc : p.call = .snapped bounded snap)
      (ok : careful → p.log.missed = [] ∧ ∀ id ∈ p.workers.filterMap Worker.reported, id ∈ snap) :
      Step p { p with call := .aborted bounded snap }
  /-- `reclaim_in_flight` commits, and the call returns. -/
  | reclaim {p : Process σ} {bounded : Bool} {snap : List JobId} {s : σ} (pc : p.call = .aborted bounded snap)
      (done : B.reclaim p.store snap s) :
      Step p { p with
        store := s, call := .returned (if bounded then .escalated else .forced)
        log := { p.log with givenBack := p.log.givenBack ++ snap.dedup.filter (B.running p.store) } }
  /-- `Abandon` aborts the tasks and returns. -/
  | abandon {p : Process σ} (pc : p.call = .cancelled .abandon) : Step p { p with call := .returned .abandoned }
  /-- An aborted fetcher is dropped. -/
  | dropFetcher {p : Process σ} (off : p.call.isAborted = true) :
      Step p { p with
        fetcher := match p.fetcher with
          | .claiming n | .detached n => .detached n
          | _ => .stopped
        log := { p.log with lost := p.log.lost ++ p.fetcher.rows ++ p.fetcher.sent } }
  /-- An aborted worker is dropped. -/
  | dropWorker {p : Process σ} {ws ws' : List Worker} {w : Worker} (off : p.call.isAborted = true)
      (at' : p.workers = ws ++ w :: ws') :
      Step p { p with
        workers := ws ++ (match w with
          | .reporting id | .detached id => .detached id
          | _ => .stopped) :: ws'
        log := { p.log with lost := p.log.lost ++ w.handled.toList } }
  /-- Somebody else calls the backend. -/
  | other {p : Process σ} {s : σ} (done : B.other p.store s) : Step p { p with store := s }

/-- The states of a process that starts on a backend with nothing running under it. -/
def Reached (p : Process σ) : Prop :=
  ∃ s, B.inv s ∧ (∀ id, B.running s id = false) ∧
    Lib.Reach (fun p (_ : Unit) p' => Step B cfg careful p p') (Process.start cfg s) p

end Step

end Eddyq.Runtime
