import Eddyq.Lib.Locks
import Eddyq.Pg.System

/-!
# Claims and verdicts, statement by statement

A claim is a transaction of several statements, and other transactions run between them. A statement sees the tables
as they are committed at that moment; a locking read takes the rows that no one else holds (`SKIP LOCKED`) and holds
them until the end; an update waits for its rows, so it runs only when they are free. What a transaction has written is
seen by the others when it commits, and the rows it writes it holds by then, so its writes are applied there.

`ClaimStmt` are the statements of `claim_batch`, with the definitions of `Eddyq.Pg.Claim` for what each of them reads
and computes. `SettleStmt` are those of `mark_completed`, `mark_failed`, `sweep_stale` and `reclaim_in_flight`: they
take job rows one by one and then the counters they decrement.
-/

namespace Eddyq.Pg

open Eddyq.Lib

/-- What can be locked; a group key also when it has no row yet, by an insert in progress. -/
inductive Row
  | job (id : JobId)
  | group (key : String)
  | queue (name : String)
  deriving DecidableEq

/-- The counters that belong to some job rows: the keys of their groups, and the queues that have a row. -/
def counterRows (db : Db) (jobs : List JobRow) : List Row :=
  (jobs.filterMap (·.groupKey)).map .group ++
    (db.queues.filter (fun q => jobs.any (·.queue = q.name))).map (fun q => .queue q.name)

/-! ## `claim_batch` -/

/-- Where a claim stands, with its local variables. -/
inductive ClaimPhase
  | begun
  /-- The unlocked read of the queue rows. -/
  | read (rows : List QueueRow)
  /-- The queues the fast lane has not been to. -/
  | fast (c : Claiming) (todo : List String)
  /-- The keys of the groups with work. -/
  | walked (c : Claiming) (keys : List String)
  /-- The group rows it has locked. -/
  | grouped (c : Claiming) (keys : List String) (rows : List GroupRow)
  /-- The groups the slow lane has not been to. -/
  | slow (c : Claiming) (openQueues : List String) (slots todo : List (String × GroupState))
  /-- The final updates. -/
  | writing (c : Claiming) (slots : List (String × GroupState))

/-- A claim under way; `now` is the database's clock and `clock` the process's. -/
structure ClaimTx where
  args : ClaimArgs
  now : ℤ
  clock : ℤ
  phase : ClaimPhase := .begun
  held : List Row := []

/-- `SELECT ... FROM eddyq_queues WHERE name = ANY($1) FOR UPDATE SKIP LOCKED`. -/
def lockQueues (db : Db) (free : String → Bool) (names : List String) : List QueueRow :=
  (readQueues db names).filter (fun q => free q.name)

/-- The job rows the fast lane locks on a queue. -/
def ungroupedPick (db : Db) (free : JobId → Bool) (x : ClaimTx) (c : Claiming) (q : String) : List JobRow :=
  pick db free (ungroupedOn x.args x.now q) (ungroupedLimit x.args c q)

/-- The job rows the slow lane locks in a group. -/
def groupedPick (db : Db) (free : JobId → Bool) (x : ClaimTx) (c : Claiming) (qs : List String)
    (g : String × GroupState) : List JobRow :=
  pick db free (groupedIn x.args x.now qs g.1) (groupedLimit x.args c g.2)

/-- The ids of the jobs a claim has accepted. -/
def Claiming.ids (c : Claiming) : List JobId := c.accepted.map (·.id)

/-- The statements of a claim; `f` is which rows are free. -/
inductive ClaimStmt (free : Row → Prop) (db : Db) (x : ClaimTx) : ClaimTx → Prop
  | readQueues (at' : x.phase = .begun) : ClaimStmt free db x { x with phase := .read (readQueues db x.args.queues) }
  /-- The claim goes on when some queue has room. -/
  | lockQueues {rows : List QueueRow} (at' : x.phase = .read rows) (f : Row → Bool) (hf : ∀ r, f r ↔ free r)
      {c : Claiming} (budget : c = { budget := queueBudgets rows (lockQueues db (fun n => f (.queue n)) (bindingNames rows)) })
      (room : ¬ x.args.queues.all (fun q => c.budgetFor q ≤ 0)) :
      ClaimStmt free db x { x with
        phase := .fast c x.args.queues
        held := x.held ++ (lockQueues db (fun n => f (.queue n)) (bindingNames rows)).map (fun q => .queue q.name) }
  | pickUngrouped {c : Claiming} {q : String} {todo : List String} (at' : x.phase = .fast c (q :: todo))
      (f : Row → Bool) (hf : ∀ r, f r ↔ free r) :
      ClaimStmt free db x { x with
        phase := .fast (claimUngrouped db (fun id => f (.job id)) x.args x.now c q) todo
        held := x.held ++ (ungroupedPick db (fun id => f (.job id)) x c q).map (fun j => .job j.id) }
  | walk {c : Claiming} (at' : x.phase = .fast c []) :
      ClaimStmt free db x { x with phase := .walked c (activeGroupKeys db x.args x.now c) }
  | lockGroups {c : Claiming} {keys : List String} (at' : x.phase = .walked c keys) (f : Row → Bool)
      (hf : ∀ r, f r ↔ free r) :
      ClaimStmt free db x { x with
        phase := .grouped c keys (lockGroups db (fun k => f (.group k)) keys)
        held := x.held ++ (lockGroups db (fun k => f (.group k)) keys).map (fun g => .group g.key) }
  | readExisting {c : Claiming} {keys : List String} {rows : List GroupRow} (at' : x.phase = .grouped c keys rows)
      (order : MapOrder) {slots : List (String × GroupState)}
      (hslots : slots = groupSlots rows keys (existingKeys db keys) x.clock) :
      ClaimStmt free db x { x with phase := .slow c (openQueues x.args c) slots (order.list slots) }
  | pickGrouped {c : Claiming} {qs : List String} {slots todo : List (String × GroupState)} {g : String × GroupState}
      (at' : x.phase = .slow c qs slots (g :: todo)) (f : Row → Bool) (hf : ∀ r, f r ↔ free r) :
      ClaimStmt free db x { x with
        phase := .slow (claimGrouped db (fun id => f (.job id)) x.args x.now qs c g) qs slots todo
        held := x.held ++ (groupedPick db (fun id => f (.job id)) x c qs g).map (fun j => .job j.id) }
  | write {c : Claiming} {qs : List String} {slots : List (String × GroupState)} (at' : x.phase = .slow c qs slots [])
      (some : c.accepted ≠ []) : ClaimStmt free db x { x with phase := .writing c slots }
  /-- A counter update waits for its row. -/
  | lockCounter {c : Claiming} {slots : List (String × GroupState)} (at' : x.phase = .writing c slots) {r : Row}
      (hr : r ∈ counterRows db (claimedRows db c.ids x.args.worker x.now)) (hfree : free r) :
      ClaimStmt free db x { x with held := x.held ++ [r] }

/-- The commit of a claim, when it holds all counters it bumps. -/
inductive ClaimCommit (db : Db) (x : ClaimTx) : Db → Prop
  | mk {c : Claiming} {slots : List (String × GroupState)} (at' : x.phase = .writing c slots)
      (counters : ∀ r ∈ counterRows db (claimedRows db c.ids x.args.worker x.now), r ∈ x.held) :
      ClaimCommit db x (commitClaim db x.args slots c.ids x.now x.clock)

/-! ## Verdicts and recovery -/

/-- The transactions that take jobs out of `running`. -/
inductive Settle
  | completed (id : JobId) (worker : WorkerId) (result : Option Json) (now : ℤ)
  | failed (id : JobId) (worker : WorkerId) (error : Json) (retryAt : Option ℤ) (now : ℤ)
  | sweepStale (staleAfterSecs : Nat) (now : ℤ)
  | reclaimInFlight (ids : List JobId) (now : ℤ)

/-- The `WHERE` clause of the update of the jobs. -/
def Settle.hits (j : JobRow) : Settle → Bool
  | .completed id w _ _ | .failed id w _ _ _ => j.leasedTo id w
  | .sweepStale secs now => j.running && j.stale now secs
  | .reclaimInFlight ids _ => j.running && j.id ∈ ids

/-- What is written for the job rows taken. -/
def Settle.write (db : Db) (jobs : List JobId) : Settle → Except Error Db
  | .completed id w result now => markCompleted db id w result now
  | .failed id w error retryAt now => markFailed db id w error retryAt now
  | .sweepStale _ now => (recover db (fun j => j.id ∈ jobs) (sweepEntry now) now).map Prod.fst
  | .reclaimInFlight _ now => (recover db (fun j => j.id ∈ jobs) (reclaimEntry now) now).map Prod.fst

/-- Such a transaction under way, with the jobs its update has hit. -/
structure SettleTx where
  kind : Settle
  jobs : List JobId := []
  held : List Row := []

/-- The job rows that have been taken. -/
def SettleTx.rows (db : Db) (x : SettleTx) : List JobRow := db.jobs.filter (fun j => j.id ∈ x.jobs)

/-- Its statements; each waits for the rows it writes. -/
inductive SettleStmt (free : Row → Prop) (db : Db) (x : SettleTx) : SettleTx → Prop
  | take {j : JobRow} (mem : j ∈ db.jobs) (hit : x.kind.hits j) (hfree : free (.job j.id)) :
      SettleStmt free db x { x with jobs := x.jobs ++ [j.id], held := x.held ++ [.job j.id] }
  | lockCounter {r : Row} (hr : r ∈ counterRows db (x.rows db)) (hfree : free r) :
      SettleStmt free db x { x with held := x.held ++ [r] }

/-- The commit, when it holds all counters it decrements. An update that hit nothing has nothing to commit. -/
inductive SettleCommit (db : Db) (x : SettleTx) : Db → Prop
  | mk {db' : Db} (some : x.jobs ≠ []) (counters : ∀ r ∈ counterRows db (x.rows db), r ∈ x.held)
      (written : x.kind.write db x.jobs = .ok db') : SettleCommit db x db'

/-! ## The system -/

/-- An open transaction. -/
inductive Tx
  | claim (x : ClaimTx)
  | settle (x : SettleTx)

/-- The rows it holds. -/
def Tx.held : Tx → List Row
  | .claim x => x.held
  | .settle x => x.held

/-- A claim begins unless there is nothing to ask for. -/
inductive Tx.Begins : Tx → Prop
  | claim (a : ClaimArgs) (now clock : ℤ) (asks : ¬ (a.batchSize = 0 ∨ a.kinds = [] ∨ a.queues = [])) :
      Tx.Begins (.claim { args := a, now := now, clock := clock })
  | settle (kind : Settle) : Tx.Begins (.settle { kind := kind })

inductive Tx.Stmt (free : Row → Prop) (db : Db) : Tx → Tx → Prop
  | claim {x x' : ClaimTx} (h : ClaimStmt free db x x') : Tx.Stmt free db (.claim x) (.claim x')
  | settle {x x' : SettleTx} (h : SettleStmt free db x x') : Tx.Stmt free db (.settle x) (.settle x')

inductive Tx.Commits (db : Db) : Tx → Db → Prop
  | claim {x : ClaimTx} {db' : Db} (h : ClaimCommit db x db') : Tx.Commits db (.claim x) db'
  | settle {x : SettleTx} {db' : Db} (h : SettleCommit db x db') : Tx.Commits db (.settle x) db'

/-- The transactions of the backend. -/
def engine : Engine Db Tx Row where
  begins := Tx.Begins
  held x r := r ∈ x.held
  stmt := Tx.Stmt
  commits := Tx.Commits

/-- The tables, and the open ones of any number of transactions. -/
abbrev Traffic (τ : Type) := Sessions Db Tx τ

end Eddyq.Pg
