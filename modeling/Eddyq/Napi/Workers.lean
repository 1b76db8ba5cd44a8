import Eddyq.Lib.Runs
import Eddyq.Napi.Items
import Mathlib.Logic.Function.Basic

/-!
# The life of a worker

`WorkerState` and `RedisWorkerState`, and the calls that move them: handlers are registered while the worker is being built,
`start` makes a core queue of them and `shutdown` stops it. Both calls take the state out first and leave `Stopped` in its place.
Three exits forget to put it back: pending migrations or a failed query of them, a shutdown before the start, and an unknown
mode, after which the core queue runs on and nothing can stop it. `lifecycle_kept_iff` is about every state that calls reach:
a failing call leaves the worker as it was exactly when it is none of these (`Call.Careful`).
-/

namespace Eddyq.Napi

open Lib

inductive BackendKind
  | pg | redis
  deriving DecidableEq, Repr

/-! ## The core queue -/

/-- What `start` may set of `QueueConfig`, with its defaults; durations are in milliseconds. -/
structure QueueConfig where
  fetchPollInterval : ℕ := 1000
  workerConcurrency : ℕ := 10
  heartbeatInterval : ℕ := 15000
  sweepInterval : ℕ := 30000
  staleAfter : ℕ := 60000
  schedulerInterval : ℕ := 5000
  cleanupInterval : ℕ := 300000
  completedRetention : Option ℕ := some 86400000
  failedRetention : Option ℕ := some 604800000
  cancelledRetention : Option ℕ := some 604800000
  batchRetention : Option ℕ := some 604800000
  completedRetentionCount : Option ℤ := none
  failedRetentionCount : Option ℤ := none
  cancelledRetentionCount : Option ℤ := none
  batchRetentionCount : Option ℤ := none
  pollOnly : Bool := false
  leaderLeaseSecs : ℕ := 30
  defaultJobTimeout : Option ℕ := some 21600000

/-- `StartOptions`. -/
structure StartOptions where
  skipMigrationCheck : Option Bool := none
  sweepIntervalMs : Option ℕ := none
  staleAfterMs : Option ℕ := none
  heartbeatIntervalMs : Option ℕ := none
  cleanupIntervalMs : Option ℕ := none
  completedRetentionSecs : Option ℤ := none
  failedRetentionSecs : Option ℤ := none
  cancelledRetentionSecs : Option ℤ := none
  batchRetentionSecs : Option ℤ := none
  completedRetentionCount : Option ℤ := none
  failedRetentionCount : Option ℤ := none
  cancelledRetentionCount : Option ℤ := none
  batchRetentionCount : Option ℤ := none
  leaderLeaseSecs : Option ℕ := none
  fetchPollIntervalMs : Option ℕ := none
  defaultJobTimeoutMs : Option ℕ := none
  schedulerIntervalMs : Option ℕ := none

def retentionFromSecs (secs : ℤ) : Option ℕ := if secs < 0 then none else some (secs.toNat * 1000)

def countFromNapi (n : ℤ) : Option ℤ := if n < 0 then none else some n

/-- What both backends take from the options. -/
def StartOptions.configure (o : StartOptions) (c : QueueConfig) : QueueConfig :=
  { c with
    sweepInterval := o.sweepIntervalMs.getD c.sweepInterval
    staleAfter := o.staleAfterMs.getD c.staleAfter
    heartbeatInterval := o.heartbeatIntervalMs.getD c.heartbeatInterval
    cleanupInterval := o.cleanupIntervalMs.getD c.cleanupInterval
    completedRetention := o.completedRetentionSecs.elim c.completedRetention retentionFromSecs
    failedRetention := o.failedRetentionSecs.elim c.failedRetention retentionFromSecs
    cancelledRetention := o.cancelledRetentionSecs.elim c.cancelledRetention retentionFromSecs
    batchRetention := o.batchRetentionSecs.elim c.batchRetention retentionFromSecs
    leaderLeaseSecs := o.leaderLeaseSecs.getD c.leaderLeaseSecs
    fetchPollInterval := o.fetchPollIntervalMs.getD c.fetchPollInterval
    defaultJobTimeout := o.defaultJobTimeoutMs.elim c.defaultJobTimeout fun ms => if ms = 0 then none else some ms
    schedulerInterval := o.schedulerIntervalMs.getD c.schedulerInterval }

/-- Redis also has the caps on counts. -/
def StartOptions.configureRedis (o : StartOptions) (c : QueueConfig) : QueueConfig :=
  { o.configure c with
    completedRetentionCount := o.completedRetentionCount.elim c.completedRetentionCount countFromNapi
    failedRetentionCount := o.failedRetentionCount.elim c.failedRetentionCount countFromNapi
    cancelledRetentionCount := o.cancelledRetentionCount.elim c.cancelledRetentionCount countFromNapi
    batchRetentionCount := o.batchRetentionCount.elim c.batchRetentionCount countFromNapi }

/-- `Queue` of the core with its builder's fields; the handlers are of any type. -/
structure CoreQueue (H : Type) where
  registry : String → Option H := fun _ => none
  config : QueueConfig := {}
  line : String
  queues : List String := ["default"]
  running : Bool := false

variable {H : Type}

/-- `worker_concurrency` of the builder, when one was set. -/
def CoreQueue.workerConcurrency (q : CoreQueue H) : Option ℕ → CoreQueue H
  | none => q
  | some n => { q with config := { q.config with workerConcurrency := max n 1 } }

/-- `subscribe_to` of the builder, when it is called: no queue means the default one. -/
def CoreQueue.subscribeTo (q : CoreQueue H) : Option (List String) → CoreQueue H
  | none => q
  | some qs => { q with queues := if qs.isEmpty then ["default"] else qs }

/-- What a worker subscribes to, with the list that its setter holds. -/
def subscribed : Option (List String) → List String
  | none => ["default"]
  | some qs => if qs.isEmpty then ["default"] else qs

def CoreQueue.configured (q : CoreQueue H) (f : QueueConfig → QueueConfig) : CoreQueue H := { q with config := f q.config }

/-- `register_dyn`, in order: of two handlers of one kind the later counts. -/
def CoreQueue.register (q : CoreQueue H) (handlers : List (String × H)) : CoreQueue H :=
  { q with registry := handlers.foldl (fun r h => Function.update r h.1 (some h.2)) q.registry }

def CoreQueue.start (q : CoreQueue H) : Except Refusal (CoreQueue H) :=
  if q.running then .error (.reason "queue already running") else .ok { q with running := true }

/-- `shutdown_with` and `shutdown_drain_bounded`, once they return. -/
def CoreQueue.shutdown (q : CoreQueue H) : Except Refusal (CoreQueue H) :=
  if q.running then .ok { q with running := false } else .error (.reason "queue not running")

/-! ## The worker -/

/-- `WorkerState` and `RedisWorkerState`; a core queue is a position in the list of those that were built. -/
inductive WorkerState (H : Type)
  | building (handlers : List (String × H)) (concurrency : Option ℕ) (subscribe : Option (List String))
  | running (queue : ℕ)
  | stopped

/-- The state, and the core queues that `start` has built. -/
structure Worker (H : Type) where
  state : WorkerState H := .building [] none none
  queues : List (CoreQueue H) := []

/-- What the connection knows. -/
structure Connection where
  line : String := "main"
  pollOnly : Bool := false

/-- `MigrationStatus`. -/
structure MigrationStatus where
  version : ℤ
  name : String
  appliedAt : Option ℤ

/-- The texts in which the two backends differ. -/
structure Messages where
  workRunning : String
  workStopped : String
  concurrency : String
  subscribe : String
  startRunning : String
  startStopped : String
  notRunning : String
  modes : String

def messages : BackendKind → Messages
  | .pg => {
      workRunning := "Queue is already running — register handlers before calling start()"
      workStopped := "Queue has been shut down and cannot be reused"
      concurrency := "Cannot change concurrency after start()"
      subscribe := "Cannot change queue subscriptions after start()"
      startRunning := "Queue is already running"
      startStopped := "Queue has been shut down and cannot be reused"
      notRunning := "Queue is not running"
      modes := "expected \"drain\" | \"force\" | \"abandon\"" }
  | .redis => {
      workRunning := "EddyqRedis is already running — register handlers before start()"
      workStopped := "EddyqRedis has been shut down"
      concurrency := "setWorkerConcurrency must be called before start()"
      subscribe := "subscribeTo must be called before start()"
      startRunning := "EddyqRedis is already running"
      startStopped := "EddyqRedis has been shut down and cannot be reused"
      notRunning := "EddyqRedis is not running"
      modes := "drain | force | abandon" }

/-- The mode of a shutdown; without one it is `drain`. What the modes do to the jobs is up to the core queue. -/
def parseShutdownMode (m : Messages) (mode : Option String) : Except Refusal Unit :=
  match mode.getD "drain" with
  | "drain" => .ok ()
  | "force" => .ok ()
  | "abandon" => .ok ()
  | other => .error (.reason s!"shutdown: invalid mode {other.quote} ({m.modes})")

namespace Worker

def registerHandlerArc (m : Messages) (kind : String) (handler : H) (w : Worker H) : Worker H × Except Refusal Unit :=
  match w.state with
  | .building handlers concurrency subscribe =>
    ({ w with state := .building (handlers ++ [(kind, handler)]) concurrency subscribe }, .ok ())
  | .running _ => (w, .error (.reason m.workRunning))
  | .stopped => (w, .error (.reason m.workStopped))

def setWorkerConcurrency (m : Messages) (n : ℕ) (w : Worker H) : Worker H × Except Refusal Unit :=
  match w.state with
  | .building handlers _ subscribe => ({ w with state := .building handlers (some (max n 1)) subscribe }, .ok ())
  | _ => (w, .error (.reason m.concurrency))

/-- The list replaces the one there was. -/
def subscribeTo (m : Messages) (queues : List String) (w : Worker H) : Worker H × Except Refusal Unit :=
  match w.state with
  | .building handlers concurrency _ => ({ w with state := .building handlers concurrency (some queues) }, .ok ())
  | _ => (w, .error (.reason m.subscribe))

/-- `start`, up to the check before the core queue is built and to how it is built. -/
def startWith (m : Messages) (check : Except Refusal Unit)
    (build : List (String × H) → Option ℕ → Option (List String) → CoreQueue H) (w : Worker H) :
    Worker H × Except Refusal Unit :=
  -- `mem::replace`
  let taken : Worker H := { w with state := .stopped }
  match w.state with
  | .running queue => ({ taken with state := .running queue }, .error (.reason m.startRunning))
  | .stopped => (taken, .error (.reason m.startStopped))
  | .building handlers concurrency subscribe =>
    if handlers.isEmpty then
      ({ taken with state := .building [] concurrency subscribe },
        .error (.reason "No handlers registered — call work(kind, fn) before start()"))
    else match check with
      | .error e => (taken, .error e)
      | .ok () =>
        match (build handlers concurrency subscribe).start with
        | .error e => (taken, .error e)
        | .ok queue => ({ state := .running w.queues.length, queues := w.queues ++ [queue] }, .ok ())

def shutdown (m : Messages) (mode : Option String) (w : Worker H) : Worker H × Except Refusal Unit :=
  let taken : Worker H := { w with state := .stopped }
  match w.state with
  | .building _ _ _ => (taken, .error (.reason m.notRunning))
  | .stopped => (taken, .error (.reason m.notRunning))
  | .running queue =>
    match parseShutdownMode m mode with
    | .error e => (taken, .error e)
    | .ok () =>
      match w.queues[queue]? with
      | none => (taken, .ok ())
      | some q =>
        match q.shutdown with
        | .error e => (taken, .error e)
        | .ok q' => ({ taken with queues := w.queues.set queue q' }, .ok ())

end Worker

/-! ## The two starts -/

/-- The text for migrations that are not applied. -/
def pendingMessage (pending : List MigrationStatus) : String :=
  let names := String.intercalate ", " (pending.map fun p => s!"{p.version}:{p.name}")
  s!"eddyq: {pending.length} pending migration(s) — will not start workers against stale schema.\n" ++
  s!"Pending: {names}.\n\n" ++
  "Apply them as a deploy step BEFORE booting workers:\n  " ++
  "• CLI:  `eddyq migrate run --database-url $DATABASE_URL`\n  " ++
  "• Or a one-shot Node script: `await Eddyq.connect(url).then(q => q.migrate())`\n\n" ++
  "Once applied, restart workers. If you've already migrated out-of-band and want " ++
  "to silence this check, pass `\x7b skipMigrationCheck: true \x7d` to start()."

/-- The guard of pending migrations; `status` is what the query answers. -/
def migrationGuard (options : Option StartOptions) (status : Except Error (List MigrationStatus)) : Except Refusal Unit :=
  if (options.bind (·.skipMigrationCheck)).getD false then .ok ()
  else match status with
    | .error e => .error (.core e)
    | .ok statuses =>
      let pending := statuses.filter (·.appliedAt.isNone)
      if pending.isEmpty then .ok () else .error (.reason (pendingMessage pending))

def Queue.start (conn : Connection) (options : Option StartOptions) (status : Except Error (List MigrationStatus))
    (w : Worker H) : Worker H × Except Refusal Unit :=
  w.startWith (messages .pg) (migrationGuard options status) fun handlers concurrency subscribe =>
    let builder : CoreQueue H := { line := conn.line, config := { pollOnly := conn.pollOnly } }
    (((builder.workerConcurrency concurrency).subscribeTo subscribe).configured
      (options.elim id StartOptions.configure)).register handlers

/-- There are no migrations to check. -/
def RedisQueue.start (conn : Connection) (options : Option StartOptions) (w : Worker H) : Worker H × Except Refusal Unit :=
  w.startWith (messages .redis) (.ok ()) fun handlers concurrency subscribe =>
    let builder : CoreQueue H := { line := conn.line }
    (((builder.workerConcurrency concurrency).subscribeTo subscribe).configured
      (options.elim id StartOptions.configureRedis)).register handlers

/-! ## Runs -/

/-- A call on the worker; a start comes with what a query of the migrations answers at that time. -/
inductive Call (H : Type)
  | work (kind : String) (handler : H)
  | setWorkerConcurrency (n : ℕ)
  | subscribeTo (queues : List String)
  | start (options : Option StartOptions) (status : Except Error (List MigrationStatus))
  | shutdown (mode : Option String)

def Worker.call (b : BackendKind) (conn : Connection) (w : Worker H) : Call H → Worker H × Except Refusal Unit
  | .work kind handler => w.registerHandlerArc (messages b) kind handler
  | .setWorkerConcurrency n => w.setWorkerConcurrency (messages b) n
  | .subscribeTo queues => w.subscribeTo (messages b) queues
  | .start options status =>
    match b with
    | .pg => Queue.start conn options status w
    | .redis => RedisQueue.start conn options w
  | .shutdown mode => w.shutdown (messages b) mode

/-- The guard of the migrations lets the start pass. -/
def GuardPasses (options : Option StartOptions) (status : Except Error (List MigrationStatus)) : Prop :=
  options.bind (·.skipMigrationCheck) = some true ∨ ∃ statuses, status = .ok statuses ∧ ∀ s ∈ statuses, s.appliedAt ≠ none

def ValidMode (mode : Option String) : Prop :=
  mode = none ∨ mode = some "drain" ∨ mode = some "force" ∨ mode = some "abandon"

/-- The call takes no exit that forgets the state: a start on Postgres with handlers is one that the guard lets pass, and a
shutdown comes after the start, with a mode that there is. -/
def Call.Careful (b : BackendKind) (w : Worker H) : Call H → Prop
  | .start options status => b = .pg → ∀ handlers concurrency subscribe,
      w.state = .building handlers concurrency subscribe → handlers ≠ [] → GuardPasses options status
  | .shutdown mode => (∀ handlers concurrency subscribe, w.state ≠ .building handlers concurrency subscribe) ∧
      ∀ queue, w.state = .running queue → ValidMode mode
  | _ => True

/-- A call that fails leaves the worker as it was. -/
def Worker.Kept (b : BackendKind) (conn : Connection) (w : Worker H) (c : Call H) : Prop :=
  ∀ e, (w.call b conn c).2 = .error e → (w.call b conn c).1 = w

/-- In the state `running` the core queue is there and runs. -/
def Worker.Sound (w : Worker H) : Prop :=
  ∀ i, w.state = .running i → ∃ q, w.queues[i]? = some q ∧ q.running = true

/-- A core queue that runs is the one of the state, so that `shutdown` finds it. -/
def Worker.Owned (w : Worker H) : Prop :=
  ∀ i q, w.queues[i]? = some q → q.running = true → w.state = .running i

/-! ## What one call does -/

section Calls

variable {m : Messages} {check : Except Refusal Unit} {mode : Option String} {w : Worker H}
variable {build : List (String × H) → Option ℕ → Option (List String) → CoreQueue H}

/-- A start that has no handlers to start with fails and puts the state back. -/
theorem startWith_restores (m : Messages) (check : Except Refusal Unit)
    (build : List (String × H) → Option ℕ → Option (List String) → CoreQueue H)
    (h : ∀ hs n qs, w.state = .building hs n qs → hs = []) :
    (w.startWith m check build).1 = w ∧ ∃ e, (w.startWith m check build).2 = .error e := by
  obtain ⟨state, queues⟩ := w
  cases state with
  | building hs n qs =>
    obtain rfl := h hs n qs rfl
    exact ⟨rfl, _, rfl⟩
  | running i => exact ⟨rfl, _, rfl⟩
  | stopped => exact ⟨rfl, _, rfl⟩

/-- With handlers it fails when the check does, or starts a new core queue. -/
theorem startWith_building {hs : List (String × H)} {n : Option ℕ} {qs : Option (List String)}
    (hw : w.state = .building hs n qs) (hne : hs ≠ []) (hb : (build hs n qs).running = false) :
    w.startWith m check build = match check with
      | .error e => ({ w with state := .stopped }, .error e)
      | .ok () => (
          { state := .running w.queues.length, queues := w.queues ++ [{ build hs n qs with running := true }] }, .ok ()) := by
  have hs' : hs.isEmpty = false := by simpa using hne
  cases check with
  | error e => simp [Worker.startWith, hw, hs']
  | ok u => simp [Worker.startWith, hw, hs', CoreQueue.start, hb]

/-- A shutdown before the start fails, and the state is lost. -/
theorem shutdown_building {hs : List (String × H)} {n : Option ℕ} {qs : Option (List String)}
    (hw : w.state = .building hs n qs) :
    w.shutdown m mode = ({ w with state := .stopped }, .error (.reason m.notRunning)) := by
  simp [Worker.shutdown, hw]

theorem shutdown_stopped (hw : w.state = .stopped) : w.shutdown m mode = (w, .error (.reason m.notRunning)) := by
  obtain ⟨state, queues⟩ := w
  cases hw
  rfl

theorem parseShutdownMode_ok (h : ValidMode mode) : parseShutdownMode m mode = .ok () := by
  rcases h with rfl | rfl | rfl | rfl <;> rfl

theorem parseShutdownMode_error (m : Messages) (h : ¬ ValidMode mode) : ∃ e, parseShutdownMode m mode = .error e := by
  simp only [ValidMode, not_or] at h
  obtain ⟨hnone, hdrain, hforce, habandon⟩ := h
  obtain ⟨text, rfl⟩ := Option.ne_none_iff_exists'.mp hnone
  unfold parseShutdownMode
  split
  · next h => exact absurd (congrArg some h) hdrain
  · next h => exact absurd (congrArg some h) hforce
  · next h => exact absurd (congrArg some h) habandon
  · exact ⟨_, rfl⟩

/-- A shutdown of a running worker stops its core queue when there is such a mode, and otherwise loses it. -/
theorem shutdown_running (m : Messages) (mode : Option String) {i : ℕ} {q : CoreQueue H} (hw : w.state = .running i)
    (hi : w.queues[i]? = some q) (hq : q.running = true) :
    (ValidMode mode → w.shutdown m mode =
      ({ state := .stopped, queues := w.queues.set i { q with running := false } }, .ok ())) ∧
    (¬ ValidMode mode → ∃ e, w.shutdown m mode = ({ w with state := .stopped }, .error e)) := by
  constructor
  · intro h
    simp [Worker.shutdown, hw, parseShutdownMode_ok h, hi, CoreQueue.shutdown, hq]
  · intro h
    obtain ⟨e, he⟩ := parseShutdownMode_error m h
    exact ⟨e, by simp [Worker.shutdown, hw, he]⟩

theorem migrationGuard_ok_iff (options : Option StartOptions) (status : Except Error (List MigrationStatus)) :
    migrationGuard options status = .ok () ↔ GuardPasses options status := by
  unfold migrationGuard GuardPasses
  cases hskip : options.bind (·.skipMigrationCheck) with
  | some skip =>
    cases skip with
    | true => simp
    | false => cases status <;> simp
  | none => cases status <;> simp

end Calls

/-! ## What any call does -/

@[simp]
theorem CoreQueue.workerConcurrency_running (q : CoreQueue H) (n : Option ℕ) :
    (q.workerConcurrency n).running = q.running := by cases n <;> rfl

@[simp]
theorem CoreQueue.subscribeTo_running (q : CoreQueue H) (qs : Option (List String)) :
    (q.subscribeTo qs).running = q.running := by cases qs <;> rfl

@[simp]
theorem CoreQueue.workerConcurrency_queues (q : CoreQueue H) (n : Option ℕ) :
    (q.workerConcurrency n).queues = q.queues := by cases n <;> rfl

theorem CoreQueue.subscribeTo_queues {q : CoreQueue H} (hq : q.queues = ["default"]) (qs : Option (List String)) :
    (q.subscribeTo qs).queues = subscribed qs := by
  cases qs with
  | none => exact hq
  | some qs => rfl

/-- The five ways a call can end. -/
inductive Outcome (b : BackendKind) (w : Worker H) (c : Call H) : Worker H × Except Refusal Unit → Prop
  | failed (e : Refusal) : c.Careful b w → Outcome b w c (w, .error e)
  | edited (hs hs' : List (String × H)) (n n' : Option ℕ) (qs qs' : Option (List String)) : c.Careful b w →
      w.state = .building hs n qs → Outcome b w c ({ w with state := .building hs' n' qs' }, .ok ())
  | launched (hs : List (String × H)) (n : Option ℕ) (qs : Option (List String)) (q : CoreQueue H) : c.Careful b w →
      w.state = .building hs n qs → q.running = true →
      Outcome b w c ({ state := .running w.queues.length, queues := w.queues ++ [q] }, .ok ())
  | shut (i : ℕ) (q : CoreQueue H) : c.Careful b w → w.state = .running i → q.running = false →
      Outcome b w c ({ state := .stopped, queues := w.queues.set i q }, .ok ())
  | lost (e : Refusal) : ¬ c.Careful b w → w.state ≠ .stopped → Outcome b w c ({ w with state := .stopped }, .error e)

section Outcomes

variable {b : BackendKind} {conn : Connection} {w : Worker H}

theorem work_outcome (kind : String) (handler : H) : Outcome b w (.work kind handler) (w.call b conn (.work kind handler)) := by
  dsimp only [Worker.call, Worker.registerHandlerArc]
  split
  · next hs n qs hw => exact .edited hs _ n _ qs _ trivial hw
  · exact .failed _ trivial
  · exact .failed _ trivial

theorem setWorkerConcurrency_outcome (n : ℕ) :
    Outcome b w (.setWorkerConcurrency n) (w.call b conn (.setWorkerConcurrency n)) := by
  dsimp only [Worker.call, Worker.setWorkerConcurrency]
  split
  · next hs n qs hw => exact .edited hs _ n _ qs _ trivial hw
  · exact .failed _ trivial

theorem subscribeTo_outcome (queues : List String) :
    Outcome b w (.subscribeTo queues) (w.call b conn (.subscribeTo queues)) := by
  dsimp only [Worker.call, Worker.subscribeTo]
  split
  · next hs n qs hw => exact .edited hs _ n _ qs _ trivial hw
  · exact .failed _ trivial

/-- A start of either backend is one with a check, which only Postgres can fail, that builds a core queue which does not run yet,
with the queues that the setter holds. -/
theorem call_start (b : BackendKind) (conn : Connection) (w : Worker H) (options : Option StartOptions) (status : Except Error (List MigrationStatus)) :
    ∃ check build, w.call b conn (.start options status) = w.startWith (messages b) check build ∧
      (∀ hs n qs, (build hs n qs).running = false ∧ (build hs n qs).queues = subscribed qs) ∧
      (check = .ok () ↔ (b = .pg → GuardPasses options status)) := by
  cases b with
  | pg =>
    refine ⟨_, _, rfl, fun hs n qs => ⟨?_, ?_⟩, ?_⟩
    · simp [CoreQueue.register, CoreQueue.configured]
    · exact CoreQueue.subscribeTo_queues (by simp) qs
    · simp [migrationGuard_ok_iff]
  | redis =>
    refine ⟨.ok (), _, rfl, fun hs n qs => ⟨?_, ?_⟩, ?_⟩
    · simp [CoreQueue.register, CoreQueue.configured]
    · exact CoreQueue.subscribeTo_queues (by simp) qs
    · simp

theorem start_outcome (options : Option StartOptions) (status : Except Error (List MigrationStatus)) :
    Outcome b w (.start options status) (w.call b conn (.start options status)) := by
  obtain ⟨check, build, hcall, hb, hcheck⟩ := call_start b conn w options status
  rw [hcall]
  by_cases hready : ∃ hs n qs, w.state = .building hs n qs ∧ hs ≠ []
  · obtain ⟨hs, n, qs, hw, hne⟩ := hready
    rw [startWith_building hw hne (hb hs n qs).1]
    cases check with
    | error e =>
      refine .lost e (fun hc => ?_) (by rw [hw]; nofun)
      exact absurd (hcheck.mpr fun hpg => hc hpg hs n qs hw hne) nofun
    | ok u => exact .launched hs n qs _ (fun hpg _ _ _ _ _ => hcheck.mp rfl hpg) hw rfl
  · have hempty : ∀ hs n qs, w.state = .building hs n qs → hs = [] := fun hs n qs hw =>
      of_not_not fun hne => hready ⟨hs, n, qs, hw, hne⟩
    obtain ⟨hsame, e, he⟩ := startWith_restores (messages b) check build hempty
    have hfailed : w.startWith (messages b) check build = (w, .error e) := Prod.ext hsame he
    rw [hfailed]
    exact .failed e fun _ hs n qs hw hne => absurd (hempty hs n qs hw) hne

/-- A start that succeeds runs a core queue with the queues that the worker was told. -/
theorem start_subscribed {options : Option StartOptions} {status : Except Error (List MigrationStatus)}
    {hs : List (String × H)} {n : Option ℕ} {qs : Option (List String)} (hw : w.state = .building hs n qs)
    (h : (w.call b conn (.start options status)).2 = .ok ()) :
    ∃ i core, (w.call b conn (.start options status)).1.state = .running i ∧
      (w.call b conn (.start options status)).1.queues[i]? = some core ∧ core.queues = subscribed qs := by
  obtain ⟨check, build, hcall, hb, -⟩ := call_start b conn w options status
  rw [hcall] at h ⊢
  by_cases hne : hs = []
  · obtain ⟨-, e, he⟩ := startWith_restores (messages b) check build
      fun hs' n' qs' hw' => by rw [hw] at hw'; cases hw'; exact hne
    rw [he] at h
    cases h
  · rw [startWith_building hw hne (hb hs n qs).1] at h ⊢
    cases check with
    | error e => cases h
    | ok u => exact ⟨w.queues.length, { build hs n qs with running := true }, rfl, by simp, (hb hs n qs).2⟩

theorem shutdown_outcome (hw : w.Sound) (mode : Option String) :
    Outcome b w (.shutdown mode) (w.call b conn (.shutdown mode)) := by
  show Outcome b w (.shutdown mode) (w.shutdown (messages b) mode)
  cases hstate : w.state with
  | building hs n qs =>
    rw [shutdown_building hstate]
    exact .lost _ (fun hc => hc.1 hs n qs hstate) (by rw [hstate]; nofun)
  | stopped =>
    rw [shutdown_stopped hstate]
    exact .failed _ ⟨fun _ _ _ => by rw [hstate]; nofun, fun _ => by rw [hstate]; nofun⟩
  | running i =>
    obtain ⟨q, hi, hq⟩ := hw i hstate
    obtain ⟨hvalid, hinvalid⟩ := shutdown_running (messages b) mode hstate hi hq
    by_cases hm : ValidMode mode
    · rw [hvalid hm]
      exact .shut i _ ⟨fun _ _ _ => by rw [hstate]; nofun, fun _ _ => hm⟩ hstate rfl
    · obtain ⟨e, he⟩ := hinvalid hm
      rw [he]
      exact .lost e (fun hc => hm (hc.2 i hstate)) (by rw [hstate]; nofun)

theorem call_outcome (b : BackendKind) (conn : Connection) (hw : w.Sound) (c : Call H) : Outcome b w c (w.call b conn c) := by
  cases c with
  | work kind handler => exact work_outcome kind handler
  | setWorkerConcurrency n => exact setWorkerConcurrency_outcome n
  | subscribeTo queues => exact subscribeTo_outcome queues
  | start options status => exact start_outcome options status
  | shutdown mode => exact shutdown_outcome hw mode

/-! ## What calls keep -/

theorem Outcome.sound {c : Call H} {r : Worker H × Except Refusal Unit} (h : Outcome b w c r) (hw : w.Sound) : r.1.Sound := by
  cases h with
  | failed e _ => exact hw
  | edited hs hs' n n' qs qs' _ _ => exact fun i hi => nomatch hi
  | launched hs n qs q _ _ hq =>
    intro i hi
    cases hi
    exact ⟨q, by simp, hq⟩
  | shut i q _ _ _ => exact fun i hi => nomatch hi
  | lost e _ _ => exact fun i hi => nomatch hi

theorem Outcome.owned {c : Call H} {r : Worker H × Except Refusal Unit} (h : Outcome b w c r) (hc : c.Careful b w)
    (hw : w.Owned) : r.1.Owned := by
  cases h with
  | failed e _ => exact hw
  | edited hs hs' n n' qs qs' _ hstate =>
    intro j q hj hq
    exact absurd (hw j q hj hq) (by rw [hstate]; nofun)
  | launched hs n qs q _ hstate hq =>
    intro j q' hj hq'
    by_cases hlt : j < w.queues.length
    · have hold : w.queues[j]? = some q' := by simpa [List.getElem?_append_left hlt] using hj
      exact absurd (hw j q' hold hq') (by rw [hstate]; nofun)
    · have hlen : j < (w.queues ++ [q]).length := (List.getElem?_eq_some_iff.mp hj).1
      have hlast : j = w.queues.length := by
        rw [List.length_append, List.length_singleton] at hlen
        omega
      rw [hlast]
  | shut i q _ hstate hq =>
    intro j q' hj hq'
    rw [List.getElem?_set] at hj
    split at hj
    · split at hj
      · rw [← Option.some.inj hj, hq] at hq'
        cases hq'
      · cases hj
    · next hne =>
      have : WorkerState.running i = .running j := hstate.symm.trans (hw j q' hj hq')
      exact absurd (WorkerState.running.inj this) hne
  | lost e hnot _ => exact absurd hc hnot

theorem Outcome.kept_iff {c : Call H} (h : Outcome b w c (w.call b conn c)) : w.Kept b conn c ↔ c.Careful b w := by
  unfold Worker.Kept
  generalize w.call b conn c = r at h ⊢
  cases h with
  | failed e hc => exact iff_of_true (fun _ _ => rfl) hc
  | edited hs hs' n n' qs qs' hc _ => exact iff_of_true (fun _ he => nomatch he) hc
  | launched hs n qs q hc _ _ => exact iff_of_true (fun _ he => nomatch he) hc
  | shut i q hc _ _ => exact iff_of_true (fun _ he => nomatch he) hc
  | lost e hnot hstate =>
    refine iff_of_false (fun hk => hstate ?_) hnot
    exact (congrArg Worker.state (hk e rfl)).symm

end Outcomes

/-! ## Every run -/

/-- The states that calls reach, in any order and with any options. -/
def Worker.Reached (b : BackendKind) (conn : Connection) (w : Worker H) : Prop :=
  Reach (Guarded (fun _ _ => True) fun w c => (w.call b conn c).1) {} w

/-- Those that careful calls reach. -/
def Worker.CarefullyReached (b : BackendKind) (conn : Connection) (w : Worker H) : Prop :=
  Reach (Guarded (fun w c => c.Careful b w) fun w c => (w.call b conn c).1) {} w

section Runs

variable {b : BackendKind} {conn : Connection} {w : Worker H}

theorem reached_sound (h : w.Reached b conn) : w.Sound := by
  refine h.inv (fun i hi => nomatch hi) ?_
  rintro w c _ hw ⟨-, rfl⟩
  exact (call_outcome b conn hw c).sound hw

theorem carefullyReached_owned (h : w.CarefullyReached b conn) : w.Owned := by
  suffices w.Sound ∧ w.Owned from this.2
  have h₀ : ({} : Worker H).Sound ∧ ({} : Worker H).Owned := ⟨(fun i hi => nomatch hi), (fun i q hi => nomatch hi)⟩
  refine Reach.inv (P := fun w : Worker H => w.Sound ∧ w.Owned) h h₀ ?_
  rintro w c _ ⟨hs, ho⟩ ⟨hc, rfl⟩
  have hout := call_outcome b conn hs c
  exact ⟨hout.sound hs, hout.owned hc ho⟩

/-- In every state that calls reach, a failing call leaves the worker as it was exactly when it is careful, and a core queue that the
state has stops at the next shutdown with a mode there is. After careful calls only, no other core queue runs. -/
theorem lifecycle_kept_iff (h : w.Reached b conn) :
    (∀ c, w.Kept b conn c ↔ c.Careful b w) ∧
    (∀ i, w.state = .running i → ∀ mode, ValidMode mode →
      (w.call b conn (.shutdown mode)).2 = .ok () ∧
        ∀ q, (w.call b conn (.shutdown mode)).1.queues[i]? = some q → q.running = false) ∧
    (w.CarefullyReached b conn → w.Owned) := by
  have hs := reached_sound h
  refine ⟨fun c => (call_outcome b conn hs c).kept_iff, fun i hi mode hm => ?_, carefullyReached_owned⟩
  obtain ⟨q, hq, hrun⟩ := hs i hi
  have hstop := (shutdown_running (messages b) mode hi hq hrun).1 hm
  have hcall : w.call b conn (.shutdown mode) =
      ({ state := .stopped, queues := w.queues.set i { q with running := false } }, .ok ()) := hstop
  rw [hcall]
  refine ⟨rfl, fun q' hq' => ?_⟩
  have hlt : i < w.queues.length := (List.getElem?_eq_some_iff.mp hq).1
  rw [List.getElem?_set_self hlt] at hq'
  rw [← Option.some.inj hq']

/-- A worker on Postgres with one handler, which has started. -/
def started : Worker Unit :=
  ((({} : Worker Unit).call .pg {} (.work "k" ())).1.call .pg {} (.start none (.ok []))).1

theorem started_reached : started.Reached .pg {} :=
  ((Reach.refl _).step (a := .work "k" ()) ⟨trivial, rfl⟩).step (a := .start none (.ok [])) ⟨trivial, rfl⟩

theorem lifecycle_kept_started : ¬ started.Kept .pg {} (.shutdown (some "gently")) := by
  rw [(lifecycle_kept_iff started_reached).1]
  rintro ⟨-, h⟩
  exact absurd (h 0 rfl) (by unfold ValidMode; decide)

/-- A shutdown that comes before the start takes the handler with it. -/
theorem shutdown_forgets_handlers :
    ¬ ∀ (b : BackendKind) (conn : Connection) (w : Worker Unit), w.Reached b conn → ∀ c, w.Kept b conn c := by
  intro h
  have hreach : (({} : Worker Unit).call .redis {} (.work "k" ())).1.Reached .redis {} :=
    (Reach.refl _).step (a := .work "k" ()) ⟨trivial, rfl⟩
  have := h .redis {} _ hreach (.shutdown none) _ rfl
  exact nomatch congrArg Worker.state this

end Runs

end Eddyq.Napi
