import Eddyq.Redis.Jobs

/-!
# Schedules on Redis

The schedule functions of the library. An entry lives in the HASH `schedules`, its name in `schedules:idx`, and its
next run, while it is enabled, in `schedules:next`. Cron expressions are expanded by the calling process, which also
loops over the due schedules.
-/

namespace Eddyq.Redis

/-- `HGET schedules <name>`. -/
def Store.schedule? (s : Store) (name : String) : Option ScheduleEntry :=
  (s.schedules.find? (fun e => e.1 = name)).map Prod.snd

/-- `HSET schedules <name> <entry>`. -/
def Store.setSchedule (s : Store) (name : String) (e : ScheduleEntry) : Store :=
  if (s.schedule? name).isSome then
    { s with schedules := s.schedules.map (fun p => if p.1 = name then (name, e) else p) }
  else { s with schedules := s.schedules ++ [(name, e)] }

/-- The arguments of `eddyq_schedule_upsert`; an `intervalMs` of 0 means cron-driven. -/
structure UpsertArgs where
  name : String
  cron : String := ""
  kind : String
  payload : String := "null"
  priority : ℤ := 0
  maxAttempts : ℤ := 3
  queue : String := "default"
  enabled : ℤ := 1
  nextRun : ℤ := 0
  intervalMs : ℤ := 0

/-- `eddyq_schedule_upsert`; the last run survives. -/
def fnScheduleUpsert (s : Store) (a : UpsertArgs) : Store :=
  let lastRun := ((s.schedule? a.name).map (·.lastRunAtMs)).getD 0
  let s := s.setSchedule a.name
    { cron := a.cron, kind := a.kind, payload := a.payload, priority := a.priority, maxAttempts := a.maxAttempts
      queue := a.queue, enabled := a.enabled, lastRunAtMs := lastRun, nextRunAtMs := a.nextRun
      intervalMs := a.intervalMs }
  let s := { s with schedulesIdx := s.schedulesIdx.insert a.name }
  if a.enabled = 1 then { s with schedulesNext := s.schedulesNext.add a.nextRun a.name }
  else { s with schedulesNext := s.schedulesNext.rem a.name }

/-- `eddyq_schedule_remove`: whether the schedule was there. -/
def fnScheduleRemove (s : Store) (name : String) : Store × Bool :=
  ({ s with
      schedules := s.schedules.filter (fun p => p.1 ≠ name)
      schedulesIdx := s.schedulesIdx.filter (· ≠ name)
      schedulesNext := s.schedulesNext.rem name }, (s.schedule? name).isSome)

/-- `eddyq_schedule_set_enabled`: whether the schedule was there. -/
def fnScheduleSetEnabled (s : Store) (name : String) (enabled nextRun : ℤ) : Store × Bool :=
  match s.schedule? name with
  | none => (s, false)
  | some e =>
    if enabled = 1 then
      let s := { s with schedulesNext := s.schedulesNext.add nextRun name }
      (s.setSchedule name { e with enabled := enabled, nextRunAtMs := nextRun }, true)
    else
      let s := { s with schedulesNext := s.schedulesNext.rem name }
      (s.setSchedule name { e with enabled := enabled }, true)

/-- `eddyq_schedule_due_list`: the due names, oldest first, with their entries. -/
def fnScheduleDueList (s : Store) (now : ℤ) (batchMax : Nat) : List (String × ScheduleEntry) :=
  (s.schedulesNext.rangeByScore (fun sc => sc ≤ now) batchMax).filterMap
    (fun n => (s.schedule? n).map (fun e => (n, e)))

/-- The arguments of `eddyq_schedule_fire`. -/
structure FireArgs where
  name : String
  kind : String
  payload : String
  priority : ℤ
  maxAttempts : ℤ
  queue : String
  now : ℤ
  nextRun : ℤ

/-- The job a fire enqueues: due now, with the default stall budget and nothing optional. -/
def FireArgs.toEnqueue (a : FireArgs) : EnqueueArgs :=
  { kind := a.kind, payload := a.payload, priority := a.priority, maxAttempts := a.maxAttempts, queue := a.queue }

/-- `eddyq_schedule_fire`: the new job's id, or `none` when the schedule has vanished. -/
def fnScheduleFire (s : Store) (a : FireArgs) : Store × Option JobId :=
  match s.schedule? a.name with
  | none => (s, none)
  | some e =>
    let id := s.idgen + 1
    let s := insertJob { s with idgen := id } a.toEnqueue id a.now
    let s := s.setSchedule a.name { e with lastRunAtMs := a.now, nextRunAtMs := a.nextRun }
    ({ s with schedulesNext := s.schedulesNext.add a.nextRun a.name }, some id)

/-! ## The calling process -/

/-- `upsert_schedule_raw`: the next run is computed by the process. -/
def upsertScheduleRaw (cron : Cron) (s : Store) (a : UpsertArgs) (clock : ℤ) : Except Error Store := do
  let next ← cron.nextRun a.cron clock
  return fnScheduleUpsert s { a with enabled := 1, nextRun := next, intervalMs := 0 }

/-- `upsert_interval_schedule_raw`. -/
def upsertIntervalScheduleRaw (s : Store) (a : UpsertArgs) (clock : ℤ) : Except Error Store :=
  if a.intervalMs ≤ 0 then .error (.invalidArgument "interval_ms must be > 0")
  else .ok (fnScheduleUpsert s { a with cron := "", enabled := 1, nextRun := clock + a.intervalMs })

/-- The cron expression of a decoded entry: none for an interval and for the empty text. -/
def ScheduleEntry.cronExpr? (e : ScheduleEntry) : Option String :=
  if 0 < e.intervalMs ∨ e.cron = "" then none else some e.cron

/-- `lookup_cron`. -/
def lookupCron (s : Store) (name : String) : Option String := (s.schedule? name).bind (·.cronExpr?)

/-- `set_schedule_enabled`: the next run is computed from the stored cron expression. -/
def setScheduleEnabled (cron : Cron) (s : Store) (name : String) (enabled : Bool) (clock : ℤ) :
    Store × Except Error Bool :=
  if enabled then
    match lookupCron s name with
    | none => (s, .ok false)
    | some expr => match cron.nextRun expr clock with
      | .error e => (s, .error e)
      | .ok next => ((fnScheduleSetEnabled s name 1 next).1, .ok (fnScheduleSetEnabled s name 1 next).2)
  else ((fnScheduleSetEnabled s name 0 0).1, .ok (fnScheduleSetEnabled s name 0 0).2)

/-- An error of `sync_schedules` names the schedule. -/
def nameCronError (name : String) : Error → Error
  | .cron msg => .cron (name ++ ": " ++ msg)
  | e => e

/-- The first pass of `sync_schedules`: compute the next runs. -/
def prepareSchedules (cron : Cron) (clock : ℤ) : List UpsertArgs → Except Error (List UpsertArgs)
  | [] => .ok []
  | a :: as => do
    let next ← (cron.nextRun a.cron clock).mapError (nameCronError a.name)
    return { a with enabled := 1, nextRun := next, intervalMs := 0 } :: (← prepareSchedules cron clock as)

/-- `eddyq_schedule_sync_diff`: the indexed names that are not to be kept. -/
def fnScheduleSyncDiff (s : Store) (keep : List String) : List String := s.schedulesIdx.filter (· ∉ keep)

/-- `sync_schedules`. -/
def syncSchedules (cron : Cron) (s : Store) (declared : List UpsertArgs) (clock : ℤ) : Except Error Store := do
  let prepared ← prepareSchedules cron clock declared
  let s := prepared.foldl fnScheduleUpsert s
  return (fnScheduleSyncDiff s (declared.map (·.name))).foldl (fun s name => (fnScheduleRemove s name).1) s

/-- The next run of an entry: by its interval, or the next occurrence of its cron expression. -/
def ScheduleEntry.next (cron : Cron) (name : String) (e : ScheduleEntry) (now clock : ℤ) : Except Error ℤ :=
  if 0 < e.intervalMs then .ok (now + e.intervalMs)
  else if e.cron = "" then
    .error (.cron s!"schedule {name.quote} has no cron_expr and no interval_ms (malformed)")
  else cron.nextRun e.cron clock

/-- The arguments of `schedule_fire_call`. -/
def ScheduleEntry.fireArgs (e : ScheduleEntry) (name : String) (now next : ℤ) : FireArgs where
  name := name
  kind := e.kind
  payload := e.payload
  priority := e.priority
  maxAttempts := e.maxAttempts
  queue := e.queue
  now := now
  nextRun := next

/-- The loop of `fire_due_schedules`: the first error ends it, and what was fired before stays. -/
def fireEntries (cron : Cron) (now clock : ℤ) : List (String × ScheduleEntry) → Store → Store × Except Error Nat
  | [], s => (s, .ok 0)
  | (name, e) :: es, s =>
    match e.next cron name now clock with
    | .error err => (s, .error err)
    | .ok next =>
      let r := fireEntries cron now clock es (fnScheduleFire s (e.fireArgs name now next)).1
      (r.1, r.2.map (· + 1))

/-- The `batch_max` of `fire_due_schedules`. -/
def dueBatchMax : Nat := 128

/-- `fire_due_schedules`: how many schedules were fired. -/
def fireDueSchedules (cron : Cron) (s : Store) (now clock : ℤ) : Store × Except Error Nat :=
  fireEntries cron now clock (fnScheduleDueList s now dueBatchMax) s

/-! ## Schedules are apart from jobs -/

/-- A write to an entry leaves every other key alone. -/
theorem setSchedule_eq (s : Store) (name : String) (e : ScheduleEntry) :
    ∃ l, s.setSchedule name e = { s with schedules := l } := by
  unfold Store.setSchedule
  split
  · exact ⟨_, rfl⟩
  · exact ⟨_, rfl⟩

/-- A store that differs in schedule keys only. -/
def SameJobs (s s' : Store) : Prop := s'.cell = s.cell ∧ s'.idgen = s.idgen ∧ s'.unique = s.unique

theorem setSchedule_sameJobs (s : Store) (name : String) (e : ScheduleEntry) : SameJobs s (s.setSchedule name e) := by
  obtain ⟨l, h⟩ := setSchedule_eq s name e
  rw [h]
  exact ⟨rfl, rfl, rfl⟩

theorem fnScheduleUpsert_sameJobs (s : Store) (a : UpsertArgs) : SameJobs s (fnScheduleUpsert s a) := by
  have h : ∀ e, SameJobs s (s.setSchedule a.name e) := setSchedule_sameJobs s a.name
  unfold fnScheduleUpsert
  dsimp only
  split
  · exact h _
  · exact h _

/-- A fire inserts its job and writes its entry, or the schedule has vanished. -/
theorem fnScheduleFire_cases (s : Store) (a : FireArgs) : (fnScheduleFire s a).1 = s ∨
    SameJobs (insertJob { s with idgen := s.idgen + 1 } a.toEnqueue (s.idgen + 1) a.now) (fnScheduleFire s a).1 := by
  unfold fnScheduleFire
  split
  · exact Or.inl rfl
  · next e _ =>
    obtain ⟨hcell, hid, hunique⟩ := setSchedule_sameJobs
      (insertJob { s with idgen := s.idgen + 1 } a.toEnqueue (s.idgen + 1) a.now) a.name
      { e with lastRunAtMs := a.now, nextRunAtMs := a.nextRun }
    exact Or.inr ⟨hcell, hid, hunique⟩

theorem fnScheduleRemove_sameJobs (s : Store) (name : String) : SameJobs s (fnScheduleRemove s name).1 :=
  ⟨rfl, rfl, rfl⟩

theorem fnScheduleSetEnabled_sameJobs (s : Store) (name : String) (enabled nextRun : ℤ) :
    SameJobs s (fnScheduleSetEnabled s name enabled nextRun).1 := by
  unfold fnScheduleSetEnabled
  split
  · exact ⟨rfl, rfl, rfl⟩
  split
  · exact setSchedule_sameJobs { s with schedulesNext := s.schedulesNext.add nextRun name } name _
  · exact setSchedule_sameJobs { s with schedulesNext := s.schedulesNext.rem name } name _

end Eddyq.Redis
