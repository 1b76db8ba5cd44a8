import Eddyq.Lib.Rows
import Eddyq.Redis.Cjson
import Eddyq.Redis.Schedule

/-!
# Schedules as texts

The HASH `schedules` holds texts: `eddyq_schedule_upsert` writes one, `eddyq_schedule_set_enabled` and
`eddyq_schedule_fire` read it and write it again, and `decode_stored` reads it into integers and a payload. Any field it
refuses makes the schedule invisible. In every run the text of a name stands for what was last written (`Stands`), up to
numbers that are not `Precise`, and `shown_iff` says which of them are decoded as they were written. Where all numbers are
precise, the functions do on the texts what `fnScheduleUpsert` and the others do on the entries.
-/

namespace Eddyq.Redis

open Lib Lib.Json

/-! ## The functions of the library -/

/-- A line whose HASH `schedules` holds texts; `store` has the other keys. -/
structure WireStore where
  store : Store := {}
  entries : List (String × List Char) := []

/-- `HGET schedules <name>`. -/
def WireStore.hget (w : WireStore) (name : String) : Option (List Char) :=
  (w.entries.find? (fun e => e.1 = name)).map Prod.snd

/-- `HSET schedules <name> <text>`. -/
def WireStore.hset (w : WireStore) (name : String) (raw : List Char) : WireStore :=
  if (w.hget name).isSome then { w with entries := updateWhere (fun e => e.1 = name) (fun e => (e.1, raw)) w.entries }
  else { w with entries := w.entries ++ [(name, raw)] }

/-- The table of an entry. -/
def entryTable (a : UpsertArgs) (lastRun : LuaValue) : LuaTable :=
  [("cron".toList, .string a.cron.toList), ("kind".toList, .string a.kind.toList),
    ("payload".toList, .string a.payload.toList), ("priority".toList, .number a.priority),
    ("max_attempts".toList, .number a.maxAttempts), ("queue".toList, .string a.queue.toList),
    ("enabled".toList, .number a.enabled), ("last_run_at_ms".toList, lastRun),
    ("next_run_at_ms".toList, .number a.nextRun), ("interval_ms".toList, .number a.intervalMs)]

/-- The last run of the entry before, if it has one. -/
def priorLastRun (w : WireStore) (name : String) : LuaValue :=
  match ((w.hget name).bind cjsonDecode).bind (·.get? "last_run_at_ms".toList) with
  | none | some (.boolean false) => .number 0
  | some v => v

/-- `eddyq_schedule_upsert`. -/
def luaScheduleUpsert (w : WireStore) (a : UpsertArgs) : WireStore :=
  let w := w.hset a.name (cjsonEncode (entryTable a (priorLastRun w a.name)))
  let s := { w.store with schedulesIdx := w.store.schedulesIdx.insert a.name }
  if a.enabled = 1 then { w with store := { s with schedulesNext := s.schedulesNext.add a.nextRun a.name } }
  else { w with store := { s with schedulesNext := s.schedulesNext.rem a.name } }

/-- `eddyq_schedule_remove`. -/
def luaScheduleRemove (w : WireStore) (name : String) : WireStore × Bool :=
  ({ store := { w.store with
        schedulesIdx := w.store.schedulesIdx.filter (· ≠ name)
        schedulesNext := w.store.schedulesNext.rem name }
     entries := w.entries.filter (fun e => e.1 ≠ name) }, (w.hget name).isSome)

/-- The error of `cjson.decode`. -/
inductive LuaError
  | decode
  deriving DecidableEq

/-- `eddyq_schedule_set_enabled`. -/
def luaScheduleSetEnabled (w : WireStore) (name : String) (enabled nextRun : ℤ) : WireStore × Except LuaError Bool :=
  match w.hget name with
  | none => (w, .ok false)
  | some raw => match cjsonDecode raw with
    | none => (w, .error .decode)
    | some entry =>
      let entry := entry.set "enabled".toList (.number enabled)
      if enabled = 1 then
        let entry := entry.set "next_run_at_ms".toList (.number nextRun)
        let s := { w.store with schedulesNext := w.store.schedulesNext.add nextRun name }
        ({ w with store := s }.hset name (cjsonEncode entry), .ok true)
      else
        let s := { w.store with schedulesNext := w.store.schedulesNext.rem name }
        ({ w with store := s }.hset name (cjsonEncode entry), .ok true)

/-- `eddyq_schedule_fire`; the job is there when the entry turns out to be no table. -/
def luaScheduleFire (w : WireStore) (a : FireArgs) : WireStore × Except LuaError (Option JobId) :=
  match w.hget a.name with
  | none => (w, .ok none)
  | some raw =>
    let id := w.store.idgen + 1
    let s := insertJob { w.store with idgen := id } a.toEnqueue id a.now
    match cjsonDecode raw with
    | none => ({ w with store := s }, .error .decode)
    | some entry =>
      let entry := entry.set "last_run_at_ms".toList (.number a.now)
      let entry := entry.set "next_run_at_ms".toList (.number a.nextRun)
      let w := { w with store := s }.hset a.name (cjsonEncode entry)
      ({ w with store := { w.store with schedulesNext := w.store.schedulesNext.add a.nextRun a.name } }, .ok (some id))

/-- `eddyq_schedule_list`. -/
def luaScheduleList (w : WireStore) : List (String × List Char) := w.entries

/-- `eddyq_schedule_due_list`. -/
def luaScheduleDueList (w : WireStore) (now : ℤ) (batchMax : Nat) : List (String × List Char) :=
  (w.store.schedulesNext.rangeByScore (fun sc => sc ≤ now) batchMax).filterMap
    (fun n => (w.hget n).map (fun raw => (n, raw)))

/-! ## The Rust side -/

/-- What a schedule is declared with, but its trigger. -/
structure ScheduleRequest where
  name : String
  kind : String
  payload : Json
  priority : Int16
  maxAttempts : Int32
  queue : String

/-- A cron expression or an interval in milliseconds. -/
inductive Recurrence
  | cron (expr : String)
  | interval (ms : Int64)

def Recurrence.expr : Recurrence → String
  | .cron expr => expr
  | .interval _ => ""

def Recurrence.intervalMs : Recurrence → ℤ
  | .cron _ => 0
  | .interval ms => ms.toInt

/-- `schedule_upsert_call`: integers go as texts, which `tonumber` makes doubles of. -/
def scheduleUpsertCall (w : WireStore) (r : ScheduleRequest) (trigger : Recurrence) (enabled : Bool) (nextRun : ℤ) : WireStore :=
  luaScheduleUpsert w {
    name := r.name
    cron := trigger.expr
    kind := r.kind
    payload := String.ofList (jsonText r.payload)
    priority := nearest r.priority.toInt
    maxAttempts := nearest r.maxAttempts.toInt
    queue := r.queue
    enabled := if enabled then 1 else 0
    nextRun := nearest nextRun
    intervalMs := nearest trigger.intervalMs }

/-- The next run that an upsert computes; the sum of the clock and an interval wraps around. -/
def Recurrence.next (cron : Cron) (clock : Int64) : Recurrence → Except Error ℤ
  | .cron expr => cron.nextRun expr clock.toInt
  | .interval ms =>
    if ms.toInt ≤ 0 then .error (.invalidArgument "interval_ms must be > 0") else .ok (clock + ms).toInt

/-- `upsert_schedule_raw` and `upsert_interval_schedule_raw`. -/
def upsertSchedule (cron : Cron) (w : WireStore) (r : ScheduleRequest) (trigger : Recurrence) (clock : Int64) :
    Except Error WireStore := do
  let next ← trigger.next cron clock
  return scheduleUpsertCall w r trigger true next

/-- `Schedule`, with its times in milliseconds. -/
structure Schedule where
  name : String
  kind : String
  payload : Json
  cronExpr : Option String
  intervalMs : Option ℤ
  nextRunAt : ℤ
  lastRunAt : Option ℤ
  enabled : Bool
  priority : ℤ
  maxAttempts : ℤ
  queue : String

structure StoredSchedule where
  schedule : Schedule
  intervalMs : ℤ

/-- `DateTime::from_timestamp_millis`. -/
def fromTimestampMillis (ms : ℤ) : Option ℤ :=
  if -8334601228800000 ≤ ms ∧ ms ≤ 8210266876799999 then some ms else none

/-- The struct `Stored`. -/
structure Stored where
  cron : List Char
  kind : List Char
  payload : List Char
  priority : ℤ
  maxAttempts : ℤ
  queue : List Char
  enabled : ℤ
  lastRunAtMs : ℤ
  nextRunAtMs : ℤ
  intervalMs : ℤ

/-- Its `Deserialize`. -/
def deserializeStored : Value → Option Stored
  | .obj fields => do
    let cron ← readString (← getField "cron".toList fields)
    let kind ← readString (← getField "kind".toList fields)
    let payload ← readString (← getField "payload".toList fields)
    let priority ← readI16 (← getField "priority".toList fields)
    let maxAttempts ← readI32 (← getField "max_attempts".toList fields)
    let queue ← readString (← getField "queue".toList fields)
    let enabled ← readI32 (← getField "enabled".toList fields)
    let lastRunAtMs ← readI64 (← getField "last_run_at_ms".toList fields)
    let nextRunAtMs ← readI64 (← getField "next_run_at_ms".toList fields)
    let intervalMs ← orDefault 0 readI64 (← getField "interval_ms".toList fields)
    some { cron, kind, payload, priority, maxAttempts, queue, enabled, lastRunAtMs, nextRunAtMs, intervalMs }
  | _ => none

/-- What `decode_stored` makes of it. -/
def Stored.stored (clock : ℤ) (name : String) (s : Stored) : StoredSchedule where
  schedule := {
    name := name
    kind := String.ofList s.kind
    payload := (readJson s.payload).getD .null
    cronExpr := if 0 < s.intervalMs ∨ s.cron = [] then none else some (String.ofList s.cron)
    intervalMs := if 0 < s.intervalMs then some s.intervalMs else none
    nextRunAt := (fromTimestampMillis s.nextRunAtMs).getD clock
    lastRunAt := if 0 < s.lastRunAtMs then fromTimestampMillis s.lastRunAtMs else none
    enabled := s.enabled = 1
    priority := s.priority
    maxAttempts := s.maxAttempts
    queue := String.ofList s.queue }
  intervalMs := s.intervalMs

/-- `decode_stored`; `clock` is for a next run that is no date. -/
def decodeStored (clock : ℤ) (name : String) (raw : List Char) : Option StoredSchedule :=
  ((fromStr raw).bind deserializeStored).map (·.stored clock name)

/-! ## What was written -/

/-- What was last written for a name. -/
structure Written where
  request : ScheduleRequest
  trigger : Recurrence
  enabled : Bool
  next : ℤ
  last : Option ℤ

/-- How it should be decoded. -/
def Written.stored (x : Written) : StoredSchedule where
  schedule := {
    name := x.request.name
    kind := x.request.kind
    payload := x.request.payload
    cronExpr := match x.trigger with
      | .cron expr => some expr
      | .interval _ => none
    intervalMs := match x.trigger with
      | .cron _ => none
      | .interval ms => some ms.toInt
    nextRunAt := x.next
    lastRunAt := x.last
    enabled := x.enabled
    priority := x.request.priority.toInt
    maxAttempts := x.request.maxAttempts.toInt
    queue := x.request.queue }
  intervalMs := x.trigger.intervalMs

/-- The calls on schedules; a fire or a change of `enabled` may come at any time, with any next run. -/
inductive WireOp
  | upsert (r : ScheduleRequest) (trigger : Recurrence) (clock : Int64)
  | setEnabled (name : String) (enabled : Bool) (next : ℤ)
  | fire (a : FireArgs)
  | remove (name : String)

def WireOp.apply (cron : Cron) (w : WireStore) : WireOp → WireStore
  | .upsert r trigger clock => (upsertSchedule cron w r trigger clock).toOption.getD w
  | .setEnabled name enabled next => (luaScheduleSetEnabled w name (if enabled then 1 else 0) (nearest next)).1
  | .fire a => (luaScheduleFire w { a with now := nearest a.now, nextRun := nearest a.nextRun }).1
  | .remove name => (luaScheduleRemove w name).1

/-- What a call writes. -/
def WireOp.write (cron : Cron) (x : String → Option Written) : WireOp → String → Option Written
  | .upsert r trigger clock => match trigger.next cron clock with
    | .ok next => Function.update x r.name (some {
        request := r, trigger := trigger, enabled := true, next := next, last := (x r.name).bind (·.last) })
    | .error _ => x
  | .setEnabled name enabled next => Function.update x name ((x name).map fun x =>
      { x with enabled := enabled, next := if enabled then next else x.next })
  | .fire a => Function.update x a.name ((x a.name).map fun x => { x with next := a.nextRun, last := some a.now })
  | .remove name => Function.update x name none

/-- The line after some calls. -/
def runWire (cron : Cron) (ops : List WireOp) : WireStore := ops.foldl (WireOp.apply cron) {}

/-- What they wrote. -/
def written (cron : Cron) (ops : List WireOp) : String → Option Written := ops.foldl (WireOp.write cron) fun _ => none

/-- The list and the due list decode the schedule of a name to this. -/
structure Shown (w : WireStore) (clock : ℤ) (name : String) (x : StoredSchedule) : Prop where
  listed : ∃ raw, (name, raw) ∈ luaScheduleList w
  list : ∀ raw, (name, raw) ∈ luaScheduleList w → decodeStored clock name raw = some x
  due : ∀ now batchMax raw, (name, raw) ∈ luaScheduleDueList w now batchMax → decodeStored clock name raw = some x

/-- Its numbers have at most 14 digits, its last run is after the epoch, and its payload can be read. -/
structure Written.Fits (x : Written) : Prop where
  payload : x.request.payload.depth < 128
  trigger : ∀ expr, x.trigger = .cron expr → expr ≠ ""
  interval : Precise x.trigger.intervalMs
  next : Precise x.next
  last : ∀ t, x.last = some t → Precise t ∧ 0 < t

/-! ## The table of an entry -/

/-- The entry of the store as a table. -/
def ScheduleEntry.table (e : ScheduleEntry) : LuaTable :=
  entryTable {
    name := "", cron := e.cron, kind := e.kind, payload := e.payload, priority := e.priority
    maxAttempts := e.maxAttempts, queue := e.queue, enabled := e.enabled, nextRun := e.nextRunAtMs
    intervalMs := e.intervalMs } (.number e.lastRunAtMs)

/-- An entry after one more reading. -/
def ScheduleEntry.reread (e : ScheduleEntry) : ScheduleEntry := { e with
  priority := Redis.reread e.priority
  maxAttempts := Redis.reread e.maxAttempts
  enabled := Redis.reread e.enabled
  lastRunAtMs := Redis.reread e.lastRunAtMs
  nextRunAtMs := Redis.reread e.nextRunAtMs
  intervalMs := Redis.reread e.intervalMs }

theorem cjsonDecode_table (e : ScheduleEntry) : cjsonDecode (cjsonEncode e.table) = some e.reread.table :=
  cjsonDecode_encode e.table

theorem set_enabled (e : ScheduleEntry) (n : ℤ) :
    e.table.set "enabled".toList (.number n) = { e with enabled := n }.table := rfl

theorem set_nextRun (e : ScheduleEntry) (n : ℤ) :
    e.table.set "next_run_at_ms".toList (.number n) = { e with nextRunAtMs := n }.table := rfl

theorem set_lastRun (e : ScheduleEntry) (n : ℤ) :
    e.table.set "last_run_at_ms".toList (.number n) = { e with lastRunAtMs := n }.table := rfl

theorem get_lastRun (e : ScheduleEntry) : e.table.get? "last_run_at_ms".toList = some (.number e.lastRunAtMs) := rfl

/-- What is read of an entry. -/
theorem deserialize_table (e : ScheduleEntry) : deserializeStored (.obj e.table.fields) = (do
    let priority ← readI16 (some (.num (g14 e.priority)))
    let maxAttempts ← readI32 (some (.num (g14 e.maxAttempts)))
    let enabled ← readI32 (some (.num (g14 e.enabled)))
    let lastRunAtMs ← readI64 (some (.num (g14 e.lastRunAtMs)))
    let nextRunAtMs ← readI64 (some (.num (g14 e.nextRunAtMs)))
    let intervalMs ← readI64 (some (.num (g14 e.intervalMs)))
    some { cron := e.cron.toList, kind := e.kind.toList, payload := e.payload.toList, priority, maxAttempts,
           queue := e.queue.toList, enabled, lastRunAtMs, nextRunAtMs, intervalMs }) := by
  have hnodup : (e.table.map Prod.fst).Nodup := by
    show ["cron".toList, "kind".toList, "payload".toList, "priority".toList, "max_attempts".toList, "queue".toList,
      "enabled".toList, "last_run_at_ms".toList, "next_run_at_ms".toList, "interval_ms".toList].Nodup
    decide
  have hget (k : List Char) (v : LuaValue) (h : (k, v) ∈ e.table) :=
    getField_members (f := fun v => some (LuaValue.toValue v)) hnodup h
  dsimp only [deserializeStored, LuaTable.fields]
  rw [hget _ (.string e.cron.toList) (by simp [ScheduleEntry.table, entryTable]),
    hget _ (.string e.kind.toList) (by simp [ScheduleEntry.table, entryTable]),
    hget _ (.string e.payload.toList) (by simp [ScheduleEntry.table, entryTable]),
    hget _ (.number e.priority) (by simp [ScheduleEntry.table, entryTable]),
    hget _ (.number e.maxAttempts) (by simp [ScheduleEntry.table, entryTable]),
    hget _ (.string e.queue.toList) (by simp [ScheduleEntry.table, entryTable]),
    hget _ (.number e.enabled) (by simp [ScheduleEntry.table, entryTable]),
    hget _ (.number e.lastRunAtMs) (by simp [ScheduleEntry.table, entryTable]),
    hget _ (.number e.nextRunAtMs) (by simp [ScheduleEntry.table, entryTable]),
    hget _ (.number e.intervalMs) (by simp [ScheduleEntry.table, entryTable])]
  rfl

/-! ## The entry stands for what was written -/

/-- The entry of a name stands for what was last written for it. -/
structure Stands (x : Written) (e : ScheduleEntry) : Prop where
  cron : e.cron = x.trigger.expr
  kind : e.kind = x.request.kind
  payload : e.payload = String.ofList (jsonText x.request.payload)
  priority : e.priority = x.request.priority.toInt
  maxAttempts : e.maxAttempts = x.request.maxAttempts.toInt
  queue : e.queue = x.request.queue
  enabled : e.enabled = if x.enabled then 1 else 0
  last : Keeps (x.last.getD 0) e.lastRunAtMs
  next : Keeps x.next e.nextRunAtMs
  interval : Keeps x.trigger.intervalMs e.intervalMs
  accepted : ∀ ms, x.trigger = .interval ms → 0 < ms.toInt

theorem precise_int16 (n : Int16) : Precise n.toInt := by
  have := n.toInt_lt
  have := n.le_toInt
  unfold Precise
  omega

theorem precise_int32 (n : Int32) : Precise n.toInt := by
  have := n.toInt_lt
  have := n.le_toInt
  unfold Precise
  omega

theorem Stands.reread {x : Written} {e : ScheduleEntry} (h : Stands x e) : Stands x e.reread where
  cron := h.cron
  kind := h.kind
  payload := h.payload
  priority := by rw [ScheduleEntry.reread, h.priority, reread_precise (precise_int16 _)]
  maxAttempts := by rw [ScheduleEntry.reread, h.maxAttempts, reread_precise (precise_int32 _)]
  queue := h.queue
  enabled := by
    have hbit : Precise (if x.enabled then 1 else 0) := by
      split <;> decide
    rw [ScheduleEntry.reread, h.enabled, reread_precise hbit]
  last := h.last.reread
  next := h.next.reread
  interval := h.interval.reread
  accepted := h.accepted

/-- What is read of an entry that can be read. -/
def Written.raw (x : Written) : Stored where
  cron := x.trigger.expr.toList
  kind := x.request.kind.toList
  payload := jsonText x.request.payload
  priority := x.request.priority.toInt
  maxAttempts := x.request.maxAttempts.toInt
  queue := x.request.queue.toList
  enabled := if x.enabled then 1 else 0
  lastRunAtMs := x.last.getD 0
  nextRunAtMs := x.next
  intervalMs := x.trigger.intervalMs

/-- **Numbers that are too large** make an entry unreadable. -/
theorem deserialize_stands {x : Written} {e : ScheduleEntry} (h : Stands x e) :
    deserializeStored (.obj e.table.fields) =
      if Precise x.trigger.intervalMs ∧ Precise x.next ∧ Precise (x.last.getD 0) then some x.raw else none := by
  have hpriority : readI16 (some (.num (g14 e.priority))) = some x.request.priority.toInt := by
    have := x.request.priority.toInt_lt
    have := x.request.priority.le_toInt
    rw [h.priority, readI16, readInteger_small (precise_int16 _) (by omega) (by omega)]
  have hmax : readI32 (some (.num (g14 e.maxAttempts))) = some x.request.maxAttempts.toInt := by
    have := x.request.maxAttempts.toInt_lt
    have := x.request.maxAttempts.le_toInt
    rw [h.maxAttempts, readI32, readInteger_small (precise_int32 _) (by omega) (by omega)]
  have henabled : readI32 (some (.num (g14 e.enabled))) = some (if x.enabled then 1 else 0) := by
    rw [h.enabled]
    cases x.enabled <;> decide
  rw [deserialize_table, hpriority, hmax, henabled, readI64_keeps h.last, readI64_keeps h.next, readI64_keeps h.interval]
  by_cases hlast : Precise (x.last.getD 0)
  · by_cases hnext : Precise x.next
    · by_cases hinterval : Precise x.trigger.intervalMs
      · simp [hlast, hnext, hinterval, Written.raw, h.cron, h.kind, h.payload, h.queue]
      · simp [hlast, hnext, hinterval]
    · simp [hlast, hnext]
  · simp [hlast]

theorem fromTimestampMillis_precise {ms : ℤ} (h : Precise ms) : fromTimestampMillis ms = some ms := by
  unfold Precise at h
  exact if_pos ⟨by omega, by omega⟩

/-- The payload that is decoded is the one that was sent, if it is not nested too deep. -/
theorem payload_iff (v : Json) : (readJson (jsonText v)).getD .null = v ↔ v.depth < 128 := by
  refine ⟨fun h => ?_, fun h => by rw [readJson_jsonText_iff.mpr h]; rfl⟩
  cases hv : readJson (jsonText v) with
  | none =>
    rw [hv] at h
    subst h
    decide
  | some v' =>
    rw [hv] at h
    exact h ▸ depth_readJson hv

/-- An entry that can be read is decoded as it was written if its payload is not nested too deep, its cron expression is
not empty and its last run is after the epoch. -/
theorem raw_stored_iff {x : Written} (hnext : Precise x.next) (hlast : Precise (x.last.getD 0))
    (haccepted : ∀ ms, x.trigger = .interval ms → 0 < ms.toInt) (clock : ℤ) :
    x.raw.stored clock x.request.name = x.stored ↔
      x.request.payload.depth < 128 ∧ (∀ expr, x.trigger = .cron expr → expr ≠ "") ∧ ∀ t, x.last = some t → 0 < t := by
  constructor
  · intro h
    refine ⟨(payload_iff _).mp (congrArg (fun s => s.schedule.payload) h), fun expr hcron hempty => ?_,
      fun t ht => ?_⟩
    · have hexpr := congrArg (fun s => s.schedule.cronExpr) h
      simp [Written.raw, Written.stored, Stored.stored, hcron, hempty, Recurrence.expr] at hexpr
    · have hrun := congrArg (fun s => s.schedule.lastRunAt) h
      by_contra hneg
      simp [Written.raw, Written.stored, Stored.stored, ht, hneg] at hrun
  · rintro ⟨hpayload, hcron, hrun⟩
    obtain ⟨request, trigger, enabled, next, last⟩ := x
    have hlastRun : (if 0 < last.getD 0 then fromTimestampMillis (last.getD 0) else none) = last := by
      cases last with
      | none => rfl
      | some t => exact (if_pos (hrun t rfl)).trans (fromTimestampMillis_precise hlast)
    have hnextRun : (fromTimestampMillis next).getD clock = next := by
      rw [fromTimestampMillis_precise hnext]
      rfl
    have henabled : decide ((if enabled then 1 else 0 : ℤ) = 1) = enabled := by
      cases enabled <;> rfl
    have hcronExpr : (if 0 < trigger.intervalMs ∨ trigger.expr.toList = [] then none else some trigger.expr) =
        (Written.mk request trigger enabled next last).stored.schedule.cronExpr := by
      cases trigger with
      | cron expr => simp [Written.stored, Recurrence.intervalMs, Recurrence.expr, hcron expr rfl]
      | interval ms => simp [Written.stored, Recurrence.intervalMs, haccepted ms rfl]
    have hinterval : (if 0 < trigger.intervalMs then some trigger.intervalMs else none) =
        (Written.mk request trigger enabled next last).stored.schedule.intervalMs := by
      cases trigger with
      | cron expr => rfl
      | interval ms => exact if_pos (haccepted ms rfl)
    simp only [Written.raw, Stored.stored, String.ofList_toList, (payload_iff _).mpr hpayload]
    rw [hnextRun]
    refine congrArg₂ StoredSchedule.mk ?_ rfl
    rw [Schedule.mk.injEq]
    exact ⟨rfl, rfl, rfl, hcronExpr, hinterval, rfl, hlastRun, henabled, rfl, rfl, rfl⟩

/-- **The text of an entry** is decoded as it was written exactly if what was written fits. -/
theorem decodeStored_iff {x : Written} {e : ScheduleEntry} (h : Stands x e) (clock : ℤ) :
    decodeStored clock x.request.name (cjsonEncode e.table) = some x.stored ↔ x.Fits := by
  rw [decodeStored, fromStr_cjsonEncode, Option.bind_some, deserialize_stands h]
  constructor
  · intro hdec
    split at hdec
    · next hprec =>
      have hstored := (raw_stored_iff hprec.2.1 hprec.2.2 h.accepted clock).mp (Option.some.inj hdec)
      refine ⟨hstored.1, hstored.2.1, hprec.1, hprec.2.1, fun t ht => ⟨?_, hstored.2.2 t ht⟩⟩
      simpa [ht] using hprec.2.2
    · cases hdec
  · intro hfits
    have hlast : Precise (x.last.getD 0) := by
      cases ht : x.last with
      | none => decide
      | some t => exact (hfits.last t ht).1
    rw [if_pos ⟨hfits.interval, hfits.next, hlast⟩, Option.map_some, (raw_stored_iff hfits.next hlast h.accepted clock).mpr
      ⟨hfits.payload, hfits.trigger, fun t ht => (hfits.last t ht).2⟩]

/-! ## Runs -/

/-- The text of a name, with what was last written for it. -/
structure Backs (name : String) (x : Written) (raw : List Char) : Prop where
  name : x.request.name = name
  entry : ∃ e : ScheduleEntry, raw = cjsonEncode e.table ∧ Stands x e

/-- The texts of a line are those of what was written. -/
structure WireOk (x : String → Option Written) (w : WireStore) : Prop where
  nodup : (w.entries.map Prod.fst).Nodup
  backs : ∀ name, Option.Rel (Backs name) (x name) (w.hget name)

theorem hget_hset (w : WireStore) (name name' : String) (raw : List Char) :
    (w.hset name raw).hget name' = if name' = name then some raw else w.hget name' := by
  unfold WireStore.hset
  split
  · next hsome =>
    dsimp only [WireStore.hget]
    rw [find?_updateWhere (g := Prod.fst) (f := fun e => (e.1, raw)) (fun _ => rfl)]
    split
    · next heq =>
      obtain ⟨raw', hraw⟩ := Option.isSome_iff_exists.mp hsome
      obtain ⟨r, hr, -⟩ := Option.map_eq_some_iff.mp hraw
      rw [heq, hr]
      rfl
    · rfl
  · next hnone =>
    have hnone : w.entries.find? (fun e => e.1 = name) = none := by
      simpa only [WireStore.hget, Option.isSome_map, Option.not_isSome_iff_eq_none] using hnone
    dsimp only [WireStore.hget]
    rw [List.find?_append]
    split
    · next heq =>
      rw [heq, hnone]
      simp
    · next hne =>
      have hne : [(name, raw)].find? (fun e => e.1 = name') = none := by simp [Ne.symm hne]
      rw [hne, Option.or_none]

theorem nodup_hset {w : WireStore} (h : (w.entries.map Prod.fst).Nodup) (name : String) (raw : List Char) :
    ((w.hset name raw).entries.map Prod.fst).Nodup := by
  unfold WireStore.hset
  split
  · exact (map_updateWhere (f := fun e => (e.1, raw)) (g := Prod.fst) (fun _ => rfl) w.entries).symm ▸ h
  · next hnone =>
    have hnone : w.entries.find? (fun e => e.1 = name) = none := by
      simpa only [WireStore.hget, Option.isSome_map, Option.not_isSome_iff_eq_none] using hnone
    rw [List.map_append, List.nodup_append]
    refine ⟨h, List.nodup_singleton _, ?_⟩
    intro k hk k' hk' heq
    obtain ⟨e, he, rfl⟩ := List.mem_map.mp hk
    exact List.find?_eq_none.mp hnone e he (by simpa using heq.trans (List.mem_singleton.mp hk'))

theorem hget_filter (w : WireStore) (s : Store) (name name' : String) :
    WireStore.hget { store := s, entries := w.entries.filter (fun e => e.1 ≠ name) } name' =
      if name' = name then none else w.hget name' := by
  dsimp only [WireStore.hget]
  rw [find?_filter_key (g := Prod.fst) (fun k => k ≠ name)]
  by_cases h : name' = name <;> simp [h]

variable {x : String → Option Written} {w : WireStore}

/-- Where the text of a name is known, so is what was written. -/
theorem WireOk.update {name : String} (h : WireOk x w) {y : Option Written} {w' : WireStore}
    (hnodup : (w'.entries.map Prod.fst).Nodup) (hother : ∀ name', name' ≠ name → w'.hget name' = w.hget name')
    (hname : Option.Rel (Backs name) y (w'.hget name)) : WireOk (Function.update x name y) w' := by
  refine ⟨hnodup, fun name' => ?_⟩
  by_cases heq : name' = name
  · subst heq
    rwa [Function.update_self]
  · rw [Function.update_of_ne heq, hother name' heq]
    exact h.backs name'

theorem WireOk.hset {name : String} (h : WireOk x w) {y : Written} {e : ScheduleEntry} (hrequest : y.request.name = name)
    (hstands : Stands y e) : WireOk (Function.update x name (some y)) (w.hset name (cjsonEncode e.table)) := by
  refine h.update (nodup_hset h.nodup _ _) (fun name' hne => by rw [hget_hset, if_neg hne]) ?_
  rw [hget_hset, if_pos rfl]
  exact .some ⟨hrequest, e, rfl, hstands⟩

/-- The other keys do not matter. -/
theorem WireOk.store (h : WireOk x w) (s : Store) : WireOk x { w with store := s } := ⟨h.nodup, h.backs⟩

/-- A name with an entry, or without one. -/
theorem WireOk.cases (h : WireOk x w) (name : String) :
    (x name = none ∧ w.hget name = none) ∨ ∃ y e, x name = some y ∧ y.request.name = name ∧
      w.hget name = some (cjsonEncode e.table) ∧ Stands y e := by
  have hrel := h.backs name
  cases hx : x name with
  | none =>
    rw [hx] at hrel
    cases hw : w.hget name with
    | none => exact .inl ⟨rfl, rfl⟩
    | some raw =>
      rw [hw] at hrel
      cases hrel
  | some y =>
    rw [hx] at hrel
    cases hw : w.hget name with
    | none =>
      rw [hw] at hrel
      cases hrel
    | some raw =>
      rw [hw] at hrel
      cases hrel with
      | some hbacks =>
        obtain ⟨e, rfl, hstands⟩ := hbacks.entry
        exact .inr ⟨y, e, rfl, hbacks.name, rfl, hstands⟩

theorem luaScheduleUpsert_eq (w : WireStore) (a : UpsertArgs) : ∃ s, luaScheduleUpsert w a =
    { w.hset a.name (cjsonEncode (entryTable a (priorLastRun w a.name))) with store := s } := by
  unfold luaScheduleUpsert
  split <;> exact ⟨_, rfl⟩

/-- An upsert keeps the last run of the entry before. -/
theorem WireOk.upsert (h : WireOk x w) (cron : Cron) (r : ScheduleRequest) (trigger : Recurrence) (clock : Int64) :
    WireOk ((WireOp.upsert r trigger clock).write cron x) ((WireOp.upsert r trigger clock).apply cron w) := by
  dsimp only [WireOp.write, WireOp.apply, upsertSchedule]
  cases hnext : trigger.next cron clock with
  | error e => exact h
  | ok next =>
    obtain ⟨last, hlast, hkeeps⟩ : ∃ last, priorLastRun w r.name = .number last ∧
        Keeps (((x r.name).bind (·.last)).getD 0) last := by
      obtain ⟨hx, hw⟩ | ⟨y, e, hx, -, hw, hstands⟩ := h.cases r.name
      · refine ⟨0, ?_, ?_⟩
        · rw [priorLastRun, hw]
          rfl
        · rw [hx]
          rfl
      · refine ⟨e.reread.lastRunAtMs, ?_, ?_⟩
        · rw [priorLastRun, hw, Option.bind_some, cjsonDecode_table, Option.bind_some, get_lastRun]
        · rw [hx]
          exact hstands.reread.last
    let e : ScheduleEntry := {
      cron := trigger.expr, kind := r.kind, payload := String.ofList (jsonText r.payload)
      priority := nearest r.priority.toInt, maxAttempts := nearest r.maxAttempts.toInt, queue := r.queue, enabled := 1
      lastRunAtMs := last, nextRunAtMs := nearest next, intervalMs := nearest trigger.intervalMs }
    have hstands : Stands { request := r, trigger, enabled := true, next, last := (x r.name).bind (·.last) } e :=
      { cron := rfl
        kind := rfl
        payload := rfl
        priority := nearest_precise (precise_int16 _)
        maxAttempts := nearest_precise (precise_int32 _)
        queue := rfl
        enabled := rfl
        last := hkeeps
        next := keeps_nearest next
        interval := keeps_nearest _
        accepted := by
          rintro ms rfl
          by_contra hneg
          simp [Recurrence.next, not_lt.mp hneg] at hnext }
    obtain ⟨s, hs⟩ : ∃ s, scheduleUpsertCall w r trigger true next =
        { w.hset r.name (cjsonEncode e.table) with store := s } := by
      obtain ⟨s, hs⟩ := luaScheduleUpsert_eq w _
      exact ⟨s, hs.trans (by rw [hlast]; rfl)⟩
    have hset : WireOk _ (scheduleUpsertCall w r trigger true next) := hs ▸ (h.hset rfl hstands).store s
    exact hset

/-- **One call** writes the text of what it writes. -/
theorem WireOk.apply (h : WireOk x w) (cron : Cron) (op : WireOp) : WireOk (op.write cron x) (op.apply cron w) := by
  cases op with
  | upsert r trigger clock => exact h.upsert cron r trigger clock
  | setEnabled name enabled next =>
    dsimp only [WireOp.write, WireOp.apply, luaScheduleSetEnabled]
    obtain ⟨hx, hw⟩ | ⟨y, e, hx, hname, hw, hstands⟩ := h.cases name
    · rw [hx]
      simp only [hw]
      exact h.update h.nodup (fun _ _ => rfl) (by rw [hw]; exact .none)
    · rw [hx, hw]
      have hstands := hstands.reread
      simp only [cjsonDecode_table, set_enabled, set_nextRun, Option.map_some]
      cases enabled with
      | true =>
        refine WireOk.hset (h.store _) hname ?_
        exact { hstands with enabled := rfl, next := keeps_nearest next }
      | false =>
        refine WireOk.hset (h.store _) hname ?_
        exact { hstands with enabled := rfl }
  | fire a =>
    dsimp only [WireOp.write, WireOp.apply, luaScheduleFire]
    obtain ⟨hx, hw⟩ | ⟨y, e, hx, hname, hw, hstands⟩ := h.cases a.name
    · rw [hx]
      simp only [hw]
      exact h.update h.nodup (fun _ _ => rfl) (by rw [hw]; exact .none)
    · rw [hx, hw]
      have hstands : Stands { y with next := a.nextRun, last := some a.now }
          { e.reread with lastRunAtMs := nearest a.now, nextRunAtMs := nearest a.nextRun } :=
        { hstands.reread with last := keeps_nearest a.now, next := keeps_nearest a.nextRun }
      simp only [cjsonDecode_table, set_lastRun, set_nextRun, Option.map_some]
      exact (WireOk.hset (h.store _) (y := { y with next := a.nextRun, last := some a.now }) hname hstands).store _
  | remove name =>
    refine h.update (h.nodup.sublist (List.filter_sublist.map _)) (fun name' hne => ?_) ?_
    · rw [WireOp.apply, luaScheduleRemove, hget_filter, if_neg hne]
    · rw [WireOp.apply, luaScheduleRemove, hget_filter, if_pos rfl]
      exact .none

theorem wireOk_run (cron : Cron) (ops : List WireOp) : WireOk (written cron ops) (runWire cron ops) := by
  unfold written runWire
  suffices h : ∀ x w, WireOk x w → WireOk (ops.foldl (WireOp.write cron) x) (ops.foldl (WireOp.apply cron) w) from
    h _ _ ⟨List.nodup_nil, fun _ => .none⟩
  induction ops with
  | nil => exact fun _ _ h => h
  | cons op ops ih => exact fun x w h => ih _ _ (h.apply cron op)

/-- The text of a name is the one that the lists have. -/
theorem mem_list_iff (h : (w.entries.map Prod.fst).Nodup) {name : String} {raw : List Char} :
    (name, raw) ∈ luaScheduleList w ↔ w.hget name = some raw := by
  constructor
  · intro hmem
    rw [WireStore.hget, find?_of_nodup h hmem]
    rfl
  · intro hget
    obtain ⟨row, hfind, rfl⟩ := Option.map_eq_some_iff.mp hget
    have hname := List.find?_some hfind
    rw [decide_eq_true_eq] at hname
    exact hname ▸ List.mem_of_find?_eq_some hfind

theorem hget_of_mem_dueList {now : ℤ} {batchMax : Nat} {name : String} {raw : List Char}
    (h : (name, raw) ∈ luaScheduleDueList w now batchMax) : w.hget name = some raw := by
  obtain ⟨n, -, hn⟩ := List.mem_filterMap.mp h
  obtain ⟨raw', hraw, heq⟩ := Option.map_eq_some_iff.mp hn
  cases heq
  exact hraw

/-- A job every minute, from the start of the clock. -/
def tick : ScheduleRequest where
  name := "tick"
  kind := "tick"
  payload := .null
  priority := 0
  maxAttempts := 3
  queue := "default"

/-- It is declared, fires once and is disabled. -/
def tickRun : List WireOp :=
  [.upsert tick (.interval 60000) 0,
   .fire { name := "tick", kind := "tick", payload := "null", priority := 0, maxAttempts := 3, queue := "default"
           now := 60000, nextRun := 120000 },
   .setEnabled "tick" false 0]

/-- The line with the texts of its entries. -/
def Store.wire (s : Store) : WireStore where
  store := { s with schedules := [] }
  entries := s.schedules.map fun p => (p.1, cjsonEncode p.2.table)

/-- The numbers of an entry. -/
def ScheduleEntry.numbers (e : ScheduleEntry) : List ℤ :=
  [e.priority, e.maxAttempts, e.enabled, e.lastRunAtMs, e.nextRunAtMs, e.intervalMs]

theorem ScheduleEntry.reread_eq {e : ScheduleEntry} (h : ∀ n ∈ e.numbers, Precise n) : e.reread = e := by
  have hreread (n : ℤ) (hn : n ∈ e.numbers) : Redis.reread n = n := reread_precise (h n hn)
  rw [reread, hreread _ (by simp [numbers]), hreread _ (by simp [numbers]), hreread _ (by simp [numbers]),
    hreread _ (by simp [numbers]), hreread _ (by simp [numbers]), hreread _ (by simp [numbers])]

/-- The entry of a name, if there is one, has no other numbers. -/
def Store.Steady (s : Store) (name : String) : Prop := ∀ e, s.schedule? name = some e → ∀ n ∈ e.numbers, Precise n

variable {s : Store} {name : String}

theorem hget_wire (s : Store) (name : String) :
    s.wire.hget name = (s.schedule? name).map fun e => cjsonEncode e.table := by
  dsimp only [WireStore.hget, Store.wire, Store.schedule?]
  rw [List.find?_map, Option.map_map, Option.map_map]
  rfl

theorem hset_wire (s : Store) (name : String) (e : ScheduleEntry) :
    s.wire.hset name (cjsonEncode e.table) = (s.setSchedule name e).wire := by
  unfold WireStore.hset Store.setSchedule
  rw [hget_wire, Option.isSome_map]
  split
  · dsimp only [Store.wire, updateWhere]
    rw [List.map_map, List.map_map]
    refine congrArg _ (List.map_congr_left fun p _ => ?_)
    by_cases hp : p.1 = name <;> simp [hp]
  · dsimp only [Store.wire]
    rw [List.map_append]
    rfl

theorem cjsonDecode_steady (h : s.Steady name) {e : ScheduleEntry} (he : s.schedule? name = some e) :
    cjsonDecode (cjsonEncode e.table) = some e.table := by
  rw [cjsonDecode_table, ScheduleEntry.reread_eq (h e he)]

theorem priorLastRun_wire (h : s.Steady name) :
    priorLastRun s.wire name = .number (((s.schedule? name).map (·.lastRunAtMs)).getD 0) := by
  rw [priorLastRun, hget_wire]
  cases he : s.schedule? name with
  | none => rfl
  | some e => rw [Option.map_some, Option.bind_some, cjsonDecode_steady h he, Option.bind_some, get_lastRun]; rfl

/-- **The functions of the library** do on the texts what they do on the entries, as long as the numbers of these are
precise. -/
theorem luaScheduleUpsert_wire {a : UpsertArgs} (h : s.Steady a.name) :
    luaScheduleUpsert s.wire a = (fnScheduleUpsert s a).wire := by
  unfold luaScheduleUpsert fnScheduleUpsert
  rw [priorLastRun_wire h]
  have htable (lastRun : ℤ) : entryTable a (.number lastRun) = (ScheduleEntry.table {
      cron := a.cron, kind := a.kind, payload := a.payload, priority := a.priority, maxAttempts := a.maxAttempts
      queue := a.queue, enabled := a.enabled, lastRunAtMs := lastRun, nextRunAtMs := a.nextRun
      intervalMs := a.intervalMs }) := rfl
  rw [htable, hset_wire]
  split <;> rfl

theorem luaScheduleRemove_wire : luaScheduleRemove s.wire name = Prod.map Store.wire id (fnScheduleRemove s name) := by
  unfold luaScheduleRemove fnScheduleRemove
  rw [hget_wire, Option.isSome_map]
  dsimp only [Store.wire, Prod.map]
  rw [List.filter_map]
  rfl

theorem luaScheduleSetEnabled_wire (h : s.Steady name) (enabled nextRun : ℤ) :
    luaScheduleSetEnabled s.wire name enabled nextRun =
      Prod.map Store.wire .ok (fnScheduleSetEnabled s name enabled nextRun) := by
  unfold luaScheduleSetEnabled fnScheduleSetEnabled
  rw [hget_wire]
  cases he : s.schedule? name with
  | none => rfl
  | some e =>
    simp only [Option.map_some, cjsonDecode_steady h he, set_enabled, set_nextRun]
    split
    · exact congrArg (·, _) (hset_wire { s with schedulesNext := s.schedulesNext.add nextRun name } name _)
    · exact congrArg (·, _) (hset_wire { s with schedulesNext := s.schedulesNext.rem name } name _)

/-- A fired job does not depend on the schedules. -/
theorem insertJob_schedules (s : Store) (l : List (String × ScheduleEntry)) (a : FireArgs) (id : JobId) (now : ℤ) :
    insertJob { s with schedules := l } a.toEnqueue id now = { insertJob s a.toEnqueue id now with schedules := l } := by
  unfold insertJob
  split <;> rfl

theorem insertJob_wire (s : Store) (a : FireArgs) (id : JobId) (now : ℤ) :
    { s.wire with store := insertJob s.wire.store a.toEnqueue id now } = (insertJob s a.toEnqueue id now).wire := by
  have hschedules : (insertJob s a.toEnqueue id now).schedules = s.schedules := by
    have h := congrArg Store.schedules (insertJob_schedules s s.schedules a id now)
    exact h
  dsimp only [Store.wire]
  rw [insertJob_schedules, hschedules]

theorem luaScheduleFire_wire {a : FireArgs} (h : s.Steady a.name) :
    luaScheduleFire s.wire a = Prod.map Store.wire .ok (fnScheduleFire s a) := by
  unfold luaScheduleFire fnScheduleFire
  rw [hget_wire]
  cases he : s.schedule? a.name with
  | none => rfl
  | some e =>
    simp only [Option.map_some, cjsonDecode_steady h he, set_lastRun, set_nextRun]
    have hinsert := insertJob_wire { s with idgen := s.idgen + 1 } a (s.idgen + 1) a.now
    have hset := hset_wire (insertJob { s with idgen := s.idgen + 1 } a.toEnqueue (s.idgen + 1) a.now) a.name
      { e with lastRunAtMs := a.now, nextRunAtMs := a.nextRun }
    rw [← hinsert] at hset
    exact congrArg (fun w : WireStore => ({ w with
      store := { w.store with schedulesNext := w.store.schedulesNext.add a.nextRun a.name } },
      Except.ok (some (s.idgen + 1)))) hset

theorem luaScheduleDueList_wire (now : ℤ) (batchMax : Nat) :
    luaScheduleDueList s.wire now batchMax =
      (fnScheduleDueList s now batchMax).map fun p => (p.1, cjsonEncode p.2.table) := by
  unfold luaScheduleDueList fnScheduleDueList
  rw [List.map_filterMap]
  simp only [hget_wire, Option.map_map]
  rfl

end Eddyq.Redis
