import Eddyq.Pg.ScheduleRows
import Eddyq.Redis.ScheduleIndex

/-!
# The admin calls of schedules on both backends

The calls of `Backend` on schedules, run on Postgres and on Redis, and what each backend then lists. Starting from equal
lists, a call with valid arguments leaves equal lists and returns the same exactly when it is plain (`call_agrees_iff`):
it does not declare a schedule that is disabled, which Redis enables again, and it does not enable an interval schedule
or one without an occurrence left, which Redis refuses.
-/

namespace Eddyq

open Eddyq.Lib

/-- `serde_json`: values as text and back. -/
structure JsonCodec where
  text : Json → String
  parse : String → Option Json

/-- The admin calls on schedules. -/
inductive ScheduleCall
  | upsert (b : Pg.ScheduleBody) (expr : String)
  | upsertInterval (b : Pg.ScheduleBody) (intervalMs : ℤ)
  | setEnabled (name : String) (enabled : Bool)
  | remove (name : String)
  | sync (declared : List (Pg.ScheduleBody × String))

/-- A schedule as it is listed, without its times. -/
structure ScheduleView where
  kind : String
  payload : Json
  cronExpr : Option String
  intervalMs : Option ℤ
  priority : ℤ
  maxAttempts : ℤ
  queue : String
  enabled : Bool

/-! ## Postgres -/

namespace Pg

/-- One row of `list_schedules`. -/
def ScheduleRow.view (s : ScheduleRow) : ScheduleView where
  kind := s.kind
  payload := s.payload
  cronExpr := s.cronExpr
  intervalMs := s.intervalMs
  priority := s.priority
  maxAttempts := s.maxAttempts
  queue := s.queue
  enabled := s.enabled

def Db.view (db : Db) (name : String) : Option ScheduleView := (db.schedule? name).map ScheduleRow.view

/-- An upsert or a sync: nothing to return but the error. -/
def done (db : Db) : Except Error Db → Db × Except Error Bool
  | .ok db' => (db', .ok true)
  | .error e => (db, .error e)

/-- A call, and whether a row was there. -/
def runCall (cron : Cron) (db : Db) (clock : ℤ) : ScheduleCall → Db × Except Error Bool
  | .upsert b expr => done db (upsertScheduleRaw cron db b expr clock)
  | .upsertInterval b ms => done db (upsertIntervalScheduleRaw db b ms clock)
  | .setEnabled name e => (setScheduleEnabled db name e, .ok (db.schedule? name).isSome)
  | .remove name => (removeSchedule db name, .ok (db.schedule? name).isSome)
  | .sync declared => done db (syncSchedules cron db declared clock)

end Pg

/-! ## Redis -/

namespace Redis

/-- `decode_stored`. -/
def ScheduleEntry.view (codec : JsonCodec) (e : ScheduleEntry) : ScheduleView where
  kind := e.kind
  payload := (codec.parse e.payload).getD .null
  cronExpr := e.cronExpr?
  intervalMs := if 0 < e.intervalMs then some e.intervalMs else none
  priority := e.priority
  maxAttempts := e.maxAttempts
  queue := e.queue
  enabled := e.enabled = 1

def Store.view (codec : JsonCodec) (s : Store) (name : String) : Option ScheduleView :=
  (s.schedule? name).map (ScheduleEntry.view codec)

/-- The arguments of `schedule_upsert_call`. -/
def upsertArgs (codec : JsonCodec) (b : Pg.ScheduleBody) (expr : String) (intervalMs : ℤ) : UpsertArgs where
  name := b.name
  cron := expr
  kind := b.kind
  payload := codec.text b.payload
  priority := b.priority
  maxAttempts := b.maxAttempts
  queue := b.queue
  intervalMs := intervalMs

/-- An upsert or a sync: nothing to return but the error. -/
def done (s : Store) : Except Error Store → Store × Except Error Bool
  | .ok s' => (s', .ok true)
  | .error e => (s, .error e)

/-- A call, and whether an entry was there. -/
def runCall (codec : JsonCodec) (cron : Cron) (s : Store) (clock : ℤ) : ScheduleCall → Store × Except Error Bool
  | .upsert b expr => done s (upsertScheduleRaw cron s (upsertArgs codec b expr 0) clock)
  | .upsertInterval b ms => done s (upsertIntervalScheduleRaw s (upsertArgs codec b "" ms) clock)
  | .setEnabled name e => setScheduleEnabled cron s name e clock
  | .remove name => ((fnScheduleRemove s name).1, .ok (fnScheduleRemove s name).2)
  | .sync declared => done s (syncSchedules cron s (declared.map (fun d => upsertArgs codec d.1 d.2 0)) clock)

end Redis

/-! ## Valid and plain calls -/

/-- The queue name is accepted, and the payload is read back as it was written. -/
structure ValidBody (codec : JsonCodec) (b : Pg.ScheduleBody) : Prop where
  queue : validateQueueName b.queue = .ok ()
  payload : codec.parse (codec.text b.payload) = some b.payload

/-- The body is valid and the expression has an occurrence. -/
structure ValidCron (codec : JsonCodec) (cron : Cron) (clock : ℤ) (b : Pg.ScheduleBody) (expr : String) : Prop where
  body : ValidBody codec b
  next : ∃ next, cron.nextRun expr clock = .ok next

/-- The arguments pass the checks of both backends. -/
def ScheduleCall.Valid (codec : JsonCodec) (cron : Cron) (clock : ℤ) : ScheduleCall → Prop
  | .upsert b expr => ValidCron codec cron clock b expr
  | .upsertInterval b ms => ValidBody codec b ∧ 0 < ms
  | .setEnabled _ _ => True
  | .remove _ => True
  | .sync declared => ∀ d ∈ declared, ValidCron codec cron clock d.1 d.2

/-- The schedule is not there, or enabled. -/
def NotDisabled (view : String → Option ScheduleView) (name : String) : Prop := ∀ v, view name = some v → v.enabled = true

/-- No disabled schedule is declared, and none is enabled that has no cron expression with an occurrence left. -/
def ScheduleCall.Plain (cron : Cron) (clock : ℤ) (view : String → Option ScheduleView) : ScheduleCall → Prop
  | .upsert b _ => NotDisabled view b.name
  | .upsertInterval b _ => NotDisabled view b.name
  | .setEnabled name true => ∀ v, view name = some v → ∃ expr next, v.cronExpr = some expr ∧
      cron.nextRun expr clock = .ok next
  | .setEnabled _ false => True
  | .remove _ => True
  | .sync declared => ∀ d ∈ declared, NotDisabled view d.1.name

/-- Both backends list the same. -/
def SameViews (codec : JsonCodec) (db : Pg.Db) (s : Redis.Store) : Prop := ∀ n, db.view n = s.view codec n

/-! ## What the calls do to the lists -/

/-- A declared schedule. -/
def declaredView (b : Pg.ScheduleBody) (cronExpr : Option String) (intervalMs : Option ℤ) (enabled : Bool) :
    ScheduleView where
  kind := b.kind
  payload := b.payload
  cronExpr := cronExpr
  intervalMs := intervalMs
  priority := b.priority
  maxAttempts := b.maxAttempts
  queue := b.queue
  enabled := enabled

section Views

variable {codec : JsonCodec} {cron : Cron} {clock : ℤ} {db : Pg.Db} {s : Redis.Store}

/-- Postgres keeps `enabled`. -/
theorem Pg.view_upsert (db : Pg.Db) (b : Pg.ScheduleBody) (c : Option String) (i : Option ℤ)
    (same : Pg.ScheduleRow → Bool) (next : ℤ) (n : String) : (Pg.upsertScheduleRow db b c i same next).view n =
      if n = b.name then some (declaredView b c i (((db.view n).map (·.enabled)).getD true)) else db.view n := by
  unfold Pg.Db.view
  rw [Pg.schedule?_upsertScheduleRow]
  split
  · cases db.schedule? n <;> rfl
  · rfl

/-- Redis sets it. -/
theorem Redis.view_upsert (s : Redis.Store) (a : Redis.UpsertArgs) (n : String) :
    (Redis.fnScheduleUpsert s a).view codec n =
      if n = a.name then some ((a.entry 0).view codec) else s.view codec n := by
  unfold Redis.Store.view
  rw [(Redis.fnScheduleUpsert_writes s a).entry]
  split <;> rfl

/-- What a declaration with a cron expression, or with an interval, sends to Redis. -/
def Redis.cronArgs (codec : JsonCodec) (b : Pg.ScheduleBody) (expr : String) (next : ℤ) : Redis.UpsertArgs :=
  { Redis.upsertArgs codec b expr 0 with enabled := 1, nextRun := next, intervalMs := 0 }

def Redis.intervalArgs (codec : JsonCodec) (b : Pg.ScheduleBody) (ms next : ℤ) : Redis.UpsertArgs :=
  { Redis.upsertArgs codec b "" ms with cron := "", enabled := 1, nextRun := next }

theorem Redis.view_cron (s : Redis.Store) {b : Pg.ScheduleBody} (hb : ValidBody codec b) {expr : String} (he : expr ≠ "")
    (next : ℤ) (n : String) :
    (Redis.fnScheduleUpsert s (Redis.cronArgs codec b expr next)).view codec n =
      if n = b.name then some (declaredView b (some expr) none true) else s.view codec n := by
  have hv : ((Redis.cronArgs codec b expr next).entry 0).view codec = declaredView b (some expr) none true := by
    simp [Redis.ScheduleEntry.view, Redis.UpsertArgs.entry, Redis.cronArgs, Redis.upsertArgs, Redis.ScheduleEntry.cronExpr?,
      he, hb.payload, declaredView]
  rw [Redis.view_upsert, hv]
  rfl

theorem Redis.view_interval (s : Redis.Store) {b : Pg.ScheduleBody} (hb : ValidBody codec b) {ms : ℤ} (hms : 0 < ms)
    (next : ℤ) (n : String) :
    (Redis.fnScheduleUpsert s (Redis.intervalArgs codec b ms next)).view codec n =
      if n = b.name then some (declaredView b none (some ms) true) else s.view codec n := by
  have hv : ((Redis.intervalArgs codec b ms next).entry 0).view codec = declaredView b none (some ms) true := by
    simp [Redis.ScheduleEntry.view, Redis.UpsertArgs.entry, Redis.intervalArgs, Redis.upsertArgs,
      Redis.ScheduleEntry.cronExpr?, hms, hb.payload, declaredView]
  rw [Redis.view_upsert, hv]
  rfl

/-- A declaration leaves equal lists exactly when the schedule was not disabled. -/
theorem declare_iff {db' : Pg.Db} {s' : Redis.Store} (h : SameViews codec db s) {b : Pg.ScheduleBody} {c : Option String}
    {i : Option ℤ}
    (hdb : ∀ n, db'.view n =
      if n = b.name then some (declaredView b c i (((db.view n).map (·.enabled)).getD true)) else db.view n)
    (hs : ∀ n, s'.view codec n = if n = b.name then some (declaredView b c i true) else s.view codec n) :
    SameViews codec db' s' ↔ NotDisabled db.view b.name := by
  constructor
  · intro h' v hv
    have hn := h' b.name
    rw [hdb, hs, if_pos rfl, if_pos rfl, hv] at hn
    exact congrArg ScheduleView.enabled (Option.some.inj hn)
  · intro hnd n
    rw [hdb, hs]
    split
    · next hn =>
      subst hn
      cases hv : db.view b.name with
      | none => rfl
      | some v => simp [hnd v hv]
    · exact h n

theorem Redis.view_remove (s : Redis.Store) (name n : String) :
    (Redis.fnScheduleRemove s name).1.view codec n = if n = name then none else s.view codec n := by
  unfold Redis.Store.view
  rw [(Redis.fnScheduleRemove_writes s name).entry]
  split <;> rfl

theorem Pg.view_remove (db : Pg.Db) (name n : String) :
    (Pg.removeSchedule db name).view n = if n = name then none else db.view n := by
  unfold Pg.Db.view
  rw [Pg.schedule?_removeSchedule]
  split <;> rfl

theorem Pg.view_setEnabled (db : Pg.Db) (name : String) (e : Bool) (n : String) :
    (Pg.setScheduleEnabled db name e).view n =
      if n = name then (db.view n).map (fun v => { v with enabled := e }) else db.view n := by
  unfold Pg.Db.view
  rw [Pg.schedule?_setScheduleEnabled]
  split
  · cases db.schedule? n <;> rfl
  · rfl

theorem Redis.view_setEnabled (ha : s.SchedulesAgree) (name : String) (e next : ℤ) (n : String) :
    (Redis.fnScheduleSetEnabled s name e next).1.view codec n =
      if n = name then (s.view codec n).map (fun v => { v with enabled := decide (e = 1) }) else s.view codec n := by
  cases hx : s.schedule? name with
  | none =>
    have hs : (Redis.fnScheduleSetEnabled s name e next).1 = s := by
      unfold Redis.fnScheduleSetEnabled
      rw [hx]
    rw [hs]
    split
    · next hn => simp [Redis.Store.view, hn, hx]
    · rfl
  | some x =>
    unfold Redis.Store.view
    rw [(Redis.fnScheduleSetEnabled_writes ha.idx hx e next).entry]
    split
    · next hn =>
      subst hn
      rw [hx]
      by_cases he : e = 1
      · simp [Redis.ScheduleEntry.setEnabled, Redis.ScheduleEntry.view, Redis.ScheduleEntry.cronExpr?, he]
      · simp [Redis.ScheduleEntry.setEnabled, Redis.ScheduleEntry.view, Redis.ScheduleEntry.cronExpr?, he]
    · rfl

theorem Redis.setEnabled_answer (s : Redis.Store) (name : String) (e next : ℤ) :
    (Redis.fnScheduleSetEnabled s name e next).2 = (s.schedule? name).isSome := by
  unfold Redis.fnScheduleSetEnabled
  cases s.schedule? name with
  | none => rfl
  | some x =>
    dsimp only
    split <;> rfl

/-- Both backends have the schedule or neither has. -/
theorem SameViews.isSome (h : SameViews codec db s) (n : String) : (db.schedule? n).isSome = (s.schedule? n).isSome := by
  have hn := congrArg Option.isSome (h n)
  simpa [Pg.Db.view, Redis.Store.view] using hn

/-! ## Syncs -/

/-- The next run of a valid expression. -/
def nextOf (cron : Cron) (clock : ℤ) (expr : String) : ℤ := (cron.nextRun expr clock).toOption.getD 0

theorem nextOf_eq {expr : String} (h : ∃ next, cron.nextRun expr clock = .ok next) :
    cron.nextRun expr clock = .ok (nextOf cron clock expr) := by
  obtain ⟨next, hn⟩ := h
  rw [nextOf, hn]
  rfl

theorem Redis.upsert_valid (s : Redis.Store) (b : Pg.ScheduleBody) {expr : String}
    (h : ∃ next, cron.nextRun expr clock = .ok next) :
    Redis.upsertScheduleRaw cron s (Redis.upsertArgs codec b expr 0) clock =
      .ok (Redis.fnScheduleUpsert s (Redis.cronArgs codec b expr (nextOf cron clock expr))) := by
  rw [Redis.upsertScheduleRaw, show cron.nextRun (Redis.upsertArgs codec b expr 0).cron clock = _ from nextOf_eq h]
  rfl

theorem Redis.interval_valid (s : Redis.Store) (b : Pg.ScheduleBody) {ms : ℤ} (hms : 0 < ms) :
    Redis.upsertIntervalScheduleRaw s (Redis.upsertArgs codec b "" ms) clock =
      .ok (Redis.fnScheduleUpsert s (Redis.intervalArgs codec b ms (clock + ms))) := by
  rw [Redis.upsertIntervalScheduleRaw]
  show (if ms ≤ 0 then _ else _) = _
  rw [if_neg (Int.not_le.mpr hms)]
  rfl

theorem Pg.prepare_valid : ∀ {ds : List (Pg.ScheduleBody × String)}, (∀ d ∈ ds, ValidCron codec cron clock d.1 d.2) →
    Pg.prepareSchedules cron clock ds = .ok (ds.map (fun d => (d.1, d.2, nextOf cron clock d.2)))
  | [], _ => rfl
  | d :: ds, h => by
    obtain ⟨hb, hn⟩ := h d List.mem_cons_self
    have ih := Pg.prepare_valid (fun x hx => h x (List.mem_cons_of_mem _ hx))
    unfold Pg.prepareSchedules
    rw [hb.queue, nextOf_eq hn, ih]
    rfl

theorem Redis.prepare_valid : ∀ {ds : List (Pg.ScheduleBody × String)}, (∀ d ∈ ds, ValidCron codec cron clock d.1 d.2) →
    Redis.prepareSchedules cron clock (ds.map (fun d => Redis.upsertArgs codec d.1 d.2 0)) =
      .ok (ds.map (fun d => Redis.cronArgs codec d.1 d.2 (nextOf cron clock d.2)))
  | [], _ => rfl
  | d :: ds, h => by
    obtain ⟨_, hn⟩ := h d List.mem_cons_self
    have ih := Redis.prepare_valid (fun x hx => h x (List.mem_cons_of_mem _ hx))
    rw [List.map_cons, Redis.prepareSchedules, ih]
    rw [show cron.nextRun (Redis.upsertArgs codec d.1 d.2 0).cron clock = .ok (nextOf cron clock d.2) from nextOf_eq hn]
    rfl

/-- The declarations on Postgres, one after the other. -/
def Pg.declareAll (cron : Cron) (clock : ℤ) (db : Pg.Db) (ds : List (Pg.ScheduleBody × String)) : Pg.Db :=
  ds.foldl (fun db d => Pg.upsertScheduleRow db d.1 (some d.2) none (·.cronExpr = some d.2) (nextOf cron clock d.2)) db

/-- The declarations on Redis. -/
def Redis.declareAll (codec : JsonCodec) (cron : Cron) (clock : ℤ) (s : Redis.Store) (ds : List (Pg.ScheduleBody × String)) :
    Redis.Store :=
  ds.foldl (fun s d => Redis.fnScheduleUpsert s (Redis.cronArgs codec d.1 d.2 (nextOf cron clock d.2))) s

theorem Pg.sync_valid {ds : List (Pg.ScheduleBody × String)} (h : ∀ d ∈ ds, ValidCron codec cron clock d.1 d.2) :
    Pg.syncSchedules cron db ds clock = .ok { Pg.declareAll cron clock db ds with
      schedules := (Pg.declareAll cron clock db ds).schedules.filter (fun s => s.name ∈ ds.map (·.1.name)) } := by
  unfold Pg.syncSchedules
  rw [Pg.prepare_valid h]
  show Except.ok _ = _
  rw [List.foldl_map]
  rfl

theorem Redis.sync_valid {ds : List (Pg.ScheduleBody × String)} (h : ∀ d ∈ ds, ValidCron codec cron clock d.1 d.2) :
    Redis.syncSchedules cron s (ds.map (fun d => Redis.upsertArgs codec d.1 d.2 0)) clock =
      .ok ((Redis.fnScheduleSyncDiff (Redis.declareAll codec cron clock s ds) (ds.map (·.1.name))).foldl
        (fun s name => (Redis.fnScheduleRemove s name).1) (Redis.declareAll codec cron clock s ds)) := by
  unfold Redis.syncSchedules
  rw [Redis.prepare_valid h]
  show Except.ok _ = _
  rw [List.foldl_map, List.map_map]
  rfl

theorem Redis.indexed_declareAll : ∀ (ds : List (Pg.ScheduleBody × String)) {s : Redis.Store}, s.Indexed →
    (Redis.declareAll codec cron clock s ds).Indexed
  | [], _, h => h
  | _ :: ds, s, h => Redis.indexed_declareAll ds ((Redis.fnScheduleUpsert_writes s _).indexed h)

theorem Redis.agree_removeAll : ∀ (names : List String) {s : Redis.Store}, s.SchedulesAgree →
    (names.foldl (fun s name => (Redis.fnScheduleRemove s name).1) s).SchedulesAgree
  | [], _, h => h
  | name :: names, _, h => Redis.agree_removeAll names (h.step (.scheduleRemove name) rfl trivial)

theorem Redis.schedule?_removeAll : ∀ (names : List String) (s : Redis.Store) (n : String),
    (names.foldl (fun s name => (Redis.fnScheduleRemove s name).1) s).schedule? n =
      if n ∈ names then none else s.schedule? n
  | [], _, _ => by simp
  | name :: names, s, n => by
    rw [List.foldl_cons, Redis.schedule?_removeAll names, (Redis.fnScheduleRemove_writes s name).entry]
    by_cases hn : n = name
    · simp [hn]
    · simp [hn]

/-- What is not declared is deleted. -/
theorem Redis.schedule?_sync (ha : s.Indexed) (keep : List String) (n : String) :
    ((Redis.fnScheduleSyncDiff s keep).foldl (fun s name => (Redis.fnScheduleRemove s name).1) s).schedule? n =
      if n ∈ keep then s.schedule? n else none := by
  rw [Redis.schedule?_removeAll]
  have hmem : n ∈ Redis.fnScheduleSyncDiff s keep ↔ (s.schedule? n).isSome ∧ n ∉ keep := by
    rw [Redis.fnScheduleSyncDiff, List.mem_filter, ha]
    simp
  by_cases hk : n ∈ keep
  · simp [hmem, hk]
  · cases hx : s.schedule? n with
    | none => simp [hk]
    | some x => simp [hmem, hk, hx]

theorem Redis.view_sync (ha : s.Indexed) (keep : List String) (n : String) :
    ((Redis.fnScheduleSyncDiff s keep).foldl (fun s name => (Redis.fnScheduleRemove s name).1) s).view codec n =
      if n ∈ keep then s.view codec n else none := by
  unfold Redis.Store.view
  rw [Redis.schedule?_sync ha]
  split <;> rfl

theorem Pg.view_keep (db : Pg.Db) (keep : List String) (n : String) :
    Pg.Db.view { db with schedules := db.schedules.filter (fun s => s.name ∈ keep) } n =
      if n ∈ keep then db.view n else none := by
  unfold Pg.Db.view
  rw [Pg.schedule?_keep]
  split <;> rfl

/-- Declarations of schedules that are not disabled leave equal lists. -/
theorem SameViews.declareAll : ∀ (ds : List (Pg.ScheduleBody × String)) {db : Pg.Db} {s : Redis.Store},
    SameViews codec db s → (∀ d ∈ ds, ValidBody codec d.1 ∧ d.2 ≠ "" ∧ NotDisabled db.view d.1.name) →
      SameViews codec (Pg.declareAll cron clock db ds) (Redis.declareAll codec cron clock s ds)
  | [], _, _, h, _ => h
  | d :: ds, db, s, h, hd => by
    obtain ⟨hb, he, hnd⟩ := hd d List.mem_cons_self
    have hdb := Pg.view_upsert db d.1 (some d.2) none (·.cronExpr = some d.2) (nextOf cron clock d.2)
    have h₁ := (declare_iff h hdb (Redis.view_cron s hb he (nextOf cron clock d.2))).mpr hnd
    obtain hrest := fun x hx => hd x (List.mem_cons_of_mem d hx)
    refine SameViews.declareAll ds h₁ (fun x hx => ⟨(hrest x hx).1, (hrest x hx).2.1, fun v hv => ?_⟩)
    have hx' := (hrest x hx).2.2
    rw [hdb] at hv
    split at hv
    · next hn =>
      cases hv
      cases hw : db.view x.1.name with
      | none => rfl
      | some w => exact hx' w hw
    · exact hx' v hv

/-- Postgres keeps `enabled` in a sync too. -/
theorem Pg.enabled_declareAll : ∀ (ds : List (Pg.ScheduleBody × String)) {db : Pg.Db} {n : String} {v : ScheduleView},
    db.view n = some v → ∃ v', (Pg.declareAll cron clock db ds).view n = some v' ∧ v'.enabled = v.enabled
  | [], _, _, v, h => ⟨v, h, rfl⟩
  | d :: ds, db, n, v, h => by
    have hdb := Pg.view_upsert db d.1 (some d.2) none (·.cronExpr = some d.2) (nextOf cron clock d.2) n
    rw [h] at hdb
    split at hdb
    · obtain ⟨v', hv', he⟩ := Pg.enabled_declareAll ds hdb
      exact ⟨v', hv', he⟩
    · exact Pg.enabled_declareAll ds hdb

/-- On Redis what is declared is enabled. -/
theorem Redis.enabled_declareAll : ∀ (ds : List (Pg.ScheduleBody × String)) {s : Redis.Store} {n : String},
    (∀ d ∈ ds, ValidBody codec d.1 ∧ d.2 ≠ "") → n ∈ ds.map (·.1.name) ∨ (∃ v, s.view codec n = some v ∧ v.enabled = true) →
      ∃ v, (Redis.declareAll codec cron clock s ds).view codec n = some v ∧ v.enabled = true
  | [], _, _, _, h => by
    rcases h with h | h
    · exact absurd h List.not_mem_nil
    · exact h
  | d :: ds, s, n, he, h => by
    refine Redis.enabled_declareAll ds (fun x hx => he x (List.mem_cons_of_mem _ hx)) ?_
    rw [Redis.view_cron s (he d List.mem_cons_self).1 (he d List.mem_cons_self).2]
    by_cases hn : n = d.1.name
    · exact Or.inr ⟨_, if_pos hn, rfl⟩
    · rcases h with h | ⟨v, hv, hen⟩
      · rw [List.map_cons, List.mem_cons] at h
        exact Or.inl (h.resolve_left hn)
      · exact Or.inr ⟨v, (if_neg hn).trans hv, hen⟩

/-! ## One call -/

/-- The empty text is no expression of the cron crate. -/
theorem expr_ne_empty (hempty : ∀ next, cron "" ≠ .ok next) {expr : String}
    (h : ∃ next, cron.nextRun expr clock = .ok next) : expr ≠ "" := by
  rintro rfl
  obtain ⟨next, hn⟩ := h
  unfold Cron.nextRun at hn
  split at hn
  · cases hn
  · next f hf => exact hempty f hf

/-- The call on both backends. -/
def runBoth (codec : JsonCodec) (cron : Cron) (z : Pg.Db × Redis.Store) (x : ℤ × ScheduleCall) : Pg.Db × Redis.Store :=
  ((Pg.runCall cron z.1 x.1 x.2).1, (Redis.runCall codec cron z.2 x.1 x.2).1)

/-- The lists are equal after the call, and it returned the same. -/
def CallAgrees (codec : JsonCodec) (cron : Cron) (z : Pg.Db × Redis.Store) (x : ℤ × ScheduleCall) : Prop :=
  SameViews codec (runBoth codec cron z x).1 (runBoth codec cron z x).2 ∧
    (Pg.runCall cron z.1 x.1 x.2).2 = (Redis.runCall codec cron z.2 x.1 x.2).2

/-- The index of Redis stays in agreement with its entries. -/
theorem runCall_agree (ha : s.SchedulesAgree) (c : ScheduleCall) : (Redis.runCall codec cron s clock c).1.SchedulesAgree := by
  have hdone : ∀ r : Except Error Redis.Store, (∀ s', r = .ok s' → s'.SchedulesAgree) → (Redis.done s r).1.SchedulesAgree := by
    intro r hr
    cases r with
    | ok s' => exact hr s' rfl
    | error e => exact ha
  cases c with
  | upsert b expr =>
    refine hdone _ (fun s' hs' => ?_)
    obtain ⟨next, _, hs'⟩ := bind_eq_ok hs'
    cases hs'
    exact ha.upsert _
  | upsertInterval b ms =>
    refine hdone _ (fun s' hs' => ?_)
    unfold Redis.upsertIntervalScheduleRaw at hs'
    split at hs'
    · cases hs'
    · cases hs'
      exact ha.upsert _
  | setEnabled name e =>
    show (Redis.setScheduleEnabled cron s name e clock).1.SchedulesAgree
    unfold Redis.setScheduleEnabled
    split
    · split
      · exact ha
      split
      · exact ha
      · exact ha.step (.scheduleSetEnabled name 1 _) rfl trivial
    · exact ha.step (.scheduleSetEnabled name 0 0) rfl trivial
  | remove name => exact ha.step (.scheduleRemove name) rfl trivial
  | sync ds =>
    refine hdone _ (fun s' hs' => ?_)
    obtain ⟨prepared, _, hs'⟩ := bind_eq_ok hs'
    cases hs'
    refine Redis.agree_removeAll _ ?_
    exact List.foldlRecOn prepared _ (motive := fun s : Redis.Store => s.SchedulesAgree) ha
      (fun s hs a _ => hs.upsert a)

theorem setEnabled_agrees_iff (ha : s.SchedulesAgree) (h : SameViews codec db s) (name : String) (e : Bool) :
    CallAgrees codec cron (db, s) (clock, .setEnabled name e) ↔ (ScheduleCall.setEnabled name e).Plain cron clock db.view := by
  have hsame : ∀ next, SameViews codec (Pg.setScheduleEnabled db name e)
      (Redis.fnScheduleSetEnabled s name (if e then 1 else 0) next).1 := by
    intro next n
    rw [Pg.view_setEnabled, Redis.view_setEnabled ha, h n]
    cases e <;> simp
  have hred : (Redis.runCall codec cron s clock (.setEnabled name e)) = Redis.setScheduleEnabled cron s name e clock := rfl
  have hpg : Pg.runCall cron db clock (.setEnabled name e) = (Pg.setScheduleEnabled db name e, .ok (db.schedule? name).isSome) :=
    rfl
  have hview := h name
  unfold CallAgrees runBoth
  dsimp only
  rw [hred, hpg, h.isSome name]
  cases e with
  | false =>
    refine ⟨fun _ => trivial, fun _ => ⟨hsame 0, ?_⟩⟩
    exact congrArg Except.ok (Redis.setEnabled_answer s name 0 0).symm
  | true =>
    unfold Redis.setScheduleEnabled Redis.lookupCron
    rw [if_pos rfl]
    cases hx : s.schedule? name with
    | none =>
      -- neither backend has it
      have hnone : db.view name = none := by
        rw [hview]
        simp [Redis.Store.view, hx]
      refine ⟨fun _ v hv => ?_, fun _ => ⟨fun n => ?_, rfl⟩⟩
      · rw [hnone] at hv
        cases hv
      · show (Pg.setScheduleEnabled db name true).view n = s.view codec n
        rw [Pg.view_setEnabled, ← h n]
        split
        · next hn => rw [hn, hnone]; rfl
        · rfl
    | some x =>
      have hv : db.view name = some (x.view codec) := by
        rw [hview]
        simp [Redis.Store.view, hx]
      have hcron : (x.view codec).cronExpr = x.cronExpr? := rfl
      simp only [Option.bind_some, Option.isSome_some]
      cases hc : x.cronExpr? with
      | none =>
        refine ⟨fun hb => ?_, fun hp => ?_⟩
        · exact absurd (Except.ok.inj hb.2) (by decide)
        · obtain ⟨expr, _, he, _⟩ := hp _ hv
          rw [hcron, hc] at he
          cases he
      | some expr =>
        dsimp only
        cases hn : cron.nextRun expr clock with
        | error err =>
          refine ⟨fun hb => ?_, fun hp => ?_⟩
          · cases hb.2
          · obtain ⟨expr', next, he, hnext⟩ := hp _ hv
            rw [hcron, hc, Option.some.injEq] at he
            rw [← he, hn] at hnext
            cases hnext
        | ok next =>
          refine ⟨fun _ v hv' => ?_, fun _ => ⟨hsame next, ?_⟩⟩
          · rw [hv, Option.some.injEq] at hv'
            exact ⟨expr, next, hv' ▸ hc, hn⟩
          · show Except.ok true = Except.ok (Redis.fnScheduleSetEnabled s name 1 next).2
            rw [Redis.setEnabled_answer, hx]
            rfl

theorem sync_agrees_iff (hempty : ∀ next, cron "" ≠ .ok next) (ha : s.SchedulesAgree) (h : SameViews codec db s)
    {ds : List (Pg.ScheduleBody × String)} (hd : ∀ d ∈ ds, ValidCron codec cron clock d.1 d.2) :
    CallAgrees codec cron (db, s) (clock, .sync ds) ↔ (ScheduleCall.sync ds).Plain cron clock db.view := by
  have hne : ∀ d ∈ ds, ValidBody codec d.1 ∧ d.2 ≠ "" := fun d hx => ⟨(hd d hx).body, expr_ne_empty hempty (hd d hx).next⟩
  unfold CallAgrees runBoth Pg.runCall Redis.runCall
  dsimp only
  rw [Pg.sync_valid hd, Redis.sync_valid hd]
  have hafter : ∀ n, (Pg.Db.view { Pg.declareAll cron clock db ds with
      schedules := (Pg.declareAll cron clock db ds).schedules.filter (fun s => s.name ∈ ds.map (·.1.name)) } n =
      Redis.Store.view codec ((Redis.fnScheduleSyncDiff (Redis.declareAll codec cron clock s ds) (ds.map (·.1.name))).foldl
        (fun s name => (Redis.fnScheduleRemove s name).1) (Redis.declareAll codec cron clock s ds)) n) ↔
      (n ∈ ds.map (·.1.name) →
        (Pg.declareAll cron clock db ds).view n = (Redis.declareAll codec cron clock s ds).view codec n) := by
    intro n
    rw [Pg.view_keep, Redis.view_sync (Redis.indexed_declareAll ds ha.idx)]
    by_cases hn : n ∈ ds.map (·.1.name)
    · simp only [hn, if_true, forall_const]
    · simp only [hn, if_false, false_imp_iff]
  constructor
  · rintro ⟨hs, _⟩ d hx v hv
    have hmem : d.1.name ∈ ds.map (·.1.name) := List.mem_map_of_mem (f := fun d : Pg.ScheduleBody × String => d.1.name) hx
    obtain ⟨v₁, hv₁, he₁⟩ : ∃ v', (Pg.declareAll cron clock db ds).view d.1.name = some v' ∧ v'.enabled = v.enabled :=
      Pg.enabled_declareAll ds hv
    obtain ⟨v₂, hv₂, he₂⟩ : ∃ v', (Redis.declareAll codec cron clock s ds).view codec d.1.name = some v' ∧
      v'.enabled = true := Redis.enabled_declareAll ds hne (Or.inl hmem)
    have heq := (hafter d.1.name).mp (hs d.1.name) hmem
    rw [hv₁, hv₂, Option.some.injEq] at heq
    rw [← he₁, heq]
    exact he₂
  · intro hp
    refine ⟨fun n => (hafter n).mpr (fun _ => ?_), rfl⟩
    exact h.declareAll ds (fun d hx => ⟨(hne d hx).1, (hne d hx).2, hp d hx⟩) n

/-- **When the backends agree on a call.** -/
theorem call_agrees_iff (hempty : ∀ next, cron "" ≠ .ok next) (ha : s.SchedulesAgree) (h : SameViews codec db s)
    {c : ScheduleCall} (hv : c.Valid codec cron clock) :
    CallAgrees codec cron (db, s) (clock, c) ↔ c.Plain cron clock db.view := by
  cases c with
  | upsert b expr =>
    obtain ⟨hb, hn⟩ := hv
    have hpg : Pg.upsertScheduleRaw cron db b expr clock = .ok (Pg.upsertScheduleRow db b (some expr) none
        (·.cronExpr = some expr) (nextOf cron clock expr)) := by
      rw [Pg.upsertScheduleRaw, hb.queue, nextOf_eq hn]
      rfl
    unfold CallAgrees runBoth Pg.runCall Redis.runCall
    dsimp only
    rw [hpg, Redis.upsert_valid s b hn]
    have hiff := declare_iff h (Pg.view_upsert db b (some expr) none (·.cronExpr = some expr) (nextOf cron clock expr))
      (Redis.view_cron s hb (expr_ne_empty hempty hn) (nextOf cron clock expr))
    exact ⟨fun hc => hiff.mp hc.1, fun hp => ⟨hiff.mpr hp, rfl⟩⟩
  | upsertInterval b ms =>
    obtain ⟨hb, hms⟩ := hv
    have hpg : Pg.upsertIntervalScheduleRaw db b ms clock = .ok (Pg.upsertScheduleRow db b none (some ms)
        (·.intervalMs = some ms) (clock + ms)) := by
      rw [Pg.upsertIntervalScheduleRaw, hb.queue]
      show (if ms ≤ 0 then _ else _) = _
      rw [if_neg (Int.not_le.mpr hms)]
      rfl
    unfold CallAgrees runBoth Pg.runCall Redis.runCall
    dsimp only
    rw [hpg, Redis.interval_valid s b hms]
    have hiff := declare_iff h (Pg.view_upsert db b none (some ms) (·.intervalMs = some ms) (clock + ms))
      (Redis.view_interval s hb hms (clock + ms))
    exact ⟨fun hc => hiff.mp hc.1, fun hp => ⟨hiff.mpr hp, rfl⟩⟩
  | setEnabled name e => exact setEnabled_agrees_iff ha h name e
  | remove name =>
    refine ⟨fun _ => trivial, fun _ => ⟨fun n => ?_, congrArg Except.ok (h.isSome name)⟩⟩
    exact (Pg.view_remove db name n).trans (by rw [h n]; exact (Redis.view_remove s name n).symm)
  | sync ds => exact sync_agrees_iff hempty ha h hv

end Views

/-! ## Runs -/

/-- The calls of a run that meets the rule. -/
def PlainCalls (codec : JsonCodec) (cron : Cron) (z : Pg.Db × Redis.Store) (x : ℤ × ScheduleCall) : Prop :=
  x.2.Valid codec cron x.1 ∧ x.2.Plain cron x.1 z.1.view

theorem plain_inv {codec : JsonCodec} {cron : Cron} (hempty : ∀ next, cron "" ≠ .ok next) {z : Pg.Db × Redis.Store}
    (hz : Reach (Guarded (PlainCalls codec cron) (runBoth codec cron)) (Pg.Db.empty, Redis.Store.empty) z) :
    z.2.SchedulesAgree ∧ SameViews codec z.1 z.2 := by
  refine Reach.inv (P := fun z : Pg.Db × Redis.Store => z.2.SchedulesAgree ∧ SameViews codec z.1 z.2) hz
    ⟨.empty, fun n => rfl⟩ ?_
  rintro ⟨db, s⟩ ⟨clock, c⟩ _ ⟨ha, h⟩ ⟨⟨hv, hp⟩, rfl⟩
  exact ⟨runCall_agree ha c, ((call_agrees_iff hempty ha h hv).mpr hp).1⟩

/-- `null` as text. -/
def nullCodec : JsonCodec where
  text := fun _ => "null"
  parse := fun t => if t = "null" then some .null else none

/-- The start of every minute; no other expression parses. -/
def minuteCron : Cron := fun expr =>
  if expr = "0 * * * * *" then .ok (fun t => some ((t / 60000 + 1) * 60000)) else .error "Invalid expression"

theorem minuteCron_empty (next : ℤ → Option ℤ) : minuteCron "" ≠ .ok next := nofun

def pingBody : Pg.ScheduleBody where
  name := "ping"
  kind := "ping"
  payload := .null
  priority := 0
  maxAttempts := 3
  queue := "default"

theorem pingBody_valid : ValidBody nullCodec pingBody := ⟨by decide, rfl⟩

/-- A schedule is declared, disabled, enabled again, and declared anew. -/
def plainRun : List (ℤ × ScheduleCall) :=
  [(1000, .upsert pingBody "0 * * * * *"), (2000, .setEnabled "ping" false), (3000, .setEnabled "ping" true),
   (4000, .sync [(pingBody, "0 * * * * *")])]

/-- A disabled schedule is declared again, as on every deploy. -/
def redeclaredRun : List (ℤ × ScheduleCall) :=
  [(1000, .upsert pingBody "0 * * * * *"), (2000, .setEnabled "ping" false), (3000, .upsert pingBody "0 * * * * *")]

/-- An interval schedule is disabled and enabled again. -/
def intervalRun : List (ℤ × ScheduleCall) :=
  [(1000, .upsertInterval pingBody 60000), (2000, .setEnabled "ping" false)]

end Eddyq
