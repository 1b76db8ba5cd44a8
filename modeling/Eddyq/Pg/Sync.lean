import Eddyq.Pg.ScheduleRows
import Mathlib.Data.List.Induction

/-!
# Syncs of schedules

`sync_schedules` as its transaction: the upserts run on the tables of the transaction, and any statement may fail
(`Faults`), which leaves the committed tables as they were. What the upserts do to the row of one name is a fold over the
declarations of that name (`schedule?_upsertAll`, `declareRow_last`): the last one gives the fields, and the next run is
kept only if all of them have the same cron expression. `authoritative_iff` is that this is all that can go wrong.
-/

namespace Eddyq.Pg

open Eddyq.Lib

/-- What the database answers to the statements of the transaction, `BEGIN` and `COMMIT` included. -/
abbrev Faults := Nat → Option Error

structure SyncReport where
  upserted : Nat
  deleted : List String

/-- The loop over the prepared declarations; `i` counts the statements. -/
def upsertAll (faults : Faults) : Nat → Db → List (ScheduleBody × String × ℤ) → Except Error Db
  | _, tx, [] => .ok tx
  | i, tx, p :: ps => match faults i with
    | some e => .error e
    | none => upsertAll faults (i + 1) (upsertScheduleRow tx p.1 (some p.2.1) none (·.cronExpr = some p.2.1) p.2.2) ps

/-- `DELETE FROM eddyq_schedules WHERE name <> ALL($1) RETURNING name`. -/
def deleteOthers (tx : Db) (names : List String) : Db × List String :=
  ({ tx with schedules := tx.schedules.filter (fun s => s.name ∈ names) },
    (tx.schedules.filter (fun s => s.name ∉ names)).map (·.name))

/-- `sync_schedules` and the tables that are committed after it. -/
def runSync (cron : Cron) (faults : Faults) (db : Db) (declared : List (ScheduleBody × String)) (clock : ℤ) :
    Db × Except Error SyncReport :=
  match prepareSchedules cron clock declared with
  | .error e => (db, .error e)
  | .ok prepared => match faults 0 with
    | some e => (db, .error e)
    | none => match upsertAll faults 1 db prepared with
      | .error e => (db, .error e)
      | .ok tx => match faults (prepared.length + 1), faults (prepared.length + 2) with
        | some e, _ => (db, .error e)
        | none, some e => (db, .error e)
        | none, none =>
          ((deleteOthers tx (declared.map (·.1.name))).1,
            .ok { upserted := declared.length, deleted := (deleteOthers tx (declared.map (·.1.name))).2 })

/-! ## What it should do -/

/-- The last declaration of a name. -/
def lastOf (n : String) (declared : List (ScheduleBody × String)) : Option (ScheduleBody × String) :=
  (declared.filter (fun d => d.1.name = n)).getLast?

/-- The row has the fields of a declaration. -/
structure Declared (b : ScheduleBody) (expr : String) (s : ScheduleRow) : Prop where
  kind : s.kind = b.kind
  payload : s.payload = b.payload
  cronExpr : s.cronExpr = some expr
  intervalMs : s.intervalMs = none
  priority : s.priority = b.priority
  maxAttempts : s.maxAttempts = b.maxAttempts
  queue : s.queue = b.queue

/-- What a row keeps of the one before. -/
structure Survives (expr : String) (s s' : ScheduleRow) : Prop where
  lastRunAt : s'.lastRunAt = s.lastRunAt
  enabled : s'.enabled = s.enabled
  nextRunAt : s.cronExpr = some expr → s'.nextRunAt = s.nextRunAt

/-- The declared list is authoritative, and the sync is atomic and idempotent. -/
structure Authoritative (cron : Cron) (db : Db) (declared : List (ScheduleBody × String)) (clock : ℤ) : Prop where
  atomic : ∀ faults db' e, runSync cron faults db declared clock = (db', .error e) → db' = db
  names : ∀ faults db' report, runSync cron faults db declared clock = (db', .ok report) →
    ∀ n, (∃ s ∈ db'.schedules, s.name = n) ↔ ∃ d ∈ declared, d.1.name = n
  rows : ∀ faults db' report, runSync cron faults db declared clock = (db', .ok report) →
    ∀ n b expr, lastOf n declared = some (b, expr) → ∃ s', db'.schedule? n = some s' ∧ Declared b expr s' ∧
      ∀ s, db.schedule? n = some s → Survives expr s s'
  again : ∀ faults db' report, runSync cron faults db declared clock = (db', .ok report) →
    ∀ faults' clock' db'' result, clock ≤ clock' → runSync cron faults' db' declared clock' = (db'', result) →
      (∀ n, db''.schedule? n = db'.schedule? n) ∧ ∀ report', result = .ok report' → report'.deleted = []

/-- The whole list passes validation. -/
def Valid (cron : Cron) (declared : List (ScheduleBody × String)) (clock : ℤ) : Prop :=
  ∀ d ∈ declared, validateQueueName d.1.queue = .ok () ∧ ∃ t, cron.nextRun d.2 clock = .ok t

/-- A name that is declared with another cron expression than its last one has the next run of the last one already, and
will have it. -/
def Consistent (cron : Cron) (db : Db) (declared : List (ScheduleBody × String)) (clock : ℤ) : Prop :=
  Valid cron declared clock → ∀ n b expr, lastOf n declared = some (b, expr) →
    (∃ d ∈ declared, d.1.name = n ∧ d.2 ≠ expr) → ∀ t, cron.nextRun expr clock = .ok t →
      (∀ s, db.schedule? n = some s → s.cronExpr = some expr → s.nextRunAt = t) ∧
        ∀ clock', clock ≤ clock' → Valid cron declared clock' → cron.nextRun expr clock' = .ok t

/-! ## The first pass -/

theorem mapError_eq_ok {α : Type} {x : Except Error α} {f : Error → Error} {a : α} (h : x.mapError f = .ok a) : x = .ok a := by
  cases x with
  | error e => cases h
  | ok b => exact h

theorem prepareSchedules_valid {cron : Cron} {clock : ℤ} : ∀ {declared : List (ScheduleBody × String)}
    {prepared : List (ScheduleBody × String × ℤ)}, prepareSchedules cron clock declared = .ok prepared →
    Valid cron declared clock ∧ prepared.map (fun p => (p.1, p.2.1)) = declared ∧
      ∀ p ∈ prepared, cron.nextRun p.2.1 clock = .ok p.2.2
  | [], _, h => by
    cases h
    exact ⟨nofun, rfl, nofun⟩
  | (b, expr) :: ds, _, h => by
    unfold prepareSchedules at h
    obtain ⟨⟨⟩, hq, h⟩ := bind_eq_ok h
    obtain ⟨t, ht, h⟩ := bind_eq_ok h
    obtain ⟨ps, hps, h⟩ := bind_eq_ok h
    cases h
    have hq := mapError_eq_ok hq
    have ht := mapError_eq_ok ht
    obtain ⟨hvalid, hmap, hnext⟩ := prepareSchedules_valid hps
    refine ⟨fun d hd => ?_, by rw [List.map_cons, hmap], fun p hp => ?_⟩
    · rcases List.mem_cons.mp hd with rfl | hd
      · exact ⟨hq, t, ht⟩
      · exact hvalid d hd
    · rcases List.mem_cons.mp hp with rfl | hp
      · exact ht
      · exact hnext p hp

theorem prepareSchedules_total {cron : Cron} {clock : ℤ} : ∀ {declared : List (ScheduleBody × String)},
    Valid cron declared clock → ∃ prepared, prepareSchedules cron clock declared = .ok prepared
  | [], _ => ⟨[], rfl⟩
  | (b, expr) :: ds, h => by
    obtain ⟨hq, t, ht⟩ := h (b, expr) List.mem_cons_self
    obtain ⟨ps, hps⟩ := prepareSchedules_total fun d hd => h d (List.mem_cons_of_mem _ hd)
    refine ⟨(b, expr, t) :: ps, ?_⟩
    unfold prepareSchedules
    rw [hq, ht, hps]
    rfl

/-! ## The upserts -/

/-- A declaration over the row of its name. -/
def declareRow (r : Option ScheduleRow) (p : ScheduleBody × String × ℤ) : Option ScheduleRow :=
  some (p.1.onto (some p.2.1) none (·.cronExpr = some p.2.1) p.2.2 r)

/-- The tables after the upserts, if no statement fails. -/
def upserted (db : Db) (prepared : List (ScheduleBody × String × ℤ)) : Db :=
  prepared.foldl (fun db p => upsertScheduleRow db p.1 (some p.2.1) none (·.cronExpr = some p.2.1) p.2.2) db

theorem upsertAll_ok {faults : Faults} : ∀ {prepared : List (ScheduleBody × String × ℤ)} {i : Nat} {tx tx' : Db},
    upsertAll faults i tx prepared = .ok tx' → tx' = upserted tx prepared
  | [], _, _, _, h => (Except.ok.inj h).symm
  | p :: ps, i, tx, tx', h => by
    unfold upsertAll at h
    split at h
    · cases h
    · exact (upsertAll_ok h : tx' = upserted _ ps)

theorem upsertAll_total : ∀ (prepared : List (ScheduleBody × String × ℤ)) (i : Nat) (tx : Db),
    upsertAll (fun _ => none) i tx prepared = .ok (upserted tx prepared)
  | [], _, _ => rfl
  | _ :: ps, i, _ => upsertAll_total ps (i + 1) _

/-- The row of a name after the upserts. -/
theorem schedule?_upserted (n : String) : ∀ (prepared : List (ScheduleBody × String × ℤ)) (db : Db),
    (upserted db prepared).schedule? n =
      (prepared.filter (fun p => p.1.name = n)).foldl declareRow (db.schedule? n)
  | [], _ => rfl
  | p :: ps, db => by
    have ih := schedule?_upserted n ps (upsertScheduleRow db p.1 (some p.2.1) none (·.cronExpr = some p.2.1) p.2.2)
    rw [schedule?_upsertScheduleRow] at ih
    show (upserted _ ps).schedule? n = _
    rw [ih]
    by_cases hn : p.1.name = n
    · rw [List.filter_cons, if_pos (decide_eq_true hn), if_pos hn.symm]
      rfl
    · rw [if_neg fun h => hn h.symm, List.filter_cons, if_neg (by simpa using hn)]

/-- The next run that an upsert keeps, or its own. -/
def keepNext (r : Option ScheduleRow) (expr : String) (t : ℤ) : ℤ :=
  match r with
  | some s => if s.cronExpr = some expr then s.nextRunAt else t
  | none => t

/-- The row that is left of the declarations of a name. -/
structure LastRow (r : Option ScheduleRow) (ps : List (ScheduleBody × String × ℤ)) (p : ScheduleBody × String × ℤ)
    (s : ScheduleRow) : Prop where
  declared : Declared p.1 p.2.1 s
  name : s.name = (r.map (·.name)).getD s.name
  lastRunAt : s.lastRunAt = (r.map (·.lastRunAt)).getD none
  enabled : s.enabled = (r.map (·.enabled)).getD true
  nextRunAt : s.nextRunAt = if ∀ q ∈ ps, q.2.1 = p.2.1 then keepNext r p.2.1 p.2.2 else p.2.2

/-- **The last declaration** gives the row, and it keeps the next run if the others have its cron expression. -/
theorem declareRow_last {cron : Cron} {clock : ℤ} (r : Option ScheduleRow) (ps : List (ScheduleBody × String × ℤ))
    (p : ScheduleBody × String × ℤ) (hnext : ∀ q ∈ ps ++ [p], cron.nextRun q.2.1 clock = .ok q.2.2) :
    ∃ s, (ps ++ [p]).foldl declareRow r = some s ∧ LastRow r ps p s := by
  -- from the right: what the declarations before the last one leave is the last row of theirs
  induction ps using List.reverseRecOn generalizing p with
  | nil =>
    refine ⟨_, rfl, ?_⟩
    cases r with
    | none => exact ⟨⟨rfl, rfl, rfl, rfl, rfl, rfl, rfl⟩, rfl, rfl, rfl, (if_pos nofun).symm⟩
    | some s =>
      refine ⟨⟨rfl, rfl, rfl, rfl, rfl, rfl, rfl⟩, rfl, rfl, rfl, ?_⟩
      rw [if_pos nofun]
      show (if decide (s.cronExpr = some p.2.1) then _ else _) = if s.cronExpr = some p.2.1 then _ else _
      by_cases h : s.cronExpr = some p.2.1
      · rw [if_pos h, if_pos (decide_eq_true h)]
      · rw [if_neg h, if_neg (by simpa using h)]
  | append_singleton ps q ih =>
    obtain ⟨s, hs, hlast⟩ := ih q fun x hx => hnext x (List.mem_append_left _ hx)
    rw [List.foldl_append, hs]
    refine ⟨_, rfl, ⟨rfl, rfl, rfl, rfl, rfl, rfl, rfl⟩, hlast.name, hlast.lastRunAt, hlast.enabled, ?_⟩
    show (if decide (s.cronExpr = some p.2.1) then s.nextRunAt else p.2.2) = _
    rw [hlast.declared.cronExpr, hlast.nextRunAt]
    by_cases hq : q.2.1 = p.2.1
    · have hp := hnext p (List.mem_append_right _ List.mem_cons_self)
      have ht : q.2.2 = p.2.2 := by
        have hq' := hnext q (List.mem_append_left _ (List.mem_append_right _ List.mem_cons_self))
        rw [hq, hp] at hq'
        exact (Except.ok.inj hq').symm
      have hall : (∀ x ∈ ps ++ [q], x.2.1 = p.2.1) ↔ ∀ x ∈ ps, x.2.1 = p.2.1 :=
        ⟨fun h x hx => h x (List.mem_append_left _ hx), fun h x hx => (List.mem_append.mp hx).elim (h x) fun hx =>
          List.mem_singleton.mp hx ▸ hq⟩
      rw [hq, ht, if_pos (decide_eq_true rfl)]
      simp only [hall]
    · rw [if_neg (by simpa using hq), if_neg fun h => hq (h q (List.mem_append_right _ List.mem_cons_self))]

/-! ## The transaction -/

section Run

variable {cron : Cron} {faults : Faults} {db db' : Db} {declared : List (ScheduleBody × String)} {clock : ℤ}

/-- A sync that returns its report has committed all of its statements. -/
theorem runSync_ok {report : SyncReport} (h : runSync cron faults db declared clock = (db', .ok report)) :
    ∃ prepared, prepareSchedules cron clock declared = .ok prepared ∧
      db' = (deleteOthers (upserted db prepared) (declared.map (·.1.name))).1 ∧
      report.deleted = (deleteOthers (upserted db prepared) (declared.map (·.1.name))).2 := by
  unfold runSync at h
  split at h
  · cases h
  next prepared hprepared =>
    split at h
    · cases h
    split at h
    · cases h
    next tx htx =>
      obtain rfl := upsertAll_ok htx
      split at h
      · cases h
      · cases h
      · cases h
        exact ⟨prepared, hprepared, rfl, rfl⟩

/-- **Any error** leaves the tables. -/
theorem runSync_error {e : Error} (h : runSync cron faults db declared clock = (db', .error e)) : db' = db := by
  unfold runSync at h
  split at h
  · cases h
    rfl
  split at h
  · cases h
    rfl
  split at h
  · cases h
    rfl
  split at h
  · cases h
    rfl
  · cases h
    rfl
  · cases h

/-- A valid list is synced if no statement fails. -/
theorem runSync_total (db : Db) (h : Valid cron declared clock) :
    ∃ db' report, runSync cron (fun _ => none) db declared clock = (db', .ok report) := by
  obtain ⟨prepared, hprepared⟩ := prepareSchedules_total h
  unfold runSync
  rw [hprepared]
  dsimp only
  rw [upsertAll_total]
  exact ⟨_, _, rfl⟩

/-- Without faults it is the call of the runs. -/
theorem runSync_commit : (runSync cron (fun _ => none) db declared clock).1 =
    (commit db (syncSchedules cron db declared clock)).1 := by
  unfold runSync syncSchedules
  cases prepareSchedules cron clock declared with
  | error e => rfl
  | ok prepared =>
    dsimp only
    rw [upsertAll_total]
    rfl

/-- The prepared declarations of a name. -/
theorem filter_prepared (prepared : List (ScheduleBody × String × ℤ)) (n : String) :
    (prepared.filter (fun p => p.1.name = n)).map (fun p => (p.1, p.2.1)) =
      (prepared.map (fun p => (p.1, p.2.1))).filter (fun d => d.1.name = n) := by
  rw [List.filter_map]
  rfl

/-- What a sync leaves for a declared name: `d` is its last declaration and `t` the next run of its expression. -/
structure SyncedRow (r : Option ScheduleRow) (declared : List (ScheduleBody × String)) (n : String)
    (d : ScheduleBody × String) (t : ℤ) (s : ScheduleRow) : Prop where
  fields : Declared d.1 d.2 s
  name : s.name = (r.map (·.name)).getD s.name
  lastRunAt : s.lastRunAt = (r.map (·.lastRunAt)).getD none
  enabled : s.enabled = (r.map (·.enabled)).getD true
  nextRunAt : s.nextRunAt = if ∀ x ∈ declared, x.1.name = n → x.2 = d.2 then keepNext r d.2 t else t

/-- **The row of a declared name** after a sync. -/
theorem runSync_row {report : SyncReport} (h : runSync cron faults db declared clock = (db', .ok report)) {n : String}
    {d : ScheduleBody × String} (hlast : lastOf n declared = some d) :
    ∃ s t, db'.schedule? n = some s ∧ cron.nextRun d.2 clock = .ok t ∧ SyncedRow (db.schedule? n) declared n d t s := by
  obtain ⟨prepared, hprepared, rfl, -⟩ := runSync_ok h
  obtain ⟨-, hmap, hnext⟩ := prepareSchedules_valid hprepared
  have hfilter := filter_prepared prepared n
  rw [hmap] at hfilter
  rw [lastOf, ← hfilter, List.getLast?_map, Option.map_eq_some_iff] at hlast
  obtain ⟨p, hp, rfl⟩ := hlast
  obtain ⟨ps, hps⟩ := List.getLast?_eq_some_iff.mp hp
  have hmem : ∀ q ∈ ps ++ [p], cron.nextRun q.2.1 clock = .ok q.2.2 := fun q hq =>
    hnext q (List.mem_of_mem_filter (hps ▸ hq))
  obtain ⟨s, hs, hrow⟩ := declareRow_last (db.schedule? n) ps p hmem
  rw [hps] at hfilter
  have hdeclared : n ∈ declared.map (·.1.name) := by
    have hp : (p.1, p.2.1) ∈ declared.filter (fun d => d.1.name = n) := hfilter ▸ List.mem_map_of_mem (by simp)
    obtain ⟨hp, hname⟩ := List.mem_filter.mp hp
    exact of_decide_eq_true hname ▸ List.mem_map_of_mem hp
  have hall : (∀ q ∈ ps, q.2.1 = p.2.1) ↔ ∀ x ∈ declared, x.1.name = n → x.2 = p.2.1 := by
    constructor
    · intro hps x hx hn
      have hx : x ∈ declared.filter (fun d => d.1.name = n) := List.mem_filter.mpr ⟨hx, decide_eq_true hn⟩
      obtain ⟨q, hq, rfl⟩ := List.mem_map.mp (hfilter ▸ hx)
      rcases List.mem_append.mp hq with hq | hq
      · exact hps q hq
      · rw [List.mem_singleton.mp hq]
    · intro hx q hq
      have hq : (q.1, q.2.1) ∈ declared.filter (fun d => d.1.name = n) :=
        hfilter ▸ List.mem_map_of_mem (List.mem_append_left _ hq)
      obtain ⟨hq, hname⟩ := List.mem_filter.mp hq
      exact hx _ hq (of_decide_eq_true hname)
  refine ⟨s, p.2.2, ?_, hmem p (List.mem_append_right _ List.mem_cons_self), hrow.declared, hrow.name, hrow.lastRunAt,
    hrow.enabled, ?_⟩
  · rw [deleteOthers, schedule?_keep, if_pos hdeclared, schedule?_upserted, hps, hs]
  · rw [hrow.nextRunAt]
    simp only [hall]

/-- An upsert adds its name and no other. -/
theorem name_upsertScheduleRow {b : ScheduleBody} {c : Option String} {i : Option ℤ} {same : ScheduleRow → Bool} {next : ℤ}
    {s : ScheduleRow} (h : s ∈ (upsertScheduleRow db b c i same next).schedules) :
    s.name = b.name ∨ ∃ s' ∈ db.schedules, s'.name = s.name := by
  unfold upsertScheduleRow at h
  split at h
  · obtain ⟨s', hs', hs⟩ := List.mem_map.mp h
    refine .inr ⟨s', hs', ?_⟩
    rw [← hs]
    split <;> rfl
  · rcases List.mem_append.mp h with h | h
    · exact .inr ⟨s, h, rfl⟩
    · exact .inl (List.mem_singleton.mp h ▸ rfl)

theorem name_upserted : ∀ {prepared : List (ScheduleBody × String × ℤ)} {db : Db} {s : ScheduleRow},
    s ∈ (upserted db prepared).schedules → (∃ p ∈ prepared, p.1.name = s.name) ∨ ∃ s' ∈ db.schedules, s'.name = s.name
  | [], _, s, h => .inr ⟨s, h, rfl⟩
  | p :: ps, db, s, h => by
    rcases @name_upserted ps _ s h with ⟨q, hq, hname⟩ | ⟨s', hs', hname⟩
    · exact .inl ⟨q, List.mem_cons_of_mem _ hq, hname⟩
    · rcases name_upsertScheduleRow hs' with hp | ⟨s'', hs'', hname'⟩
      · exact .inl ⟨p, List.mem_cons_self, hp.symm.trans hname⟩
      · exact .inr ⟨s'', hs'', hname'.trans hname⟩

theorem lastOf_none {n : String} : lastOf n declared = none ↔ n ∉ declared.map (·.1.name) := by
  rw [lastOf, List.getLast?_eq_none_iff, List.filter_eq_nil_iff]
  simp

/-- **Exactly the declared names** are left. -/
theorem runSync_names {report : SyncReport} (h : runSync cron faults db declared clock = (db', .ok report)) (n : String) :
    (∃ s ∈ db'.schedules, s.name = n) ↔ ∃ d ∈ declared, d.1.name = n := by
  constructor
  · rintro ⟨s, hs, rfl⟩
    obtain ⟨prepared, -, rfl, -⟩ := runSync_ok h
    exact List.mem_map.mp (of_decide_eq_true (List.mem_filter.mp hs).2)
  · intro hd
    cases hlast : lastOf n declared with
    | none => exact absurd (List.mem_map.mpr hd) (lastOf_none.mp hlast)
    | some d =>
      obtain ⟨s, -, hs, -⟩ := runSync_row h hlast
      have hs : db'.schedules.find? (fun s => s.name = n) = some s := hs
      exact ⟨s, List.mem_of_find?_eq_some hs, by simpa using List.find?_some hs⟩

theorem schedule?_undeclared {report : SyncReport} (h : runSync cron faults db declared clock = (db', .ok report)) {n : String}
    (hn : lastOf n declared = none) : db'.schedule? n = none := by
  obtain ⟨prepared, -, rfl, -⟩ := runSync_ok h
  rw [deleteOthers, schedule?_keep, if_neg (lastOf_none.mp hn)]

/-- **Nothing is deleted** from tables that have no other names. -/
theorem runSync_deleted {report : SyncReport} (hnames : ∀ s ∈ db.schedules, ∃ d ∈ declared, d.1.name = s.name)
    (h : runSync cron faults db declared clock = (db', .ok report)) : report.deleted = [] := by
  obtain ⟨prepared, hprepared, -, hdeleted⟩ := runSync_ok h
  obtain ⟨-, hmap, -⟩ := prepareSchedules_valid hprepared
  rw [hdeleted, deleteOthers, List.map_eq_nil_iff, List.filter_eq_nil_iff]
  intro s hs
  rw [decide_eq_true_eq, not_not]
  rcases name_upserted hs with ⟨p, hp, hname⟩ | ⟨s', hs', hname⟩
  · have hd : (p.1, p.2.1) ∈ declared := hmap ▸ List.mem_map_of_mem hp
    exact List.mem_map.mpr ⟨_, hd, hname⟩
  · obtain ⟨d, hd, hname'⟩ := hnames s' hs'
    exact List.mem_map.mpr ⟨d, hd, hname'.trans hname⟩

end Run

/-! ## The claim as a whole -/

section Whole

variable {cron : Cron} {db : Db} {declared : List (ScheduleBody × String)} {clock : ℤ}

/-- A row that a second sync leaves is the row of the first one up to its next run. -/
theorem SyncedRow.eq_of_next {r : Option ScheduleRow} {n : String} {d : ScheduleBody × String} {t t' : ℤ}
    {s s' : ScheduleRow} (h : SyncedRow r declared n d t s) (h' : SyncedRow (some s) declared n d t' s')
    (hnext : s'.nextRunAt = s.nextRunAt) : s' = s := by
  obtain ⟨name, kind, payload, cronExpr, intervalMs, nextRunAt, lastRunAt, enabled, priority, maxAttempts, queue⟩ := s
  obtain ⟨name', kind', payload', cronExpr', intervalMs', nextRunAt', lastRunAt', enabled', priority', maxAttempts', queue'⟩ := s'
  obtain ⟨⟨rfl, rfl, rfl, rfl, rfl, rfl, rfl⟩, -, -, -, -⟩ := h
  obtain ⟨⟨rfl, rfl, rfl, rfl, rfl, rfl, rfl⟩, rfl, rfl, rfl, -⟩ := h'
  obtain rfl := hnext
  rfl

theorem Valid.of_run {faults : Faults} {db' : Db} {report : SyncReport}
    (h : runSync cron faults db declared clock = (db', .ok report)) : Valid cron declared clock := by
  obtain ⟨prepared, hprepared, -, -⟩ := runSync_ok h
  exact (prepareSchedules_valid hprepared).1

/-- The next run is kept where the expression did not change. -/
theorem SyncedRow.kept {s s' : ScheduleRow} {n : String} {d : ScheduleBody × String} {t : ℤ}
    (h : SyncedRow (some s) declared n d t s') (hcron : s.cronExpr = some d.2)
    (hother : (∃ x ∈ declared, x.1.name = n ∧ x.2 ≠ d.2) → s.nextRunAt = t) : s'.nextRunAt = s.nextRunAt := by
  rw [h.nextRunAt]
  split
  · exact if_pos hcron
  · next hall =>
    simp only [not_forall] at hall
    obtain ⟨x, hx, hn, hne⟩ := hall
    exact (hother ⟨x, hx, hn, hne⟩).symm

theorem Consistent.rows (hc : Consistent cron db declared clock) {faults : Faults} {db' : Db} {report : SyncReport}
    (h : runSync cron faults db declared clock = (db', .ok report)) {n : String} {b : ScheduleBody} {expr : String}
    (hlast : lastOf n declared = some (b, expr)) : ∃ s', db'.schedule? n = some s' ∧ Declared b expr s' ∧
      ∀ s, db.schedule? n = some s → Survives expr s s' := by
  obtain ⟨s', t, hs', ht, hrow⟩ := runSync_row h hlast
  refine ⟨s', hs', hrow.fields, fun s hs => ?_⟩
  rw [hs] at hrow
  refine ⟨hrow.lastRunAt, hrow.enabled, fun hcron => hrow.kept hcron fun hother => ?_⟩
  exact (hc (.of_run h) n b expr hlast hother t ht).1 s hs hcron

theorem Consistent.again (hc : Consistent cron db declared clock) {faults : Faults} {db' : Db} {report : SyncReport}
    (h : runSync cron faults db declared clock = (db', .ok report)) {faults' : Faults} {clock' : ℤ} {db'' : Db}
    {report' : SyncReport} (hlater : clock ≤ clock')
    (h' : runSync cron faults' db' declared clock' = (db'', .ok report')) (n : String) :
    db''.schedule? n = db'.schedule? n := by
  cases hlast : lastOf n declared with
  | none => rw [schedule?_undeclared h hlast, schedule?_undeclared h' hlast]
  | some d =>
    obtain ⟨s, t, hs, ht, hrow⟩ := runSync_row h hlast
    obtain ⟨s', t', hs', ht', hrow'⟩ := runSync_row h' hlast
    rw [hs] at hrow'
    rw [hs, hs', hrow.eq_of_next hrow' (hrow'.kept hrow.fields.cronExpr fun hother => ?_)]
    -- the first sync set the next run, and the second one computes the same
    have hnext : cron.nextRun d.2 clock' = .ok t :=
      (hc (.of_run h) n d.1 d.2 hlast hother t ht).2 clock' hlater (.of_run h')
    have hall : ¬ ∀ x ∈ declared, x.1.name = n → x.2 = d.2 := by
      obtain ⟨x, hx, hn, hne⟩ := hother
      exact fun hall => hne (hall x hx hn)
    rw [hrow.nextRunAt, if_neg hall]
    rw [ht'] at hnext
    exact (Except.ok.inj hnext).symm

/-- **Syncs**: the list is authoritative, and the sync atomic and idempotent, exactly if the names it declares with several
cron expressions are `Consistent`. -/
theorem authoritative_iff (cron : Cron) (db : Db) (declared : List (ScheduleBody × String)) (clock : ℤ) :
    Authoritative cron db declared clock ↔ Consistent cron db declared clock := by
  constructor
  · intro ha hvalid n b expr hlast hother t ht
    have hall : ¬ ∀ x ∈ declared, x.1.name = n → x.2 = expr := by
      obtain ⟨x, hx, hn, hne⟩ := hother
      exact fun hall => hne (hall x hx hn)
    obtain ⟨db', report, h⟩ := runSync_total db hvalid
    obtain ⟨s', t', hs', ht', hrow⟩ := runSync_row h hlast
    obtain rfl : t' = t := Except.ok.inj (ht'.symm.trans ht)
    have hnext : s'.nextRunAt = t' := hrow.nextRunAt.trans (if_neg hall)
    constructor
    · intro s hs hcron
      obtain ⟨s₁, hs₁, -, hsurvives⟩ := ha.rows _ _ _ h n b expr hlast
      obtain rfl := Option.some.inj (hs'.symm.trans hs₁)
      exact ((hsurvives s hs).nextRunAt hcron).symm.trans hnext
    · intro clock' hlater hvalid'
      obtain ⟨db'', report', h'⟩ := runSync_total db' hvalid'
      obtain ⟨s'', t'', hs'', ht'', hrow'⟩ := runSync_row h' hlast
      have hsame := (ha.again _ _ _ h _ _ _ _ hlater h').1 n
      rw [hs', hs''] at hsame
      obtain rfl := Option.some.inj hsame
      rw [ht'', ← hnext, hrow'.nextRunAt, if_neg hall]
  · intro hc
    refine ⟨fun _ _ _ h => runSync_error h, fun _ _ _ h n => runSync_names h n, fun _ _ _ h n b expr hlast => hc.rows h hlast,
      fun _ _ _ h faults' clock' db'' result hlater h' => ?_⟩
    cases result with
    | error e => exact ⟨fun n => by rw [runSync_error h'], nofun⟩
    | ok report' =>
      refine ⟨fun n => hc.again h hlater h' n, fun r hr => ?_⟩
      cases hr
      exact runSync_deleted (fun s hs => (runSync_names h s.name).mp ⟨s, hs, rfl⟩) h'

end Whole

/-- Names that are declared with one cron expression each are consistent. -/
theorem consistent_of_one {cron : Cron} {declared : List (ScheduleBody × String)} (db : Db) (clock : ℤ)
    (h : ∀ d ∈ declared, ∀ d' ∈ declared, d.1.name = d'.1.name → d.2 = d'.2) : Consistent cron db declared clock := by
  rintro - n b expr hlast ⟨d, hd, hn, hne⟩
  have hmem := List.mem_filter.mp (List.mem_of_getLast? hlast)
  exact absurd (h d hd _ hmem.1 (hn.trans (of_decide_eq_true hmem.2).symm)) hne

/-! ## A name declared twice -/

/-- Every minute at a second. -/
def minutely : Cron := fun expr =>
  if expr = "0 * * * * *" then .ok fun t => some ((t / 60000 + 1) * 60000)
  else if expr = "30 * * * * *" then .ok fun t => some (((t - 30000) / 60000 + 1) * 60000 + 30000)
  else .error "invalid"

def report : ScheduleBody where
  name := "report"
  kind := "report"
  payload := .null
  priority := 0
  maxAttempts := 3
  queue := "default"

/-- Calling it again a minute later moves the next run. -/
theorem twice_declared_moves : ¬ ∀ cron db declared clock, Authoritative cron db declared clock := by
  intro h
  have hagain := (h minutely .empty [(report, "0 * * * * *"), (report, "30 * * * * *")] 0).again
    (fun _ => none) _ _ rfl (fun _ => none) 60000 _ _ (by decide) rfl
  exact absurd (congrArg (Option.map (·.nextRunAt)) (hagain.1 "report")) (by decide)

end Eddyq.Pg
