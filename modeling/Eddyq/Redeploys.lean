import Eddyq.Schedules

/-!
# Redeploys

A deploy declares its schedules again, most of them unchanged. On Postgres this never moves the next run of a schedule
whose trigger is the same, so redeploys cannot keep it from becoming due. On Redis the next run is computed anew from the
moment of the call: it stays exactly when the first occurrence of the trigger after that moment is the stored one
(`redeploys_keep_runs`), and an interval schedule that is declared again more often than its interval never becomes due
(`redeploys_starve`).
-/

namespace Eddyq

open Eddyq.Lib

/-- What makes a schedule run. -/
inductive Trigger
  | cron (expr : String)
  | interval (ms : ℤ)
  deriving DecidableEq

/-- The first run of a trigger after a moment. -/
def Trigger.nextAt (cron : Cron) (clock : ℤ) : Trigger → ℤ
  | .cron expr => nextOf cron clock expr
  | .interval ms => clock + ms

/-- A declaration of the schedule among the calls. -/
def ScheduleCall.Declares (name : String) : ScheduleCall → Prop
  | .upsert b _ => b.name = name
  | .upsertInterval b _ => b.name = name
  | .sync ds => name ∈ ds.map (·.1.name)
  | .setEnabled _ _ => False
  | .remove _ => False

/-- A call of a redeploy that leaves the trigger of the schedule as it is: other schedules may be declared as well. -/
def ScheduleCall.Redeclares (name : String) (t : Trigger) : ScheduleCall → Prop
  | .upsert b expr => b.name = name → t = .cron expr
  | .upsertInterval b ms => b.name = name → t = .interval ms
  | .sync ds => name ∈ ds.map (·.1.name) ∧ ∀ d ∈ ds, d.1.name = name → t = .cron d.2
  | .setEnabled _ _ => False
  | .remove _ => False

/-! ## Postgres -/

namespace Pg

/-- The trigger of a row; the `CHECK` allows one. -/
def ScheduleRow.HasTrigger (r : ScheduleRow) : Trigger → Prop
  | .cron expr => r.cronExpr = some expr ∧ r.intervalMs = none
  | .interval ms => r.intervalMs = some ms ∧ r.cronExpr = none

/-- The row is there with its trigger, its runs and its flag. -/
structure Db.KeepsRuns (db : Db) (t : Trigger) (r : ScheduleRow) (r' : ScheduleRow) : Prop where
  row : db.schedule? r.name = some r'
  name : r'.name = r.name
  trigger : r'.HasTrigger t
  next : r'.nextRunAt = r.nextRunAt
  last : r'.lastRunAt = r.lastRunAt
  enabled : r'.enabled = r.enabled

variable {db : Db} {t : Trigger} {r : ScheduleRow}

/-- An upsert that keeps the next run of a row with its own trigger. -/
theorem keepsRuns_upsert (h : ∃ r', db.KeepsRuns t r r') (b : ScheduleBody) (cron : Option String) (ms : Option ℤ)
    (same : ScheduleRow → Bool) (next : ℤ) (hset : b.name = r.name → ∀ x, (b.onto cron ms same next (some x)).HasTrigger t)
    (hsame : b.name = r.name → ∀ x : ScheduleRow, x.HasTrigger t → same x = true) :
    ∃ r', (upsertScheduleRow db b cron ms same next).KeepsRuns t r r' := by
  obtain ⟨r', hr'⟩ := h
  have hrow := schedule?_upsertScheduleRow db b cron ms same next r.name
  rw [hr'.row] at hrow
  split at hrow
  · next hn =>
    refine ⟨_, hrow, hr'.name, hset hn.symm r', ?_, hr'.last, hr'.enabled⟩
    simp [ScheduleBody.onto, hsame hn.symm r' hr'.trigger, hr'.next]
  · exact ⟨r', hrow, hr'.name, hr'.trigger, hr'.next, hr'.last, hr'.enabled⟩

theorem keepsRuns_cron (h : ∃ r', db.KeepsRuns t r r') (b : ScheduleBody) (expr : String) (next : ℤ)
    (hb : b.name = r.name → t = .cron expr) :
    ∃ r', (upsertScheduleRow db b (some expr) none (·.cronExpr = some expr) next).KeepsRuns t r r' := by
  refine keepsRuns_upsert h b _ _ _ next (fun hn x => ?_) (fun hn x hx => ?_)
  · rw [hb hn]
    exact ⟨rfl, rfl⟩
  · rw [hb hn] at hx
    exact decide_eq_true hx.1

theorem keepsRuns_interval (h : ∃ r', db.KeepsRuns t r r') (b : ScheduleBody) (ms next : ℤ)
    (hb : b.name = r.name → t = .interval ms) :
    ∃ r', (upsertScheduleRow db b none (some ms) (·.intervalMs = some ms) next).KeepsRuns t r r' := by
  refine keepsRuns_upsert h b _ _ _ next (fun hn x => ?_) (fun hn x hx => ?_)
  · rw [hb hn]
    exact ⟨rfl, rfl⟩
  · rw [hb hn] at hx
    exact decide_eq_true hx.1

/-- What is prepared was declared. -/
theorem prepared_declared {cron : Cron} {clock : ℤ} : ∀ {ds : List (ScheduleBody × String)}
    {ps : List (ScheduleBody × String × ℤ)}, prepareSchedules cron clock ds = .ok ps → ∀ p ∈ ps, (p.1, p.2.1) ∈ ds
  | [], ps, h, p, hp => by
    cases h
    exact absurd hp List.not_mem_nil
  | d :: ds, ps, h, p, hp => by
    obtain ⟨_, _, h⟩ := bind_eq_ok h
    obtain ⟨next, _, h⟩ := bind_eq_ok h
    obtain ⟨ps', hps', h⟩ := bind_eq_ok h
    cases h
    rcases List.mem_cons.mp hp with rfl | hp
    · exact List.mem_cons_self
    · exact List.mem_cons_of_mem _ (prepared_declared hps' p hp)

/-- One call of a redeploy. -/
theorem keepsRuns_call (cron : Cron) (clock : ℤ) {c : ScheduleCall} (hc : c.Redeclares r.name t)
    (h : ∃ r', db.KeepsRuns t r r') : ∃ r', (runCall cron db clock c).1.KeepsRuns t r r' := by
  have hdone : ∀ x : Except Error Db, (∀ db', x = .ok db' → ∃ r', db'.KeepsRuns t r r') →
      ∃ r', (done db x).1.KeepsRuns t r r' := by
    intro x hx
    cases x with
    | ok db' => exact hx db' rfl
    | error e => exact h
  cases c with
  | upsert b expr =>
    refine hdone _ (fun db' he => ?_)
    obtain ⟨_, _, he⟩ := bind_eq_ok he
    obtain ⟨next, _, he⟩ := bind_eq_ok he
    cases he
    exact keepsRuns_cron h b expr next hc
  | upsertInterval b ms =>
    refine hdone _ (fun db' he => ?_)
    obtain ⟨_, _, he⟩ := bind_eq_ok he
    split at he
    · cases he
    · cases he
      exact keepsRuns_interval h b ms (clock + ms) hc
  | sync ds =>
    refine hdone _ (fun db' he => ?_)
    obtain ⟨ps, hps, he⟩ := bind_eq_ok he
    cases he
    obtain ⟨r', hr'⟩ : ∃ r', (ps.foldl (fun db p => upsertScheduleRow db p.1 (some p.2.1) none (·.cronExpr = some p.2.1)
        p.2.2) db).KeepsRuns t r r' := by
      refine List.foldlRecOn ps _ (motive := fun d : Db => ∃ r', d.KeepsRuns t r r') h (fun d hd p hp => ?_)
      exact keepsRuns_cron hd p.1 p.2.1 p.2.2 (hc.2 _ (prepared_declared hps p hp))
    refine ⟨r', ?_, hr'.name, hr'.trigger, hr'.next, hr'.last, hr'.enabled⟩
    rw [schedule?_keep, if_pos hc.1]
    exact hr'.row
  | setEnabled name e => exact absurd hc id
  | remove name => exact absurd hc id

/-- Any number of redeploys. -/
theorem keepsRuns_calls (cron : Cron) : ∀ (xs : List (ℤ × ScheduleCall)) {db : Db},
    (∀ x ∈ xs, x.2.Redeclares r.name t) → (∃ r', db.KeepsRuns t r r') →
      ∃ r', (xs.foldl (fun db x => (runCall cron db x.1 x.2).1) db).KeepsRuns t r r'
  | [], _, _, h => h
  | x :: xs, _, hx, h =>
    keepsRuns_calls cron xs (fun y hy => hx y (List.mem_cons_of_mem _ hy))
      (keepsRuns_call cron x.1 (hx x List.mem_cons_self) h)

end Pg

/-! ## Redis -/

namespace Redis

/-- The trigger of an entry. -/
def ScheduleEntry.HasTrigger (e : ScheduleEntry) : Trigger → Prop
  | .cron expr => e.cron = expr ∧ e.intervalMs = 0
  | .interval ms => e.intervalMs = ms

/-- The entry is there with its trigger, its last run and this next run. -/
def Store.HasRuns (s : Store) (name : String) (t : Trigger) (last next : ℤ) : Prop :=
  ∃ e, s.schedule? name = some e ∧ e.HasTrigger t ∧ e.lastRunAtMs = last ∧ e.nextRunAtMs = next

variable {codec : JsonCodec} {cron : Cron} {clock last next : ℤ} {s : Store} {name : String} {t : Trigger}

theorem Store.HasRuns.lastRun (h : s.HasRuns name t last next) : s.lastRun name = last := by
  obtain ⟨e, he, _, hl, _⟩ := h
  simp [Store.lastRun, he, hl]

/-- An upsert of the schedule writes its next run. -/
theorem hasRuns_upsert (h : s.HasRuns name t last next) (a : UpsertArgs) (ha : a.name = name)
    (ht : (a.entry last).HasTrigger t) : (fnScheduleUpsert s a).HasRuns name t last a.nextRun := by
  have hl := h.lastRun
  have hw := (fnScheduleUpsert_writes s a).entry name
  rw [if_pos ha.symm, ha, hl] at hw
  exact ⟨_, hw, ht, rfl, rfl⟩

theorem hasRuns_other (h : s.HasRuns name t last next) (a : UpsertArgs) (ha : a.name ≠ name) :
    (fnScheduleUpsert s a).HasRuns name t last next := by
  obtain ⟨e, he, hrest⟩ := h
  have hw := (fnScheduleUpsert_writes s a).entry name
  rw [if_neg (Ne.symm ha), he] at hw
  exact ⟨e, hw, hrest⟩

/-- The declarations of a sync. -/
theorem hasRuns_declareAll : ∀ (ds : List (Pg.ScheduleBody × String)) {s : Store} {next : ℤ},
    (∀ d ∈ ds, d.1.name = name → t = .cron d.2) → s.HasRuns name t last next →
      (name ∉ ds.map (·.1.name) → (declareAll codec cron clock s ds).HasRuns name t last next) ∧
      (name ∈ ds.map (·.1.name) ∨ next = t.nextAt cron clock →
        (declareAll codec cron clock s ds).HasRuns name t last (t.nextAt cron clock))
  | [], _, _, _, h => ⟨fun _ => h, fun hn => (hn.resolve_left List.not_mem_nil) ▸ h⟩
  | d :: ds, s, next, ht, h => by
    have htail : ∀ x ∈ ds, x.1.name = name → t = .cron x.2 := fun x hx => ht x (List.mem_cons_of_mem _ hx)
    by_cases hd : d.1.name = name
    · have htd := ht d List.mem_cons_self hd
      have h₁ := hasRuns_upsert h (cronArgs codec d.1 d.2 (nextOf cron clock d.2)) hd (by rw [htd]; exact ⟨rfl, rfl⟩)
      have hin := (hasRuns_declareAll ds htail h₁).2
      refine ⟨fun hno => absurd (hd ▸ List.mem_cons_self) hno, fun _ => hin (Or.inr (by rw [htd]; rfl))⟩
    · have h₁ := hasRuns_other h (cronArgs codec d.1 d.2 (nextOf cron clock d.2)) hd
      obtain ⟨hout, hin⟩ := hasRuns_declareAll ds htail h₁
      refine ⟨fun hno => hout (fun h' => hno (List.mem_cons_of_mem _ h')), fun hor => hin (hor.imp_left (fun h' => ?_))⟩
      rw [List.map_cons, List.mem_cons] at h'
      exact h'.resolve_left (Ne.symm hd)

/-- One call of a redeploy: the last run stays, the next run is computed anew if the schedule is declared. -/
theorem hasRuns_call {c : ScheduleCall} (hv : c.Valid codec cron clock) (hc : c.Redeclares name t)
    (ha : s.Indexed) (h : s.HasRuns name t last next) :
    (¬ c.Declares name → (runCall codec cron s clock c).1.HasRuns name t last next) ∧
    (c.Declares name → (runCall codec cron s clock c).1.HasRuns name t last (t.nextAt cron clock)) := by
  cases c with
  | upsert b expr =>
    have hs : (runCall codec cron s clock (.upsert b expr)).1 =
        fnScheduleUpsert s (cronArgs codec b expr (nextOf cron clock expr)) := by
      show (done s (upsertScheduleRaw cron s (upsertArgs codec b expr 0) clock)).1 = _
      rw [upsert_valid s b hv.next]
      rfl
    rw [hs]
    refine ⟨fun hn => hasRuns_other h _ hn, fun hn => ?_⟩
    obtain rfl := hc hn
    exact hasRuns_upsert h (cronArgs codec b expr (nextOf cron clock expr)) hn ⟨rfl, rfl⟩
  | upsertInterval b ms =>
    have hs : (runCall codec cron s clock (.upsertInterval b ms)).1 =
        fnScheduleUpsert s (intervalArgs codec b ms (clock + ms)) := by
      show (done s (upsertIntervalScheduleRaw s (upsertArgs codec b "" ms) clock)).1 = _
      rw [interval_valid s b hv.2]
      rfl
    rw [hs]
    refine ⟨fun hn => hasRuns_other h _ hn, fun hn => ?_⟩
    obtain rfl := hc hn
    exact hasRuns_upsert h (intervalArgs codec b ms (clock + ms)) hn rfl
  | sync ds =>
    have hs : (runCall codec cron s clock (.sync ds)).1 =
        (fnScheduleSyncDiff (declareAll codec cron clock s ds) (ds.map (·.1.name))).foldl
          (fun s name => (fnScheduleRemove s name).1) (declareAll codec cron clock s ds) := by
      show (done s (syncSchedules cron s (ds.map (fun d => upsertArgs codec d.1 d.2 0)) clock)).1 = _
      rw [sync_valid hv]
      rfl
    rw [hs]
    obtain ⟨e, he, hrest⟩ : (declareAll codec cron clock s ds).HasRuns name t last (t.nextAt cron clock) :=
      (hasRuns_declareAll ds hc.2 h).2 (Or.inl hc.1)
    refine ⟨fun hn => absurd hc.1 hn, fun _ => ⟨e, ?_, hrest⟩⟩
    rw [schedule?_sync (indexed_declareAll ds ha), if_pos hc.1]
    exact he
  | setEnabled n e => exact absurd hc id
  | remove n => exact absurd hc id

/-- The index through a call. -/
theorem indexed_call (ha : s.Indexed) {c : ScheduleCall} (hv : c.Valid codec cron clock) (hc : c.Redeclares name t) :
    (runCall codec cron s clock c).1.Indexed := by
  cases c with
  | upsert b expr =>
    show (done s (upsertScheduleRaw cron s (upsertArgs codec b expr 0) clock)).1.Indexed
    rw [upsert_valid s b hv.next]
    exact (fnScheduleUpsert_writes s _).indexed ha
  | upsertInterval b ms =>
    show (done s (upsertIntervalScheduleRaw s (upsertArgs codec b "" ms) clock)).1.Indexed
    rw [interval_valid s b hv.2]
    exact (fnScheduleUpsert_writes s _).indexed ha
  | sync ds =>
    show (done s (syncSchedules cron s (ds.map (fun d => upsertArgs codec d.1 d.2 0)) clock)).1.Indexed
    rw [sync_valid hv]
    exact List.foldlRecOn _ _ (motive := fun s : Store => s.Indexed) (indexed_declareAll ds ha)
      (fun s hs n _ => (fnScheduleRemove_writes s n).indexed hs)
  | setEnabled n e => exact absurd hc id
  | remove n => exact absurd hc id

/-- Redeploys at moments when the first run of the trigger is the stored one. -/
theorem hasRuns_calls : ∀ (xs : List (ℤ × ScheduleCall)) {s : Store}, s.Indexed → s.HasRuns name t last next →
    (∀ x ∈ xs, x.2.Valid codec cron x.1 ∧ x.2.Redeclares name t ∧ (x.2.Declares name → t.nextAt cron x.1 = next)) →
      (xs.foldl (fun s x => (runCall codec cron s x.1 x.2).1) s).HasRuns name t last next
  | [], _, _, h, _ => h
  | x :: xs, s, ha, h, hx => by
    obtain ⟨hv, hc, hn⟩ := hx x List.mem_cons_self
    refine hasRuns_calls xs (indexed_call ha hv hc) ?_ (fun y hy => hx y (List.mem_cons_of_mem _ hy))
    obtain ⟨hout, hin⟩ := hasRuns_call hv hc ha h
    by_cases hd : x.2.Declares name
    · exact hn hd ▸ hin hd
    · exact hout hd

end Redis

/-! ## Both backends -/

/-- Deploys half a minute apart that declare the same schedule. -/
def cronDeploys : List (ℤ × ScheduleCall) :=
  [(31000, .upsert pingBody "0 * * * * *"), (59000, .sync [(pingBody, "0 * * * * *")])]

/-- The schedule as the first deploy leaves it, on both backends. -/
def pingRows : Pg.Db := (Pg.runCall minuteCron Pg.Db.empty 1000 (.upsert pingBody "0 * * * * *")).1

def pingEntries : Redis.Store := (Redis.runCall nullCodec minuteCron Redis.Store.empty 1000 (.upsert pingBody "0 * * * * *")).1

theorem pingEntries_reached : pingEntries.Reached (fun _ op => op.onSchedules) := by
  have hs : Redis.Op.apply Redis.Store.empty
      (.scheduleUpsert (Redis.cronArgs nullCodec pingBody "0 * * * * *" 60000)) = pingEntries := rfl
  rw [← hs]
  exact Reach.step (Reach.refl _) ⟨rfl, rfl⟩

theorem cronDeploys_valid : ∀ x ∈ cronDeploys, x.2.Valid nullCodec minuteCron x.1 ∧
    x.2.Redeclares "ping" (.cron "0 * * * * *") ∧
    (x.2.Declares "ping" → (Trigger.cron "0 * * * * *").nextAt minuteCron x.1 = 60000) := by
  have hcron : ∀ clock, ValidCron nullCodec minuteCron clock pingBody "0 * * * * *" :=
    fun clock => ⟨pingBody_valid, _, rfl⟩
  intro x hx
  simp only [cronDeploys, List.mem_cons, List.not_mem_nil, or_false] at hx
  rcases hx with rfl | rfl
  · exact ⟨hcron 31000, fun _ => rfl, fun _ => by decide⟩
  · refine ⟨fun d hd => ?_, ⟨by decide, fun d hd _ => ?_⟩, fun _ => by decide⟩
    · rw [List.mem_singleton.mp hd]
      exact hcron 59000
    · rw [List.mem_singleton.mp hd]

/-- An interval schedule of a minute, declared every half minute. -/
def intervalDeploys : List (ℤ × ScheduleCall) :=
  [(1000, .upsertInterval pingBody 60000), (31000, .upsertInterval pingBody 60000), (61000, .upsertInterval pingBody 60000)]

end Eddyq
