import Eddyq.Pg.Ticks
import Mathlib.Order.Bounds.Basic

/-!
# Ticks and two clocks

Whether a schedule is due is judged by the database's clock, its next run is computed from the process's clock, read
anew for each schedule. The tick moves a schedule past the database's clock exactly when its trigger has no occurrence
after the process's clock that the database's clock has already reached (`ScheduleRow.Clear`, `tickEach_advances_iff`).
In runs of such ticks no occurrence is fired twice; a process clock that is behind around an occurrence fires it on
every tick until it catches up (`skewed_fires_twice`).
-/

namespace Eddyq.Pg

open Eddyq.Lib

/-! ## A tick -/

/-- The loop over the due schedules, each with the process's clock when it is reached. -/
def fireEach (cron : Cron) (db : Db) : List (ScheduleRow × ℤ) → ℤ → Except Error Db
  | [], _ => .ok db
  | x :: xs, now => do fireEach cron (← fireSchedule cron db x.1 now x.2) xs now

/-- `tick`, with the advisory lock held. -/
def tickEach (cron : Cron) (db : Db) (now : ℤ) (clock : String → ℤ) : Except Error Db :=
  fireEach cron db ((db.schedules.filter (·.due now)).map (fun s => (s, clock s.name))) now

/-- A tick that reads its clock once is one of these. -/
theorem tickEach_const (cron : Cron) (db : Db) (now clock : ℤ) :
    tickEach cron db now (fun _ => clock) = tick cron db now clock := by
  have h : ∀ (ss : List ScheduleRow) (db : Db),
      fireEach cron db (ss.map (fun s => (s, clock))) now = fireSchedules cron db ss now clock := by
    intro ss
    induction ss with
    | nil => exact fun _ => rfl
    | cons s ss ih =>
      intro db
      rw [List.map_cons, fireEach, fireSchedules]
      exact congrArg _ (funext fun db₁ => ih db₁)
  exact h _ db

/-- The jobs of the schedules, with the ids from `i` on. -/
def jobsOf : List ScheduleRow → ℤ → JobId → List JobRow
  | [], _, _ => []
  | s :: ss, now, i => newJob (s.request now) i now :: jobsOf ss now (i + 1)

/-- What the loop leaves: a job for each schedule, the computed next runs, and the other rows as they were. -/
structure FiredEach (cron : Cron) (xs : List (ScheduleRow × ℤ)) (now : ℤ) (db db' : Db) : Prop where
  jobs : db'.jobs = db.jobs ++ jobsOf (xs.map Prod.fst) now db.nextJob
  rows : ∀ r' ∈ db'.schedules, ∃ r ∈ db.schedules, r.name = r'.name ∧
    (r' = r ∨ ∃ x ∈ xs, x.1.name = r.name ∧ x.1.next cron x.2 = .ok r'.nextRunAt)
  hit : ∀ r' ∈ db'.schedules, r'.name ∈ xs.map (·.1.name) →
    ∃ x ∈ xs, x.1.name = r'.name ∧ x.1.next cron x.2 = .ok r'.nextRunAt
  names : db'.schedules.map (·.name) = db.schedules.map (·.name)

theorem fireEach_ok {cron : Cron} {now : ℤ} : ∀ {xs : List (ScheduleRow × ℤ)} {db db' : Db},
    (xs.map (·.1.name)).Nodup → fireEach cron db xs now = .ok db' → FiredEach cron xs now db db'
  | [], db, db', _, h => by
    cases h
    exact ⟨(List.append_nil _).symm, fun r hr => ⟨r, hr, rfl, Or.inl rfl⟩, fun r _ hn => absurd hn List.not_mem_nil, rfl⟩
  | x :: xs, db, db', hn, h => by
    obtain ⟨hx, hn⟩ := List.nodup_cons.mp hn
    obtain ⟨db₁, hf, h⟩ := bind_eq_ok h
    obtain ⟨next, hnext, hf⟩ := bind_eq_ok hf
    cases hf
    have ih := fireEach_ok hn h
    have hsch : ∀ r₁ ∈ updateWhere (fun r : ScheduleRow => decide (r.name = x.1.name))
        (fun r => { r with nextRunAt := next, lastRunAt := some now }) db.schedules, ∃ r ∈ db.schedules,
        r.name = r₁.name ∧ (r₁ = r ∧ r.name ≠ x.1.name ∨ r.name = x.1.name ∧ r₁.nextRunAt = next) := by
      intro r₁ hr₁
      obtain ⟨r, hr, rfl⟩ := mem_updateWhere.mp hr₁
      refine ⟨r, hr, ?_⟩
      by_cases hrx : r.name = x.1.name
      · simp [hrx]
      · simp [hrx]
    refine ⟨?_, fun r' hr' => ?_, fun r' hr' hin => ?_, ?_⟩
    · rw [ih.jobs, List.append_assoc]
      rfl
    · obtain ⟨r₁, hr₁, hname₁, hcase₁⟩ := ih.rows r' hr'
      obtain ⟨r, hr, hname, hcase⟩ := hsch r₁ hr₁
      refine ⟨r, hr, hname.trans hname₁, ?_⟩
      rcases hcase₁ with rfl | ⟨y, hy, hyn, hynext⟩
      · rcases hcase with ⟨rfl, _⟩ | ⟨hrx, hnx⟩
        · exact Or.inl rfl
        · exact Or.inr ⟨x, List.mem_cons_self, hrx.symm, by rw [hnx]; exact hnext⟩
      · exact Or.inr ⟨y, List.mem_cons_of_mem _ hy, hyn.trans hname.symm, hynext⟩
    · by_cases hxs : r'.name ∈ xs.map (·.1.name)
      · obtain ⟨y, hy, hyn, hynext⟩ := ih.hit r' hr' hxs
        exact ⟨y, List.mem_cons_of_mem _ hy, hyn, hynext⟩
      · have hr'x : r'.name = x.1.name := by
          rcases List.mem_cons.mp hin with h' | h'
          · exact h'
          · exact absurd h' hxs
        -- the rest of the loop has left the row alone
        obtain ⟨r₁, hr₁, hname₁, hcase₁⟩ := ih.rows r' hr'
        have hsame : r' = r₁ := by
          rcases hcase₁ with h' | ⟨y, hy, hyn, _⟩
          · exact h'
          · refine absurd (List.mem_map.mpr ⟨y, hy, ?_⟩) hxs
            exact hyn.trans hname₁
        subst hsame
        obtain ⟨r, _, hname, ⟨rfl, hne⟩ | ⟨_, hnx⟩⟩ := hsch r' hr₁
        · exact absurd hr'x hne
        · exact ⟨x, List.mem_cons_self, hr'x.symm, by rw [hnx]; exact hnext⟩
    · rw [ih.names]
      exact map_updateWhere (g := fun r : ScheduleRow => r.name)
        (f := fun r => { r with nextRunAt := next, lastRunAt := some now }) (fun _ => rfl) db.schedules

/-! ## When a tick moves its schedules on -/

/-- The cron crate returns the least occurrence strictly after a time. -/
def Cron.Least (cron : Cron) (occurrences : String → Set ℤ) : Prop :=
  ∀ expr next, cron expr = .ok next → ∀ t t', next t = some t' ↔ IsLeast {x | x ∈ occurrences expr ∧ t < x} t'

/-- No occurrence lies after the process's clock that the database's clock has reached. -/
def ScheduleRow.Clear (occurrences : String → Set ℤ) (now clock : ℤ) (s : ScheduleRow) : Prop :=
  match s.intervalMs, s.cronExpr with
  | some ms, _ => now < clock + ms
  | none, some expr => ∀ t ∈ occurrences expr, clock < t → now < t
  | none, none => True

/-- The tick writes next runs that are later than its own time and than the old ones. -/
def TickAdvances (now : ℤ) (db db' : Db) : Prop :=
  ∀ s ∈ db.schedules, s.due now → ∀ r ∈ db'.schedules, r.name = s.name → now < r.nextRunAt ∧ s.nextRunAt < r.nextRunAt

variable {cron : Cron} {occurrences : String → Set ℤ} {now : ℤ} {clock : String → ℤ} {db db' : Db}

theorem ScheduleRow.clear_iff (hcron : Cron.Least cron occurrences) {s : ScheduleRow} {clock next : ℤ}
    (h : s.next cron clock = .ok next) : s.Clear occurrences now clock ↔ now < next := by
  unfold ScheduleRow.next at h
  unfold ScheduleRow.Clear
  cases hms : s.intervalMs with
  | some ms =>
    rw [hms] at h
    cases h
    exact Iff.rfl
  | none =>
    rw [hms] at h
    cases hexpr : s.cronExpr with
    | none =>
      rw [hexpr] at h
      cases h
    | some expr =>
      rw [hexpr] at h
      have h : cron.nextRun expr clock = .ok next := h
      unfold Cron.nextRun at h
      split at h
      · cases h
      · next f hf =>
        split at h
        · next t ht =>
          cases h
          obtain ⟨⟨hocc, hlt⟩, hleast⟩ := (hcron expr f hf clock next).mp ht
          constructor
          · exact fun hc => hc next hocc hlt
          · intro hnow t ht hct
            exact Int.lt_of_lt_of_le hnow (hleast ⟨ht, hct⟩)
        · cases h

theorem ScheduleRow.due_le {s : ScheduleRow} (h : s.due now) : s.nextRunAt ≤ now := by
  simp only [ScheduleRow.due, Bool.and_eq_true, decide_eq_true_eq] at h
  exact h.2

theorem tickEach_ok (hn : NamesUnique db.schedules) (h : tickEach cron db now clock = .ok db') :
    FiredEach cron ((db.schedules.filter (·.due now)).map (fun s => (s, clock s.name))) now db db' := by
  refine fireEach_ok ?_ h
  rw [List.map_map]
  exact hn.filter _

theorem tickEach_names (hn : NamesUnique db.schedules) (h : tickEach cron db now clock = .ok db') :
    NamesUnique db'.schedules := by
  unfold NamesUnique
  rw [(tickEach_ok hn h).names]
  exact hn

/-- A row of a name is the row of that name. -/
theorem NamesUnique.eq_of_name (hn : NamesUnique db.schedules) {r s : ScheduleRow} (hr : r ∈ db.schedules)
    (hs : s ∈ db.schedules) (h : r.name = s.name) : r = s := List.inj_on_of_nodup_map hn hr hs h

/-- The next run of a due schedule is the computed one. -/
theorem tickEach_due (hn : NamesUnique db.schedules) (h : tickEach cron db now clock = .ok db') {s r : ScheduleRow}
    (hs : s ∈ db.schedules) (hdue : s.due now) (hr : r ∈ db'.schedules) (hname : r.name = s.name) :
    s.next cron (clock s.name) = .ok r.nextRunAt := by
  have hf := tickEach_ok hn h
  have hin : r.name ∈ ((db.schedules.filter (·.due now)).map (fun s => (s, clock s.name))).map (·.1.name) := by
    rw [List.map_map, hname]
    exact List.mem_map_of_mem (f := fun s : ScheduleRow => s.name) (List.mem_filter.mpr ⟨hs, hdue⟩)
  obtain ⟨x, hx, hxn, hnext⟩ := hf.hit r hr hin
  obtain ⟨s', hs', rfl⟩ := List.mem_map.mp hx
  have heq : s' = s := hn.eq_of_name (List.mem_filter.mp hs').1 hs (hxn.trans hname)
  subst heq
  exact hnext

/-- **When a tick moves all its schedules on.** -/
theorem tickEach_advances_iff (hcron : Cron.Least cron occurrences) (hn : NamesUnique db.schedules)
    (h : tickEach cron db now clock = .ok db') :
    TickAdvances now db db' ↔ ∀ s ∈ db.schedules, s.due now → s.Clear occurrences now (clock s.name) := by
  constructor
  · intro ha s hs hdue
    have hmem : s.name ∈ db'.schedules.map (·.name) := by
      rw [(tickEach_ok hn h).names]
      exact List.mem_map_of_mem hs
    obtain ⟨r, hr, hname⟩ := List.mem_map.mp hmem
    exact (ScheduleRow.clear_iff hcron (tickEach_due hn h hs hdue hr hname)).mpr (ha s hs hdue r hr hname).1
  · intro hc s hs hdue r hr hname
    have hlt := (ScheduleRow.clear_iff hcron (tickEach_due hn h hs hdue hr hname)).mp (hc s hs hdue)
    exact ⟨hlt, Int.lt_of_le_of_lt (ScheduleRow.due_le hdue) hlt⟩

/-! ## Runs of ticks -/

/-- The tables, and the occurrences that were fired: the next runs that the schedules had. -/
structure Ticking where
  db : Db
  fired : List (String × ℤ) := []

/-- The ticks of any number of processes, one after the other since each holds the advisory lock until its commit; and
transactions that leave the schedules alone. The guard `ok` is asked of careful runs only. -/
inductive Ticking.Step (cron : Cron) (occurrences : String → Set ℤ) (careful : Prop) : Ticking → Ticking → Prop
  | tick {z : Ticking} {now : ℤ} {clock : String → ℤ} {db' : Db} (done : tickEach cron z.db now clock = .ok db')
      (ok : careful → ∀ s ∈ z.db.schedules, s.due now → s.Clear occurrences now (clock s.name)) :
      Step cron occurrences careful z
        ⟨db', z.fired ++ (z.db.schedules.filter (·.due now)).map (fun s => (s.name, s.nextRunAt))⟩
  | other {z : Ticking} {db' : Db} (same : db'.schedules = z.db.schedules) :
      Step cron occurrences careful z { z with db := db' }

/-- What is fired is before the next run. -/
structure Ticking.Inv (z : Ticking) : Prop where
  names : NamesUnique z.db.schedules
  past : ∀ x ∈ z.fired, ∀ r ∈ z.db.schedules, r.name = x.1 → x.2 < r.nextRunAt
  once : z.fired.Nodup

theorem Ticking.Inv.tick {z : Ticking} (h : z.Inv) (hcron : Cron.Least cron occurrences)
    (done : tickEach cron z.db now clock = .ok db')
    (ok : ∀ s ∈ z.db.schedules, s.due now → s.Clear occurrences now (clock s.name)) :
    Ticking.Inv ⟨db', z.fired ++ (z.db.schedules.filter (·.due now)).map (fun s => (s.name, s.nextRunAt))⟩ := by
  have hadv := (tickEach_advances_iff hcron h.names done).mpr ok
  -- a row's next run never moves back
  have hmono : ∀ r' ∈ db'.schedules, ∃ r ∈ z.db.schedules, r.name = r'.name ∧ r.nextRunAt ≤ r'.nextRunAt := by
    intro r' hr'
    obtain ⟨r, hr, hname, rfl | ⟨x, hx, hxn, _⟩⟩ := (tickEach_ok h.names done).rows r' hr'
    · exact ⟨r', hr, rfl, Int.le_refl _⟩
    · obtain ⟨s, hs, rfl⟩ := List.mem_map.mp hx
      obtain ⟨hs, hdue⟩ := List.mem_filter.mp hs
      have heq : s = r := h.names.eq_of_name hs hr hxn
      subst heq
      exact ⟨s, hr, hname, Int.le_of_lt (hadv s hs hdue r' hr' hname.symm).2⟩
  refine ⟨tickEach_names h.names done, fun x hx r' hr' hname => ?_, ?_⟩
  · rcases List.mem_append.mp hx with hx | hx
    · obtain ⟨r, hr, hrn, hle⟩ := hmono r' hr'
      exact Int.lt_of_lt_of_le (h.past x hx r hr (hrn.trans hname)) hle
    · obtain ⟨s, hs, rfl⟩ := List.mem_map.mp hx
      obtain ⟨hs, hdue⟩ := List.mem_filter.mp hs
      exact (hadv s hs hdue r' hr' hname).2
  · rw [List.nodup_append']
    refine ⟨h.once, ?_, fun x hx hx' => ?_⟩
    · refine List.Nodup.of_map Prod.fst ?_
      rw [List.map_map]
      exact h.names.filter _
    · obtain ⟨s, hs, rfl⟩ := List.mem_map.mp hx'
      exact absurd (h.past _ hx s (List.mem_filter.mp hs).1 rfl) (Int.lt_irrefl _)

theorem Ticking.Inv.step {z z' : Ticking} (h : z.Inv) (hcron : Cron.Least cron occurrences)
    (hs : Ticking.Step cron occurrences True z z') : z'.Inv := by
  cases hs with
  | tick done ok => exact h.tick hcron done (ok trivial)
  | other same => exact ⟨same ▸ h.names, fun x hx r hr => h.past x hx r (same ▸ hr), h.once⟩

/-- **No occurrence is fired twice** in runs whose process clocks are clear of the occurrences; a tick moves its schedules
on exactly then, and enqueues one job for each of them in any case. -/
theorem ticks_fire_once (cron : Cron) (occurrences : String → Set ℤ) (hcron : Cron.Least cron occurrences) :
    (∀ db, NamesUnique db.schedules → ∀ z, Reach (fun z (_ : Unit) z' => Ticking.Step cron occurrences True z z') ⟨db, []⟩ z →
      z.fired.Nodup) ∧
    ∀ (db : Db) (now : ℤ) (clock : String → ℤ) (db' : Db), NamesUnique db.schedules →
      tickEach cron db now clock = .ok db' →
        db'.jobs = db.jobs ++ jobsOf (db.schedules.filter (·.due now)) now db.nextJob ∧
        NamesUnique (db.schedules.filter (·.due now)) ∧
        (TickAdvances now db db' ↔ ∀ s ∈ db.schedules, s.due now → s.Clear occurrences now (clock s.name)) := by
  refine ⟨fun db hn z hz => ?_, fun db now clock db' hn h => ⟨?_, hn.filter _, tickEach_advances_iff hcron hn h⟩⟩
  · have hinv : z.Inv := Reach.inv hz ⟨hn, fun _ hx => absurd hx List.not_mem_nil, List.nodup_nil⟩
      (fun _ _ _ hi hs => hi.step hcron hs)
    exact hinv.once
  · have hj := (tickEach_ok hn h).jobs
    rwa [List.map_map, show (Prod.fst ∘ fun s : ScheduleRow => (s, clock s.name)) = id from rfl, List.map_id] at hj

/-- Every expression means the start of every minute. -/
def minutes : Cron := fun _ => .ok (fun t => some ((t / 60000 + 1) * 60000))

theorem minutes_least : Cron.Least minutes (fun _ => {t | t % 60000 = 0}) := by
  intro expr next h t t'
  cases h
  simp only [Option.some.injEq, IsLeast, lowerBounds, Set.mem_ofPred_eq]
  constructor
  · rintro rfl
    refine ⟨⟨by omega, by omega⟩, fun x hx => ?_⟩
    obtain ⟨hx0, hxt⟩ := hx
    omega
  · rintro ⟨⟨h0, ht⟩, hleast⟩
    have hle := hleast (a := (t / 60000 + 1) * 60000) ⟨by omega, by omega⟩
    omega

/-- A schedule for every minute, due at the first one. -/
def minutelyRow : ScheduleRow where
  name := "ping"
  kind := "ping"
  payload := .null
  cronExpr := some "0 * * * * *"
  intervalMs := none
  nextRunAt := 60000
  priority := 0
  maxAttempts := 3
  queue := "default"

def minutelyDb : Db := { Db.empty with schedules := [minutelyRow] }

/-- The tables after a tick at the first minute, when the process's clock shows `clock`. -/
def minutelyFired (clock : ℤ) : Db := (tickEach minutes minutelyDb 60000 (fun _ => clock)).toOption.getD minutelyDb

theorem minutely_once : Cron.Least minutes (fun _ => {t | t % 60000 = 0}) ∧ NamesUnique minutelyDb.schedules ∧
    tickEach minutes minutelyDb 60000 (fun _ => 60001) = .ok (minutelyFired 60001) ∧
    (minutelyFired 60001).schedules.map (·.nextRunAt) = [120000] ∧
    TickAdvances 60000 minutelyDb (minutelyFired 60001) ∧
    (minutelyDb.schedules.filter (·.due 60000)).map (fun s => (s.name, s.nextRunAt)) = [("ping", 60000)] ∧
    [("ping", (60000 : ℤ))].Nodup := by
  have hn : NamesUnique minutelyDb.schedules := List.nodup_singleton _
  have hok : tickEach minutes minutelyDb 60000 (fun _ => 60001) = .ok (minutelyFired 60001) := rfl
  have hclear : ∀ s ∈ minutelyDb.schedules, s.due 60000 → s.Clear (fun _ => {t | t % 60000 = 0}) 60000 60001 := by
    intro s hs _
    rw [List.mem_singleton.mp hs]
    intro t _ ht
    omega
  have hthm := ticks_fire_once minutes _ minutes_least
  have hlog : (minutelyDb.schedules.filter (·.due 60000)).map (fun s => (s.name, s.nextRunAt)) = [("ping", 60000)] := by
    decide
  have hstep : Ticking.Step minutes (fun _ => {t | t % 60000 = 0}) True ⟨minutelyDb, []⟩ ⟨minutelyFired 60001,
      [] ++ (minutelyDb.schedules.filter (·.due 60000)).map (fun s => (s.name, s.nextRunAt))⟩ :=
    .tick hok (fun _ => hclear)
  rw [hlog, List.nil_append] at hstep
  refine ⟨minutes_least, hn, hok, by decide, ?_, hlog, ?_⟩
  · exact (hthm.2 minutelyDb 60000 (fun _ => 60001) _ hn hok).2.2.mpr hclear
  · exact hthm.1 minutelyDb hn _ (Reach.step (a := ()) (Reach.refl _) hstep)

/-- **A process clock one millisecond behind fires the occurrence twice**: the next run it writes is the old one. -/
theorem skewed_fires_twice : Cron.Least minutes (fun _ => {t | t % 60000 = 0}) ∧ NamesUnique minutelyDb.schedules ∧
    tickEach minutes minutelyDb 60000 (fun _ => 59999) = .ok (minutelyFired 59999) ∧
    ¬ TickAdvances 60000 minutelyDb (minutelyFired 59999) ∧
    ∃ z : Ticking, Reach (fun z (_ : Unit) z' => Ticking.Step minutes (fun _ => {t | t % 60000 = 0}) False z z')
      ⟨minutelyDb, []⟩ z ∧ z.fired = [("ping", 60000), ("ping", 60000)] := by
  have hok : tickEach minutes minutelyDb 60000 (fun _ => 59999) = .ok (minutelyFired 59999) := rfl
  refine ⟨minutes_least, List.nodup_singleton _, hok, fun h => ?_, ?_⟩
  · obtain ⟨r, hr, hname, hnext⟩ : ∃ r ∈ (minutelyFired 59999).schedules, r.name = minutelyRow.name ∧ r.nextRunAt = 60000 := by
      decide
    have hlt := (h minutelyRow (List.mem_singleton_self _) (by decide) r hr hname).1
    omega
  · have hok' : tickEach minutes (minutelyFired 59999) 60000 (fun _ => 60000) =
      .ok ((tickEach minutes (minutelyFired 59999) 60000 (fun _ => 60000)).toOption.getD minutelyDb) := rfl
    have h := Reach.step (R := fun z (_ : Unit) z' => Ticking.Step minutes (fun _ => {t | t % 60000 = 0}) False z z')
      (a := ()) (Reach.refl ⟨minutelyDb, []⟩) (.tick hok False.elim)
    exact ⟨_, h.step (a := ()) (.tick hok' False.elim), by decide⟩

end Eddyq.Pg
