import Eddyq.Pg.CounterRuns

/-!
# The tick on Postgres

A tick is one transaction over all due schedules, so a due schedule without a next occurrence takes the others with it:
a tick fires every live due schedule exactly when all of the due schedules are live or none of them is
(`Counted.tickFiresLive_iff`).
-/

namespace Eddyq.Pg

open Eddyq.Lib

/-- The trigger of a schedule still has an occurrence. -/
def ScheduleRow.live (cron : Cron) (clock : ℤ) (s : ScheduleRow) : Prop := ∃ next, s.next cron clock = .ok next

/-- The schedule was fired: it has a new job and its next run is set. -/
structure ScheduleRow.FiredIn (s : ScheduleRow) (db db' : Db) (now next : ℤ) : Prop where
  job : ∃ i, db.nextJob ≤ i ∧ newJob (s.request now) i now ∈ db'.jobs
  row : ∃ r ∈ db'.schedules, r.name = s.name ∧ r.nextRunAt = next ∧ r.lastRunAt = some now

/-- The tick fires every due schedule that is live. -/
def Db.TickFiresLive (cron : Cron) (db : Db) (now clock : ℤ) : Prop :=
  ∀ s ∈ db.schedules, s.due now → ∀ next, s.next cron clock = .ok next →
    s.FiredIn db ((Op.tick now clock).apply cron db) now next

/-! ## Names are unique -/

section Names

variable {db db' : Db}

/-- `eddyq_schedules` has the name as its primary key. -/
def NamesUnique (l : List ScheduleRow) : Prop := (l.map (·.name)).Nodup

theorem NamesUnique.updateWhere {l : List ScheduleRow} (h : NamesUnique l) {p : ScheduleRow → Bool}
    {f : ScheduleRow → ScheduleRow} (hf : ∀ s, (f s).name = s.name) : NamesUnique (updateWhere p f l) := by
  unfold NamesUnique
  rw [map_updateWhere hf]
  exact h

theorem NamesUnique.filter {l : List ScheduleRow} (h : NamesUnique l) (p : ScheduleRow → Bool) :
    NamesUnique (l.filter p) := List.Nodup.sublist (List.Sublist.map _ List.filter_sublist) h

theorem NamesUnique.upsertScheduleRow (h : NamesUnique db.schedules) (b : ScheduleBody) (c : Option String)
    (i : Option ℤ) (same : ScheduleRow → Bool) (next : ℤ) :
    NamesUnique (upsertScheduleRow db b c i same next).schedules := by
  unfold Pg.upsertScheduleRow
  split
  · exact h.updateWhere (fun _ => rfl)
  · next hno =>
    have hnew : ∀ s ∈ db.schedules, s.name ≠ b.name := by simpa using hno
    unfold NamesUnique
    rw [List.map_append, List.map_singleton, List.nodup_append']
    refine ⟨h, List.nodup_singleton _, fun n hn hn' => ?_⟩
    obtain ⟨s, hs, rfl⟩ := List.mem_map.mp hn
    exact hnew s hs (List.mem_singleton.mp hn')

theorem NamesUnique.fireSchedules (cron : Cron) (now clock : ℤ) : ∀ (ss : List ScheduleRow) {db db' : Db},
    NamesUnique db.schedules → fireSchedules cron db ss now clock = .ok db' → NamesUnique db'.schedules
  | [], _, _, h, he => by cases he; exact h
  | s :: ss, _, _, h, he => by
    obtain ⟨db₁, hf, he⟩ := bind_eq_ok he
    obtain ⟨next, _, hf⟩ := bind_eq_ok hf
    cases hf
    refine NamesUnique.fireSchedules cron now clock ss ?_ he
    exact h.updateWhere (fun _ => rfl)

theorem upsertGroup_schedules (db : Db) (new : GroupRow) (f : GroupRow → GroupRow) :
    (upsertGroup db new f).schedules = db.schedules := by
  unfold upsertGroup
  split <;> rfl

theorem upsertQueue_schedules (db : Db) (new : QueueRow) (f : QueueRow → QueueRow) :
    (upsertQueue db new f).schedules = db.schedules := by
  unfold upsertQueue
  split <;> rfl

theorem NamesUnique.step (cron : Cron) (h : NamesUnique db.schedules) (op : Op) :
    NamesUnique (op.apply cron db).schedules := by
  have hsame : ∀ d : Db, d.schedules = db.schedules → NamesUnique d.schedules := fun d hd => hd ▸ h
  by_cases hj : op.onJobs
  · exact hsame _ (op.sameAdmin cron db hj).schedules
  cases op with
  | tick now clock => exact commit_inv (P := fun x => NamesUnique x.schedules) h (fun _ he => NamesUnique.fireSchedules cron now clock _ h he)
  | upsertSchedule =>
    refine commit_inv (P := fun x => NamesUnique x.schedules) h (fun _ he => ?_)
    obtain ⟨_, _, he⟩ := bind_eq_ok he
    obtain ⟨_, _, he⟩ := bind_eq_ok he
    cases he
    exact h.upsertScheduleRow _ _ _ _ _
  | upsertInterval =>
    refine commit_inv (P := fun x => NamesUnique x.schedules) h (fun _ he => ?_)
    obtain ⟨_, _, he⟩ := bind_eq_ok he
    split at he
    · cases he
    · cases he
      exact h.upsertScheduleRow _ _ _ _ _
  | syncSchedules =>
    refine commit_inv (P := fun x => NamesUnique x.schedules) h (fun _ he => ?_)
    obtain ⟨prepared, _, he⟩ := bind_eq_ok he
    cases he
    refine NamesUnique.filter ?_ _
    exact List.foldlRecOn prepared _ (motive := fun x : Db => NamesUnique x.schedules) h (fun db hdb p _ => hdb.upsertScheduleRow p.1 _ _ _ _)
  | removeSchedule => exact h.filter _
  | setScheduleEnabled => exact h.updateWhere (fun _ => rfl)
  | groupSetConcurrency => exact hsame _ (upsertGroup_schedules _ _ _)
  | groupSetPaused => exact hsame _ (upsertGroup_schedules _ _ _)
  | groupSetRate =>
    refine commit_inv (P := fun x => NamesUnique x.schedules) h (fun _ he => ?_)
    unfold Pg.groupSetRate at he
    dsimp only at he
    split at he
    · cases he
    · cases he
      exact hsame _ (upsertGroup_schedules _ _ _)
  | groupClearRate => exact h
  | groupSetRule =>
    refine commit_inv (P := fun x => NamesUnique x.schedules) h (fun _ he => ?_)
    obtain ⟨rs, rfl, _⟩ := groupSetRule_ok he
    exact h
  | groupRemoveRule => exact h
  | queueSetConcurrency => exact hsame _ (upsertQueue_schedules _ _ _)
  | queueSetPaused => exact hsame _ (upsertQueue_schedules _ _ _)
  | queueSetTimeout => exact hsame _ (upsertQueue_schedules _ _ _)
  | _ => exact absurd rfl hj

theorem NamesUnique.reached {cron : Cron} {ok : Db → Op → Prop} (h : db.Reached cron ok) : NamesUnique db.schedules :=
  Reach.inv (P := fun x : Db => NamesUnique x.schedules) h List.nodup_nil (fun _ op _ hc hs => hs.2 ▸ hc.step cron op)

end Names

/-! ## The loop -/

section Loop

variable {cron : Cron} {now clock : ℤ}

/-- A schedule without a next occurrence ends the transaction. -/
theorem fireSchedules_dead (now : ℤ) : ∀ {ss : List ScheduleRow} (db : Db), (∃ s ∈ ss, ¬ s.live cron clock) →
    ∃ e, fireSchedules cron db ss now clock = .error e
  | [], _, h => by
    obtain ⟨s, hs, _⟩ := h
    exact absurd hs List.not_mem_nil
  | s :: ss, db, h => by
    cases hn : s.next cron clock with
    | error e => exact ⟨e, by simp only [fireSchedules, fireSchedule, hn]; rfl⟩
    | ok next =>
      obtain ⟨x, hx, hdead⟩ := h
      rcases List.mem_cons.mp hx with rfl | hx
      · exact absurd ⟨next, hn⟩ hdead
      · have hf : ∃ db₁, fireSchedule cron db s now clock = .ok db₁ := ⟨_, by simp only [fireSchedule, hn]; rfl⟩
        obtain ⟨db₁, hf⟩ := hf
        obtain ⟨e, he⟩ : ∃ e, fireSchedules cron db₁ ss now clock = .error e := fireSchedules_dead now db₁ ⟨x, hx, hdead⟩
        exact ⟨e, by rw [fireSchedules, hf]; exact he⟩

/-- **Live schedules are all fired**, and no other row is touched. -/
theorem fireSchedules_live (now : ℤ) : ∀ {ss : List ScheduleRow} (db : Db), NamesUnique ss → (∀ s ∈ ss, s.live cron clock) →
    ∃ db', fireSchedules cron db ss now clock = .ok db' ∧ (∀ j ∈ db.jobs, j ∈ db'.jobs) ∧
      (∀ r ∈ db.schedules, r.name ∉ ss.map (·.name) → r ∈ db'.schedules) ∧
      ∀ s ∈ ss, (∃ r ∈ db.schedules, r.name = s.name) → ∀ next, s.next cron clock = .ok next → s.FiredIn db db' now next
  | [], db, _, _ => ⟨db, rfl, fun _ hj => hj, fun _ hr _ => hr, fun s hs => absurd hs List.not_mem_nil⟩
  | s :: ss, db, hn, hl => by
    obtain ⟨hns, hnss⟩ := List.nodup_cons.mp hn
    obtain ⟨next, hnext⟩ := hl s List.mem_cons_self
    generalize hdb₁ : ({ db with
      jobs := db.jobs ++ [newJob (s.request now) db.nextJob now], nextJob := db.nextJob + 1
      schedules := updateWhere (·.name = s.name) (fun r => { r with nextRunAt := next, lastRunAt := some now })
        db.schedules } : Db) = db₁
    have hf : fireSchedule cron db s now clock = .ok db₁ := by
      rw [fireSchedule, hnext, ← hdb₁]
      rfl
    obtain ⟨db', he, hjobs, hrows, hfired⟩ := fireSchedules_live now db₁ hnss
      (fun x hx => hl x (List.mem_cons_of_mem _ hx))
    have hnj : db₁.nextJob = db.nextJob + 1 := by rw [← hdb₁]
    have hjob : ∀ j ∈ db.jobs, j ∈ db₁.jobs := fun j hj => by rw [← hdb₁]; exact List.mem_append_left _ hj
    have hsch : db₁.schedules = updateWhere (·.name = s.name) (fun r => { r with
        nextRunAt := next, lastRunAt := some now }) db.schedules := by rw [← hdb₁]
    refine ⟨db', by rw [fireSchedules, hf]; exact he, fun j hj => hjobs j (hjob j hj), fun r hr hno => ?_, fun x hx hrow => ?_⟩
    · rw [List.map_cons, List.mem_cons, not_or] at hno
      refine hrows r ?_ hno.2
      have hm := mem_updateWhere_of_mem (p := fun r : ScheduleRow => r.name = s.name)
        (f := fun r => { r with nextRunAt := next, lastRunAt := some now }) hr
      rw [if_neg (by simpa using hno.1)] at hm
      rw [hsch]
      exact hm
    · rcases List.mem_cons.mp hx with rfl | hx
      · intro next' hnext'
        have hnn : next' = next := by
          rw [hnext] at hnext'
          exact (Except.ok.inj hnext').symm
        subst hnn
        obtain ⟨r, hr, hrn⟩ := hrow
        refine ⟨⟨db.nextJob, Nat.le_refl _, hjobs _ ?_⟩, ?_⟩
        · rw [← hdb₁]
          exact List.mem_append_right _ (List.mem_singleton_self _)
        · have hm := mem_updateWhere_of_mem (p := fun r : ScheduleRow => r.name = x.name)
            (f := fun r => { r with nextRunAt := next', lastRunAt := some now }) hr
          rw [if_pos (by simpa using hrn), ← hsch] at hm
          exact ⟨_, hrows _ hm (by simpa [hrn] using hns), hrn, rfl, rfl⟩
      · intro next' hnext'
        obtain ⟨r, hr, hrn⟩ := hrow
        have hrow₁ : ∃ r ∈ db₁.schedules, r.name = x.name := by
          refine ⟨_, hsch ▸ mem_updateWhere_of_mem hr, ?_⟩
          split <;> exact hrn
        have hx' := hfired x hx hrow₁ next' hnext'
        obtain ⟨i, hi, hij⟩ := hx'.job
        exact ⟨⟨i, by rw [hnj] at hi; exact Nat.le_of_succ_le hi, hij⟩, hx'.row⟩

end Loop

/-- **When a tick fires every live due schedule**: all due schedules are live, or none is. -/
theorem tickFiresLive_iff {cron : Cron} {db : Db} (hc : Counted db) (hn : NamesUnique db.schedules) (now clock : ℤ) :
    db.TickFiresLive cron now clock ↔
      (∀ s ∈ db.schedules, s.due now → s.live cron clock) ∨ (∀ s ∈ db.schedules, s.due now → ¬ s.live cron clock) := by
  by_cases hall : ∀ s ∈ db.schedules, s.due now → s.live cron clock
  · refine ⟨fun _ => Or.inl hall, fun _ s hs hd next hnext => ?_⟩
    have hlive : ∀ x ∈ db.schedules.filter (·.due now), x.live cron clock :=
      fun x hx => hall x (List.mem_filter.mp hx).1 (List.mem_filter.mp hx).2
    obtain ⟨db', he, _, _, hfired⟩ := fireSchedules_live now db (hn.filter _) hlive
    have happly : (Op.tick now clock).apply cron db = db' := by
      show (commit db (fireSchedules cron db (db.schedules.filter (·.due now)) now clock)).1 = db'
      rw [he]
      rfl
    rw [happly]
    exact hfired s (List.mem_filter.mpr ⟨hs, hd⟩) ⟨s, hs, rfl⟩ next hnext
  · -- a dead one is due: the transaction is rolled back, and no job is new
    have hdead : ∃ s ∈ db.schedules.filter (·.due now), ¬ s.live cron clock := by
      simp only [not_forall] at hall
      obtain ⟨s, hs, hd, hl⟩ := hall
      exact ⟨s, List.mem_filter.mpr ⟨hs, hd⟩, hl⟩
    obtain ⟨e, he⟩ := fireSchedules_dead now db hdead
    have happly : (Op.tick now clock).apply cron db = db := by
      show (commit db (fireSchedules cron db (db.schedules.filter (·.due now)) now clock)).1 = db
      rw [he]
      rfl
    constructor
    · refine fun h => Or.inr (fun s hs hd hl => ?_)
      obtain ⟨next, hnext⟩ := hl
      have hf := h s hs hd next hnext
      rw [happly] at hf
      obtain ⟨i, hi, hij⟩ := hf.job
      exact absurd (hc.fresh _ hij) (Nat.not_lt.mpr hi)
    · rintro (h | h)
      · exact absurd h hall
      · exact fun s hs hd next hnext => absurd ⟨next, hnext⟩ (h s hs hd)

end Eddyq.Pg
