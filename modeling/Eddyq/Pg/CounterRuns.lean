import Eddyq.Pg.Counters

/-!
# The counters over runs

Every call of the backend keeps the counters exact (`Counted.step`), hence every run does (`reached_counters`).
-/

namespace Eddyq.Pg

open Eddyq.Lib

/-! ## Verdicts and recovery -/

section Verdicts

variable {db db' : Db} {now : ℤ}

theorem moves_complete (result : Option Json) (now : ℤ) : Moves (JobRow.complete result now) :=
  ⟨fun _ => rfl, fun _ => rfl, fun _ => rfl, fun _ _ hl => absurd rfl hl⟩

theorem moves_retry (t : ℤ) (error : Json) : Moves (JobRow.retry t error) :=
  ⟨fun _ => rfl, fun _ => rfl, fun _ => rfl, fun _ hn _ => hn⟩

theorem moves_fail (error : Json) (now : ℤ) : Moves (JobRow.fail error now) :=
  ⟨fun _ => rfl, fun _ => rfl, fun _ => rfl, fun _ _ hl => absurd rfl hl⟩

theorem moves_recover (error : Json) (now : ℤ) : Moves (JobRow.recover error now) := by
  refine ⟨fun _ => rfl, fun _ => rfl, fun _ => rfl, fun j _ hl => ?_⟩
  unfold JobRow.recover at hl ⊢
  by_cases hs : j.stalledOut
  · simp [hs, JobState.terminal] at hl
  · simp [hs]

theorem recover_not_running (error : Json) (now : ℤ) (j : JobRow) : (j.recover error now).running = false := by
  unfold JobRow.running JobRow.recover
  by_cases hs : j.stalledOut <;> simp [hs]

theorem leasedTo_running {id : JobId} {w : WorkerId} (j : JobRow) (h : j.leasedTo id w) : j.running := by
  simp only [JobRow.leasedTo, Bool.and_eq_true] at h
  exact h.1.2

theorem leasedTo_id {id : JobId} {w : WorkerId} (j : JobRow) (h : j.leasedTo id w) : j.id = id := by
  simp only [JobRow.leasedTo, Bool.and_eq_true, decide_eq_true_eq] at h
  exact h.1.1

theorem Counted.reported (h : Counted db) {p : JobRow → Bool} {f : JobRow → JobRow} (hr : Reported db p f now db') (hm : Moves f)
    (hp : ∀ j, p j → j.running) (hf : ∀ j, (f j).running = false) {id : JobId} (hid : ∀ j, p j → j.id = id) : Counted db' := by
  cases hr with
  | stale => exact h
  | retried found => exact h.dropSlots hm hp hf hid found
  | ended found _ settled => exact (h.dropSlots hm hp hf hid found).grows (settleBatch_grows settled)

theorem Counted.markCompleted (h : Counted db) {id : JobId} {w : WorkerId} {result : Option Json}
    (he : markCompleted db id w result now = .ok db') : Counted db' :=
  h.reported (markCompleted_ok he) (moves_complete result now) leasedTo_running (fun _ => rfl) leasedTo_id

theorem Counted.markFailed (h : Counted db) {id : JobId} {w : WorkerId} {error : Json} {retryAt : Option ℤ}
    (he : markFailed db id w error retryAt now = .ok db') : Counted db' := by
  refine h.reported (markFailed_ok he) ?_ leasedTo_running (fun j => j.failOr_running error retryAt now) leasedTo_id
  cases retryAt with
  | none => exact moves_fail error now
  | some t => exact moves_retry t error

theorem Counted.recover (h : Counted db) {p : JobRow → Bool} {error : Json} {n : Nat}
    (he : recover db p error now = .ok (db', n)) : Counted db' := by
  unfold Pg.recover at he
  dsimp only at he
  obtain ⟨db₁, hu, he⟩ := bind_eq_ok he
  obtain ⟨db₂, hf, he⟩ := bind_eq_ok he
  cases he
  have hm := moves_recover error now
  have hp : ∀ j : JobRow, (j.running && p j) = true → j.running = true := by
    intro j hj
    exact (Bool.and_eq_true _ _ ▸ hj).1
  have hr := h.release hm hp (recover_not_running error now) (groupsDropped_sweep h hm) (queuesDropped_sweep h hm)
  exact (hr.grows (updateBatches_grows hu)).grows (fireAll_grows hf)

/-- A pending job is cancelled: no counter is touched. -/
theorem Counted.cancel (h : Counted db) {id : JobId} {b : Bool} (he : cancel db id now = .ok (db', b)) :
    Counted db' := by
  refine Counted.grows ?_ (cancel_grows he)
  have hpend : ∀ x : JobRow, x.pendingAs id = true → x.running = false := by
    intro x hx
    simp only [JobRow.pendingAs, Bool.and_eq_true, decide_eq_true_eq] at hx
    simp [JobRow.running, hx.2]
  have hcount : ∀ q q' : JobRow → Bool, (∀ x, q x = (x.running && q' x)) →
      (updateWhere (·.pendingAs id) (·.cancel now) db.jobs).countP q = db.jobs.countP q := by
    intro q q' hq
    have hu := countP_updateWhere (·.pendingAs id) q (·.cancel now) db.jobs
    have h1 : db.jobs.countP (fun x => x.pendingAs id && q x) = 0 := by
      rw [List.countP_eq_zero]
      intro x _
      by_cases hx : x.pendingAs id
      · simp [hq, hpend x hx]
      · simp [hx]
    have h2 : db.jobs.countP (fun x => x.pendingAs id && q (x.cancel now)) = 0 := by
      rw [List.countP_eq_zero]
      intro x _
      simp [hq, JobRow.running, JobRow.cancel]
    rw [h1, h2] at hu
    exact hu
  refine ⟨?_, fun x hx => ?_, fun x hx hl => ?_, fun g hg => ?_, fun q hq => ?_, fun x hx hr k hk => ?_⟩
  · have hmap : (updateWhere (·.pendingAs id) (·.cancel now) db.jobs).map (·.id) = db.jobs.map (·.id) :=
      map_updateWhere (fun x => show (x.cancel now).id = x.id from rfl) _
    rw [hmap]
    exact h.ids
  · obtain ⟨x₀, hx₀, rfl⟩ := mem_updateWhere.mp hx
    split <;> exact h.fresh x₀ hx₀
  · obtain ⟨x₀, hx₀, rfl⟩ := mem_updateWhere.mp hx
    by_cases hp : x₀.pendingAs id
    · simp [hp, JobRow.cancel, JobState.terminal] at hl
    · simp only [hp, Bool.false_eq_true, if_false] at hl ⊢
      exact h.unfinished x₀ hx₀ hl
  · have hin := hcount (JobRow.runsIn g.key) (fun x => x.groupKey = some g.key) (fun _ => rfl)
    exact (h.groups g hg).trans (congrArg _ hin.symm)
  · have hon := hcount (JobRow.runsOn q.name) (fun x => x.queue = q.name) (fun _ => rfl)
    exact (h.queues q hq).trans (congrArg _ hon.symm)
  · obtain ⟨x₀, hx₀, rfl⟩ := mem_updateWhere.mp hx
    by_cases hp : x₀.pendingAs id
    · simp [hp, JobRow.cancel, JobRow.running] at hr
    · simp only [hp, Bool.false_eq_true, if_false] at hr hk
      exact h.covered x₀ hx₀ hr k hk

end Verdicts

/-! ## Retention, schedules, reconciliation -/

section Rest

variable {db db' : Db} {now : ℤ}

/-- Retention takes finalized rows, and a running row is not one. -/
theorem Counted.not_running_of_finalized (h : Counted db) {j : JobRow} (hj : j ∈ db.jobs)
    (hf : j.finalizedAt.isSome) : ¬ j.running := by
  intro hr
  have hst : j.state = .running := of_decide_eq_true hr
  rw [h.unfinished j hj (by rw [hst]; nofun)] at hf
  cases hf

theorem Counted.deleteIds (h : Counted db) {ids : List JobId}
    (hids : ∀ i ∈ ids, ∃ j ∈ db.jobs, j.id = i ∧ j.finalizedAt.isSome) :
    Counted { db with jobs := db.jobs.filter (fun j => j.id ∉ ids) } := by
  refine h.deleteJobs (fun j hj hn => ?_)
  simp only [decide_not, Bool.not_eq_true', decide_eq_false_iff_not, not_not] at hn
  obtain ⟨j', hj', hid, hf⟩ := hids j.id hn
  have heq : j' = j := List.inj_on_of_nodup_map h.ids hj' hj hid
  exact h.not_running_of_finalized hj (heq ▸ hf)

theorem mem_ranked {st : JobState} {j : JobRow} (h : j ∈ ranked db st) : j ∈ db.jobs ∧ j.finalizedAt.isSome := by
  have hm := mem_orderBy.mp h
  rw [List.mem_filter, Bool.and_eq_true] at hm
  exact ⟨hm.1, hm.2.2⟩

theorem Counted.cleanupJobsState (h : Counted db) (st : JobState) (age : Option Nat) (count : Option ℤ) (now : ℤ) :
    Counted (cleanupJobsState db st age count now) := by
  refine h.deleteIds (fun i hi => ?_)
  have hrow : ∃ j ∈ ranked db st, j.id = i := by
    unfold cleanupIds at hi
    rcases List.mem_append.mp hi with hi | hi
    · cases age with
      | none => cases hi
      | some s =>
        obtain ⟨j, hj, rfl⟩ := List.mem_map.mp hi
        exact ⟨j, List.mem_of_mem_filter hj, rfl⟩
    · cases count with
      | none => cases hi
      | some n =>
        obtain ⟨j, hj, rfl⟩ := List.mem_map.mp hi
        exact ⟨j, List.mem_of_mem_drop hj, rfl⟩
  obtain ⟨j, hj, hid⟩ := hrow
  exact ⟨j, (mem_ranked hj).1, hid, (mem_ranked hj).2⟩

theorem Counted.cleanJobs (h : Counted db) (st : JobState) (grace limit : Nat) (now : ℤ) :
    Counted (cleanJobs db st grace limit now) := by
  refine h.deleteIds (fun i hi => ?_)
  obtain ⟨j, hj, rfl⟩ := List.mem_map.mp hi
  have hm := mem_orderBy.mp (List.mem_of_mem_take hj)
  rw [List.mem_filter, Bool.and_eq_true] at hm
  refine ⟨j, hm.1, rfl, ?_⟩
  cases hf : j.finalizedAt with
  | none => simp [JobRow.finalizedBefore, hf] at hm
  | some t => rfl

theorem Counted.cleanup (h : Counted db) (r : Retention) (now : ℤ) : Counted (cleanup db r now) := by
  have h3 := ((h.cleanupJobsState .completed r.completedSecs r.completedCount now).cleanupJobsState .failed
    r.failedSecs r.failedCount now).cleanupJobsState .cancelled r.cancelledSecs r.cancelledCount now
  unfold Pg.cleanup cleanupBatches
  dsimp only
  refine (Counted.editJobs (f := fun j => { j with batchId := none }) h3 ?_).congr rfl rfl rfl rfl
  exact fun _ => ⟨rfl, rfl, rfl, rfl, rfl⟩

theorem Counted.fireSchedules (cron : Cron) (now clock : ℤ) : ∀ (ss : List ScheduleRow) {db db' : Db}, Counted db →
    fireSchedules cron db ss now clock = .ok db' → Counted db'
  | [], _, _, h, he => by cases he; exact h
  | s :: ss, _, _, h, he => by
    obtain ⟨db₁, hf, he⟩ := bind_eq_ok he
    obtain ⟨next, _, hf⟩ := bind_eq_ok hf
    cases hf
    refine Counted.fireSchedules cron now clock ss ?_ he
    exact (h.addJob (s.request now) now).congr rfl rfl rfl rfl

/-- Exact counters have not drifted. -/
theorem Counted.reconcile (h : Counted db) : reconcileCounters db = (db, 0, 0) := by
  have hg : ∀ g ∈ db.groups, db.groupDrifted g = false := by
    intro g hg
    simp [Db.groupDrifted, h.groups g hg]
  have hq : ∀ q ∈ db.queues, db.queueDrifted q = false := by
    intro q hq
    simp [Db.queueDrifted, h.queues q hq]
  have hgs : ∀ f, updateWhere db.groupDrifted f db.groups = db.groups := by
    intro f
    refine (List.map_congr_left (fun g hgm => ?_)).trans (List.map_id _)
    rw [hg g hgm]
    rfl
  have hqs : ∀ f, updateWhere db.queueDrifted f db.queues = db.queues := by
    intro f
    refine (List.map_congr_left (fun q hqm => ?_)).trans (List.map_id _)
    rw [hq q hqm]
    rfl
  have hgc : db.groups.countP db.groupDrifted = 0 := by
    rw [List.countP_eq_zero]
    intro g hgm
    rw [hg g hgm]
    nofun
  have hqc : db.queues.countP db.queueDrifted = 0 := by
    rw [List.countP_eq_zero]
    intro q hqm
    rw [hq q hqm]
    nofun
  unfold reconcileCounters
  rw [hgs, hqs, hgc, hqc]

end Rest

/-! ## Calls and runs -/

section Runs

variable {db : Db}

theorem Counted.schedules (h : Counted db) (ss : List ScheduleRow) : Counted { db with schedules := ss } :=
  h.congr rfl rfl rfl rfl

theorem Counted.upsertScheduleRow (h : Counted db) (b : ScheduleBody) (c : Option String) (i : Option ℤ)
    (same : ScheduleRow → Bool) (next : ℤ) : Counted (upsertScheduleRow db b c i same next) := by
  unfold Pg.upsertScheduleRow
  split
  · exact h.schedules _
  · exact h.schedules _

theorem Counted.syncSchedules (h : Counted db) {cron : Cron} {declared : List (ScheduleBody × String)} {clock : ℤ}
    {db' : Db} (he : syncSchedules cron db declared clock = .ok db') : Counted db' := by
  obtain ⟨prepared, _, he⟩ := bind_eq_ok he
  cases he
  refine Counted.schedules ?_ _
  exact List.foldlRecOn prepared _ (motive := fun db => Counted db) h
    (fun db hdb p _ => hdb.upsertScheduleRow p.1 _ _ _ _)

/-- **Every call keeps the counters exact.** -/
theorem Counted.step (cron : Cron) (h : Counted db) : ∀ op : Op, Counted (op.apply cron db)
  | .enqueue r now => by
    have hg := h.grows (enqueueDyn_grows db r now)
    rw [Op.apply_enqueue]
    exact hg
  | .enqueueMany _ _ => commitFst_inv (P := Counted) h (fun _ _ he => h.grows (enqueueManyDyn_grows he))
  | .sqlEnqueue _ _ => commit_inv (P := Counted) h (fun _ he => h.grows (sqlEnqueue_grows he))
  | .enqueueBatch _ _ _ _ => commitFst_inv (P := Counted) h (fun _ _ he => h.grows (enqueueBatch_grows he))
  | .claim a now clock order => h.claimBatch a now clock order
  | .heartbeat _ _ => h.editJobs (fun _ => ⟨rfl, rfl, rfl, rfl, rfl⟩)
  | .completed _ _ _ _ => commit_inv (P := Counted) h (fun _ he => h.markCompleted he)
  | .failed _ _ _ _ _ => commit_inv (P := Counted) h (fun _ he => h.markFailed he)
  | .cancel _ _ => commitFst_inv (P := Counted) h (fun _ _ he => h.cancel he)
  | .sweepStale _ _ => commitFst_inv (P := Counted) h (fun _ _ he => h.recover he)
  | .reclaimInFlight _ _ => commitFst_inv (P := Counted) h (fun _ _ he => by
      unfold Pg.reclaimInFlight at he
      split at he
      · cases he; exact h
      · exact h.recover he)
  | .reconcile => by
    unfold Op.apply Op.run
    rw [h.reconcile]
    exact h
  | .cleanup r now => h.cleanup r now
  | .cleanJobs st grace limit now => h.cleanJobs st grace limit now
  | .tick now clock => commit_inv (P := Counted) h (fun _ he => Counted.fireSchedules cron now clock _ h he)
  | .upsertSchedule _ _ _ => commit_inv (P := Counted) h (fun _ he => by
      obtain ⟨_, _, he⟩ := bind_eq_ok he
      obtain ⟨_, _, he⟩ := bind_eq_ok he
      cases he
      exact h.upsertScheduleRow _ _ _ _ _)
  | .upsertInterval _ _ _ => commit_inv (P := Counted) h (fun _ he => by
      obtain ⟨_, _, he⟩ := bind_eq_ok he
      split at he
      · cases he
      · cases he
        exact h.upsertScheduleRow _ _ _ _ _)
  | .syncSchedules _ _ => commit_inv (P := Counted) h (fun _ he => h.syncSchedules he)
  | .removeSchedule _ => h.schedules _
  | .setScheduleEnabled _ _ => h.schedules _
  | .groupSetConcurrency _ _ => h.upsertGroup rfl (fun _ => ⟨rfl, rfl⟩)
  | .groupSetPaused _ _ => h.upsertGroup rfl (fun _ => ⟨rfl, rfl⟩)
  | .groupSetRate _ _ _ _ => commit_inv (P := Counted) h (fun _ he => by
      unfold Pg.groupSetRate at he
      dsimp only at he
      split at he
      · cases he
      · cases he
        exact h.upsertGroup rfl (fun _ => ⟨rfl, rfl⟩))
  | .groupClearRate _ => h.editGroups (fun _ => ⟨rfl, rfl⟩)
  | .groupSetRule _ _ => commit_inv (P := Counted) h (fun _ he => by
      unfold Pg.groupSetRule at he
      split_ifs at he
      · cases he; exact h.congr rfl rfl rfl rfl
      · cases he; exact h.congr rfl rfl rfl rfl)
  | .groupRemoveRule _ => h.congr rfl rfl rfl rfl
  | .queueSetConcurrency _ _ => h.upsertQueue rfl (fun _ => ⟨rfl, rfl⟩)
  | .queueSetPaused _ _ => h.upsertQueue rfl (fun _ => ⟨rfl, rfl⟩)
  | .queueSetTimeout _ _ => h.upsertQueue rfl (fun _ => ⟨rfl, rfl⟩)

theorem Counted.empty : Counted Db.empty := by
  constructor <;> simp [Db.empty]

theorem Counted.reached {cron : Cron} {ok : Db → Op → Prop} (h : db.Reached cron ok) : Counted db :=
  Reach.inv h Counted.empty (fun _ op _ hc hs => hs.2 ▸ hc.step cron op)

end Runs

/-- The jobs that a call takes out of `running`. -/
def Op.releases : Op → JobRow → Bool
  | .completed id w _ _ => (·.leasedTo id w)
  | .failed id w _ _ _ => (·.leasedTo id w)
  | .sweepStale secs now => fun j => j.running && j.stale now secs
  | .reclaimInFlight ids _ => fun j => j.running && decide (j.id ∈ ids)
  | _ => fun _ => false

/-- What the counters promise. -/
structure Db.CountersExact (db : Db) : Prop where
  /-- A group row counts its running jobs. -/
  groups : ∀ g ∈ db.groups, g.runningCount = db.jobs.countP (fun j => j.state = .running ∧ j.groupKey = some g.key)
  /-- A queue row counts its running jobs. -/
  queues : ∀ q ∈ db.queues, q.runningCount = db.jobs.countP (fun j => j.state = .running ∧ j.queue = q.name)
  /-- A running job with a group key has a group row. -/
  covered : ∀ j ∈ db.jobs, j.state = .running → ∀ k, j.groupKey = some k → ∃ g ∈ db.groups, g.key = k
  /-- No decrement of a call reaches its floor. -/
  floors : ∀ op : Op,
    (∀ g ∈ db.groups, (movedIn db op.releases g.key : ℤ) ≤ g.runningCount) ∧
    (∀ q ∈ db.queues, (movedOn db op.releases q.name : ℤ) ≤ q.runningCount)
  /-- There is nothing to reconcile. -/
  reconciled : reconcileCounters db = (db, 0, 0)

theorem Op.releases_running (op : Op) (j : JobRow) (h : op.releases j) : j.running := by
  cases op with
  | completed => exact leasedTo_running j h
  | failed => exact leasedTo_running j h
  | sweepStale => exact (Bool.and_eq_true _ _ ▸ h).1
  | reclaimInFlight => exact (Bool.and_eq_true _ _ ▸ h).1
  | _ => cases h

/-- **The concurrency counters are exact** in every run. -/
theorem reached_counters (cron : Cron) (db : Db) (h : db.Reached cron (fun _ _ => True)) : db.CountersExact := by
  have hc := Counted.reached h
  refine ⟨fun g hg => ?_, fun q hq => ?_, fun j hj hr => hc.covered j hj (decide_eq_true hr), fun op => ?_, hc.reconcile⟩
  · rw [hc.groups g hg]
    exact congrArg _ (List.countP_congr (fun j _ => by simp [JobRow.runsIn, JobRow.running]))
  · rw [hc.queues q hq]
    exact congrArg _ (List.countP_congr (fun j _ => by simp [JobRow.runsOn, JobRow.running]))
  · exact ⟨fun g hg => hc.movedIn_le op.releases_running hg, fun q hq => hc.movedOn_le op.releases_running hq⟩

/-- A capped group with two jobs, one of which is completed and one swept. -/
def cappedRun : List Op :=
  [.groupSetConcurrency "g" 2,
   .enqueueMany [{ kind := "mail", payload := .null, groupKey := some "g" },
     { kind := "mail", payload := .null, groupKey := some "g" }] 1000,
   .claim { worker := "w", batchSize := 4, kinds := ["mail"], queues := ["default"] } 2000 2000
     { list := fun l => l, perm := MapOrder.asRead },
   .queueSetPaused "default" true,
   .completed 1 "w" none 3000,
   .sweepStale 60 90000]

/-- A cron crate that no schedule of a run asks. -/
def noCron : Cron := fun _ => .error "Invalid expression"

theorem cappedRun_counters : (cappedRun.foldl (Op.apply noCron) Db.empty).Reached noCron (fun _ _ => True) ∧
    (cappedRun.foldl (Op.apply noCron) Db.empty).CountersExact := by
  have h : (cappedRun.foldl (Op.apply noCron) Db.empty).Reached noCron (fun _ _ => True) :=
    run_of_guards cappedRun (Reach.refl _) (by simp [cappedRun, Guards])
  exact ⟨h, reached_counters noCron _ h⟩

end Eddyq.Pg
