import Eddyq.Lib.Leases
import Eddyq.Pg.CounterRuns

/-!
# Leases on Postgres

A verdict is gated by `state = 'running' AND worker_id = $2`. No call but a claim opens the gate for a job and a worker
(`Op.leasesKept`), so the rule of fencing applies (`fence`): claims that do not hand a job to a worker which still has
an unfinished execution of it keep every run fenced.
-/

namespace Eddyq.Pg

open Eddyq.Lib

/-! ## No call but a claim starts a lease -/

section Kept

variable {db db' : Db} {now : ℤ}

/-- Every lease was there before. -/
def LeasesKept (db db' : Db) : Prop :=
  ∀ j' ∈ db'.jobs, j'.running → ∃ j ∈ db.jobs, j.running ∧ j.id = j'.id ∧ j.workerId = j'.workerId

/-- ... and was stamped at that time. -/
def RunsKept (db db' : Db) : Prop :=
  ∀ j' ∈ db'.jobs, j'.running → ∃ j ∈ db.jobs, j.running ∧ j.id = j'.id ∧ j.workerId = j'.workerId ∧
    j.heartbeatAt = j'.heartbeatAt

theorem RunsKept.leasesKept (h : RunsKept db db') : LeasesKept db db' := by
  intro j' hj' hr'
  obtain ⟨j, hj, hr, hid, hw, _⟩ := h j' hj' hr'
  exact ⟨j, hj, hr, hid, hw⟩

theorem RunsKept.of_jobs (h : ∀ j ∈ db'.jobs, j ∈ db.jobs) : RunsKept db db' :=
  fun j hj hr => ⟨j, h j hj, hr, rfl, rfl, rfl⟩

theorem RunsKept.refl (db : Db) : RunsKept db db := .of_jobs fun _ hj => hj

theorem RunsKept.trans {db₁ : Db} (h : RunsKept db db₁) (h' : RunsKept db₁ db') : RunsKept db db' := by
  intro j' hj' hr'
  obtain ⟨j₁, hj₁, hr₁, hid₁, hw₁, hb₁⟩ := h' j' hj' hr'
  obtain ⟨j, hj, hr, hid, hw, hb⟩ := h j₁ hj₁ hr₁
  exact ⟨j, hj, hr, hid.trans hid₁, hw.trans hw₁, hb.trans hb₁⟩

/-- An update that ends runs or leaves the lease and its stamp alone. -/
theorem RunsKept.update {p : JobRow → Bool} {f : JobRow → JobRow}
    (hf : ∀ j, (f j).running → j.running ∧ j.id = (f j).id ∧ j.workerId = (f j).workerId ∧ j.heartbeatAt = (f j).heartbeatAt)
    (he : db'.jobs = updateWhere p f db.jobs) : RunsKept db db' := by
  intro j' hj' hr'
  rw [he] at hj'
  obtain ⟨j, hj, rfl⟩ := mem_updateWhere.mp hj'
  refine ⟨j, hj, ?_⟩
  split at hr'
  · next hp =>
    rw [if_pos hp]
    exact hf j hr'
  · next hp =>
    rw [if_neg hp]
    exact ⟨hr', rfl, rfl, rfl⟩

/-- An update that ends runs. -/
theorem RunsKept.release {p : JobRow → Bool} {f : JobRow → JobRow} (hf : ∀ j, (f j).running = false)
    (he : db'.jobs = updateWhere p f db.jobs) : RunsKept db db' :=
  .update (fun j hr => absurd ((hf j).symm.trans hr) Bool.false_ne_true) he

theorem Grows.runsKept (h : Grows db db') : RunsKept db db' := by
  induction h with
  | refl => exact .refl _
  | tail _ hs ih =>
    refine ih.trans ?_
    cases hs with
    | insert hi =>
      cases hi with
      | row =>
        intro j hj hr
        rcases List.mem_append.mp hj with hj | hj
        · exact ⟨j, hj, hr, rfl, rfl, rfl⟩
        · rw [List.mem_singleton.mp hj] at hr
          cases hr
      | skip => exact .of_jobs fun _ hj => hj
    | materialize hm => cases hm <;> exact .of_jobs fun _ hj => hj
    | batches => exact .of_jobs fun _ hj => hj

theorem Reported.runsKept {p : JobRow → Bool} {f : JobRow → JobRow} (h : Reported db p f now db')
    (hf : ∀ j, (f j).running = false) : RunsKept db db' := by
  obtain ⟨db₁, hs, -, hg⟩ := h.released
  exact (RunsKept.release hf hs.jobs).trans hg.runsKept

theorem markCompleted_runsKept {id : JobId} {w : WorkerId} {result : Option Json}
    (h : markCompleted db id w result now = .ok db') : RunsKept db db' := (markCompleted_ok h).runsKept fun _ => rfl

theorem markFailed_runsKept {id : JobId} {w : WorkerId} {error : Json} {retryAt : Option ℤ}
    (h : markFailed db id w error retryAt now = .ok db') : RunsKept db db' :=
  (markFailed_ok h).runsKept fun j => j.failOr_running error retryAt now

theorem cancel_runsKept {id : JobId} {b : Bool} (h : cancel db id now = .ok (db', b)) : RunsKept db db' :=
  (RunsKept.release (f := fun j => j.cancel now) (fun _ => rfl) rfl).trans (cancel_grows h).runsKept

theorem recover_runsKept {p : JobRow → Bool} {error : Json} {n : Nat} (h : recover db p error now = .ok (db', n)) :
    RunsKept db db' := by
  obtain ⟨db₁, hu, h⟩ := bind_eq_ok h
  obtain ⟨db₂, hf, h⟩ := bind_eq_ok h
  cases h
  exact (RunsKept.release (recover_not_running error now) rfl).trans
    ((updateBatches_grows hu).runsKept.trans (fireAll_grows hf).runsKept)

theorem reclaimInFlight_runsKept {ids : List JobId} {n : Nat} (h : reclaimInFlight db ids now = .ok (db', n)) :
    RunsKept db db' := by
  unfold reclaimInFlight at h
  split at h
  · cases h; exact .refl _
  · exact recover_runsKept h

theorem fireSchedules_runsKept (cron : Cron) (clock : ℤ) : ∀ {ss : List ScheduleRow} {db db' : Db},
    fireSchedules cron db ss now clock = .ok db' → RunsKept db db'
  | [], _, _, h => by cases h; exact .refl _
  | s :: ss, db, _, h => by
    obtain ⟨db₁, hf, h⟩ := bind_eq_ok h
    obtain ⟨next, _, hf⟩ := bind_eq_ok hf
    cases hf
    refine RunsKept.trans ?_ (fireSchedules_runsKept cron clock h)
    intro j hj hr
    rcases List.mem_append.mp hj with hj | hj
    · exact ⟨j, hj, hr, rfl, rfl, rfl⟩
    · rw [List.mem_singleton.mp hj] at hr
      cases hr

theorem cleanup_runsKept (db : Db) (r : Retention) (now : ℤ) : RunsKept db (cleanup db r now) := by
  have hjobs : RunsKept db (cleanupJobsState (cleanupJobsState (cleanupJobsState db .completed r.completedSecs
      r.completedCount now) .failed r.failedSecs r.failedCount now) .cancelled r.cancelledSecs r.cancelledCount now) := by
    refine .of_jobs fun j hj => ?_
    exact (List.mem_filter.mp (List.mem_filter.mp (List.mem_filter.mp hj).1).1).1
  refine hjobs.trans ?_
  exact .update (f := fun j => { j with batchId := none }) (fun _ hr => ⟨hr, rfl, rfl, rfl⟩) rfl

/-- Only claims and heartbeats stamp a job. -/
theorem Op.runsKept (cron : Cron) (db : Db) (op : Op) (hop : ∀ a now clock order, op ≠ .claim a now clock order)
    (hbeat : ∀ ids now, op ≠ .heartbeat ids now) : RunsKept db (op.apply cron db) := by
  have hrefl := RunsKept.refl db
  have hquiet : op.quiet → RunsKept db (op.apply cron db) := by
    intro hq
    obtain ⟨gs, qs, ss, heq⟩ := op.quiet_sameJobs cron db hq
    rw [heq]
    exact .of_jobs fun _ hj => hj
  cases op with
  | enqueue r now =>
    have hg := (enqueueDyn_grows db r now).runsKept
    rw [Op.apply_enqueue]
    exact hg
  | enqueueMany => exact commitFst_inv hrefl (fun _ _ he => (enqueueManyDyn_grows he).runsKept)
  | sqlEnqueue => exact commit_inv hrefl (fun _ he => (sqlEnqueue_grows he).runsKept)
  | enqueueBatch => exact commitFst_inv hrefl (fun _ _ he => (enqueueBatch_grows he).runsKept)
  | claim a now clock order => exact absurd rfl (hop a now clock order)
  | heartbeat ids now => exact absurd rfl (hbeat ids now)
  | completed => exact commit_inv hrefl (fun _ he => markCompleted_runsKept he)
  | failed => exact commit_inv hrefl (fun _ he => markFailed_runsKept he)
  | cancel => exact commitFst_inv hrefl (fun _ _ he => cancel_runsKept he)
  | sweepStale => exact commitFst_inv hrefl (fun _ _ he => recover_runsKept he)
  | reclaimInFlight => exact commitFst_inv hrefl (fun _ _ he => reclaimInFlight_runsKept he)
  | cleanup r now => exact cleanup_runsKept db r now
  | cleanJobs => exact .of_jobs fun j hj => (List.mem_filter.mp hj).1
  | tick now clock => exact commit_inv hrefl (fun _ he => fireSchedules_runsKept cron clock he)
  | groupSetRule =>
    refine commit_inv hrefl (fun _ he => ?_)
    obtain ⟨rs, rfl, _⟩ := groupSetRule_ok he
    exact .of_jobs fun _ hj => hj
  | groupRemoveRule => exact .of_jobs fun _ hj => hj
  | _ => exact hquiet rfl

/-- **Only a claim starts a lease.** -/
theorem Op.leasesKept (cron : Cron) (db : Db) (op : Op) (hop : ∀ a now clock order, op ≠ .claim a now clock order) :
    LeasesKept db (op.apply cron db) := by
  by_cases hbeat : ∃ ids now, op = .heartbeat ids now
  · obtain ⟨ids, now, rfl⟩ := hbeat
    intro j' hj' hr'
    obtain ⟨j, hj, rfl⟩ := mem_updateWhere.mp hj'
    refine ⟨j, hj, ?_⟩
    split at hr'
    · next hp =>
      rw [if_pos hp]
      exact ⟨hr', rfl, rfl⟩
    · next hp =>
      rw [if_neg hp]
      exact ⟨hr', rfl, rfl⟩
  · exact (op.runsKept cron db hop (fun ids now he => hbeat ⟨ids, now, he⟩)).leasesKept

end Kept

/-! ## The fence -/

/-- What an execution reports. -/
inductive Verdict
  | completed (result : Option Json) (now : ℤ)
  | failed (error : Json) (retryAt : Option ℤ) (now : ℤ)

/-- The call a verdict makes. -/
def Verdict.toOp (id : JobId) (w : WorkerId) : Verdict → Op
  | .completed result now => .completed id w result now
  | .failed error retryAt now => .failed id w error retryAt now

/-- The calls that are not verdicts. -/
def Op.notVerdict : Op → Prop
  | .completed .. | .failed .. => False
  | _ => True

/-- The jobs a call hands out: the reply of a claim. -/
def Op.grants (db : Db) : Op → List (JobId × WorkerId)
  | .claim a now clock order => (claimBatch db a now clock order).2.map (fun j => (j.id, j.workerId))
  | _ => []

/-- The job is running. -/
def Db.runs (db : Db) (id : JobId) : Bool := db.jobs.any (fun j => j.id = id && j.running)

/-- The gate of the verdicts. -/
def Db.LeasedTo (db : Db) (id : JobId) (w : WorkerId) : Prop := ∃ j ∈ db.jobs, j.leasedTo id w

/-- The backend as a lessor. -/
def lessor (cron : Cron) : Lessor Db Op Verdict JobId WorkerId where
  call db op := op.apply cron db
  grants db op := op.grants db
  judge db id w v := (v.toOp id w).apply cron db
  running := Db.runs

section Fence

variable {cron : Cron} {db : Db} {id : JobId} {w : WorkerId}

theorem Db.LeasedTo.runs (h : db.LeasedTo id w) : db.runs id := by
  obtain ⟨j, hj, hl⟩ := h
  refine List.any_eq_true.mpr ⟨j, hj, ?_⟩
  simp [leasedTo_id j hl, leasedTo_running j hl]

theorem Db.LeasedTo.of_kept {db' : Db} (hk : LeasesKept db db') (h : db'.LeasedTo id w) : db.LeasedTo id w := by
  obtain ⟨j', hj', hl⟩ := h
  obtain ⟨j, hj, hr, hid, hw⟩ := hk j' hj' (leasedTo_running j' hl)
  simp only [JobRow.leasedTo, Bool.and_eq_true, decide_eq_true_eq] at hl
  refine ⟨j, hj, ?_⟩
  simp [JobRow.leasedTo, hid, hr, hw, hl.1.1, hl.2]

/-- Without the lease a verdict changes nothing. -/
theorem Verdict.stale (v : Verdict) (h : ¬ db.LeasedTo id w) : (v.toOp id w).apply cron db = db := by
  have hnone : db.jobs.find? (·.leasedTo id w) = none := by
    rw [List.find?_eq_none]
    exact fun j hj hl => h ⟨j, hj, hl⟩
  cases v with
  | completed result now =>
    show (commit db (markCompleted db id w result now)).1 = db
    rw [markCompleted, hnone]
    rfl
  | failed error retryAt now =>
    show (commit db (markFailed db id w error retryAt now)).1 = db
    unfold markFailed
    rw [hnone]
    rfl

theorem Verdict.leasesKept (v : Verdict) : LeasesKept db ((v.toOp id w).apply cron db) := by
  cases v <;> exact Op.leasesKept cron db _ (fun _ _ _ _ => nofun)

/-- A worker of a lease is the worker. -/
theorem Counted.lease_unique (hc : Counted db) {w' : WorkerId} (h : db.LeasedTo id w) (h' : db.LeasedTo id w') :
    w = w' := by
  obtain ⟨j, hj, hl⟩ := h
  obtain ⟨j', hj', hl'⟩ := h'
  have heq : j = j' := List.inj_on_of_nodup_map hc.ids hj hj' ((leasedTo_id j hl).trans (leasedTo_id j' hl').symm)
  subst heq
  simp only [JobRow.leasedTo, Bool.and_eq_true, decide_eq_true_eq] at hl hl'
  exact Option.some.inj (hl.2.symm.trans hl'.2)

/-- What a claim grants it has picked, and what it has picked it starts. -/
theorem claim_grants (db : Db) (a : ClaimArgs) (now clock : ℤ) (order : MapOrder) :
    (Op.claim a now clock order).grants db = [] ∧ (claimBatch db a now clock order).1 = db ∨
    ∃ ids : List JobId, (Op.claim a now clock order).grants db =
        (db.jobs.filter (fun j => j.id ∈ ids)).map (fun j => (j.id, a.worker)) ∧
      (claimBatch db a now clock order).1.jobs = updateWhere (fun j => j.id ∈ ids) (·.start a.worker now) db.jobs := by
  have hg : (Op.claim a now clock order).grants db =
      (claimBatch db a now clock order).2.map (fun j => (j.id, j.workerId)) := rfl
  rw [hg]
  rcases claimBatch_cases db a now clock order with heq | ⟨gs, qs, heq⟩
  · rw [heq]
    exact Or.inl ⟨rfl, rfl⟩
  · rw [heq, List.map_map]
    exact Or.inr ⟨(claimPicks db a now clock order).1.accepted.map (·.id), rfl, rfl⟩

/-- What a call grants is leased. -/
theorem Op.granted (cron : Cron) {op : Op} (hg : (id, w) ∈ op.grants db) : (op.apply cron db).LeasedTo id w := by
  cases op with
  | claim a now clock order =>
    rcases claim_grants db a now clock order with ⟨hnil, _⟩ | ⟨ids, hids, hjobs⟩
    · rw [hnil] at hg
      exact absurd hg List.not_mem_nil
    · rw [hids] at hg
      obtain ⟨j, hj, hjw⟩ := List.mem_map.mp hg
      obtain ⟨hj, hin⟩ := List.mem_filter.mp hj
      cases hjw
      have hm := mem_updateWhere_of_mem (p := fun j : JobRow => j.id ∈ ids) (f := fun j => j.start a.worker now) hj
      rw [if_pos hin, ← hjobs] at hm
      exact ⟨_, hm, by simp [JobRow.leasedTo, JobRow.start, JobRow.running]⟩
  | _ => exact absurd hg List.not_mem_nil

/-- **The gate is a fence.** -/
theorem fence (cron : Cron) : Fence (lessor cron) Counted Db.LeasedTo Op.notVerdict (fun _ _ _ _ => True) where
  call_inv h _ := h.step cron _
  judge_inv v h _ := h.step cron _
  shut v _ h := v.stale h
  one h := h.lease_unique
  distinct := by
    intro db op h
    show ((op.grants db).map Prod.fst).Nodup
    cases op with
    | claim a now clock order =>
      rcases claim_grants db a now clock order with ⟨hg, _⟩ | ⟨ids, hg, _⟩
      · rw [hg]
        exact List.nodup_nil
      · rw [hg, List.map_map]
        exact h.ids.sublist (List.Sublist.map _ List.filter_sublist)
    | _ => exact List.nodup_nil
  granted h hg := ⟨(Op.granted cron hg).runs, Op.granted cron hg⟩
  kept := by
    intro db op id w h _ _ hno hl
    have hl : (op.apply cron db).LeasedTo id w := hl
    suffices h₀ : db.LeasedTo id w from ⟨h₀, fun _ => hl.runs⟩
    by_cases hop : ∃ a now clock order, op = .claim a now clock order
    · obtain ⟨a, now, clock, order, rfl⟩ := hop
      have hno : (id, w) ∉ (Op.claim a now clock order).grants db := hno
      rcases claim_grants db a now clock order with ⟨_, hsame⟩ | ⟨ids, hids, hjobs⟩
      · have hl : (claimBatch db a now clock order).1.LeasedTo id w := hl
        rwa [hsame] at hl
      · obtain ⟨j', hj', hl'⟩ := hl
        have hj' : j' ∈ (claimBatch db a now clock order).1.jobs := hj'
        rw [hjobs] at hj'
        obtain ⟨j, hj, rfl⟩ := mem_updateWhere.mp hj'
        split at hl'
        · next hin =>
          -- a started row is one that was granted
          refine absurd ?_ hno
          have hid : j.id = id := leasedTo_id (j.start a.worker now) hl'
          have hw : a.worker = w := by
            simp only [JobRow.leasedTo, JobRow.start, Bool.and_eq_true, decide_eq_true_eq, Option.some.injEq] at hl'
            exact hl'.2
          rw [hids, ← hid, ← hw]
          exact List.mem_map_of_mem (List.mem_filter.mpr ⟨hj, hin⟩)
        · exact ⟨j, hj, hl'⟩
    · refine Db.LeasedTo.of_kept (Op.leasesKept cron db op (fun a now clock order he => hop ?_)) hl
      exact ⟨a, now, clock, order, he⟩
  judged := by
    intro db id w id' w' v h _ hl
    have hl : ((v.toOp id w).apply cron db).LeasedTo id' w' := hl
    exact ⟨hl.of_kept v.leasesKept, fun _ _ => hl.runs⟩

end Fence

end Eddyq.Pg
