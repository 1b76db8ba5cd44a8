import Eddyq.Lib.Lives
import Eddyq.Pg.Leases

/-!
# Lives of jobs on Postgres

`Db.life` reads the life of a job off its row. Every statement that changes rows turns each of them by one function and
may add new rows under new ids (`Turned`); from that follows what a call does to a life, so the backend is a lawful desk
(`desk_lawful`).
-/

namespace Eddyq.Pg

open Eddyq.Lib

/-! ## Rows and lives -/

/-- Where a row stands. -/
def JobRow.phase (j : JobRow) : Phase WorkerId :=
  match j.state with
  | .pending | .scheduled => .waiting
  | .running => .running j.workerId
  | .completed => .completed
  | .failed => .failed
  | .cancelled => .cancelled

/-- The life a row tells. -/
def JobRow.life (j : JobRow) : Life WorkerId where
  phase := j.phase
  attempt := j.attempt
  stalled := j.stalledCount
  maxAttempts := j.maxAttempts
  maxStalled := j.maxStalledCount

/-- The row of an id. -/
def Db.row (db : Db) (id : JobId) : Option JobRow := db.jobs.find? (·.id = id)

/-- The life of a job. -/
def Db.life (db : Db) (id : JobId) : Option (Life WorkerId) := (db.row id).map (·.life)

/-- No row has an id of the future. -/
def Db.Fresh (db : Db) : Prop := ∀ j ∈ db.jobs, j.id < db.nextJob

section Rows

variable {db db' : Db} {id : JobId} {j : JobRow} {now : ℤ}

theorem mem_row (h : db.row id = some j) : j ∈ db.jobs ∧ j.id = id := by
  refine ⟨List.mem_of_find?_eq_some h, ?_⟩
  simpa using List.find?_some h

theorem Counted.row (h : Counted db) (hj : j ∈ db.jobs) : db.row j.id = some j := by
  cases hr : db.row j.id with
  | none => exact absurd (List.find?_eq_none.mp hr j hj) (by simp)
  | some j' =>
    obtain ⟨hj', hid⟩ := mem_row hr
    rw [List.inj_on_of_nodup_map h.ids hj' hj hid]

theorem Db.Fresh.row (h : db.Fresh) (hid : db.nextJob ≤ id) : db.row id = none := by
  cases hr : db.row id with
  | none => rfl
  | some j =>
    obtain ⟨hj, rfl⟩ := mem_row hr
    exact absurd (h j hj) (not_lt.mpr hid)

theorem Db.Fresh.life (h : db.Fresh) (hid : db.nextJob ≤ id) : db.life id = none := by
  rw [Db.life, h.row hid]
  rfl

theorem row_update {p : JobRow → Bool} {f : JobRow → JobRow} (hf : ∀ j, (f j).id = j.id)
    (h : db'.jobs = updateWhere p f db.jobs) (id : JobId) :
    db'.row id = (db.row id).map (fun j => if p j then f j else j) := by
  have hid : ∀ j, (if p j then f j else j).id = j.id := by
    intro j
    split
    · exact hf j
    · rfl
  rw [Db.row, h, updateWhere, List.find?_map]
  congr 2
  funext j
  simp only [Function.comp_apply, hid]

theorem Db.Fresh.update {p : JobRow → Bool} {f : JobRow → JobRow} (hf : ∀ j, (f j).id = j.id) (h : db.Fresh)
    (hj : db'.jobs = updateWhere p f db.jobs) (hn : db'.nextJob = db.nextJob) : db'.Fresh := by
  intro j hm
  rw [hj] at hm
  obtain ⟨j₀, hj₀, rfl⟩ := mem_updateWhere.mp hm
  rw [hn]
  split
  · rw [hf]
    exact h j₀ hj₀
  · exact h j₀ hj₀

theorem Db.Fresh.grow (h : db.Fresh) (hg : Grow db db') : db'.Fresh := by
  cases hg with
  | insert hi =>
    cases hi with
    | row =>
      intro j hj
      rcases List.mem_append.mp hj with hj | hj
      · exact Nat.lt_succ_of_lt (h j hj)
      · rw [List.mem_singleton.mp hj]
        exact Nat.lt_succ_self _
    | skip => exact fun j hj => Nat.lt_succ_of_lt (h j hj)
  | materialize hm => cases hm <;> exact h
  | batches => exact h

/-! ### The turns of a row -/

theorem start_life (w : WorkerId) (now : ℤ) (j : JobRow) : (j.start w now).life = j.life.next (.claim w) := rfl

theorem complete_life (result : Option Json) (now : ℤ) (j : JobRow) :
    (j.complete result now).life = j.life.next .complete := rfl

theorem retry_life (t : ℤ) (e : Json) (j : JobRow) : (j.retry t e).life = j.life.next .retry := rfl

theorem fail_life (e : Json) (now : ℤ) (j : JobRow) : (j.fail e now).life = j.life.next .fail := rfl

theorem cancel_life (now : ℤ) (j : JobRow) : (j.cancel now).life = j.life.next .cancel := rfl

theorem recover_life (e : Json) (now : ℤ) (j : JobRow) : (j.recover e now).life = j.life.next .recover := by
  have hout : j.stalledOut = true ↔ j.life.stalledOut := decide_eq_true_iff
  by_cases h : j.stalledOut
  · simp only [Life.next, hout.mp h, if_true]
    simp [JobRow.life, JobRow.phase, JobRow.recover, h]
  · simp only [Life.next, mt hout.mpr h, if_false]
    simp [JobRow.life, JobRow.phase, JobRow.recover, h]

theorem running_phase (h : j.running) : j.life.phase = .running j.workerId := by
  have hst : j.state = .running := of_decide_eq_true h
  simp [JobRow.life, JobRow.phase, hst]

theorem pending_phase (h : j.state = .pending) : j.life.phase = .waiting := by
  simp [JobRow.life, JobRow.phase, h]

end Rows

/-! ## What a call does to all rows -/

/-- Every row is turned by `g`; new jobs may have been born under new ids. -/
structure Turned (g : JobRow → JobRow) (db db' : Db) : Prop where
  next : db.nextJob ≤ db'.nextJob
  life : ∀ id, id < db.nextJob → db'.life id = (db.row id).map (fun j => (g j).life)
  born : ∀ id, db.nextJob ≤ id → db'.life id = none ∨ ∃ ma ms, db'.life id = some (.born ma ms)

section Turns

variable {db db₁ db' : Db} {now : ℤ}

theorem Turned.of_jobs (hf : db.Fresh) (hj : db'.jobs = db.jobs) (hn : db'.nextJob = db.nextJob) :
    Turned (fun j => j) db db' := by
  have hlife : db'.life = db.life := by
    funext id
    rw [Db.life, Db.life, Db.row, Db.row, hj]
  exact ⟨hn.ge, fun id _ => congrFun hlife id, fun id hid => Or.inl ((congrFun hlife id).trans (hf.life hid))⟩

theorem Turned.update {p : JobRow → Bool} {f : JobRow → JobRow} (hid : ∀ j, (f j).id = j.id) (hf : db.Fresh)
    (hj : db'.jobs = updateWhere p f db.jobs) (hn : db'.nextJob = db.nextJob) :
    Turned (fun j => if p j then f j else j) db db' := by
  refine ⟨hn.ge, fun id _ => ?_, fun id hle => Or.inl ?_⟩
  · rw [Db.life, row_update hid hj, Option.map_map]
    rfl
  · rw [Db.life, row_update hid hj, hf.row hle]
    rfl

/-- What is born afterwards changes nothing for the rest. -/
theorem Turned.trans {g : JobRow → JobRow} (h : Turned g db db₁) (h' : Turned (fun j => j) db₁ db') :
    Turned g db db' := by
  have hsame : ∀ id, id < db₁.nextJob → db'.life id = db₁.life id := fun id hid => h'.life id hid
  refine ⟨h.next.trans h'.next, fun id hid => ?_, fun id hid => ?_⟩
  · rw [hsame id (lt_of_lt_of_le hid h.next)]
    exact h.life id hid
  · by_cases hlt : id < db₁.nextJob
    · rw [hsame id hlt]
      exact h.born id hid
    · exact h'.born id (not_lt.mp hlt)

theorem Turned.append (hf : db.Fresh) (r : DynEnqueue) (hj : db'.jobs = db.jobs ++ [newJob r db.nextJob now])
    (hn : db'.nextJob = db.nextJob + 1) : Turned (fun j => j) db db' := by
  have hrow : ∀ id, db'.row id = (db.row id).or (if db.nextJob = id then some (newJob r db.nextJob now) else none) := by
    intro id
    have hnew : (newJob r db.nextJob now).id = db.nextJob := rfl
    rw [Db.row, Db.row, hj, List.find?_append, List.find?_singleton, hnew]
    simp only [decide_eq_true_eq]
  refine ⟨by rw [hn]; exact Nat.le_succ _, fun id hid => ?_, fun id hid => ?_⟩
  · rw [Db.life, hrow, if_neg (ne_of_gt hid), Option.or_none]
  · rw [Db.life, hrow, hf.row hid, Option.none_or]
    split
    · exact Or.inr ⟨r.maxAttempts, r.maxStalledCount, rfl⟩
    · exact Or.inl rfl

theorem Turned.grows (hf : db.Fresh) (h : Grows db db') : Turned (fun j => j) db db' ∧ db'.Fresh := by
  induction h with
  | refl => exact ⟨.of_jobs hf rfl rfl, hf⟩
  | tail _ hs ih =>
    refine ⟨ih.1.trans ?_, ih.2.grow hs⟩
    cases hs with
    | insert hi =>
      cases hi with
      | row => exact .append ih.2 _ rfl rfl
      | skip => exact ⟨Nat.le_succ _, fun _ _ => rfl, fun id hid => Or.inl (ih.2.life hid)⟩
    | materialize hm => cases hm <;> exact .of_jobs ih.2 rfl rfl
    | batches => exact .of_jobs ih.2 rfl rfl

/-- An update, then statements that only add rows. -/
theorem Turned.updateGrows {p : JobRow → Bool} {f : JobRow → JobRow} (hg : Grows db₁ db') (hid : ∀ j, (f j).id = j.id)
    (hf : db.Fresh) (hj : db₁.jobs = updateWhere p f db.jobs) (hn : db₁.nextJob = db.nextJob) :
    Turned (fun j => if p j then f j else j) db db' :=
  (Turned.update hid hf hj hn).trans (Turned.grows (hf.update hid hj hn) hg).1

/-- What a turn means for one life. -/
theorem Turned.moved {g : JobRow → JobRow} (h : Turned g db db') (hf : db.Fresh) {id : JobId}
    (hg : ∀ j, db.row id = some j → Life.Moved True (some j.life) (some (g j).life)) :
    Life.Moved (id < db.nextJob) (db.life id) (db'.life id) := by
  by_cases hid : id < db.nextJob
  · rw [h.life id hid, Db.life]
    have htrue : (id < db.nextJob) = True := eq_true hid
    rw [htrue]
    cases hr : db.row id with
    | none => exact .stay none
    | some j => exact hg j hr
  · rw [hf.life (not_lt.mp hid)]
    rcases h.born id (not_lt.mp hid) with hb | ⟨ma, ms, hb⟩
    · rw [hb]
      exact .stay none
    · rw [hb]
      exact .born ma ms hid

end Turns

/-! ## Calls -/

section Calls

variable {db db' : Db} {id : JobId} {w : WorkerId} {now : ℤ}

theorem Reported.turned {p : JobRow → Bool} {f : JobRow → JobRow} (h : Reported db p f now db') (hf : db.Fresh)
    (hid : ∀ j, (f j).id = j.id) : Turned (fun j => if p j then f j else j) db db' := by
  obtain ⟨db₁, hs, hn, hg⟩ := h.released
  exact .updateGrows hg hid hf hs.jobs hn

theorem markCompleted_turned (hf : db.Fresh) {result : Option Json} (h : markCompleted db id w result now = .ok db') :
    Turned (fun j => if j.leasedTo id w then j.complete result now else j) db db' :=
  (markCompleted_ok h).turned hf fun _ => rfl

theorem markFailed_turned (hf : db.Fresh) {error : Json} {retryAt : Option ℤ}
    (h : markFailed db id w error retryAt now = .ok db') :
    Turned (fun j => if j.leasedTo id w then j.failOr error retryAt now else j) db db' := by
  refine (markFailed_ok h).turned hf fun j => ?_
  cases retryAt <;> rfl

theorem cancel_turned (hf : db.Fresh) {b : Bool} (h : cancel db id now = .ok (db', b)) :
    Turned (fun j => if j.pendingAs id then j.cancel now else j) db db' :=
  .updateGrows (cancel_grows h) (fun _ => rfl) hf rfl rfl

theorem recover_turned (hf : db.Fresh) {p : JobRow → Bool} {error : Json} {n : Nat}
    (h : recover db p error now = .ok (db', n)) :
    Turned (fun j => if j.running && p j then j.recover error now else j) db db' := by
  obtain ⟨db₁, hu, h⟩ := bind_eq_ok h
  obtain ⟨db₂, hfire, h⟩ := bind_eq_ok h
  cases h
  exact .updateGrows ((updateBatches_grows hu).trans (fireAll_grows hfire)) (fun _ => rfl) hf rfl rfl

theorem reclaimInFlight_turned (hf : db.Fresh) {ids : List JobId} {n : Nat}
    (h : reclaimInFlight db ids now = .ok (db', n)) :
    Turned (fun j => if j.running && decide (j.id ∈ ids) then j.recover (reclaimEntry now) now else j) db db' := by
  unfold reclaimInFlight at h
  split at h
  · next hnil =>
    cases h
    have hnone : db.jobs.find? (fun j => j.running && decide (j.id ∈ ids)) = none := by
      rw [List.find?_eq_none]
      simp [hnil]
    exact .update (fun _ => rfl) hf (updateWhere_of_find_none _ hnone).symm rfl
  · exact recover_turned hf h

theorem heartbeat_turned (hf : db.Fresh) (ids : List JobId) (now : ℤ) :
    Turned (fun j => if j.id ∈ ids && j.running then { j with heartbeatAt := some now } else j) db
      (updateHeartbeatBatch db ids now) :=
  .update (fun _ => rfl) hf rfl rfl

theorem fireSchedules_turned (cron : Cron) (clock : ℤ) : ∀ {ss : List ScheduleRow} {db db' : Db}, db.Fresh →
    fireSchedules cron db ss now clock = .ok db' → Turned (fun j => j) db db'
  | [], _, _, hf, h => by
    cases h
    exact .of_jobs hf rfl rfl
  | s :: ss, db, _, hf, h => by
    obtain ⟨db₁, hs, h⟩ := bind_eq_ok h
    obtain ⟨next, _, hs⟩ := bind_eq_ok hs
    cases hs
    refine Turned.trans (.append hf _ rfl rfl) (fireSchedules_turned cron clock (fun j hj => ?_) h)
    rcases List.mem_append.mp hj with hj | hj
    · exact Nat.lt_succ_of_lt (hf j hj)
    · rw [List.mem_singleton.mp hj]
      exact Nat.lt_succ_self _

/-- Some jobs are gone, the others are as they were. -/
structure Thinned (db db' : Db) : Prop where
  next : db'.nextJob = db.nextJob
  life : ∀ id, db'.life id = db.life id ∨ db'.life id = none

theorem Thinned.trans {db₁ : Db} (h : Thinned db db₁) (h' : Thinned db₁ db') : Thinned db db' := by
  refine ⟨h'.next.trans h.next, fun id => ?_⟩
  rcases h'.life id with h₂ | h₂
  · rw [h₂]
    exact h.life id
  · exact Or.inr h₂

theorem Thinned.delete (db : Db) (p : JobId → Bool) : Thinned db { db with jobs := db.jobs.filter (fun j => p j.id) } := by
  refine ⟨rfl, fun id => ?_⟩
  have hrow : Db.row { db with jobs := db.jobs.filter (fun j => p j.id) } id = if p id then db.row id else none :=
    find?_filter_key (g := JobRow.id) p id db.jobs
  rw [Db.life, hrow]
  split
  · exact Or.inl rfl
  · exact Or.inr rfl

theorem cleanup_thinned (db : Db) (r : Retention) (now : ℤ) : Thinned db (cleanup db r now) := by
  have hstate : ∀ (db : Db) (st : JobState) (age : Option Nat) (count : Option ℤ),
      Thinned db (cleanupJobsState db st age count now) := fun db st age count =>
    .delete db (fun id => decide (id ∉ cleanupIds db st age count now))
  have hbatches : ∀ (db : Db) (age : Option Nat) (count : Option ℤ), Thinned db (cleanupBatches db age count now) := by
    refine fun db age count => ⟨rfl, fun id => Or.inl ?_⟩
    rw [Db.life, row_update (p := fun j => j.batchId.any (· ∈ cleanupBatchIds db age count now))
      (f := fun j => { j with batchId := none }) (fun _ => rfl) rfl, Option.map_map, Db.life]
    congr 1
    funext j
    simp only [Function.comp_apply]
    split <;> rfl
  exact (((hstate _ _ _ _).trans (hstate _ _ _ _)).trans (hstate _ _ _ _)).trans (hbatches _ _ _)

end Calls

/-! ## The desk -/

/-- What the reply tells the worker about its lease. -/
def ClaimedJob.toLease (j : ClaimedJob) : Lease JobId WorkerId where
  job := j.id
  worker := j.workerId
  attempt := j.attempt
  maxAttempts := j.maxAttempts

/-- The leases a call gives out. -/
def Op.leases (db : Db) : Op → List (Lease JobId WorkerId)
  | .claim a now clock order => (claimBatch db a now clock order).2.map (·.toLease)
  | _ => []

/-- The verdicts the runtime makes under a lease when no handler asks for a retry: a failure is retried at the time
`retry_schedule` gives, or not at all. -/
def Verdict.From (x : Lease JobId WorkerId) : Verdict → Prop
  | .completed _ _ => True
  | .failed _ retryAt _ => retryAt = none ∨ ∃ t, retryAt = retrySchedule x.attempt x.maxAttempts t

/-- The backend as a desk. -/
def desk (cron : Cron) : Desk Db Op Verdict JobId WorkerId where
  call db op := op.apply cron db
  leases db op := op.leases db
  judge db id w v := (v.toOp id w).apply cron db
  life := Db.life

section Desk

variable {db : Db} {id : JobId} {w : WorkerId}

/-- What a call but a claim does to lives. -/
structure LivesMoved (db db' : Db) : Prop where
  next : db.nextJob ≤ db'.nextJob
  moved : ∀ id, Life.Moved (id < db.nextJob) (db.life id) (db'.life id)

theorem LivesMoved.refl (db : Db) : LivesMoved db db := ⟨le_refl _, fun _ => .stay _⟩

theorem Turned.livesMoved {g : JobRow → JobRow} {db' : Db} (h : Turned g db db') (hf : db.Fresh)
    (hg : ∀ j, Life.Moved True (some j.life) (some (g j).life)) : LivesMoved db db' :=
  ⟨h.next, fun _ => h.moved hf fun j _ => hg j⟩

theorem Thinned.livesMoved {db' : Db} (h : Thinned db db') : LivesMoved db db' := by
  refine ⟨h.next.ge, fun id => ?_⟩
  rcases h.life id with hl | hl
  · rw [hl]
    exact .stay _
  · rw [hl]
    exact .gone _

theorem recover_moved (p : JobRow → Bool) (e : Json) (now : ℤ) (j : JobRow) :
    Life.Moved True (some j.life) (some (if j.running && p j then j.recover e now else j).life) := by
  split
  · next hp =>
    rw [recover_life]
    exact .recover (running_phase (Bool.and_eq_true _ _ ▸ hp).1)
  · exact .stay _

theorem Op.livesMoved (cron : Cron) (h : Counted db) (op : Op) (hv : op.notVerdict)
    (hc : ∀ a now clock order, op ≠ .claim a now clock order) : LivesMoved db (op.apply cron db) := by
  have hf : db.Fresh := h.fresh
  have hrefl := LivesMoved.refl db
  have hsame : ∀ {db'}, Turned (fun j => j) db db' → LivesMoved db db' := fun ht => ht.livesMoved hf fun _ => .stay _
  have hgrows : ∀ {db'}, Grows db db' → LivesMoved db db' := fun hg => hsame (Turned.grows hf hg).1
  have hquiet : op.quiet → LivesMoved db (op.apply cron db) := by
    intro hq
    obtain ⟨gs, qs, ss, heq⟩ := op.quiet_sameJobs cron db hq
    rw [heq]
    exact hsame (.of_jobs hf rfl rfl)
  cases op with
  | enqueue r now =>
    have hg := hgrows (enqueueDyn_grows db r now)
    rw [Op.apply_enqueue]
    exact hg
  | enqueueMany => exact commitFst_inv hrefl (fun _ _ he => hgrows (enqueueManyDyn_grows he))
  | sqlEnqueue => exact commit_inv hrefl (fun _ he => hgrows (sqlEnqueue_grows he))
  | enqueueBatch => exact commitFst_inv hrefl (fun _ _ he => hgrows (enqueueBatch_grows he))
  | claim a now clock order => exact absurd rfl (hc a now clock order)
  | heartbeat ids now =>
    refine (heartbeat_turned hf ids now).livesMoved hf fun j => ?_
    split <;> exact .stay _
  | completed | failed => exact hv.elim
  | cancel i now =>
    refine commitFst_inv hrefl (fun _ _ he => (cancel_turned hf he).livesMoved hf fun j => ?_)
    split
    · next hp => exact .cancel (pending_phase (of_decide_eq_true (Bool.and_eq_true _ _ ▸ hp).2))
    · exact .stay _
  | sweepStale => exact commitFst_inv hrefl (fun _ _ he => (recover_turned hf he).livesMoved hf (recover_moved _ _ _))
  | reclaimInFlight =>
    exact commitFst_inv hrefl (fun _ _ he => (reclaimInFlight_turned hf he).livesMoved hf (recover_moved _ _ _))
  | cleanup r now => exact (cleanup_thinned db r now).livesMoved
  | cleanJobs st grace limit now => exact Thinned.livesMoved (.delete db (fun id => decide (id ∉ _)))
  | tick now clock => exact commit_inv hrefl (fun _ he => hsame (fireSchedules_turned cron clock hf he))
  | groupSetRule =>
    refine commit_inv hrefl (fun _ he => ?_)
    obtain ⟨rs, rfl, _⟩ := groupSetRule_ok he
    exact hsame (.of_jobs hf rfl rfl)
  | groupRemoveRule => exact hsame (.of_jobs hf rfl rfl)
  | _ => exact hquiet rfl

/-- A claim gives out leases on the pending jobs it starts. -/
theorem claimBatch_leases (h : Counted db) (a : ClaimArgs) (now clock : ℤ) (order : MapOrder) :
    (Op.claim a now clock order).leases db = [] ∧ (claimBatch db a now clock order).1 = db ∨
    ∃ ids : List JobId, (Op.claim a now clock order).leases db = (db.jobs.filter (fun j => j.id ∈ ids)).map
        (fun j => ⟨j.id, a.worker, j.attempt + 1, j.maxAttempts⟩) ∧
      (∀ j ∈ db.jobs, j.id ∈ ids → j.state = .pending) ∧
      (claimBatch db a now clock order).1.jobs = updateWhere (fun j => j.id ∈ ids) (·.start a.worker now) db.jobs ∧
      (claimBatch db a now clock order).1.nextJob = db.nextJob := by
  have hl : (Op.claim a now clock order).leases db = (claimBatch db a now clock order).2.map (·.toLease) := rfl
  rw [hl]
  rcases claimBatch_cases db a now clock order with heq | ⟨gs, qs, heq⟩
  · rw [heq]
    exact Or.inl ⟨rfl, rfl⟩
  · rw [heq, List.map_map]
    refine Or.inr ⟨(claimPicks db a now clock order).1.accepted.map (·.id), rfl, fun j hj hid => h.picked_pending hj hid, ?_⟩
    exact ⟨rfl, rfl⟩

theorem claimBatch_distinct (h : Counted db) (a : ClaimArgs) (now clock : ℤ) (order : MapOrder) :
    (((Op.claim a now clock order).leases db).map (·.job)).Nodup := by
  rcases claimBatch_leases h a now clock order with ⟨hl, _⟩ | ⟨ids, hl, _⟩
  · rw [hl]
    exact List.nodup_nil
  · rw [hl, List.map_map]
    exact h.ids.sublist (List.Sublist.map _ List.filter_sublist)

/-- The life of a job after a claim: it was handed out, or it is as it was. -/
theorem claimBatch_life (h : Counted db) (a : ClaimArgs) (now clock : ℤ) (order : MapOrder) (id : JobId) :
    (∃ x ∈ (Op.claim a now clock order).leases db, x.job = id ∧
      Life.Handed x (db.life id) ((claimBatch db a now clock order).1.life id)) ∨
    (∀ x ∈ (Op.claim a now clock order).leases db, x.job ≠ id) ∧
      (claimBatch db a now clock order).1.life id = db.life id := by
  rcases claimBatch_leases h a now clock order with ⟨hnil, hsame⟩ | ⟨ids, hl, hp, hj, _⟩
  · rw [hnil, hsame]
    exact Or.inr ⟨fun _ hx => absurd hx List.not_mem_nil, rfl⟩
  rw [hl]
  have hrow := row_update (f := fun j : JobRow => j.start a.worker now) (fun _ => rfl) hj id
  by_cases hg : ∃ j, db.row id = some j ∧ id ∈ ids
  · obtain ⟨j, hr, hin⟩ := hg
    obtain ⟨hm, rfl⟩ := mem_row hr
    refine Or.inl ⟨_, List.mem_map_of_mem (List.mem_filter.mpr ⟨hm, decide_eq_true hin⟩), rfl, ?_⟩
    have hrow : (claimBatch db a now clock order).1.row j.id = some (j.start a.worker now) := by
      rw [hrow, hr]
      simp [hin]
    rw [Db.life, Db.life, hrow, hr]
    exact Life.Handed.claim (x := ⟨j.id, a.worker, j.attempt + 1, j.maxAttempts⟩) (pending_phase (hp j hm hin)) rfl rfl
  · refine Or.inr ⟨fun x hx he => ?_, ?_⟩
    · obtain ⟨j, hm, rfl⟩ := List.mem_map.mp hx
      obtain ⟨hm, hin⟩ := List.mem_filter.mp hm
      have he : j.id = id := he
      exact hg ⟨j, he ▸ h.row hm, he ▸ of_decide_eq_true hin⟩
    · rw [Db.life, Db.life, hrow]
      cases hr : db.row id with
      | none => rfl
      | some j =>
        have hnot : j.id ∉ ids := fun hin => hg ⟨j, hr, (mem_row hr).2 ▸ hin⟩
        simp [hnot]

/-- A running job under its worker is leased to it. -/
theorem leased_of_life {l : Life WorkerId} (hl : db.life id = some l) (hp : l.phase = .running (some w)) :
    ∃ j, db.row id = some j ∧ j.leasedTo id w := by
  obtain ⟨j, hj, rfl⟩ := Option.map_eq_some_iff.mp hl
  refine ⟨j, hj, ?_⟩
  have hst : j.state = .running ∧ j.workerId = some w := by
    cases hs : j.state <;> simp [JobRow.life, JobRow.phase, hs] at hp
    exact ⟨rfl, hp⟩
  simp [JobRow.leasedTo, JobRow.running, hst.1, hst.2, (mem_row hj).2]

/-- What a verdict makes of the row it is about. -/
def Verdict.turn (v : Verdict) (j : JobRow) : JobRow :=
  match v with
  | .completed result now => j.complete result now
  | .failed error retryAt now => j.failOr error retryAt now

theorem Verdict.turned (cron : Cron) (hf : db.Fresh) (v : Verdict) :
    Turned (fun j => if j.leasedTo id w then v.turn j else j) db ((v.toOp id w).apply cron db) ∨
      (v.toOp id w).apply cron db = db := by
  cases v with
  | completed result now =>
    show Turned _ db (commit db (markCompleted db id w result now)).1 ∨ (commit db (markCompleted db id w result now)).1 = db
    cases he : markCompleted db id w result now with
    | ok db' => exact Or.inl (markCompleted_turned hf he)
    | error e => exact Or.inr rfl
  | failed error retryAt now =>
    show Turned _ db (commit db (markFailed db id w error retryAt now)).1 ∨
      (commit db (markFailed db id w error retryAt now)).1 = db
    cases he : markFailed db id w error retryAt now with
    | ok db' => exact Or.inl (markFailed_turned hf he)
    | error e => exact Or.inr rfl

theorem Verdict.ruled {x : Lease JobId WorkerId} {v : Verdict} (hv : v.From x) (j : JobRow) :
    Life.Ruled x (some j.life) (some (v.turn j).life) := by
  cases v with
  | completed result now => exact .complete j.life
  | failed error retryAt now =>
    cases retryAt with
    | none => exact .fail j.life
    | some t =>
      refine .retry j.life ?_
      rcases hv with hv | ⟨t', hv⟩
      · cases hv
      · exact retrySchedule_some hv.symm

/-- **The backend is a lawful desk.** -/
theorem desk_lawful (cron : Cron) :
    (desk cron).Lawful Counted (fun db id => id < db.nextJob) Op.notVerdict (fun x v => v.From x) where
  call_inv h _ := h.step cron _
  judge_inv h _ := h.step cron _
  life_used := by
    intro db id l h hl
    obtain ⟨j, hj, _⟩ := Option.map_eq_some_iff.mp hl
    obtain ⟨hm, rfl⟩ := mem_row hj
    exact h.fresh j hm
  call_used := by
    intro db op id h hv hid
    have hid : id < db.nextJob := hid
    show id < (op.apply cron db).nextJob
    by_cases hc : ∃ a now clock order, op = .claim a now clock order
    · obtain ⟨a, now, clock, order, rfl⟩ := hc
      show id < (claimBatch db a now clock order).1.nextJob
      rcases claimBatch_leases h a now clock order with ⟨_, hsame⟩ | ⟨ids, _, _, _, hn⟩
      · rw [hsame]
        exact hid
      · rw [hn]
        exact hid
    · exact lt_of_lt_of_le hid
        (op.livesMoved cron h hv (fun a now clock order he => hc ⟨a, now, clock, order, he⟩)).next
  judge_used := by
    intro db v id x h _ hid
    show id < ((v.toOp x.job x.worker).apply cron db).nextJob
    rcases Verdict.turned cron h.fresh v with ht | hsame
    · exact lt_of_lt_of_le hid ht.next
    · rw [hsame]
      exact hid
  distinct := by
    intro db op h
    show ((op.leases db).map (·.job)).Nodup
    cases op with
    | claim a now clock order => exact claimBatch_distinct h a now clock order
    | _ => exact List.nodup_nil
  handed := by
    intro db op x h hx
    have hx : x ∈ op.leases db := hx
    cases op with
    | claim a now clock order =>
      rcases claimBatch_life h a now clock order x.job with ⟨y, hy, hyx, hh⟩ | ⟨hno, _⟩
      · have heq : y = x := List.inj_on_of_nodup_map (claimBatch_distinct h a now clock order) hy hx hyx
        subst heq
        exact hh
      · exact absurd rfl (hno x hx)
    | _ => exact absurd hx List.not_mem_nil
  moved := by
    intro db op id h hv hno
    have hno : ∀ x ∈ op.leases db, x.job ≠ id := hno
    show Life.Moved (id < db.nextJob) (db.life id) ((op.apply cron db).life id)
    by_cases hc : ∃ a now clock order, op = .claim a now clock order
    · obtain ⟨a, now, clock, order, rfl⟩ := hc
      show Life.Moved _ _ ((claimBatch db a now clock order).1.life id)
      rcases claimBatch_life h a now clock order id with ⟨x, hx, hxid, _⟩ | ⟨_, hsame⟩
      · exact absurd hxid (hno x hx)
      · rw [hsame]
        exact .stay _
    · exact (op.livesMoved cron h hv (fun a now clock order he => hc ⟨a, now, clock, order, he⟩)).moved id
  ruled := by
    rintro db x v h ⟨l, hlife, hp⟩ hv
    obtain ⟨j, hj, hl⟩ := leased_of_life hlife hp
    show Life.Ruled x (db.life x.job) (((v.toOp x.job x.worker).apply cron db).life x.job)
    rcases Verdict.turned cron h.fresh v with ht | hsame
    · have hid : x.job < db.nextJob := (mem_row hj).2 ▸ h.fresh j (mem_row hj).1
      rw [ht.life x.job hid, Db.life, hj]
      simp only [Option.map_some, hl, if_true]
      exact Verdict.ruled hv j
    · rw [hsame]
      exact .stay _
  spared := by
    intro db x v id h _ hne
    show Life.Moved (id < db.nextJob) (db.life id) (((v.toOp x.job x.worker).apply cron db).life id)
    rcases Verdict.turned cron h.fresh v with ht | hsame
    · refine ht.moved h.fresh (fun j hj => ?_)
      have hnot : ¬ j.leasedTo x.job x.worker := fun hl => hne ((mem_row hj).2.symm.trans (leasedTo_id j hl))
      rw [if_neg hnot]
      exact .stay _
    · rw [hsame]
      exact .stay _

end Desk

end Eddyq.Pg
