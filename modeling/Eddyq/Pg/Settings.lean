import Eddyq.Pg.Commits

/-!
# Settings on Postgres

The rows of `eddyq_groups` and `eddyq_queues` hold what an administrator set beside the counters and the bucket that every
claim and verdict writes. `group.rs` and `named_queue.rs` read them (`groupGet`, `queueGet`). A call that is not one of the
administrator's leaves the settings alone: it may add group rows, of a claim or of a rule, but never for a group that has
one (`Op.keepsSettings`).
-/

namespace Eddyq.Pg

open Eddyq.Lib

/-! ## Reading -/

/-- What an administrator sets for a group. -/
structure GroupSettings where
  maxConcurrency : ℤ := unlimited
  paused : Bool := false
  rateCount : Option ℤ := none
  ratePeriodMs : Option ℤ := none
  deriving DecidableEq

/-- What an administrator sets for a named queue. -/
structure QueueSettings where
  maxConcurrency : ℤ := unlimited
  paused : Bool := false
  defaultTimeoutMs : Option ℤ := none
  deriving DecidableEq

/-- The settings of a group row. -/
def GroupRow.settings (g : GroupRow) : GroupSettings where
  maxConcurrency := g.maxConcurrency
  paused := g.paused
  rateCount := g.rateCount
  ratePeriodMs := g.ratePeriodMs

/-- The settings of a queue row. -/
def QueueRow.settings (q : QueueRow) : QueueSettings where
  maxConcurrency := q.maxConcurrency
  paused := q.paused
  defaultTimeoutMs := q.defaultTimeoutMs

/-- `group::get`. -/
def groupGet (db : Db) (key : String) : Option GroupRow := db.groups.find? (·.key = key)

/-- `named_queue::get`. -/
def queueGet (db : Db) (name : String) : Option QueueRow := db.queues.find? (·.name = name)

/-! ## Frame -/

/-- The groups with their settings. -/
def Db.groupRows (db : Db) : List (String × GroupSettings) := db.groups.map (fun g => (g.key, g.settings))

/-- The queues with theirs. -/
def Db.queueRows (db : Db) : List (String × QueueSettings) := db.queues.map (fun q => (q.name, q.settings))

/-- The group rows stay, each with its settings, and rows may be added; so do the queue rows, and none is added. -/
structure KeepsSettings (db db' : Db) : Prop where
  groups : db.groupRows <+: db'.groupRows
  queues : db'.queueRows = db.queueRows

section Keeps

variable {db db' db₁ : Db} {now : ℤ}

theorem KeepsSettings.same (hg : db'.groupRows = db.groupRows) (hq : db'.queueRows = db.queueRows) : KeepsSettings db db' :=
  ⟨hg ▸ List.prefix_refl _, hq⟩

theorem KeepsSettings.congr (hg : db'.groups = db.groups) (hq : db'.queues = db.queues) : KeepsSettings db db' :=
  .same (congrArg (List.map _) hg) (congrArg (List.map _) hq)

theorem KeepsSettings.refl (db : Db) : KeepsSettings db db := .congr rfl rfl

theorem KeepsSettings.trans (h : KeepsSettings db db₁) (h' : KeepsSettings db₁ db') : KeepsSettings db db' :=
  ⟨h.groups.trans h'.groups, h'.queues.trans h.queues⟩

/-- An update of other columns of the groups. -/
theorem groupRows_update {p : GroupRow → Bool} {f : GroupRow → GroupRow}
    (hf : ∀ g, ((f g).key, (f g).settings) = (g.key, g.settings)) (gs : List GroupRow) :
    (updateWhere p f gs).map (fun g => (g.key, g.settings)) = gs.map (fun g => (g.key, g.settings)) :=
  map_updateWhere (g := fun g : GroupRow => (g.key, g.settings)) hf gs

/-- Of the queues. -/
theorem queueRows_update {p : QueueRow → Bool} {f : QueueRow → QueueRow}
    (hf : ∀ q, ((f q).name, (f q).settings) = (q.name, q.settings)) (qs : List QueueRow) :
    (updateWhere p f qs).map (fun q => (q.name, q.settings)) = qs.map (fun q => (q.name, q.settings)) :=
  map_updateWhere (g := fun q : QueueRow => (q.name, q.settings)) hf qs

/-- A new group row. -/
theorem KeepsSettings.append (g : GroupRow) (hg : db'.groups = db.groups ++ [g]) (hq : db'.queues = db.queues) :
    KeepsSettings db db' :=
  ⟨by rw [Db.groupRows, Db.groupRows, hg, List.map_append]; exact List.prefix_append _ _, congrArg (List.map _) hq⟩

theorem Grow.keepsSettings (h : Grow db db') : KeepsSettings db db' := by
  cases h with
  | insert hi => cases hi <;> exact .congr rfl rfl
  | materialize hm =>
    cases hm with
    | same => exact .refl _
    | row g => exact .append g rfl rfl
  | batches => exact .congr rfl rfl

theorem Grows.keepsSettings (h : Grows db db') : KeepsSettings db db' := by
  induction h with
  | refl => exact .refl _
  | tail _ hs ih => exact ih.trans hs.keepsSettings

theorem dropSlots_keepsSettings (db : Db) (g : Option String) (q : String) : KeepsSettings db (dropSlots db g q) := by
  unfold dropSlots
  cases g with
  | none => exact .same rfl (queueRows_update (fun _ => by rfl) _)
  | some key => exact .same (groupRows_update (fun _ => by rfl) _) (queueRows_update (fun _ => by rfl) _)

theorem Reported.keepsSettings {p : JobRow → Bool} {f : JobRow → JobRow} (h : Reported db p f now db') :
    KeepsSettings db db' := by
  have hrow : KeepsSettings db { db with jobs := updateWhere p f db.jobs } := .congr rfl rfl
  cases h with
  | stale => exact .refl _
  | retried => exact hrow.trans (dropSlots_keepsSettings _ _ _)
  | ended _ _ settled => exact (hrow.trans (dropSlots_keepsSettings _ _ _)).trans (settleBatch_grows settled).keepsSettings

theorem cancel_keepsSettings {id : JobId} {b : Bool} (h : cancel db id now = .ok (db', b)) : KeepsSettings db db' := by
  have hk := (cancel_grows h).keepsSettings
  exact ⟨hk.groups, hk.queues⟩

theorem recover_keepsSettings {p : JobRow → Bool} {error : Json} {n : Nat} (h : recover db p error now = .ok (db', n)) :
    KeepsSettings db db' := by
  obtain ⟨db₁, hu, h⟩ := bind_eq_ok h
  obtain ⟨db₂, hf, h⟩ := bind_eq_ok h
  cases h
  refine KeepsSettings.trans ?_ ((updateBatches_grows hu).keepsSettings.trans (fireAll_grows hf).keepsSettings)
  exact .same (groupRows_update (fun _ => by rfl) _) (queueRows_update (fun _ => by rfl) _)

theorem reclaimInFlight_keepsSettings {ids : List JobId} {n : Nat} (h : reclaimInFlight db ids now = .ok (db', n)) :
    KeepsSettings db db' := by
  unfold reclaimInFlight at h
  split at h
  · cases h
    exact .refl _
  · exact recover_keepsSettings h

/-- An upsert that leaves the settings of a row that is there alone. -/
theorem KeepsSettings.upsertGroup (new : GroupRow) {f : GroupRow → GroupRow}
    (hf : ∀ g, ((f g).key, (f g).settings) = (g.key, g.settings)) : KeepsSettings db (upsertGroup db new f) := by
  unfold Pg.upsertGroup
  split
  · exact .same (groupRows_update hf _) rfl
  · exact .append new rfl rfl

theorem bumpGroup_keepsSettings (slots : List (String × GroupState)) (rows : List JobRow) (clock : ℤ) (db : Db)
    (key : String) : KeepsSettings db (bumpGroup slots rows clock db key) := by
  unfold bumpGroup
  dsimp only
  split
  · split
    · exact .upsertGroup _ (fun _ => rfl)
    · exact .upsertGroup _ (fun _ => rfl)
  · exact .upsertGroup _ (fun _ => rfl)

theorem commitClaim_keepsSettings (db : Db) (a : ClaimArgs) (slots : List (String × GroupState)) (ids : List JobId)
    (now clock : ℤ) : KeepsSettings db (commitClaim db a slots ids now clock) := by
  rw [commitClaim_tables]
  refine List.foldlRecOn _ _ (motive := KeepsSettings db) ?_ (fun x hx n _ => ?_)
  · refine List.foldlRecOn _ _ (motive := KeepsSettings db) (.congr rfl rfl) (fun x hx key _ => ?_)
    exact hx.trans (bumpGroup_keepsSettings _ _ _ _ _)
  · exact hx.trans (.same rfl (queueRows_update (fun _ => by rfl) _))

theorem claimBatch_keepsSettings (db : Db) (a : ClaimArgs) (now clock : ℤ) (order : MapOrder) :
    KeepsSettings db (claimBatch db a now clock order).1 := by
  rcases claimBatch_inv db a now clock order with heq | heq
  · rw [heq]
    exact .refl _
  · rw [heq]
    exact commitClaim_keepsSettings _ _ _ _ _ _

theorem fireSchedules_keepsSettings (cron : Cron) (clock : ℤ) : ∀ {ss : List ScheduleRow} {db db' : Db},
    fireSchedules cron db ss now clock = .ok db' → KeepsSettings db db'
  | [], _, _, h => by cases h; exact .refl _
  | s :: ss, _, _, h => by
    obtain ⟨db₁, hf, h⟩ := bind_eq_ok h
    obtain ⟨next, _, hf⟩ := bind_eq_ok hf
    cases hf
    have hrest := fireSchedules_keepsSettings cron clock h
    exact ⟨hrest.groups, hrest.queues⟩

theorem upsertScheduleRow_keepsSettings (db : Db) (b : ScheduleBody) (c : Option String) (i : Option ℤ)
    (same : ScheduleRow → Bool) (next : ℤ) : KeepsSettings db (upsertScheduleRow db b c i same next) := by
  unfold upsertScheduleRow
  split
  · exact .congr rfl rfl
  · exact .congr rfl rfl

theorem syncSchedules_keepsSettings {cron : Cron} {declared : List (ScheduleBody × String)} {clock : ℤ}
    (h : syncSchedules cron db declared clock = .ok db') : KeepsSettings db db' := by
  obtain ⟨prepared, _, h⟩ := bind_eq_ok h
  cases h
  have hrows := List.foldlRecOn prepared
    (fun db p => upsertScheduleRow db p.1 (some p.2.1) none (·.cronExpr = some p.2.1) p.2.2) (motive := KeepsSettings db)
    (.refl db) (fun x hx p _ => hx.trans (upsertScheduleRow_keepsSettings x p.1 _ _ _ _))
  exact ⟨hrows.groups, hrows.queues⟩

end Keeps

/-- The calls that set the limits of a group or a queue. -/
def Op.administers : Op → Bool
  | .groupSetConcurrency .. | .groupSetPaused .. | .groupSetRate .. | .groupClearRate .. => true
  | .queueSetConcurrency .. | .queueSetPaused .. | .queueSetTimeout .. => true
  | _ => false

/-- **Every other call** leaves the settings alone. -/
theorem Op.keepsSettings (cron : Cron) (db : Db) (op : Op) (ho : op.administers = false) :
    KeepsSettings db (op.apply cron db) := by
  have hrefl := KeepsSettings.refl db
  cases op with
  | enqueue r now =>
    have hg := (enqueueDyn_grows db r now).keepsSettings
    rw [Op.apply_enqueue]
    exact hg
  | enqueueMany => exact commitFst_inv hrefl (fun _ _ he => (enqueueManyDyn_grows he).keepsSettings)
  | sqlEnqueue => exact commit_inv hrefl (fun _ he => (sqlEnqueue_grows he).keepsSettings)
  | enqueueBatch => exact commitFst_inv hrefl (fun _ _ he => (enqueueBatch_grows he).keepsSettings)
  | claim a now clock order => exact claimBatch_keepsSettings db a now clock order
  | completed => exact commit_inv hrefl (fun _ he => (markCompleted_ok he).keepsSettings)
  | failed => exact commit_inv hrefl (fun _ he => (markFailed_ok he).keepsSettings)
  | cancel => exact commitFst_inv hrefl (fun _ _ he => cancel_keepsSettings he)
  | sweepStale => exact commitFst_inv hrefl (fun _ _ he => recover_keepsSettings he)
  | reclaimInFlight => exact commitFst_inv hrefl (fun _ _ he => reclaimInFlight_keepsSettings he)
  | reconcile => exact .same (groupRows_update (fun _ => by rfl) _) (queueRows_update (fun _ => by rfl) _)
  | heartbeat | cleanup | cleanJobs | removeSchedule | setScheduleEnabled | groupRemoveRule => exact .congr rfl rfl
  | tick => exact commit_inv hrefl (fun _ he => fireSchedules_keepsSettings cron _ he)
  | upsertSchedule =>
    refine commit_inv hrefl (fun _ he => ?_)
    obtain ⟨_, _, he⟩ := bind_eq_ok he
    obtain ⟨_, _, he⟩ := bind_eq_ok he
    cases he
    exact upsertScheduleRow_keepsSettings _ _ _ _ _ _
  | upsertInterval =>
    refine commit_inv hrefl (fun _ he => ?_)
    obtain ⟨_, _, he⟩ := bind_eq_ok he
    split at he
    · cases he
    · cases he
      exact upsertScheduleRow_keepsSettings _ _ _ _ _ _
  | syncSchedules => exact commit_inv hrefl (fun _ he => syncSchedules_keepsSettings he)
  | groupSetRule =>
    refine commit_inv hrefl (fun _ he => ?_)
    obtain ⟨rs, rfl, _⟩ := groupSetRule_ok he
    exact .congr rfl rfl
  | _ => cases ho

/-! ## What the settings read -/

section Read

variable {db db' : Db}

theorem groupGet_settings (db : Db) (key : String) :
    (groupGet db key).map (·.settings) = (db.groupRows.find? (fun x => x.1 = key)).map Prod.snd :=
  find?_map_key (g := GroupRow.key) GroupRow.settings key db.groups

theorem queueGet_settings (db : Db) (name : String) :
    (queueGet db name).map (·.settings) = (db.queueRows.find? (fun x => x.1 = name)).map Prod.snd :=
  find?_map_key (g := QueueRow.name) QueueRow.settings name db.queues

/-- A group row that is there keeps its settings. -/
theorem KeepsSettings.groupGet (h : KeepsSettings db db') {key : String} {v : GroupSettings}
    (hv : (Pg.groupGet db key).map (·.settings) = some v) : (Pg.groupGet db' key).map (·.settings) = some v := by
  rw [groupGet_settings] at hv ⊢
  obtain ⟨x, hx, rfl⟩ := Option.map_eq_some_iff.mp hv
  rw [h.groups.find?_eq_some hx]
  rfl

/-- So does a queue, whether it has a row or not. -/
theorem KeepsSettings.queueGet (h : KeepsSettings db db') (name : String) :
    (Pg.queueGet db' name).map (·.settings) = (Pg.queueGet db name).map (·.settings) := by
  rw [queueGet_settings, queueGet_settings, h.queues]

end Read

end Eddyq.Pg
