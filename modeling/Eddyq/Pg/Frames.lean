import Eddyq.Pg.Inversion

/-!
# What a call leaves alone

Verdicts and claims write job rows and the counters (`dropSlots_frame`, `commitClaim_eq`); the admin calls touch neither
jobs nor batches (`Op.quiet_sameJobs`), and the calls on jobs neither rules nor schedules (`Op.sameAdmin`). No call takes
a callback away from a batch or unfires it (`Op.kept_step`).
-/

namespace Eddyq.Pg

open Eddyq.Lib

variable {db db' : Db} {now : ℤ}

/-! ## Slots and claims -/

/-- Only counters differ. -/
structure SlotsOnly (db db' : Db) : Prop where
  jobs : db'.jobs = db.jobs
  batches : db'.batches = db.batches
  nextBatch : db'.nextBatch = db.nextBatch
  rules : db'.rules = db.rules
  schedules : db'.schedules = db.schedules

theorem dropSlots_frame (db : Db) (g : Option String) (q : String) : SlotsOnly db (dropSlots db g q) := by
  unfold dropSlots dropQueue dropGroup
  cases g <;> exact ⟨rfl, rfl, rfl, rfl, rfl⟩

theorem dropSlots_nextJob (db : Db) (g : Option String) (q : String) : (dropSlots db g q).nextJob = db.nextJob := by
  unfold dropSlots dropQueue dropGroup
  cases g <;> rfl

/-- After the row and the slots of a verdict only rows are added. -/
theorem Reported.released {p : JobRow → Bool} {f : JobRow → JobRow} (h : Reported db p f now db') :
    ∃ db₁, SlotsOnly { db with jobs := updateWhere p f db.jobs } db₁ ∧ db₁.nextJob = db.nextJob ∧ Grows db₁ db' := by
  cases h with
  | stale gone => exact ⟨db, ⟨(updateWhere_of_find_none f gone).symm, rfl, rfl, rfl, rfl⟩, rfl, .refl⟩
  | retried => exact ⟨_, dropSlots_frame _ _ _, dropSlots_nextJob _ _ _, .refl⟩
  | ended _ _ settled => exact ⟨_, dropSlots_frame _ _ _, dropSlots_nextJob _ _ _, settleBatch_grows settled⟩

/-- `bumpGroup` is an upsert of the counter, whatever it does to the tokens. -/
theorem bumpGroup_eq (slots : List (String × GroupState)) (rows : List JobRow) (clock : ℤ) (db : Db) (key : String) :
    ∃ (new : GroupRow) (f : GroupRow → GroupRow), bumpGroup slots rows clock db key = upsertGroup db new f ∧
      new.key = key ∧ new.runningCount = groupDelta rows key ∧
      ∀ g, (f g).key = g.key ∧ (f g).runningCount = g.runningCount + groupDelta rows key := by
  unfold bumpGroup
  dsimp only
  split
  · split
    · exact ⟨_, _, rfl, rfl, rfl, fun _ => ⟨rfl, rfl⟩⟩
    · exact ⟨_, _, rfl, rfl, rfl, fun _ => ⟨rfl, rfl⟩⟩
  · exact ⟨_, _, rfl, rfl, rfl, fun _ => ⟨rfl, rfl⟩⟩

/-- A claim starts its jobs and writes counters. -/
theorem commitClaim_eq (db : Db) (a : ClaimArgs) (slots : List (String × GroupState)) (ids : List JobId)
    (now clock : ℤ) : ∃ gs qs, commitClaim db a slots ids now clock = { db with
      jobs := updateWhere (fun j => j.id ∈ ids) (·.start a.worker now) db.jobs, groups := gs, queues := qs } := by
  unfold Pg.commitClaim
  dsimp only
  refine List.foldlRecOn _ _ (motive := fun x : Db => ∃ gs qs, x = { db with
    jobs := updateWhere (fun j => j.id ∈ ids) (·.start a.worker now) db.jobs, groups := gs, queues := qs }) ?_
    (fun x hx n _ => ?_)
  · refine List.foldlRecOn _ _ (motive := fun x : Db => ∃ gs qs, x = { db with
      jobs := updateWhere (fun j => j.id ∈ ids) (·.start a.worker now) db.jobs, groups := gs, queues := qs })
      ⟨_, _, rfl⟩ (fun x hx key _ => ?_)
    obtain ⟨gs, qs, rfl⟩ := hx
    obtain ⟨new, f, heq, _⟩ := bumpGroup_eq slots (claimedRows db ids a.worker now) clock
      { db with jobs := updateWhere (fun j => j.id ∈ ids) (·.start a.worker now) db.jobs, groups := gs, queues := qs } key
    rw [heq]
    unfold upsertGroup
    split <;> exact ⟨_, _, rfl⟩
  · obtain ⟨gs, qs, rfl⟩ := hx
    exact ⟨_, _, rfl⟩

/-- A claim does nothing, or it commits its picks and replies with their rows. -/
theorem claimBatch_inv (db : Db) (a : ClaimArgs) (now clock : ℤ) (order : MapOrder) :
    claimBatch db a now clock order = (db, []) ∨
    claimBatch db a now clock order =
      (commitClaim db a (claimPicks db a now clock order).2 ((claimPicks db a now clock order).1.accepted.map (·.id)) now clock,
        (claimedRows db ((claimPicks db a now clock order).1.accepted.map (·.id)) a.worker now).map
          (fun j => j.toClaimed a.worker (queueTimeout (readQueues db a.queues) j.queue))) := by
  unfold Pg.claimBatch
  split
  · exact Or.inl rfl
  dsimp only
  split
  · exact Or.inl rfl
  split
  · exact Or.inl rfl
  · exact Or.inr rfl

/-- A claim does nothing, or starts the jobs it picked and replies with them. -/
theorem claimBatch_cases (db : Db) (a : ClaimArgs) (now clock : ℤ) (order : MapOrder) :
    claimBatch db a now clock order = (db, []) ∨ ∃ gs qs, claimBatch db a now clock order = ({ db with
      jobs := updateWhere (fun j => j.id ∈ (claimPicks db a now clock order).1.accepted.map (·.id))
        (·.start a.worker now) db.jobs, groups := gs, queues := qs },
      (db.jobs.filter (fun j => j.id ∈ (claimPicks db a now clock order).1.accepted.map (·.id))).map (fun j =>
        (j.start a.worker now).toClaimed a.worker (queueTimeout (readQueues db a.queues) j.queue))) := by
  rcases claimBatch_inv db a now clock order with heq | heq
  · exact Or.inl heq
  · obtain ⟨gs, qs, hcommit⟩ := commitClaim_eq db a (claimPicks db a now clock order).2
      ((claimPicks db a now clock order).1.accepted.map (·.id)) now clock
    rw [heq, hcommit, claimedRows, List.map_map]
    exact Or.inr ⟨gs, qs, rfl⟩

/-! ## Calls that touch neither jobs nor batches -/

/-- The admin calls but those on rules, and the calls on schedules but the tick. -/
def Op.quiet : Op → Bool
  | .reconcile | .upsertSchedule .. | .upsertInterval .. | .syncSchedules .. | .removeSchedule .. => true
  | .setScheduleEnabled .. | .groupSetConcurrency .. | .groupSetPaused .. | .groupSetRate .. => true
  | .groupClearRate .. | .queueSetConcurrency .. | .queueSetPaused .. | .queueSetTimeout .. => true
  | _ => false

/-- The tables that such calls may change. -/
def Db.SameJobs (db db' : Db) : Prop :=
  ∃ gs qs ss, db' = { db with groups := gs, queues := qs, schedules := ss }

theorem Db.SameJobs.refl (db : Db) : db.SameJobs db := ⟨_, _, _, rfl⟩

theorem upsertGroup_sameJobs (db : Db) (new : GroupRow) (f : GroupRow → GroupRow) :
    db.SameJobs (upsertGroup db new f) := by
  unfold upsertGroup
  split <;> exact ⟨_, _, _, rfl⟩

theorem upsertQueue_sameJobs (db : Db) (new : QueueRow) (f : QueueRow → QueueRow) :
    db.SameJobs (upsertQueue db new f) := by
  unfold upsertQueue
  split <;> exact ⟨_, _, _, rfl⟩

theorem upsertScheduleRow_sameJobs {db₀ : Db} (h : db₀.SameJobs db) (b : ScheduleBody) (c : Option String)
    (i : Option ℤ) (same : ScheduleRow → Bool) (next : ℤ) : db₀.SameJobs (upsertScheduleRow db b c i same next) := by
  obtain ⟨gs, qs, ss, rfl⟩ := h
  unfold upsertScheduleRow
  split <;> exact ⟨_, _, _, rfl⟩

theorem syncSchedules_sameJobs {cron : Cron} {declared : List (ScheduleBody × String)} {clock : ℤ}
    (he : syncSchedules cron db declared clock = .ok db') : db.SameJobs db' := by
  obtain ⟨prepared, _, he⟩ := bind_eq_ok he
  cases he
  have h := List.foldlRecOn prepared
    (fun db p => upsertScheduleRow db p.1 (some p.2.1) none (·.cronExpr = some p.2.1) p.2.2)
    (motive := fun x : Db => db.SameJobs x) (.refl db) (fun x hx p _ => upsertScheduleRow_sameJobs hx p.1 _ _ _ _)
  obtain ⟨gs, qs, ss, heq⟩ := h
  exact ⟨gs, qs, _, by rw [heq]⟩

theorem Op.quiet_sameJobs (cron : Cron) (db : Db) (op : Op) (ho : op.quiet) : db.SameJobs (op.apply cron db) := by
  cases op with
  | reconcile => exact ⟨_, _, _, rfl⟩
  | upsertSchedule => exact commit_inv (.refl db) (fun _ he => by
      obtain ⟨_, _, he⟩ := bind_eq_ok he
      obtain ⟨_, _, he⟩ := bind_eq_ok he
      cases he
      exact upsertScheduleRow_sameJobs (.refl db) _ _ _ _ _)
  | upsertInterval => exact commit_inv (.refl db) (fun _ he => by
      obtain ⟨_, _, he⟩ := bind_eq_ok he
      split at he
      · cases he
      · cases he
        exact upsertScheduleRow_sameJobs (.refl db) _ _ _ _ _)
  | syncSchedules => exact commit_inv (.refl db) (fun _ he => syncSchedules_sameJobs he)
  | removeSchedule => exact ⟨_, _, _, rfl⟩
  | setScheduleEnabled => exact ⟨_, _, _, rfl⟩
  | groupSetConcurrency => exact upsertGroup_sameJobs db _ _
  | groupSetPaused => exact upsertGroup_sameJobs db _ _
  | groupSetRate => exact commit_inv (.refl db) (fun _ he => by
      unfold Pg.groupSetRate at he
      dsimp only at he
      split at he
      · cases he
      · cases he
        exact upsertGroup_sameJobs db _ _)
  | groupClearRate => exact ⟨_, _, _, rfl⟩
  | queueSetConcurrency => exact upsertQueue_sameJobs db _ _
  | queueSetPaused => exact upsertQueue_sameJobs db _ _
  | queueSetTimeout => exact upsertQueue_sameJobs db _ _
  | _ => exact absurd ho Bool.false_ne_true

/-- The rules after `set_rule`: the new one and old ones. -/
theorem groupSetRule_ok {pattern : String} {rule : GroupRule} (h : groupSetRule db pattern rule = .ok db') :
    ∃ rs, db' = { db with rules := rs } ∧ ∀ r ∈ rs, r ∈ db.rules ∨ r = rule.toRow pattern := by
  unfold groupSetRule at h
  split_ifs at h
  · cases h
    refine ⟨_, rfl, fun r hr => ?_⟩
    obtain ⟨r₀, hr₀, rfl⟩ := mem_updateWhere.mp hr
    split
    · exact Or.inr rfl
    · exact Or.inl hr₀
  · cases h
    refine ⟨_, rfl, fun r hr => ?_⟩
    rcases List.mem_append.mp hr with hr | hr
    · exact Or.inl hr
    · exact Or.inr (List.mem_singleton.mp hr)

/-! ## Calls on jobs -/

/-- The tables that only admin calls and calls on schedules write. -/
structure SameAdmin (db db' : Db) : Prop where
  rules : db'.rules = db.rules
  schedules : db'.schedules = db.schedules

theorem SameAdmin.refl (db : Db) : SameAdmin db db := ⟨rfl, rfl⟩

theorem SameAdmin.trans {db₁ db₂ db₃ : Db} (h : SameAdmin db₁ db₂) (h' : SameAdmin db₂ db₃) : SameAdmin db₁ db₃ :=
  ⟨h'.rules.trans h.rules, h'.schedules.trans h.schedules⟩

theorem Grows.sameAdmin (h : Grows db db') : SameAdmin db db' := by
  induction h with
  | refl => exact .refl _
  | tail _ hs ih =>
    refine ih.trans ?_
    cases hs with
    | insert hi => cases hi <;> exact ⟨rfl, rfl⟩
    | materialize hm => cases hm <;> exact ⟨rfl, rfl⟩
    | batches => exact ⟨rfl, rfl⟩

theorem SlotsOnly.sameAdmin (h : SlotsOnly db db') : SameAdmin db db' := ⟨h.rules, h.schedules⟩

theorem Reported.sameAdmin {p : JobRow → Bool} {f : JobRow → JobRow} (h : Reported db p f now db') : SameAdmin db db' := by
  obtain ⟨db₁, hs, -, hg⟩ := h.released
  have ha := hs.sameAdmin.trans hg.sameAdmin
  exact ⟨ha.rules, ha.schedules⟩

theorem cancel_sameAdmin {id : JobId} {b : Bool} (h : cancel db id now = .ok (db', b)) : SameAdmin db db' := by
  have ha := (cancel_grows h).sameAdmin
  exact ⟨ha.rules, ha.schedules⟩

theorem recover_sameAdmin {p : JobRow → Bool} {error : Json} {n : Nat} (h : recover db p error now = .ok (db', n)) :
    SameAdmin db db' := by
  obtain ⟨db₁, hu, h⟩ := bind_eq_ok h
  obtain ⟨db₂, hf, h⟩ := bind_eq_ok h
  cases h
  have ha := (updateBatches_grows hu).sameAdmin.trans (fireAll_grows hf).sameAdmin
  exact ⟨ha.rules, ha.schedules⟩

theorem reclaimInFlight_sameAdmin {ids : List JobId} {n : Nat} (h : reclaimInFlight db ids now = .ok (db', n)) :
    SameAdmin db db' := by
  unfold reclaimInFlight at h
  split at h
  · cases h; exact .refl _
  · exact recover_sameAdmin h

/-- The calls that work on jobs. -/
def Op.onJobs : Op → Bool
  | .enqueue .. | .enqueueMany .. | .sqlEnqueue .. | .enqueueBatch .. | .claim .. | .heartbeat .. => true
  | .completed .. | .failed .. | .cancel .. | .sweepStale .. | .reclaimInFlight .. | .reconcile => true
  | .cleanup .. | .cleanJobs .. => true
  | _ => false

theorem Op.sameAdmin (cron : Cron) (db : Db) (op : Op) (ho : op.onJobs) : SameAdmin db (op.apply cron db) := by
  have hrefl := SameAdmin.refl db
  cases op with
  | enqueue r now =>
    have hg := (enqueueDyn_grows db r now).sameAdmin
    rw [Op.apply_enqueue]
    exact hg
  | enqueueMany => exact commitFst_inv hrefl (fun _ _ he => (enqueueManyDyn_grows he).sameAdmin)
  | sqlEnqueue => exact commit_inv hrefl (fun _ he => (sqlEnqueue_grows he).sameAdmin)
  | enqueueBatch => exact commitFst_inv hrefl (fun _ _ he => (enqueueBatch_grows he).sameAdmin)
  | claim a now clock order =>
    show SameAdmin db (claimBatch db a now clock order).1
    rcases claimBatch_cases db a now clock order with heq | ⟨gs, qs, heq⟩
    · rw [heq]; exact hrefl
    · rw [heq]; exact ⟨rfl, rfl⟩
  | heartbeat => exact ⟨rfl, rfl⟩
  | completed => exact commit_inv hrefl (fun _ he => (markCompleted_ok he).sameAdmin)
  | failed => exact commit_inv hrefl (fun _ he => (markFailed_ok he).sameAdmin)
  | cancel => exact commitFst_inv hrefl (fun _ _ he => cancel_sameAdmin he)
  | sweepStale => exact commitFst_inv hrefl (fun _ _ he => recover_sameAdmin he)
  | reclaimInFlight => exact commitFst_inv hrefl (fun _ _ he => reclaimInFlight_sameAdmin he)
  | reconcile => exact ⟨rfl, rfl⟩
  | cleanup => exact ⟨rfl, rfl⟩
  | cleanJobs => exact ⟨rfl, rfl⟩
  | _ => exact absurd ho Bool.false_ne_true

/-! ## Batches stay -/

/-- The same batch later: its callback is the same and it stays fired. -/
structure BatchRow.Later (b b' : BatchRow) : Prop where
  id : b'.id = b.id
  onComplete : b'.onComplete = b.onComplete
  fired : b.callbackEnqueuedAt.isSome → b'.callbackEnqueuedAt.isSome

/-- Every batch was there before. -/
def Kept (l l' : List BatchRow) : Prop := ∀ b' ∈ l', ∃ b ∈ l, b.Later b'

theorem Kept.refl (l : List BatchRow) : Kept l l := fun b hb => ⟨b, hb, rfl, rfl, id⟩

theorem Kept.trans {l₁ l₂ l₃ : List BatchRow} (h : Kept l₁ l₂) (h' : Kept l₂ l₃) : Kept l₁ l₃ := by
  intro b₃ hb₃
  obtain ⟨b₂, hb₂, h₂⟩ := h' b₃ hb₃
  obtain ⟨b₁, hb₁, h₁⟩ := h b₂ hb₂
  exact ⟨b₁, hb₁, h₂.id.trans h₁.id, h₂.onComplete.trans h₁.onComplete, fun hf => h₂.fired (h₁.fired hf)⟩

theorem kept_updateWhere {p : BatchRow → Bool} {f : BatchRow → BatchRow} (hf : ∀ b : BatchRow, b.Later (f b))
    (l : List BatchRow) : Kept l (updateWhere p f l) := by
  intro b' hb'
  obtain ⟨b, hb, rfl⟩ := mem_updateWhere.mp hb'
  refine ⟨b, hb, ?_⟩
  split
  · exact hf b
  · exact ⟨rfl, rfl, id⟩

theorem later_claim (now : ℤ) (b : BatchRow) : b.Later (b.claim now) := ⟨rfl, rfl, fun _ => rfl⟩

theorem Appends.kept {rs : List DynEnqueue} {rows : List JobRow} (h : Appends rs now rows db db') :
    Kept db.batches db'.batches := by
  obtain ⟨_, _, rfl⟩ := h.tables
  exact .refl _

theorem insertDyn_kept {r : DynEnqueue} {id : Option JobId} (h : insertDyn db r now = .ok (db', id)) :
    Kept db.batches db'.batches := by
  obtain ⟨_, ha⟩ := insertDyn_appends h
  exact ha.kept

theorem updateBatches_bump_kept {p : BatchRow → Bool} {o : TerminalOutcome} {n : BatchRow → ℤ}
    (h : updateBatches db p (fun b => b.bump o (n b)) = .ok db') : Kept db.batches db'.batches := by
  rw [(updateBatches_ok h).1]
  exact kept_updateWhere (fun b => by cases o <;> exact ⟨rfl, rfl, id⟩) _

theorem tryClaimAndFire_kept {b : BatchId} (h : tryClaimAndFire db b now = .ok db') : Kept db.batches db'.batches := by
  unfold tryClaimAndFire at h
  split at h
  · cases h; exact .refl _
  · have hclaim : Kept db.batches (updateWhere (·.claimable b) (·.claim now) db.batches) :=
      kept_updateWhere (later_claim now) _
    dsimp only at h
    split at h
    · cases h; exact hclaim
    · obtain ⟨⟨db₁, id⟩, hi, h⟩ := bind_eq_ok h
      cases h
      exact hclaim.trans (insertDyn_kept hi)

theorem settleBatch_kept {b : Option BatchId} {o : TerminalOutcome} (h : settleBatch db b o now = .ok db') :
    Kept db.batches db'.batches := by
  cases b with
  | none => cases h; exact .refl _
  | some b =>
    obtain ⟨db₁, hu, h⟩ := bind_eq_ok h
    refine (updateBatches_bump_kept hu).trans ?_
    split at h
    · cases h; exact .refl _
    · split at h
      · cases h; exact .refl _
      · exact tryClaimAndFire_kept h

theorem fireAll_kept : ∀ {bs : List BatchId} {db db' : Db}, fireAll db bs now = .ok db' → Kept db.batches db'.batches
  | [], _, _, h => by cases h; exact .refl _
  | b :: bs, _, _, h => by
    obtain ⟨db₁, hf, h⟩ := bind_eq_ok h
    exact (tryClaimAndFire_kept hf).trans (fireAll_kept h)

theorem Reported.kept {p : JobRow → Bool} {f : JobRow → JobRow} (h : Reported db p f now db') :
    Kept db.batches db'.batches := by
  cases h with
  | stale => exact .refl _
  | retried =>
    rw [(dropSlots_frame _ _ _).batches]
    exact .refl _
  | ended _ _ settled =>
    have hs := settleBatch_kept settled
    rwa [(dropSlots_frame _ _ _).batches] at hs

theorem cancel_kept {id : JobId} {b : Bool} (h : cancel db id now = .ok (db', b)) : Kept db.batches db'.batches := by
  rcases cancel_ok h with ⟨_, rfl⟩ | ⟨j, _, hs⟩
  · exact .refl _
  · have hk := settleBatch_kept hs
    exact hk

theorem recover_kept {p : JobRow → Bool} {error : Json} {n : Nat} (h : recover db p error now = .ok (db', n)) :
    Kept db.batches db'.batches := by
  obtain ⟨db₁, hu, h⟩ := bind_eq_ok h
  obtain ⟨db₂, hf, h⟩ := bind_eq_ok h
  cases h
  have hb := updateBatches_bump_kept (n := fun b => _) hu
  exact hb.trans (fireAll_kept hf)

theorem reclaimInFlight_kept {ids : List JobId} {n : Nat} (h : reclaimInFlight db ids now = .ok (db', n)) :
    Kept db.batches db'.batches := by
  unfold reclaimInFlight at h
  split at h
  · cases h; exact .refl _
  · exact recover_kept h

/-- The batches after `enqueue_batch`: the old ones and the new one. -/
def KeptNew (db : Db) (cb : Option DynEnqueue) (l : List BatchRow) : Prop :=
  ∀ b' ∈ l, (∃ b ∈ db.batches, b.Later b') ∨ b'.id = db.nextBatch ∧ b'.onComplete = cb

theorem KeptNew.trans {cb : Option DynEnqueue} {l l' : List BatchRow} (h : KeptNew db cb l) (h' : Kept l l') :
    KeptNew db cb l' := by
  intro b' hb'
  obtain ⟨b, hb, hl⟩ := h' b' hb'
  rcases h b hb with ⟨b₀, hb₀, hl₀⟩ | ⟨hid, hcb⟩
  · exact Or.inl ⟨b₀, hb₀, hl.id.trans hl₀.id, hl.onComplete.trans hl₀.onComplete, fun hf => hl.fired (hl₀.fired hf)⟩
  · exact Or.inr ⟨hl.id.trans hid, hl.onComplete.trans hcb⟩

theorem enqueueBatch_kept {items : List DynEnqueue} {cb : Option DynEnqueue} {metadata : Json} {r : BatchId × Nat}
    (h : enqueueBatch db items cb metadata now = .ok (db', r)) : KeptNew db cb db'.batches := by
  unfold enqueueBatch at h
  obtain ⟨⟨db₁, n⟩, he, h⟩ := bind_eq_ok h
  obtain ⟨db₂, hu, h⟩ := bind_eq_ok h
  obtain ⟨rows, ha, _⟩ := enqueueManyDyn_appends he
  have h₀ : KeptNew db cb (db.batches ++ [newBatch db.nextBatch cb metadata now]) := by
    intro b hb
    rcases List.mem_append.mp hb with hb | hb
    · exact Or.inl ⟨b, hb, rfl, rfl, id⟩
    · rw [List.mem_singleton.mp hb]
      exact Or.inr ⟨rfl, rfl⟩
  have h₂ : KeptNew db cb db₂.batches := by
    rw [(updateBatches_ok hu).1]
    refine (h₀.trans ha.kept).trans (kept_updateWhere ?_ db₁.batches)
    exact fun _ => ⟨rfl, rfl, id⟩
  have h₃ := h₂.trans (kept_updateWhere (p := fun b => b.id = db.nextBatch) (later_claim now) db₂.batches)
  dsimp only at h
  split at h
  · split at h
    · cases h; exact h₃
    · obtain ⟨⟨db₃, id⟩, hi, h⟩ := bind_eq_ok h
      cases h
      exact h₃.trans (insertDyn_kept hi)
  · cases h; exact h₂

theorem fireSchedules_frame (cron : Cron) (clock : ℤ) : ∀ {ss : List ScheduleRow} {db db' : Db},
    fireSchedules cron db ss now clock = .ok db' → db'.batches = db.batches ∧ db'.rules = db.rules
  | [], _, _, h => by cases h; exact ⟨rfl, rfl⟩
  | s :: ss, _, _, h => by
    obtain ⟨db₁, hf, h⟩ := bind_eq_ok h
    obtain ⟨next, _, hf⟩ := bind_eq_ok hf
    cases hf
    obtain ⟨hb, hr⟩ := fireSchedules_frame cron clock h
    exact ⟨hb, hr⟩

/-- A call keeps the batches; `enqueue_batch` adds one. -/
theorem Op.kept_step (cron : Cron) (db : Db) (op : Op) : Kept db.batches (op.apply cron db).batches ∨
    ∃ items cb metadata now, op = .enqueueBatch items cb metadata now ∧ KeptNew db cb (op.apply cron db).batches := by
  have hquiet : op.quiet → Kept db.batches (op.apply cron db).batches := by
    intro hq
    obtain ⟨gs, qs, ss, heq⟩ := op.quiet_sameJobs cron db hq
    rw [heq]
    exact .refl _
  cases op with
  | enqueue r now =>
    refine Or.inl ?_
    obtain ⟨rows, ha⟩ := enqueueDyn_appends db r now
    rw [Op.apply_enqueue]
    exact ha.kept
  | enqueueMany rs now =>
    refine Or.inl (commitFst_inv (P := fun x => Kept db.batches x.batches) (.refl _) (fun _ _ he => ?_))
    obtain ⟨rows, ha, _⟩ := enqueueManyDyn_appends he
    exact ha.kept
  | sqlEnqueue r now =>
    refine Or.inl (commit_inv (P := fun x => Kept db.batches x.batches) (.refl _) (fun _ he => ?_))
    obtain ⟨rows, ha⟩ := sqlEnqueue_appends he
    exact ha.kept
  | enqueueBatch items cb metadata now =>
    refine Or.inr ⟨items, cb, metadata, now, rfl, ?_⟩
    refine commitFst_inv (P := fun x => KeptNew db cb x.batches) (fun b hb => Or.inl ?_) (fun _ _ he => ?_)
    · exact Kept.refl _ b hb
    · exact enqueueBatch_kept he
  | claim a now clock order =>
    refine Or.inl ?_
    rcases claimBatch_cases db a now clock order with heq | ⟨gs, qs, heq⟩
    · show Kept db.batches (claimBatch db a now clock order).1.batches
      rw [heq]
      exact .refl _
    · show Kept db.batches (claimBatch db a now clock order).1.batches
      rw [heq]
      exact .refl _
  | heartbeat => exact Or.inl (.refl _)
  | completed =>
    exact Or.inl (commit_inv (P := fun x => Kept db.batches x.batches) (.refl _) (fun _ he => (markCompleted_ok he).kept))
  | failed =>
    exact Or.inl (commit_inv (P := fun x => Kept db.batches x.batches) (.refl _) (fun _ he => (markFailed_ok he).kept))
  | cancel =>
    exact Or.inl (commitFst_inv (P := fun x => Kept db.batches x.batches) (.refl _) (fun _ _ he => cancel_kept he))
  | sweepStale =>
    exact Or.inl (commitFst_inv (P := fun x => Kept db.batches x.batches) (.refl _) (fun _ _ he => recover_kept he))
  | reclaimInFlight =>
    refine Or.inl (commitFst_inv (P := fun x => Kept db.batches x.batches) (.refl _) (fun _ _ he => ?_))
    exact reclaimInFlight_kept he
  | tick now clock =>
    refine Or.inl (commit_inv (P := fun x => Kept db.batches x.batches) (.refl _) (fun _ he => ?_))
    rw [(fireSchedules_frame cron clock he).1]
    exact .refl _
  | cleanup r now =>
    refine Or.inl (fun b hb => ?_)
    have hb : b ∈ db.batches.filter _ := hb
    exact Kept.refl _ b (List.mem_filter.mp hb).1
  | cleanJobs => exact Or.inl (.refl _)
  | groupSetRule =>
    refine Or.inl (commit_inv (P := fun x => Kept db.batches x.batches) (.refl _) (fun _ he => ?_))
    obtain ⟨rs, rfl, _⟩ := groupSetRule_ok he
    exact .refl _
  | groupRemoveRule => exact Or.inl (.refl _)
  | _ => exact Or.inl (hquiet rfl)

end Eddyq.Pg
