import Eddyq.LifeCycle
import Eddyq.Pg.Lives

/-!
# The life cycle on Postgres

`Does` is how the backend is asked: which transaction runs, with whatever clocks. `Does.shows` is the simulation: while
no batch and no group rule is in play, no transaction fails, and the rows show the life cycle.
-/

namespace Eddyq.Pg

open Eddyq.Lib

/-- The transaction that a request leads to, and the tables after it. -/
inductive Does (db : Db) : Ask → Db → Prop
  | enqueue (r : DynEnqueue) (now : ℤ) : Does db (.enqueue r) (enqueueDyn db r now).1
  | claim (a : ClaimArgs) (now clock : ℤ) (order : MapOrder) {ids : List JobId}
      (hids : ∀ id, id ∈ ids ↔ id ∈ (claimBatch db a now clock order).2.map (·.id)) :
      Does db (.claim ids a.worker) (claimBatch db a now clock order).1
  | complete (id : JobId) (w : WorkerId) (result : Option Json) (now : ℤ) :
      Does db (.complete id w result) (commit db (markCompleted db id w result now)).1
  | fail (id : JobId) (w : WorkerId) (error : Json) (retryAt : Option ℤ) (now : ℤ) :
      Does db (.fail id w error retryAt) (commit db (markFailed db id w error retryAt now)).1
  | sweep (staleAfterSecs : Nat) (now : ℤ) {ids : List JobId}
      (hids : ∀ id, id ∈ ids ↔ ∃ j ∈ db.jobs, j.id = id ∧ j.running ∧ j.stale now staleAfterSecs) :
      Does db (.sweep ids) (commitFst db (sweepStale db staleAfterSecs now)).1
  | reclaim (ids : List JobId) (now : ℤ) : Does db (.reclaim ids) (commitFst db (reclaimInFlight db ids now)).1
  | cancel (id : JobId) (now : ℤ) : Does db (.cancel id) (commitFst db (cancel db id now)).1
  /-- A delayed job is a pending row with a later time. -/
  | promote : Does db .promote db

/-- The tables show the life cycle; no batch and no group rule is in play. -/
structure Shows (db : Db) (c : LifeCycle) : Prop where
  counted : Counted db
  rules : db.rules = []
  batches : db.batches = []
  alone : ∀ j ∈ db.jobs, j.batchId = none
  /-- The backend never writes the state `scheduled`. -/
  unscheduled : ∀ j ∈ db.jobs, j.state ≠ .scheduled
  next : db.nextJob = c.next
  lives : db.life = c.lives

/-- An update of job rows; counters may have changed with it. -/
structure Edited (p : JobRow → Bool) (f : JobRow → JobRow) (db db' : Db) : Prop where
  jobs : db'.jobs = updateWhere p f db.jobs
  rules : db'.rules = db.rules
  batches : db'.batches = db.batches
  next : db'.nextJob = db.nextJob

section Shows

variable {db db' : Db} {c : LifeCycle} {id : JobId} {w : WorkerId} {now : ℤ}

/-- An update that is an event for the jobs it hits. -/
theorem Shows.edited (h : Shows db c) {p : JobRow → Bool} {f : JobRow → JobRow} (he : Edited p f db db')
    (hc : Counted db') (hid : ∀ j, (f j).id = j.id) (hb : ∀ j, (f j).batchId = j.batchId)
    (hs : ∀ j, (f j).state ≠ .scheduled) {q : JobId → Life WorkerId → Bool} {e : Event WorkerId}
    (hq : ∀ j, db.row j.id = some j → (if p j then f j else j).life = if q j.id j.life then j.life.next e else j.life) :
    Shows db' { c with lives := alter q e c.lives } := by
  refine ⟨hc, he.rules.trans h.rules, he.batches.trans h.batches, fun j hj => ?_, fun j hj => ?_,
    he.next.trans h.next, ?_⟩
  · rw [he.jobs] at hj
    obtain ⟨j₀, hj₀, rfl⟩ := mem_updateWhere.mp hj
    split
    · rw [hb]
      exact h.alone j₀ hj₀
    · exact h.alone j₀ hj₀
  · rw [he.jobs] at hj
    obtain ⟨j₀, hj₀, rfl⟩ := mem_updateWhere.mp hj
    split
    · exact hs j₀
    · exact h.unscheduled j₀ hj₀
  · funext id
    show db'.life id = alter q e c.lives id
    rw [← h.lives, alter, Db.life, row_update hid he.jobs, Db.life]
    cases hr : db.row id with
    | none => rfl
    | some j =>
      obtain ⟨_, rfl⟩ := mem_row hr
      simp only [Option.map_some]
      rw [hq j hr]

theorem Shows.enqueue (h : Shows db c) {r : DynEnqueue} (ho : (Ask.enqueue r).Ordinary) (hf : (Ask.enqueue r).Fits)
    (now : ℤ) : Shows (enqueueDyn db r now).1 ((Ask.enqueue r).step c) := by
  have hrow : insertRow db r now = .ok ({ db with
      jobs := db.jobs ++ [newJob r db.nextJob now], nextJob := db.nextJob + 1 }, some db.nextJob) := by
    unfold insertRow
    simp [ho.1, hf.2]
  have hmat : ∀ key, materializeFromRule { db with
      jobs := db.jobs ++ [newJob r db.nextJob now], nextJob := db.nextJob + 1 } key now = .ok { db with
      jobs := db.jobs ++ [newJob r db.nextJob now], nextJob := db.nextJob + 1 } := by
    intro key
    unfold materializeFromRule
    rw [h.rules]
    rfl
  have hins : insertDyn db r now = .ok ({ db with
      jobs := db.jobs ++ [newJob r db.nextJob now], nextJob := db.nextJob + 1 }, some db.nextJob) := by
    unfold insertDyn
    rw [hf.1, hrow]
    cases hk : r.groupKey with
    | none => rfl
    | some key =>
      show (do return (← materializeFromRule _ key now, some db.nextJob)) = _
      rw [hmat key]
      rfl
  unfold enqueueDyn
  rw [hins]
  refine ⟨h.counted.addJob r now, h.rules, h.batches, fun j hj => ?_, fun j hj => ?_, congrArg (· + 1) h.next, ?_⟩
  · rcases List.mem_append.mp hj with hj | hj
    · exact h.alone j hj
    · rw [List.mem_singleton.mp hj]
      exact hf.2
  · rcases List.mem_append.mp hj with hj | hj
    · exact h.unscheduled j hj
    · rw [List.mem_singleton.mp hj]
      nofun
  · funext id
    have hold := h.counted.fresh
    show Db.life _ id = Function.update c.lives c.next _ id
    rw [← h.lives, ← h.next, Db.life, Db.row, List.find?_append, List.find?_singleton]
    by_cases hid : id = db.nextJob
    · subst hid
      have hnone : db.jobs.find? (fun j => j.id = db.nextJob) = none := Db.Fresh.row hold (le_refl _)
      rw [Function.update_self, hnone]
      simp [newJob]
      rfl
    · have hne : ¬ (newJob r db.nextJob now).id = id := fun he => hid he.symm
      rw [Function.update_of_ne hid]
      simp only [hne, decide_false, Bool.false_eq_true, if_false, Option.or_none]
      rfl

theorem Shows.claim (h : Shows db c) (a : ClaimArgs) (now clock : ℤ) (order : MapOrder) {ids : List JobId}
    (hids : ∀ id, id ∈ ids ↔ id ∈ (claimBatch db a now clock order).2.map (·.id)) :
    Shows (claimBatch db a now clock order).1 ((Ask.claim ids a.worker).step c) := by
  have hl : ∀ id, id ∈ (claimBatch db a now clock order).2.map (·.id) ↔
      ∃ x ∈ (Op.claim a now clock order).leases db, x.job = id := by
    intro id
    show id ∈ (claimBatch db a now clock order).2.map (·.id) ↔
      ∃ x ∈ (claimBatch db a now clock order).2.map (·.toLease), x.job = id
    simp [ClaimedJob.toLease]
  have hframe : (claimBatch db a now clock order).1.rules = db.rules ∧
      (claimBatch db a now clock order).1.batches = db.batches := by
    rcases claimBatch_cases db a now clock order with hsame | ⟨gs, qs, heq⟩
    · rw [hsame]
      exact ⟨rfl, rfl⟩
    · rw [heq]
      exact ⟨rfl, rfl⟩
  have hcounted := h.counted.claimBatch a now clock order
  rcases claimBatch_leases h.counted a now clock order with ⟨hnil, hsame⟩ | ⟨picked, hleases, _, hjobs, hnext⟩
  · -- nothing is claimed, so no job is altered
    have hnone : ∀ id, id ∉ ids := by
      intro id hin
      obtain ⟨x, hx, _⟩ := (hl id).mp ((hids id).mp hin)
      rw [hnil] at hx
      exact absurd hx List.not_mem_nil
    rw [hsame]
    refine ⟨h.counted, h.rules, h.batches, h.alone, h.unscheduled, h.next, ?_⟩
    funext id
    show db.life id = alter (fun i _ => decide (i ∈ ids)) (.claim a.worker) c.lives id
    rw [← h.lives, alter]
    simp [hnone id]
  · refine h.edited (p := fun j => j.id ∈ picked) (f := fun j => j.start a.worker now)
      ⟨hjobs, hframe.1, hframe.2, hnext⟩ hcounted (fun _ => rfl) (fun _ => rfl) (fun _ => nofun)
      (fun j hj => ?_)
    have hiff : j.id ∈ ids ↔ j.id ∈ picked := by
      rw [hids, hl, hleases]
      constructor
      · rintro ⟨x, hx, hxj⟩
        obtain ⟨j', hj', rfl⟩ := List.mem_map.mp hx
        have hxj : j'.id = j.id := hxj
        rw [← hxj]
        exact of_decide_eq_true (List.mem_filter.mp hj').2
      · intro hin
        exact ⟨_, List.mem_map_of_mem (List.mem_filter.mpr ⟨(mem_row hj).1, decide_eq_true hin⟩), rfl⟩
    simp only [decide_eq_true_eq, hiff]
    split
    · exact start_life a.worker now j
    · rfl

/-- The row of the job of a lease. -/
theorem Shows.leased (h : Shows db c) (hl : LeaseOf c.lives id w) :
    ∃ j, db.row id = some j ∧ db.jobs.find? (·.leasedTo id w) = some j ∧ j.batchId = none := by
  obtain ⟨l, hlife, hp⟩ := hl
  rw [← h.lives] at hlife
  obtain ⟨j, hj, hlease⟩ := leased_of_life hlife hp
  refine ⟨j, hj, ?_, h.alone j (mem_row hj).1⟩
  cases hfind : db.jobs.find? (·.leasedTo id w) with
  | none => exact absurd hlease (List.find?_eq_none.mp hfind j (mem_row hj).1)
  | some j' =>
    have hm := List.mem_of_find?_eq_some hfind
    have hid : j'.id = j.id := (leasedTo_id j' (List.find?_some hfind)).trans (mem_row hj).2.symm
    rw [List.inj_on_of_nodup_map h.counted.ids hm (mem_row hj).1 hid]

/-- A verdict under the current lease goes through, and its batch is none. -/
theorem markCompleted_alone {j : JobRow} (hj : db.jobs.find? (·.leasedTo id w) = some j) (hb : j.batchId = none)
    (result : Option Json) (now : ℤ) : ∃ db', markCompleted db id w result now = .ok db' ∧
      Edited (·.leasedTo id w) (·.complete result now) db db' := by
  unfold markCompleted
  rw [hj]
  simp only [hb]
  have hf := dropSlots_frame { db with jobs := updateWhere (·.leasedTo id w) (·.complete result now) db.jobs }
    j.groupKey j.queue
  exact ⟨_, rfl, hf.jobs, hf.rules, hf.batches, dropSlots_nextJob _ _ _⟩

theorem markFailed_alone {j : JobRow} (hj : db.jobs.find? (·.leasedTo id w) = some j) (hb : j.batchId = none)
    (error : Json) (retryAt : Option ℤ) (now : ℤ) :
    ∃ db', markFailed db id w error retryAt now = .ok db' ∧
      Edited (·.leasedTo id w) (·.failOr error retryAt now) db db' := by
  unfold markFailed
  rw [hj]
  have hf := dropSlots_frame { db with jobs := updateWhere (·.leasedTo id w) (·.failOr error retryAt now) db.jobs }
    j.groupKey j.queue
  cases retryAt with
  | none =>
    simp only [hb]
    exact ⟨_, rfl, hf.jobs, hf.rules, hf.batches, dropSlots_nextJob _ _ _⟩
  | some t => exact ⟨_, rfl, hf.jobs, hf.rules, hf.batches, dropSlots_nextJob _ _ _⟩

/-- An update of the leased row is an event of that job. -/
theorem lease_event {g : JobRow → JobRow} {e : Event WorkerId} (hg : ∀ j, (g j).life = j.life.next e) {j₀ : JobRow}
    (hr : db.row id = some j₀) (hl : j₀.leasedTo id w) (j : JobRow) (hj : db.row j.id = some j) :
    (if j.leasedTo id w then g j else j).life = if decide (j.id = id) then j.life.next e else j.life := by
  by_cases hid : j.id = id
  · rw [hid, hr, Option.some.injEq] at hj
    subst hj
    simp [hl, hid, hg]
  · have hno : ¬ j.leasedTo id w := fun hl' => hid (leasedTo_id j hl')
    simp [hno, hid]

theorem Shows.complete (h : Shows db c) (hl : LeaseOf c.lives id w) (result : Option Json) (now : ℤ) :
    Shows (commit db (markCompleted db id w result now)).1 ((Ask.complete id w result).step c) := by
  obtain ⟨j, hr, hfind, hb⟩ := h.leased hl
  obtain ⟨db', hok, he⟩ := markCompleted_alone hfind hb result now
  rw [hok]
  exact h.edited he (h.counted.markCompleted hok) (fun _ => rfl) (fun _ => rfl) (fun _ => nofun)
    (lease_event (complete_life result now) hr (List.find?_some hfind))

theorem failOr_life (error : Json) (retryAt : Option ℤ) (now : ℤ) (j : JobRow) :
    (j.failOr error retryAt now).life = j.life.next (failure retryAt) := by
  cases retryAt with
  | none => exact fail_life error now j
  | some t => exact retry_life t error j

theorem Shows.fail (h : Shows db c) (hl : LeaseOf c.lives id w) (error : Json) (retryAt : Option ℤ) (now : ℤ) :
    Shows (commit db (markFailed db id w error retryAt now)).1 ((Ask.fail id w error retryAt).step c) := by
  obtain ⟨j, hr, hfind, hb⟩ := h.leased hl
  obtain ⟨db', hok, he⟩ := markFailed_alone hfind hb error retryAt now
  rw [hok]
  refine h.edited he (h.counted.markFailed hok) (fun _ => ?_) (fun _ => ?_) (fun _ => ?_)
    (lease_event (failOr_life error retryAt now) hr (List.find?_some hfind))
  · cases retryAt <;> rfl
  · cases retryAt <;> rfl
  · cases retryAt <;> nofun

/-- Without batches a recovery goes through. -/
theorem recover_alone (h : Shows db c) (p : JobRow → Bool) (error : Json) (now : ℤ) :
    ∃ db' n, recover db p error now = .ok (db', n) ∧
      Edited (fun j => j.running && p j) (·.recover error now) db db' := by
  unfold recover updateBatches
  simp only [h.batches, List.filter_nil, List.all_nil, if_true, updateWhere_nil]
  exact ⟨_, _, rfl, rfl, rfl, h.batches.symm, rfl⟩

theorem recover_unscheduled (e : Json) (now : ℤ) (j : JobRow) : (j.recover e now).state ≠ .scheduled := by
  simp only [JobRow.recover]
  split <;> decide

theorem runs_life (j : JobRow) : runs j.life = j.running := by
  cases hs : j.state <;> simp [runs, JobRow.life, JobRow.phase, JobRow.running, hs]

theorem Shows.sweep (h : Shows db c) (secs : Nat) (now : ℤ) {ids : List JobId}
    (hids : ∀ id, id ∈ ids ↔ ∃ j ∈ db.jobs, j.id = id ∧ j.running ∧ j.stale now secs) :
    Shows (commitFst db (sweepStale db secs now)).1 ((Ask.sweep ids).step c) := by
  obtain ⟨db', n, hok, he⟩ := recover_alone h (·.stale now secs) (sweepEntry now) now
  rw [sweepStale, hok]
  refine h.edited he (h.counted.recover hok) (fun _ => rfl) (fun _ => rfl) (recover_unscheduled _ now) (fun j hj => ?_)
  have hiff : j.id ∈ ids ↔ (j.running && j.stale now secs) = true := by
    rw [hids, Bool.and_eq_true]
    constructor
    · rintro ⟨j', hm, hid, hr, hst⟩
      rw [← List.inj_on_of_nodup_map h.counted.ids hm (mem_row hj).1 hid]
      exact ⟨hr, hst⟩
    · rintro ⟨hr, hst⟩
      exact ⟨j, (mem_row hj).1, rfl, hr, hst⟩
  simp only [decide_eq_true_eq, hiff]
  split
  · exact recover_life _ now j
  · rfl

theorem Shows.reclaim (h : Shows db c) (ids : List JobId) (now : ℤ) :
    Shows (commitFst db (reclaimInFlight db ids now)).1 ((Ask.reclaim ids).step c) := by
  obtain ⟨db', n, hok, he⟩ := recover_alone h (fun j => j.id ∈ ids) (reclaimEntry now) now
  have hq : ∀ j : JobRow, (if j.running && decide (j.id ∈ ids) then j.recover (reclaimEntry now) now else j).life =
      if decide (j.id ∈ ids) && runs j.life then j.life.next .recover else j.life := by
    intro j
    rw [runs_life, Bool.and_comm]
    split
    · exact recover_life _ now j
    · rfl
  unfold reclaimInFlight
  split
  · next hnil =>
    subst hnil
    refine ⟨h.counted, h.rules, h.batches, h.alone, h.unscheduled, h.next, ?_⟩
    funext id
    show db.life id = alter (fun i l => decide (i ∈ []) && runs l) .recover c.lives id
    rw [← h.lives, alter]
    simp
  · rw [hok]
    exact h.edited he (h.counted.recover hok) (fun _ => rfl) (fun _ => rfl) (recover_unscheduled _ now) (fun j _ => hq j)

theorem waiting_life {j : JobRow} (hs : j.state ≠ .scheduled) : j.life.phase = .waiting ↔ j.state = .pending := by
  cases hst : j.state <;> simp [JobRow.life, JobRow.phase, hst]
  exact absurd hst hs

theorem cancel_unscheduled (now : ℤ) (j : JobRow) : (j.cancel now).state ≠ .scheduled := nofun

/-- A cancellation goes through, and says whether the job was waiting. -/
theorem Shows.cancel (h : Shows db c) (id : JobId) (now : ℤ) : ∃ db',
    Pg.cancel db id now = .ok (db', decide ((c.lives id).map (·.phase) = some .waiting)) ∧
      Shows db' ((Ask.cancel id).step c) := by
  have hphase : (c.lives id).map (·.phase) = some .waiting ↔ ∃ j, db.row id = some j ∧ j.state = .pending := by
    rw [← h.lives, Db.life, Option.map_map, Option.map_eq_some_iff]
    constructor
    · rintro ⟨j, hj, hp⟩
      exact ⟨j, hj, (waiting_life (h.unscheduled j (mem_row hj).1)).mp hp⟩
    · rintro ⟨j, hj, hp⟩
      exact ⟨j, hj, (waiting_life (h.unscheduled j (mem_row hj).1)).mpr hp⟩
  have hq : ∀ j, db.row j.id = some j → (if j.pendingAs id then j.cancel now else j).life =
      if decide (j.id = id) && decide (j.life.phase = .waiting) then j.life.next .cancel else j.life := by
    intro j hj
    have hw := waiting_life (h.unscheduled j (mem_row hj).1)
    simp only [JobRow.pendingAs, Bool.and_eq_true, decide_eq_true_eq, hw]
    split
    · exact cancel_life now j
    · rfl
  unfold Pg.cancel
  cases hfind : db.jobs.find? (·.pendingAs id) with
  | none =>
    have hno : ¬ (c.lives id).map (·.phase) = some .waiting := by
      rw [hphase]
      rintro ⟨j, hj, hp⟩
      exact List.find?_eq_none.mp hfind j (mem_row hj).1 (by simp [JobRow.pendingAs, hp, (mem_row hj).2])
    refine ⟨db, by simp [hno], ?_⟩
    exact h.edited ⟨(updateWhere_of_find_none (fun j => j.cancel now) hfind).symm, rfl, rfl, rfl⟩ h.counted
      (fun _ => rfl) (fun _ => rfl) (cancel_unscheduled now) hq
  | some j =>
    have hm := List.mem_of_find?_eq_some hfind
    have hp : j.pendingAs id := List.find?_some hfind
    have hpend : j.id = id ∧ j.state = .pending := by simpa [JobRow.pendingAs] using hp
    have hyes : (c.lives id).map (·.phase) = some .waiting :=
      hphase.mpr ⟨j, hpend.1 ▸ h.counted.row hm, hpend.2⟩
    have hok : Pg.cancel db id now = .ok ({ db with jobs := updateWhere (·.pendingAs id) (·.cancel now) db.jobs }, true) := by
      unfold Pg.cancel
      rw [hfind]
      simp only [h.alone j hm]
      rfl
    refine ⟨{ db with jobs := updateWhere (·.pendingAs id) (·.cancel now) db.jobs }, ?_, ?_⟩
    · simp only [h.alone j hm, hyes, decide_true]
      rfl
    · have he : Edited (·.pendingAs id) (·.cancel now) db
          { db with jobs := updateWhere (·.pendingAs id) (·.cancel now) db.jobs } := ⟨rfl, rfl, rfl, rfl⟩
      exact h.edited he (h.counted.cancel hok) (fun _ => rfl) (fun _ => rfl) (cancel_unscheduled now) hq

/-- **The backend runs the life cycle.** -/
theorem Does.shows {a : Ask} (h : Shows db c) (hd : Does db a db') (hl : a.Held c.lives) (ho : a.Ordinary) (hf : a.Fits) :
    Shows db' (a.step c) := by
  cases hd with
  | enqueue r now => exact h.enqueue ho hf now
  | claim a now clock order hids => exact h.claim a now clock order hids
  | complete id w result now => exact h.complete hl result now
  | fail id w error retryAt now => exact h.fail hl error retryAt now
  | sweep secs now hids => exact h.sweep secs now hids
  | reclaim ids now => exact h.reclaim ids now
  | cancel id now =>
    obtain ⟨db', hok, hs⟩ := h.cancel id now
    rw [hok]
    exact hs
  | promote => exact h

theorem Shows.empty : Shows Db.empty {} :=
  ⟨.empty, rfl, rfl, fun _ hj => absurd hj List.not_mem_nil, fun _ hj => absurd hj List.not_mem_nil, rfl, rfl⟩

end Shows

end Eddyq.Pg
