import Eddyq.Pg.FanIn

/-!
# Batch fan-in over runs

Every call that makes jobs terminal settles their batches (`FanIn.markCompleted`, `FanIn.recover`, ...), a new batch
starts settled (`FanIn.enqueueBatch`), and the other calls leave batches alone. `Op.Separate` is what the callers keep
to: only `enqueue_batch` puts jobs into a batch and no user job has the kind and the key of a callback. Retention is
left out, since it deletes the jobs that the counters count. `reached_fanIn`: in every such run every callback is
inserted once, by the call that finishes the batch.
-/

namespace Eddyq.Pg

open Eddyq.Lib

/-! ## Verdicts and recovery -/

section Verdicts

variable {db db' : Db} {now : ℤ}

theorem not_terminal_of_running {j : JobRow} (h : j.running) : ¬ j.state.terminal := by
  rw [show j.state = .running from of_decide_eq_true h]
  nofun

/-- The one job that a verdict finishes is owed to its batch. -/
theorem FanIn.finish (h : db.FansIn) (hids : (db.jobs.map (·.id)).Nodup) {p : JobRow → Bool} {f : JobRow → JobRow}
    (hf : Keeps f) (hp : ∀ j, p j → ¬ j.state.terminal) (hterm : ∀ j, (f j).state.terminal) {id : JobId}
    (hid : ∀ j, p j → j.id = id) {j : JobRow} (hj : db.jobs.find? p = some j) :
    FanIn (fun x => if j.batchId = some x then 1 else 0) (fun x => j.batchId = some x)
      { db with jobs := updateWhere p f db.jobs } := by
  have hfin : ∀ x, finished db p f x = if j.batchId = some x then 1 else 0 := by
    intro x
    rw [finished, countP_of_find hid hids hj]
    simp [JobRow.doneIn, hf.batchId, hterm]
  refine (h.move hf (fun j _ => hp j)).weaken (fun b _ => hfin b.id) (fun b _ => ?_)
  rw [hfin]
  split <;> simp_all

theorem FanIn.reported (h : db.FansIn) (hids : (db.jobs.map (·.id)).Nodup) {p : JobRow → Bool} {f : JobRow → JobRow}
    (hr : Reported db p f now db') (hf : Keeps f) (hp : ∀ j, p j → ¬ j.state.terminal) {id : JobId}
    (hid : ∀ j, p j → j.id = id) : db'.FansIn := by
  cases hr with
  | stale => exact h
  | @retried j _ live =>
    have hm := h.moveOpen hf (fun j _ => hp j) (fun j _ => live j)
    have hd := dropSlots_frame { db with jobs := updateWhere p f db.jobs } j.groupKey j.queue
    exact hm.congr hd.jobs hd.batches hd.nextBatch
  | @ended j _ _ found final settled =>
    have hm := h.finish hids hf hp final hid found
    have hd := dropSlots_frame { db with jobs := updateWhere p f db.jobs } j.groupKey j.queue
    exact (hm.congr hd.jobs hd.batches hd.nextBatch).settleBatch settled

theorem FanIn.markCompleted (h : db.FansIn) (hids : (db.jobs.map (·.id)).Nodup) {id : JobId} {w : WorkerId}
    {result : Option Json} (he : markCompleted db id w result now = .ok db') : db'.FansIn :=
  FanIn.reported h hids (markCompleted_ok he) ⟨fun _ => rfl, fun _ => rfl, fun _ => rfl⟩
    (fun j hj => not_terminal_of_running (leasedTo_running j hj)) leasedTo_id

theorem FanIn.markFailed (h : db.FansIn) (hids : (db.jobs.map (·.id)).Nodup) {id : JobId} {w : WorkerId}
    {error : Json} {retryAt : Option ℤ} (he : markFailed db id w error retryAt now = .ok db') : db'.FansIn := by
  refine FanIn.reported h hids (markFailed_ok he) ?_ (fun j hj => not_terminal_of_running (leasedTo_running j hj)) leasedTo_id
  cases retryAt <;> exact ⟨fun _ => rfl, fun _ => rfl, fun _ => rfl⟩

theorem FanIn.cancel (h : db.FansIn) (hids : (db.jobs.map (·.id)).Nodup) {id : JobId} {b : Bool}
    (he : cancel db id now = .ok (db', b)) : db'.FansIn := by
  rcases cancel_ok he with ⟨_, rfl⟩ | ⟨j, hj, hs⟩
  · exact h
  · have hp : ∀ x : JobRow, x.pendingAs id → x.id = id ∧ x.state = .pending := by
      intro x hx
      simpa [JobRow.pendingAs] using hx
    refine (h.finish (f := JobRow.cancel now) hids ⟨fun _ => rfl, fun _ => rfl, fun _ => rfl⟩ (fun x hx => ?_)
      (fun _ => rfl) (fun x hx => (hp x hx).1) hj).settleBatch hs
    rw [(hp x hx).2]
    decide

/-- A recovered job is terminal when it has failed. -/
theorem doneIn_recover (error : Json) (now : ℤ) (b : BatchId) (j : JobRow) :
    (j.recover error now).doneIn b = (j.recover error now).failedIn b := by
  unfold JobRow.doneIn JobRow.failedIn JobRow.recover
  by_cases hs : j.stalledOut <;> simp [hs, JobState.terminal]

theorem FanIn.recover (h : db.FansIn) {p : JobRow → Bool} {error : Json} {n : Nat}
    (he : recover db p error now = .ok (db', n)) : db'.FansIn := by
  unfold Pg.recover at he
  dsimp only at he
  obtain ⟨db₁, hu, he⟩ := bind_eq_ok he
  obtain ⟨db₂, hf, he⟩ := bind_eq_ok he
  cases he
  generalize hswept : (db.jobs.filter (fun j => j.running && p j)).map (·.recover error now) = swept at *
  have hcount : ∀ b, swept.countP (·.failedIn b) =
      finished db (fun j => j.running && p j) (JobRow.recover error now) b := by
    intro b
    rw [← hswept, List.countP_map, countP_filter_eq, finished]
    exact List.countP_congr (fun j _ => by simp [doneIn_recover])
  have hany : ∀ b, swept.any (·.failedIn b) = true ↔
      finished db (fun j => j.running && p j) (JobRow.recover error now) b ≠ 0 := by
    intro b
    rw [← hcount, List.any_eq_true, ← Nat.pos_iff_ne_zero, List.countP_pos_iff]
  have hm := h.move (p := fun j => j.running && p j) (f := JobRow.recover error now)
    ⟨fun _ => rfl, fun _ => rfl, fun _ => rfl⟩
    (fun j _ hj => not_terminal_of_running (Bool.and_eq_true _ _ ▸ hj).1)
  have hpay := hm.pay (p := fun b => swept.any (·.failedIn b.id)) .failed (fun b _ hb => by
    by_contra hne
    exact hb ((hany b.id).mpr hne))
  obtain ⟨hdb₁, _⟩ := updateBatches_ok hu
  have hmid : FanIn (fun _ => 0) (fun x => x ∈ orderBy (fun a b => decide (a ≤ b))
      ((db₁.batches.filter (fun b => swept.any (·.failedIn b.id))).map (·.id))) db₁ := by
    refine (hpay.congr ?_ ?_ ?_).weaken (fun _ _ => rfl) (fun b hb => ?_)
    · rw [hdb₁]
    · rw [hdb₁]
      exact updateWhere_congr (fun b _ _ => by rw [hcount])
    · rw [hdb₁]
    · rw [mem_orderBy, List.mem_map, ← hany b.id]
      constructor
      · exact fun hb' => ⟨b, List.mem_filter.mpr ⟨hb, hb'⟩, rfl⟩
      · rintro ⟨x, hx, hid⟩
        rw [← hid]
        exact (List.mem_filter.mp hx).2
  exact (hmid.fireAll hf).weaken (fun _ _ => rfl) (fun _ _ => by simp)

end Verdicts

/-! ## Requests -/

section Requests

variable {db db' : Db} {now : ℤ}

/-- A request that would make a job look like the callback of a batch. -/
def AsCallbackOf (spec : DynEnqueue) (b : BatchId) (r : DynEnqueue) : Prop :=
  r.kind = spec.kind ∧ r.uniqueKey = some (callbackKey b)

/-- A request that looks like no callback of the batches there are. -/
def Db.NoCallback (db : Db) (r : DynEnqueue) : Prop :=
  ∀ b ∈ db.batches, ∀ spec, b.onComplete = some spec → ¬ AsCallbackOf spec b.id r

theorem callbackOf_newJob {spec r : DynEnqueue} {b : BatchId} {i : JobId} {t : ℤ} (h : (newJob r i t).callbackOf spec b) :
    AsCallbackOf spec b r := by
  obtain ⟨hk, hu⟩ := Bool.and_eq_true_iff.mp h
  exact ⟨of_decide_eq_true hk, of_decide_eq_true hu⟩

/-- Jobs of ordinary requests. -/
theorem FanIn.appends (h : db.FansIn) {rs : List DynEnqueue} {rows : List JobRow} (ha : Appends rs now rows db db')
    (hb : ∀ r ∈ rs, r.batchId = none) (hc : ∀ r ∈ rs, db.NoCallback r) : db'.FansIn := by
  have hrows : FanIn (fun _ => 0) (fun _ => False) { db with jobs := db.jobs ++ rows } := by
    refine h.append rows (fun j hj => ?_) (fun j hj b hbm spec hs hcb => ?_)
    · obtain ⟨r, hr, id, rfl⟩ := ha.made j hj
      exact hb r hr
    · obtain ⟨r, hr, id, rfl⟩ := ha.made j hj
      exact hc r hr b hbm spec hs (callbackOf_newJob hcb)
  obtain ⟨gs, n, rfl⟩ := ha.tables
  exact hrows.congr rfl rfl rfl

/-- A batch does not see the jobs of another. -/
theorem RowFansIn.beside {k : Nat} {late late' : Prop} {jobs rows : List JobRow} {b : BatchRow} {n : BatchId}
    (h : RowFansIn k late jobs b) (hne : b.id ≠ n) (hlate : late ↔ late') (hin : ∀ j ∈ rows, j.batchId = some n)
    (hc : ∀ spec, b.onComplete = some spec → ∀ j ∈ rows, ¬ j.callbackOf spec b.id) : RowFansIn k late' (jobs ++ rows) b := by
  have hcount : ∀ q : JobRow → Bool, (∀ j ∈ rows, ¬ q j) → (jobs ++ rows).countP q = jobs.countP q := by
    intro q hq
    rw [List.countP_append, List.countP_eq_zero.mpr hq, Nat.add_zero]
  have hd := hcount (·.doneIn b.id) (fun j hj => by simp [JobRow.doneIn, hin j hj, hne.symm])
  have ho := hcount (·.openIn b.id) (fun j hj => by simp [JobRow.openIn, hin j hj, hne.symm])
  refine ⟨by rw [hd]; exact h.counts, by rw [hd, ho]; exact h.total, h.complete, ?_, fun spec hs => ⟨(h.callback spec hs).1, ?_⟩⟩
  · rw [ho, h.fired, hlate]
  · rw [hcount _ (hc spec hs)]
    exact (h.callback spec hs).2

/-- The row of a new batch, whose jobs are the new ones. -/
theorem RowFansIn.created {jobs rows : List JobRow} {b : BatchRow} (hzero : b.completed + b.failed + b.cancelled = 0)
    (htotal : b.total = rows.length) (hopen : b.complete = false) (hnone : b.callbackEnqueuedAt = none)
    (hin : ∀ j ∈ rows, j.batchId = some b.id ∧ j.state = .pending) (hold : ∀ j ∈ jobs, j.batchId ≠ some b.id)
    (hspec : ∀ spec, b.onComplete = some spec → spec.batchId = none ∧ ∀ j ∈ jobs ++ rows, ¬ j.callbackOf spec b.id) :
    RowFansIn 0 (rows = []) (jobs ++ rows) b := by
  have hd : (jobs ++ rows).countP (·.doneIn b.id) = 0 := by
    rw [List.countP_eq_zero]
    intro j hj hh
    simp only [JobRow.doneIn, Bool.and_eq_true, decide_eq_true_eq] at hh
    rcases List.mem_append.mp hj with hj | hj
    · exact hold j hj hh.1
    · rw [(hin j hj).2] at hh
      cases hh.2
  have ho : (jobs ++ rows).countP (·.openIn b.id) = rows.length := by
    rw [List.countP_append, List.countP_eq_zero.mpr, Nat.zero_add, List.countP_eq_length]
    · intro j hj
      simp [JobRow.openIn, hin j hj, JobState.terminal]
    · intro j hj hh
      simp only [JobRow.openIn, Bool.and_eq_true, decide_eq_true_eq] at hh
      exact hold j hj hh.1
  refine ⟨?_, ?_, ?_, ?_, fun spec hs => ?_⟩
  · rw [hd, hzero]
    rfl
  · rw [hd, ho, htotal]
    simp
  · rw [hopen, hnone]
    rfl
  · rw [hnone, ho]
    simp
  · obtain ⟨hbn, hcb⟩ := hspec spec hs
    refine ⟨hbn, ?_⟩
    rw [hnone, List.countP_eq_zero.mpr hcb]
    rfl

/-- **A new batch**: its jobs are open and counted; without jobs its firing is still to come. -/
theorem FanIn.create (h : db.FansIn) {rows : List JobRow} {b : BatchRow} (hid : b.id = db.nextBatch)
    (hzero : b.completed + b.failed + b.cancelled = 0) (htotal : b.total = rows.length) (hopen : b.complete = false)
    (hnone : b.callbackEnqueuedAt = none) (hin : ∀ j ∈ rows, j.batchId = some db.nextBatch ∧ j.state = .pending)
    (hc : ∀ x ∈ db.batches, ∀ spec, x.onComplete = some spec → ∀ j ∈ rows, ¬ j.callbackOf spec x.id)
    (hspec : ∀ spec, b.onComplete = some spec → spec.batchId = none ∧
      ∀ j ∈ db.jobs ++ rows, ¬ j.callbackOf spec db.nextBatch) :
    FanIn (fun _ => 0) (fun x => x = db.nextBatch ∧ rows = [])
      { db with jobs := db.jobs ++ rows, batches := db.batches ++ [b], nextBatch := db.nextBatch + 1 } := by
  have hnew : ∀ x ∈ db.batches, x.id ≠ db.nextBatch := fun x hx e => absurd (h.fresh x hx) (e ▸ Nat.lt_irrefl _)
  have hold : ∀ j ∈ db.jobs, j.batchId ≠ some db.nextBatch :=
    fun j hj e => absurd (h.known j hj _ e) (Nat.lt_irrefl _)
  refine ⟨?_, fun x hx => ?_, fun j hj n hn => ?_, fun x hx => ?_⟩
  · rw [List.map_append, List.map_singleton, List.nodup_append']
    refine ⟨h.ids, List.nodup_singleton _, fun i hi hi' => ?_⟩
    obtain ⟨x, hx, rfl⟩ := List.mem_map.mp hi
    exact hnew x hx ((List.mem_singleton.mp hi').trans hid)
  · rcases List.mem_append.mp hx with hx | hx
    · exact Nat.lt_succ_of_lt (h.fresh x hx)
    · rw [List.mem_singleton.mp hx, hid]
      exact Nat.lt_succ_self _
  · rcases List.mem_append.mp hj with hj | hj
    · exact Nat.lt_succ_of_lt (h.known j hj n hn)
    · rw [(hin j hj).1] at hn
      cases hn
      exact Nat.lt_succ_self _
  rcases List.mem_append.mp hx with hx | hx
  · have hne := hnew x hx
    exact (h.rows x hx).beside hne (by simp [hne]) (fun j hj => (hin j hj).1) (hc x hx)
  · obtain rfl := List.mem_singleton.mp hx
    have hrow : RowFansIn 0 (rows = []) (db.jobs ++ rows) x := by
      rw [← hid] at hin hold hspec
      exact RowFansIn.created hzero htotal hopen hnone hin hold hspec
    simpa [hid] using hrow

/-- What `enqueue_batch` is called with: items and a callback that are no other batch's callback. -/
structure Db.BatchRequest (db : Db) (requests : List DynEnqueue) (onComplete : Option DynEnqueue) : Prop where
  items : ∀ r ∈ requests, db.NoCallback r
  outside : ∀ spec, onComplete = some spec → spec.batchId = none
  unused : ∀ spec, onComplete = some spec →
    (∀ j ∈ db.jobs, ¬ j.callbackOf spec db.nextBatch) ∧ ∀ r ∈ requests, ¬ AsCallbackOf spec db.nextBatch r

theorem FanIn.enqueueBatch (h : db.FansIn) {items : List DynEnqueue} {onComplete : Option DynEnqueue} {metadata : Json}
    {r : BatchId × Nat} (hr : db.BatchRequest items onComplete)
    (he : enqueueBatch db items onComplete metadata now = .ok (db', r)) : db'.FansIn := by
  unfold Pg.enqueueBatch at he
  dsimp only at he
  obtain ⟨⟨db₁, n⟩, hm, he⟩ := bind_eq_ok he
  obtain ⟨db₂, hu, he⟩ := bind_eq_ok he
  obtain ⟨rows, ha, hn⟩ := enqueueManyDyn_appends hm
  obtain ⟨gs, m, rfl⟩ := ha.tables
  obtain ⟨rfl, _⟩ := updateBatches_ok hu
  dsimp only at he
  have hnew : ∀ x ∈ db.batches, x.id ≠ db.nextBatch := fun x hx e => absurd (h.fresh x hx) (e ▸ Nat.lt_irrefl _)
  have hid : (newBatch db.nextBatch onComplete metadata now).id = db.nextBatch := rfl
  -- the new row is the only one that gets a total
  have hbatches : updateWhere (fun b : BatchRow => b.id = db.nextBatch) (fun b => { b with total := (n : ℤ) })
      (db.batches ++ [newBatch db.nextBatch onComplete metadata now]) =
        db.batches ++ [{ newBatch db.nextBatch onComplete metadata now with total := n }] := by
    rw [updateWhere, List.map_append, List.map_singleton, if_pos (decide_eq_true hid)]
    congr 1
    refine (List.map_congr_left (fun x hx => ?_)).trans (List.map_id _)
    rw [if_neg (by simpa using hnew x hx)]
    rfl
  have hmade : ∀ j ∈ rows, j.batchId = some db.nextBatch ∧ j.state = .pending ∧
      ∃ q ∈ items, ∀ spec x, j.callbackOf spec x → AsCallbackOf spec x q := by
    intro j hj
    obtain ⟨q', hq', i, rfl⟩ := ha.made j hj
    obtain ⟨q, hq, rfl⟩ := List.mem_map.mp hq'
    exact ⟨rfl, rfl, q, hq, fun spec x hc => callbackOf_newJob (i := i) (t := now) hc⟩
  have hcreate := h.create (b := { newBatch db.nextBatch onComplete metadata now with total := n })
    rfl rfl (by rw [hn]) rfl rfl (fun j hj => ⟨(hmade j hj).1, (hmade j hj).2.1⟩)
    (fun x hx spec hs j hj hc => by
      obtain ⟨_, _, q, hq, hcb⟩ := hmade j hj
      exact hr.items q hq x hx spec hs (hcb spec _ hc))
    (fun spec hs => by
      refine ⟨hr.outside spec hs, fun j hj hc => ?_⟩
      rcases List.mem_append.mp hj with hj | hj
      · exact (hr.unused spec hs).1 j hj hc
      · obtain ⟨_, _, q, hq, hcb⟩ := hmade j hj
        exact (hr.unused spec hs).2 q hq (hcb spec _ hc))
  split at he
  · next h0 =>
    subst h0
    have hnil : rows = [] := List.length_eq_zero_iff.mp hn
    have hmid : FanIn (fun _ => 0) (fun x => x = db.nextBatch ∧ rows = [])
        { db with
          jobs := db.jobs ++ rows, groups := gs, nextJob := m, nextBatch := db.nextBatch + 1
          batches := updateWhere (·.id = db.nextBatch) (fun b => { b with total := ((0 : Nat) : ℤ) })
            (db.batches ++ [newBatch db.nextBatch onComplete metadata now]) } := hcreate.congr rfl hbatches rfl
    have hb : { newBatch db.nextBatch onComplete metadata now with total := ((0 : Nat) : ℤ) } ∈
        updateWhere (fun b : BatchRow => b.id = db.nextBatch) (fun b => { b with total := ((0 : Nat) : ℤ) })
          (db.batches ++ [newBatch db.nextBatch onComplete metadata now]) := by
      rw [hbatches]
      exact List.mem_append_right _ (List.mem_singleton_self _)
    have hopen : (db.jobs ++ rows).countP (·.openIn db.nextBatch) = 0 := by
      have ht := (hmid.rows _ hb).total
      have hc := (hmid.rows _ hb).counts
      simp only [newBatch] at ht hc
      omega
    refine (hmid.fireRow now { total := 0, completed := 0, failed := 0, cancelled := 0, durationMs := 0 } hb rfl hopen
      (p := fun x => x.id = db.nextBatch) (fun x _ => by simp [newBatch]) ?_).weaken (fun _ _ => rfl)
      (fun x _ => by simp [newBatch]; tauto)
    cases onComplete with
    | none =>
      cases he
      rfl
    | some spec =>
      obtain ⟨r', hi, he⟩ := bind_eq_ok he
      cases he
      exact congrArg (Except.map Prod.fst) hi
  · next h0 =>
    cases he
    have hne : rows ≠ [] := by
      rintro rfl
      exact h0 hn.symm
    exact (hcreate.weaken (fun _ _ => rfl) (fun _ _ => by simp [hne])).congr rfl hbatches rfl

end Requests

/-! ## Calls and runs -/

section Runs

variable {db db' : Db} {now : ℤ}

theorem FanIn.claimBatch (h : db.FansIn) (hc : Counted db) (a : ClaimArgs) (now clock : ℤ) (order : MapOrder) :
    (claimBatch db a now clock order).1.FansIn := by
  rcases claimBatch_cases db a now clock order with heq | ⟨gs, qs, heq⟩
  · rw [heq]; exact h
  · rw [heq]
    refine (h.moveOpen (f := JobRow.start a.worker now) ⟨fun _ => rfl, fun _ => rfl, fun _ => rfl⟩ (fun j hj hid => ?_)
      (fun _ _ => nofun)).congr rfl rfl rfl
    rw [hc.picked_pending hj (of_decide_eq_true hid)]
    nofun

theorem FanIn.fireSchedules (cron : Cron) (now clock : ℤ) : ∀ (ss : List ScheduleRow) {db db' : Db}, db.FansIn →
    fireSchedules cron db ss now clock = .ok db' → db'.FansIn
  | [], _, _, h, he => by cases he; exact h
  | s :: ss, db, _, h, he => by
    obtain ⟨db₁, hf, he⟩ := bind_eq_ok he
    obtain ⟨next, _, hf⟩ := bind_eq_ok hf
    cases hf
    refine FanIn.fireSchedules cron now clock ss ?_ he
    refine (h.append [newJob (s.request now) db.nextJob now] (fun j hj => ?_) (fun j hj b _ spec _ hc => ?_)).congr
      rfl rfl rfl
    · rw [List.mem_singleton.mp hj]
      rfl
    · rw [List.mem_singleton.mp hj] at hc
      cases (callbackOf_newJob hc).2

/-- What the callers keep to. Retention deletes the jobs that the counters count. -/
def Op.Separate (db : Db) : Op → Prop
  | .enqueue r _ => r.batchId = none ∧ db.NoCallback r
  | .enqueueMany rs _ => ∀ r ∈ rs, r.batchId = none ∧ db.NoCallback r
  | .sqlEnqueue r _ => db.NoCallback r
  | .enqueueBatch items onComplete _ _ => db.BatchRequest items onComplete
  | .cleanup _ _ => False
  | .cleanJobs _ _ _ _ => False
  | _ => True

theorem FanIn.quiet (cron : Cron) (h : db.FansIn) (op : Op) (ho : op.quiet) : (op.apply cron db).FansIn := by
  obtain ⟨gs, qs, ss, heq⟩ := op.quiet_sameJobs cron db ho
  rw [heq]
  exact h.congr rfl rfl rfl

/-- **Every call keeps the batches right.** -/
theorem FanIn.step (cron : Cron) (h : db.FansIn) (hc : Counted db) (op : Op) (ho : op.Separate db) :
    (op.apply cron db).FansIn := by
  cases op with
  | enqueue r now =>
    obtain ⟨rows, ha⟩ := enqueueDyn_appends db r now
    have hg := h.appends ha (by simpa using ho.1) (by simpa using ho.2)
    rw [Op.apply_enqueue]
    exact hg
  | enqueueMany rs now =>
    refine commitFst_inv (P := Db.FansIn) h (fun db' n he => ?_)
    obtain ⟨rows, ha, _⟩ := enqueueManyDyn_appends he
    exact h.appends ha (fun r hr => (ho r hr).1) (fun r hr => (ho r hr).2)
  | sqlEnqueue r now =>
    refine commit_inv (P := Db.FansIn) h (fun db' he => ?_)
    obtain ⟨rows, ha⟩ := sqlEnqueue_appends he
    exact h.appends ha (by simp) (fun q hq => List.mem_singleton.mp hq ▸ ho)
  | enqueueBatch => exact commitFst_inv (P := Db.FansIn) h (fun _ _ he => h.enqueueBatch ho he)
  | claim a now clock order => exact h.claimBatch hc a now clock order
  | heartbeat =>
    refine h.moveOpen ⟨fun _ => rfl, fun _ => rfl, fun _ => rfl⟩ (fun j _ hj => ?_) (fun j hj => ?_)
    · exact not_terminal_of_running (Bool.and_eq_true _ _ ▸ hj).2
    · exact not_terminal_of_running (Bool.and_eq_true _ _ ▸ hj).2
  | completed => exact commit_inv (P := Db.FansIn) h (fun _ he => h.markCompleted hc.ids he)
  | failed => exact commit_inv (P := Db.FansIn) h (fun _ he => h.markFailed hc.ids he)
  | cancel => exact commitFst_inv (P := Db.FansIn) h (fun _ _ he => h.cancel hc.ids he)
  | sweepStale => exact commitFst_inv (P := Db.FansIn) h (fun _ _ he => h.recover he)
  | reclaimInFlight =>
    refine commitFst_inv (P := Db.FansIn) h (fun _ _ he => ?_)
    unfold Pg.reclaimInFlight at he
    split at he
    · cases he; exact h
    · exact h.recover he
  | tick now clock => exact commit_inv (P := Db.FansIn) h (fun _ he => FanIn.fireSchedules cron now clock _ h he)
  | reconcile | upsertSchedule | upsertInterval | syncSchedules | removeSchedule | setScheduleEnabled
  | groupSetConcurrency | groupSetPaused | groupSetRate | groupClearRate | queueSetConcurrency | queueSetPaused
  | queueSetTimeout => exact h.quiet cron _ rfl
  | groupSetRule =>
    refine commit_inv (P := Db.FansIn) h (fun _ he => ?_)
    obtain ⟨rs, rfl, _⟩ := groupSetRule_ok he
    exact h.congr rfl rfl rfl
  | groupRemoveRule => exact h.congr rfl rfl rfl
  | cleanup => exact ho.elim
  | cleanJobs => exact ho.elim

theorem FanIn.empty : Db.empty.FansIn := by
  constructor <;> simp [Db.empty]

theorem FanIn.reached {cron : Cron} (h : db.Reached cron Op.Separate) : db.FansIn ∧ Counted db :=
  Reach.inv (P := fun db => db.FansIn ∧ Counted db) h ⟨FanIn.empty, Counted.empty⟩
    (fun _ op _ hc hs => hs.2 ▸ ⟨hc.1.step cron hc.2 op hs.1, hc.2.step cron op⟩)

end Runs

/-! ## Exactly once -/

/-- Every job of a batch is finished. -/
def Db.Finished (db : Db) (b : BatchId) : Prop := ∀ j ∈ db.jobs, j.batchId = some b → j.state.terminal

instance (db : Db) (b : BatchId) : Decidable (db.Finished b) :=
  inferInstanceAs (Decidable (∀ j ∈ db.jobs, j.batchId = some b → j.state.terminal))

/-- The jobs with the kind and the key of a batch's callback. -/
def Db.callbacks (db : Db) (spec : DynEnqueue) (b : BatchId) : Nat :=
  db.jobs.countP (fun j => j.kind = spec.kind ∧ j.uniqueKey = some (callbackKey b))

/-- What a batch row says between transactions. -/
structure Db.BatchExact (db : Db) (b : BatchRow) : Prop where
  /-- The counters count the finished jobs. -/
  counts : b.completed + b.failed + b.cancelled = db.jobs.countP (fun j => j.batchId = some b.id ∧ j.state.terminal)
  /-- The total counts all its jobs, so that the counters never exceed it. -/
  total : b.total = db.jobs.countP (fun j => j.batchId = some b.id)
  bounded : b.completed + b.failed + b.cancelled ≤ b.total
  /-- The batch is complete when it has been fired. -/
  complete : b.complete ↔ b.callbackEnqueuedAt.isSome
  /-- It has been fired when its jobs are finished. -/
  fired : b.callbackEnqueuedAt.isSome ↔ db.Finished b.id
  /-- One callback then, none before. -/
  callback : ∀ spec, b.onComplete = some spec → db.callbacks spec b.id = if db.Finished b.id then 1 else 0

/-- A call inserts the callback of a batch when it is the one after which the batch is finished. -/
def Op.FiresAtTheEnd (cron : Cron) (db : Db) (op : Op) : Prop :=
  ∀ b ∈ (op.apply cron db).batches, ∀ spec, b.onComplete = some spec →
    (op.apply cron db).callbacks spec b.id = db.callbacks spec b.id +
      if (op.apply cron db).Finished b.id ∧ ¬ ((∃ b₀ ∈ db.batches, b₀.id = b.id) ∧ db.Finished b.id) then 1 else 0

theorem finished_iff (db : Db) (b : BatchId) : db.Finished b ↔ db.jobs.countP (·.openIn b) = 0 := by
  rw [List.countP_eq_zero]
  refine forall₂_congr (fun j _ => ?_)
  simp [JobRow.openIn]

theorem callbacks_eq (db : Db) (spec : DynEnqueue) (b : BatchId) :
    db.callbacks spec b = db.jobs.countP (·.callbackOf spec b) :=
  List.countP_congr (fun j _ => by simp [JobRow.callbackOf])

theorem FanIn.exact {db : Db} (h : db.FansIn) {b : BatchRow} (hb : b ∈ db.batches) : db.BatchExact b := by
  obtain ⟨h1, h2, h3, h4, h5⟩ := h.rows b hb
  have hfired : b.callbackEnqueuedAt.isSome ↔ db.Finished b.id := by
    rw [h4, finished_iff]
    simp
  have hall : db.jobs.countP (fun j => j.batchId = some b.id) =
      db.jobs.countP (·.doneIn b.id) + db.jobs.countP (·.openIn b.id) := by
    refine countP_eq_add (fun j _ => ?_) (fun j _ => ?_)
    · simp only [JobRow.doneIn, JobRow.openIn]
      cases j.state.terminal <;> simp
    · simp only [JobRow.doneIn, JobRow.openIn, Bool.and_eq_true, Bool.not_eq_true']
      rintro ⟨_, ht⟩ ⟨_, hn⟩
      rw [ht] at hn
      cases hn
  have hdone : db.jobs.countP (fun j => j.batchId = some b.id ∧ j.state.terminal) = db.jobs.countP (·.doneIn b.id) :=
    List.countP_congr (fun j _ => by simp [JobRow.doneIn])
  refine ⟨by rw [hdone]; omega, by rw [hall]; exact h2, by omega, by rw [h3], hfired, fun spec hs => ?_⟩
  · rw [callbacks_eq, (h5 spec hs).2]
    exact if_congr hfired rfl rfl

/-- A batch of which the tables have no row yet has no callback. -/
theorem callbacks_new {db : Db} {items : List DynEnqueue} {cb : Option DynEnqueue} (h : db.BatchRequest items cb)
    {spec : DynEnqueue} (hs : cb = some spec) : db.callbacks spec db.nextBatch = 0 := by
  rw [callbacks_eq, List.countP_eq_zero]
  exact (h.unused spec hs).1

theorem FanIn.firesAtTheEnd {db : Db} (cron : Cron) (h : db.FansIn) (hc : Counted db) (op : Op) (ho : op.Separate db) :
    op.FiresAtTheEnd cron db := by
  intro b hb spec hs
  have hnew := ((h.step cron hc op ho).exact hb).callback spec hs
  -- the row the batch had before the call
  have hold : (∃ b₀ ∈ db.batches, b₀.Later b) ∨ (b.id = db.nextBatch ∧ db.callbacks spec b.id = 0) := by
    rcases op.kept_step cron db with hk | ⟨items, cb, metadata, now, rfl, hk⟩
    · exact Or.inl (hk b hb)
    · rcases hk b hb with hl | ⟨hid, hcb⟩
      · exact Or.inl hl
      · refine Or.inr ⟨hid, ?_⟩
        rw [hid]
        exact callbacks_new ho (hcb.symm.trans hs)
  rw [hnew]
  rcases hold with ⟨b₀, hb₀, hl⟩ | ⟨hid, h0⟩
  · have hx := h.exact hb₀
    have hx' := (h.step cron hc op ho).exact hb
    have hbefore := hx.callback spec (hl.onComplete.symm.trans hs)
    have hex : ∃ b₁ ∈ db.batches, b₁.id = b.id := ⟨b₀, hb₀, hl.id.symm⟩
    -- a finished batch stays finished, since it stays fired
    have hstay : db.Finished b.id → (op.apply cron db).Finished b.id := by
      intro hf
      rw [← hx'.fired]
      exact hl.fired (hx.fired.mpr (hl.id ▸ hf))
    rw [← hl.id] at hbefore
    rw [hbefore]
    by_cases hf : db.Finished b.id
    · simp [hf, hstay hf, hex]
    · simp [hf]
  · have hno : ¬ ∃ b₀ ∈ db.batches, b₀.id = b.id := by
      rintro ⟨b₀, hb₀, he⟩
      exact absurd (h.fresh b₀ hb₀) (he.trans hid ▸ Nat.lt_irrefl _)
    rw [h0]
    simp [hno]

/-- A batch of three items, one of them a duplicate; one job is completed and the other swept twice. -/
def fanInRun : List Op :=
  [.enqueueBatch [{ kind := "mail", payload := .null, uniqueKey := some "a" },
      { kind := "mail", payload := .null, uniqueKey := some "a" }, { kind := "mail", payload := .null }]
      (some { kind := "done", payload := .null }) .null 1000,
   .claim { worker := "w", batchSize := 4, kinds := ["mail"], queues := ["default"] } 2000 2000
     { list := fun l => l, perm := MapOrder.asRead },
   .completed 1 "w" none 3000,
   .sweepStale 60 90000,
   .claim { worker := "v", batchSize := 4, kinds := ["mail"], queues := ["default"] } 100000 100000
     { list := fun l => l, perm := MapOrder.asRead },
   .sweepStale 60 200000]

end Eddyq.Pg
