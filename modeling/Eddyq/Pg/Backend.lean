import Eddyq.Pg.Leases
import Eddyq.Runtime.Tasks

/-!
# Postgres as the backend of a process

What `claim_batch`, the verdicts and `reclaim_in_flight` do to the jobs that run under one worker id. A claim returns at
most `batch_size` jobs, all of them pending before (`claim_starts`); a verdict ends one lease (`report_leases`) and
`reclaim_in_flight` those of its list (`reclaimInFlight_leases`).
-/

namespace Eddyq.Pg

open Eddyq.Lib

variable {db db' : Db} {now : ℤ}

/-! ## The size of a claim -/

theorem claimUngrouped_length {free : JobId → Bool} {a : ClaimArgs} {c : Claiming} (h : c.accepted.length ≤ a.batchSize)
    (q : String) : (claimUngrouped db free a now c q).accepted.length ≤ a.batchSize := by
  unfold claimUngrouped
  split
  · exact h
  · have hl : (pick db free (ungroupedOn a now q) (ungroupedLimit a c q)).length ≤ _ := length_pick free _ _
    have hlim : ungroupedLimit a c q ≤ a.batchSize - c.accepted.length := by
      unfold ungroupedLimit
      split <;> omega
    simp only [acceptUngrouped, List.length_append, List.length_map]
    omega

theorem acceptGrouped_length (a : ClaimArgs) (key : String) : ∀ (js : List JobRow) (slots : ℤ) (c : Claiming),
    c.accepted.length ≤ a.batchSize → (acceptGrouped a key js slots c).accepted.length ≤ a.batchSize
  | [], _, _, h => h
  | j :: js, slots, c, h => by
    unfold acceptGrouped
    split
    · exact h
    · next hroom =>
      split
      · exact acceptGrouped_length a key js slots c h
      · refine acceptGrouped_length a key js _ _ ?_
        simp only [List.length_append, List.length_singleton]
        omega

theorem claimPicks_length (db : Db) (a : ClaimArgs) (now clock : ℤ) (order : MapOrder) :
    (claimPicks db a now clock order).1.accepted.length ≤ a.batchSize := by
  refine List.foldlRecOn _ _ (motive := fun c : Claiming => c.accepted.length ≤ a.batchSize) ?_ (fun c h g _ => ?_)
  · exact List.foldlRecOn _ _ (motive := fun c : Claiming => c.accepted.length ≤ a.batchSize) (Nat.zero_le _)
      (fun c h q _ => claimUngrouped_length h q)
  · unfold claimGrouped
    split
    · exact h
    · exact acceptGrouped_length a g.1 _ _ c h

/-- **What a claim starts**: at most `batch_size` pending jobs, which are its reply. -/
theorem claim_starts (hc : Counted db) (a : ClaimArgs) (now clock : ℤ) (order : MapOrder) :
    ∃ ids : List JobId, ids.length ≤ a.batchSize ∧ (∀ j ∈ db.jobs, j.id ∈ ids → j.state = .pending) ∧
      (claimBatch db a now clock order).2.map (·.id) = (db.jobs.filter (fun j => j.id ∈ ids)).map (·.id) ∧
      (claimBatch db a now clock order).1.jobs = updateWhere (fun j => j.id ∈ ids) (·.start a.worker now) db.jobs := by
  have hnone : ([] : List ClaimedJob).map (·.id) = (db.jobs.filter (fun j => j.id ∈ ([] : List JobId))).map (·.id) ∧
      db.jobs = updateWhere (fun j => j.id ∈ ([] : List JobId)) (·.start a.worker now) db.jobs := by
    simp [updateWhere]
  rcases claimBatch_cases db a now clock order with heq | ⟨gs, qs, heq⟩
  · rw [heq]
    exact ⟨[], Nat.zero_le _, fun _ _ hid => absurd hid List.not_mem_nil, hnone⟩
  · rw [heq, List.map_map]
    refine ⟨(claimPicks db a now clock order).1.accepted.map (·.id), ?_, fun j hj hid => hc.picked_pending hj hid, rfl, rfl⟩
    rw [List.length_map]
    exact claimPicks_length db a now clock order

/-- Distinct rows whose ids are listed are no more than the ids. -/
theorem length_filter_ids (hc : Counted db) (ids : List JobId) :
    (db.jobs.filter (fun j => j.id ∈ ids)).length ≤ ids.length := by
  have hn : ((db.jobs.filter (fun j => j.id ∈ ids)).map (·.id)).Nodup :=
    hc.ids.sublist (List.Sublist.map _ List.filter_sublist)
  have hsub : ((db.jobs.filter (fun j => j.id ∈ ids)).map (·.id)).Subperm ids := by
    refine List.subperm_of_subset hn (fun i hi => ?_)
    obtain ⟨j, hj, rfl⟩ := List.mem_map.mp hi
    simpa using (List.mem_filter.mp hj).2
  simpa using hsub.length_le

/-! ## Leases under one worker -/

/-- The job is running under the worker. -/
def Db.leases (w : WorkerId) (db : Db) (id : JobId) : Bool := db.jobs.any (·.leasedTo id w)

theorem leases_iff {w : WorkerId} {id : JobId} : db.leases w id = true ↔ db.LeasedTo id w := by
  simp [Db.leases, Db.LeasedTo]

theorem leases_idle (h : ∀ j ∈ db.jobs, j.running = false) (w : WorkerId) (id : JobId) : db.leases w id = false := by
  rw [Db.leases, List.any_eq_false]
  intro j hj hl
  exact absurd ((h j hj).symm.trans (leasedTo_running j hl)) Bool.false_ne_true

/-- Rows that are only added are pending. -/
theorem Grows.leases (h : Grows db db') (w : WorkerId) (id : JobId) : db'.leases w id = db.leases w id := by
  refine Bool.eq_iff_iff.mpr ?_
  rw [leases_iff, leases_iff]
  refine ⟨Db.LeasedTo.of_kept h.runsKept.leasesKept, fun ⟨j, hj, hl⟩ => ⟨j, ?_, hl⟩⟩
  induction h with
  | refl => exact hj
  | tail _ hs ih =>
    cases hs with
    | insert hi => cases hi with
      | row => exact List.mem_append_left _ ih
      | skip => exact ih
    | materialize hm => cases hm <;> exact ih
    | batches => exact ih

/-- An update that ends the runs it meets. -/
theorem leases_release {w : WorkerId} {p : JobRow → Bool} {f : JobRow → JobRow} (hf : ∀ j, (f j).running = false)
    (he : db'.jobs = updateWhere p f db.jobs) (id : JobId) :
    db'.leases w id = db.jobs.any (fun j => j.leasedTo id w && !p j) := by
  rw [Db.leases, he, updateWhere, List.any_map]
  congr 1
  funext j
  by_cases hp : p j
  · simp [hp, JobRow.leasedTo, hf j]
  · simp [hp]

theorem report_leases {w : WorkerId} {id : JobId} {p : JobRow → Bool} {f : JobRow → JobRow} {db₁ : Db}
    (hp : ∀ j, p j = j.leasedTo id w) (hf : ∀ j, (f j).running = false) (he : db₁.jobs = updateWhere p f db.jobs)
    (hg : Grows db₁ db') (i : JobId) : db'.leases w i = (db.leases w i && decide (i ≠ id)) := by
  rw [hg.leases, leases_release hf he, Db.leases]
  by_cases hi : i = id
  · subst hi
    simp [hp]
  · have hother : ∀ j : JobRow, (j.leasedTo i w && !p j) = j.leasedTo i w := by
      intro j
      by_cases hl : j.leasedTo i w
      · have hne : j.leasedTo id w = false := by
          by_contra hl'
          exact hi ((leasedTo_id j hl).symm.trans (leasedTo_id j (by simpa using hl')))
        simp [hp, hne]
      · simp [hl]
    simp [hother, hi]

theorem Reported.leases {w : WorkerId} {id : JobId} {f : JobRow → JobRow} (h : Reported db (·.leasedTo id w) f now db')
    (hf : ∀ j, (f j).running = false) (i : JobId) : db'.leases w i = (db.leases w i && decide (i ≠ id)) := by
  obtain ⟨db₁, hs, -, hg⟩ := h.released
  exact report_leases (fun _ => rfl) hf hs.jobs hg i

theorem markCompleted_leases {w : WorkerId} {id : JobId} {result : Option Json}
    (h : markCompleted db id w result now = .ok db') (i : JobId) :
    db'.leases w i = (db.leases w i && decide (i ≠ id)) := (markCompleted_ok h).leases (fun _ => rfl) i

theorem markFailed_leases {w : WorkerId} {id : JobId} {error : Json} {retryAt : Option ℤ}
    (h : markFailed db id w error retryAt now = .ok db') (i : JobId) :
    db'.leases w i = (db.leases w i && decide (i ≠ id)) :=
  (markFailed_ok h).leases (fun j => j.failOr_running error retryAt now) i

theorem reclaimInFlight_leases {w : WorkerId} {ids : List JobId} {n : Nat}
    (h : reclaimInFlight db ids now = .ok (db', n)) (i : JobId) :
    db'.leases w i = (db.leases w i && decide (i ∉ ids)) := by
  unfold reclaimInFlight at h
  split at h
  · next hnil =>
    cases h
    simp [hnil]
  · obtain ⟨db₁, hu, h⟩ := bind_eq_ok h
    obtain ⟨db₂, hf, h⟩ := bind_eq_ok h
    cases h
    rw [(fireAll_grows hf).leases, (updateBatches_grows hu).leases,
      leases_release (recover_not_running (reclaimEntry now) now) rfl, Db.leases]
    by_cases hi : i ∈ ids
    · simp only [hi, not_true_eq_false, decide_false, Bool.and_false, List.any_eq_false, Bool.and_eq_true,
        Bool.not_eq_true', not_and]
      intro j _ hl
      simp [leasedTo_running j hl, leasedTo_id j hl, hi]
    · simp only [hi, not_false_eq_true, decide_true, Bool.and_true]
      congr 1
      funext j
      by_cases hl : j.leasedTo i w
      · simp [hl, leasedTo_id j hl, hi]
      · simp [hl]

/-! ## The backend -/

theorem claim_leases (hc : Counted db) (a : ClaimArgs) (now clock : ℤ) (order : MapOrder) (id : JobId) :
    (claimBatch db a now clock order).1.leases a.worker id =
      (decide (id ∈ (claimBatch db a now clock order).2.map (·.id)) || db.leases a.worker id) := by
  obtain ⟨ids, _, hpend, hreply, hjobs⟩ := claim_starts hc a now clock order
  rw [Db.leases, hjobs, hreply, updateWhere, List.any_map, Bool.eq_iff_iff]
  simp only [List.any_eq_true, Bool.or_eq_true, decide_eq_true_eq, List.mem_map, List.mem_filter, Db.leases]
  constructor
  · rintro ⟨j, hj, hl⟩
    by_cases hin : j.id ∈ ids
    · simp only [Function.comp_apply, hin, if_true] at hl
      exact Or.inl ⟨j, ⟨hj, hin⟩, leasedTo_id (j.start a.worker now) hl⟩
    · simp only [Function.comp_apply, hin, if_false] at hl
      exact Or.inr ⟨j, hj, hl⟩
  · rintro (⟨j, ⟨hj, hin⟩, rfl⟩ | ⟨j, hj, hl⟩)
    · refine ⟨j, hj, ?_⟩
      simp [hin, JobRow.leasedTo, JobRow.start, JobRow.running]
    · refine ⟨j, hj, ?_⟩
      have hout : j.id ∉ ids := by
        intro hin
        have hst := hpend j hj hin
        have hr := leasedTo_running j hl
        simp [JobRow.running, hst] at hr
      simpa [hout] using hl

theorem claim_rows (hc : Counted db) (a : ClaimArgs) (now clock : ℤ) (order : MapOrder) :
    ((claimBatch db a now clock order).2.map (·.id)).length ≤ a.batchSize ∧
    ((claimBatch db a now clock order).2.map (·.id)).Nodup ∧
    ∀ id ∈ (claimBatch db a now clock order).2.map (·.id), db.leases a.worker id = false := by
  obtain ⟨ids, hlen, hpend, hreply, _⟩ := claim_starts hc a now clock order
  rw [hreply]
  refine ⟨?_, hc.ids.sublist (List.Sublist.map _ List.filter_sublist), fun id hid => ?_⟩
  · rw [List.length_map]
    exact Nat.le_trans (length_filter_ids hc ids) hlen
  · obtain ⟨j, hj, rfl⟩ := List.mem_map.mp hid
    obtain ⟨hj, hin⟩ := List.mem_filter.mp hj
    rw [Db.leases, List.any_eq_false]
    intro j' hj' hl
    have heq : j' = j := List.inj_on_of_nodup_map hc.ids hj' hj (leasedTo_id j' hl)
    have hst := hpend j hj (by simpa using hin)
    have hr := leasedTo_running j' hl
    rw [heq] at hr
    simp [JobRow.running, hst] at hr

/-- The counters are right after a claim of the worker. -/
theorem claimed_counted {w : WorkerId} {n : Nat} {rows : List JobId} (hc : Counted db)
    (h : ∃ (a : ClaimArgs) (now clock : ℤ) (order : MapOrder), a.worker = w ∧ a.batchSize = n ∧
      rows = (claimBatch db a now clock order).2.map (·.id) ∧ db' = (claimBatch db a now clock order).1) : Counted db' := by
  obtain ⟨a, now, clock, order, -, -, -, rfl⟩ := h
  exact hc.claimBatch a now clock order

/-- They are right after a verdict of the worker. -/
theorem reported_counted {w : WorkerId} {id : JobId} (hc : Counted db)
    (h : (∃ result now, markCompleted db id w result now = .ok db') ∨
      ∃ error retryAt now, markFailed db id w error retryAt now = .ok db') : Counted db' := by
  rcases h with ⟨result, now, h⟩ | ⟨error, retryAt, now, h⟩
  · exact hc.markCompleted h
  · exact hc.markFailed h

/-- Postgres, seen from the process with this worker id. -/
def backend (w : WorkerId) : Runtime.Backend Db where
  inv := Counted
  running := Db.leases w
  claim db n rows db' := ∃ (a : ClaimArgs) (now clock : ℤ) (order : MapOrder), a.worker = w ∧ a.batchSize = n ∧
    rows = (claimBatch db a now clock order).2.map (·.id) ∧ db' = (claimBatch db a now clock order).1
  report db id db' := (∃ result now, markCompleted db id w result now = .ok db') ∨
    ∃ error retryAt now, markFailed db id w error retryAt now = .ok db'
  reclaim db ids db' := ∃ now n, reclaimInFlight db ids now = .ok (db', n)
  other db db' := ∃ cron op, db' = Op.apply cron db op ∧ ∀ id, db'.leases w id = db.leases w id
  claim_inv := claimed_counted
  report_inv := reported_counted
  reclaim_inv := by
    rintro db ids db' hc ⟨now, n, h⟩
    have hs := hc.step (fun _ => .error "") (.reclaimInFlight ids now)
    simpa [Op.apply, Op.run, commitFst, h, Except.map, commit] using hs
  other_inv := by
    rintro db db' hc ⟨cron, op, rfl, _⟩
    exact hc.step cron op
  claim_rows := by
    rintro db n rows db' hc ⟨a, now, clock, order, rfl, rfl, rfl, rfl⟩
    exact claim_rows hc a now clock order
  claim_running := by
    rintro db n rows db' hc ⟨a, now, clock, order, rfl, rfl, rfl, rfl⟩
    exact claim_leases hc a now clock order
  report_running := by
    rintro db id db' hc (⟨result, now, h⟩ | ⟨error, retryAt, now, h⟩)
    · exact markCompleted_leases h
    · exact markFailed_leases h
  reclaim_running := by
    rintro db ids db' hc ⟨now, n, h⟩
    exact reclaimInFlight_leases h
  other_running := by
    rintro db db' _ ⟨_, _, _, h⟩
    exact h

end Eddyq.Pg
