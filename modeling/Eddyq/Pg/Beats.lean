import Eddyq.Runtime.Beats
import Eddyq.Pg.Backend
import Eddyq.Pg.Leases

/-!
# Heartbeats and sweeps on Postgres

A claim and a heartbeat stamp `heartbeat_at`, no other call does (`Op.runsKept`), and a running row always has a stamp
(`Beating`). `sweep_stale` gets its `stale_after` in whole seconds, so that its patience is what `as_secs` leaves of it.
-/

namespace Eddyq.Pg

open Eddyq.Lib

/-- The job runs and was last stamped at that time. -/
def Db.beat (db : Db) (id : JobId) (b : ℤ) : Prop := ∃ j ∈ db.jobs, j.id = id ∧ j.running ∧ j.heartbeatAt = some b

/-- Running rows have a stamp. -/
def Beating (db : Db) : Prop := ∀ j ∈ db.jobs, j.running → j.heartbeatAt.isSome

/-- The calls other than claims, heartbeats and sweeps. -/
def Op.aside : Op → Prop
  | .claim .. | .heartbeat .. | .sweepStale .. => False
  | _ => True

/-- The ids of the rows that a sweep finds. -/
def staleIds (db : Db) (staleAfterSecs : Nat) (now : ℤ) : List JobId :=
  (db.jobs.filter (fun j => j.running && j.stale now staleAfterSecs)).map (·.id)

section Beats

variable {db db' : Db} {id : JobId} {b now : ℤ}

theorem RunsKept.beat (h : RunsKept db db') (hb : db'.beat id b) : db.beat id b := by
  obtain ⟨j', hj', hid, hr, hbeat⟩ := hb
  obtain ⟨j, hj, hr, hid', _, hbeat'⟩ := h j' hj' hr
  exact ⟨j, hj, hid'.trans hid, hr, hbeat'.trans hbeat⟩

theorem RunsKept.beating (h : RunsKept db db') (hb : Beating db) : Beating db' := by
  intro j' hj' hr'
  obtain ⟨j, hj, hr, _, _, hbeat⟩ := h j' hj' hr'
  rw [← hbeat]
  exact hb j hj hr

theorem Op.aside_runsKept {op : Op} (h : op.aside) (cron : Cron) (db : Db) : RunsKept db (op.apply cron db) :=
  op.runsKept cron db (fun a now clock order he => by subst he; exact h) (fun ids now he => by subst he; exact h)

/-- The stamps after a claim. -/
theorem claimBatch_beat (hc : Counted db) (a : ClaimArgs) (now clock : ℤ) (order : MapOrder)
    (hb : (claimBatch db a now clock order).1.beat id b) :
    if id ∈ (claimBatch db a now clock order).2.map (·.id) then b = now else db.beat id b := by
  obtain ⟨ids, _, _, hreply, hjobs⟩ := claim_starts hc a now clock order
  obtain ⟨j', hj', hid, hr, hbeat⟩ := hb
  rw [hjobs] at hj'
  obtain ⟨j, hj, rfl⟩ := mem_updateWhere.mp hj'
  rw [hreply]
  by_cases hin : j.id ∈ ids
  · -- a row that is started is stamped
    rw [if_pos (decide_eq_true hin)] at hid hbeat
    have hmem : id ∈ (db.jobs.filter (fun j => j.id ∈ ids)).map (·.id) :=
      List.mem_map.mpr ⟨j, List.mem_filter.mpr ⟨hj, decide_eq_true hin⟩, hid⟩
    rw [if_pos hmem]
    exact (Option.some.inj hbeat).symm
  · have hno : ¬ decide (j.id ∈ ids) = true := by simpa using hin
    rw [if_neg hno] at hid hr hbeat
    have hmem : id ∉ (db.jobs.filter (fun j => j.id ∈ ids)).map (·.id) := by
      rintro hm
      obtain ⟨i, hi, hi'⟩ := List.mem_map.mp hm
      obtain ⟨_, hi⟩ := List.mem_filter.mp hi
      rw [hid, ← hi'] at hin
      exact hin (of_decide_eq_true hi)
    rw [if_neg hmem]
    exact ⟨j, hj, hid, hr, hbeat⟩

theorem claimBatch_beating (hb : Beating db) (a : ClaimArgs) (now clock : ℤ) (order : MapOrder) :
    Beating (claimBatch db a now clock order).1 := by
  rcases claim_grants db a now clock order with ⟨_, heq⟩ | ⟨ids, _, hjobs⟩
  · rw [heq]
    exact hb
  · intro j' hj' hr'
    rw [hjobs] at hj'
    obtain ⟨j, hj, rfl⟩ := mem_updateWhere.mp hj'
    by_cases hin : decide (j.id ∈ ids) = true
    · rw [if_pos hin]
      rfl
    · rw [if_neg hin] at hr' ⊢
      exact hb j hj hr'

/-- The stamps after a heartbeat. -/
theorem heartbeat_beat {ids : List JobId} (hb : (updateHeartbeatBatch db ids now).beat id b) :
    if id ∈ ids then b = now else db.beat id b := by
  obtain ⟨j', hj', hid, hr, hbeat⟩ := hb
  obtain ⟨j, hj, rfl⟩ := mem_updateWhere.mp hj'
  by_cases hin : (decide (j.id ∈ ids) && j.running) = true
  · rw [if_pos hin] at hid hbeat
    have hmem : id ∈ ids := by
      rw [← hid]
      exact of_decide_eq_true (Bool.and_eq_true_iff.mp hin).1
    rw [if_pos hmem]
    exact (Option.some.inj hbeat).symm
  · rw [if_neg hin] at hid hr hbeat
    have hmem : id ∉ ids := by
      intro hm
      rw [← hid] at hm
      exact hin (Bool.and_eq_true_iff.mpr ⟨decide_eq_true hm, hr⟩)
    rw [if_neg hmem]
    exact ⟨j, hj, hid, hr, hbeat⟩

theorem heartbeat_beating (hb : Beating db) (ids : List JobId) (now : ℤ) : Beating (updateHeartbeatBatch db ids now) := by
  intro j' hj' hr'
  obtain ⟨j, hj, rfl⟩ := mem_updateWhere.mp hj'
  by_cases hin : (decide (j.id ∈ ids) && j.running) = true
  · rw [if_pos hin]
    rfl
  · rw [if_neg hin] at hr' ⊢
    exact hb j hj hr'

/-- A sweep finds rows whose stamp is too old. -/
theorem Beating.of_stale (hb : Beating db) {secs : Nat} (hid : id ∈ staleIds db secs now) :
    ∃ b, db.beat id b ∧ b < now - secs * 1000 := by
  obtain ⟨j, hj, rfl⟩ := List.mem_map.mp hid
  obtain ⟨hj, hst⟩ := List.mem_filter.mp hj
  obtain ⟨hr, hst⟩ := Bool.and_eq_true_iff.mp hst
  obtain ⟨b, hbeat⟩ := Option.isSome_iff_exists.mp (hb j hj hr)
  refine ⟨b, ⟨j, hj, rfl, hr, hbeat⟩, ?_⟩
  unfold JobRow.stale at hst
  rw [hbeat] at hst
  exact of_decide_eq_true hst

end Beats

/-- Postgres by the clock. -/
def pulse : Runtime.Pulse Db where
  inv := Counted
  sound := Beating
  current _ _ _ := True
  beat := Db.beat
  patience n := ((n / 1000 : ℕ) : ℤ) * 1000
  claim t w db n rows db' := ∃ (a : ClaimArgs) (order : MapOrder), a.worker = w ∧ a.batchSize = n ∧
    rows = (claimBatch db a t t order).2.map (·.id) ∧ db' = (claimBatch db a t t order).1
  verdict t w db id db' := (∃ result, markCompleted db id w result t = .ok db') ∨
    ∃ error retryAt, markFailed db id w error retryAt t = .ok db'
  heartbeat t db ids db' := db' = updateHeartbeatBatch db ids t
  sweep t n db ids db' := ids = staleIds db (n / 1000) t ∧ ∃ k, sweepStale db (n / 1000) t = .ok (db', k)
  other db db' := ∃ cron op, Op.aside op ∧ db' = op.apply cron db
  claim_inv := by
    rintro t w db n rows db' hc ⟨a, order, rfl, rfl, rfl, rfl⟩
    exact hc.claimBatch a t t order
  verdict_inv := by
    rintro t w db id db' hc (⟨result, h⟩ | ⟨error, retryAt, h⟩)
    · exact hc.markCompleted h
    · exact hc.markFailed h
  heartbeat_inv := by
    rintro t db ids db' hc rfl
    exact hc.step noCron (.heartbeat ids t)
  sweep_inv := by
    rintro t n db ids db' hc ⟨rfl, k, h⟩
    exact hc.recover h
  other_inv := by
    rintro db db' hc ⟨cron, op, _, rfl⟩
    exact hc.step cron op
  claim_sound := by
    rintro t w db n rows db' hb ⟨a, order, rfl, rfl, rfl, rfl⟩
    exact claimBatch_beating hb a t t order
  verdict_sound := by
    rintro t w db id db' hb (⟨result, h⟩ | ⟨error, retryAt, h⟩) _
    · exact (markCompleted_runsKept h).beating hb
    · exact (markFailed_runsKept h).beating hb
  heartbeat_sound := by
    rintro t db ids db' hb rfl
    exact heartbeat_beating hb ids t
  sweep_sound := by
    rintro t n db ids db' hb ⟨rfl, k, h⟩
    exact (recover_runsKept h).beating hb
  other_sound := by
    rintro db db' hb ⟨cron, op, ha, rfl⟩
    exact (Op.aside_runsKept ha cron db).beating hb
  claim_rows := by
    rintro t w db n rows db' hc ⟨a, order, rfl, rfl, rfl, rfl⟩
    obtain ⟨hlen, hnodup, _⟩ := Pg.claim_rows hc a t t order
    exact ⟨hlen, hnodup⟩
  claim_beat := by
    rintro t w db n rows db' id b hc ⟨a, order, rfl, rfl, rfl, rfl⟩ hb
    exact claimBatch_beat hc a t t order hb
  verdict_beat := by
    rintro t w db id db' i b (⟨result, h⟩ | ⟨error, retryAt, h⟩) hb
    · exact (markCompleted_runsKept h).beat hb
    · exact (markFailed_runsKept h).beat hb
  heartbeat_beat := by
    rintro t db ids db' id b _ rfl hb
    exact Pg.heartbeat_beat hb
  sweep_beat := by
    rintro t n db ids db' id b ⟨rfl, k, h⟩ hb
    exact (recover_runsKept h).beat hb
  other_beat := by
    rintro db db' id b ⟨cron, op, ha, rfl⟩ hb
    exact (Op.aside_runsKept ha cron db).beat hb
  sweep_stale := by
    rintro t n db ids db' id hb ⟨rfl, k, _⟩ hid
    exact hb.of_stale hid

end Eddyq.Pg
