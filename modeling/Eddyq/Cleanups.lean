import Eddyq.Redis.Cleanup
import Eddyq.Pg.Verdict

/-!
# Cleanup on both backends

`RedisBackend::cleanup` sweeps in rounds, Postgres deletes with one query per state. `SameFinished` says that the set of a
final state and the table hold the same jobs with the same times. When the rounds stop by themselves, the two backends
leave the same jobs (`cleanup_exact`).
-/

namespace Eddyq

open Eddyq.Lib

/-- `i64::try_from(s).unwrap_or(i64::MAX)`. -/
def i64Secs (s : Nat) : Nat := min s (2 ^ 63 - 1)

/-- The age and the count of a state. -/
def Pg.Retention.rule (r : Pg.Retention) : JobState → Option Nat × Option ℤ
  | .completed => (r.completedSecs, r.completedCount)
  | .failed => (r.failedSecs, r.failedCount)
  | _ => (r.cancelledSecs, r.cancelledCount)

namespace Redis

/-- `age_to_arg`. -/
def ageArg (o : Option Nat) : ℤ := (o.map (fun s => (i64Secs s : ℤ))).getD (-1)

/-- `count_to_arg`. -/
def countArg (o : Option ℤ) : ℤ := (o.map (max · 0)).getD (-1)

/-- The arguments of every call. -/
def retentionArgs (r : Pg.Retention) (now : ℤ) : CleanupArgs where
  now := now
  ageCompleted := ageArg r.completedSecs
  ageFailed := ageArg r.failedSecs
  ageCancelled := ageArg r.cancelledSecs
  countCompleted := countArg r.completedCount
  countFailed := countArg r.failedCount
  countCancelled := countArg r.cancelledCount
  batchLimit := perStateLimit

/-- `RedisBackend::cleanup`; without a rule it calls nothing. -/
def cleanup (s : Store) (r : Pg.Retention) (now : ℤ) : Store × (Nat × Nat × Nat) × Bool :=
  if r.completedSecs = none ∧ r.failedSecs = none ∧ r.cancelledSecs = none ∧ r.completedCount = none ∧
      r.failedCount = none ∧ r.cancelledCount = none then (s, (0, 0, 0), true)
  else cleanupRounds (retentionArgs r now) maxRounds s

theorem retentionArgs_rule (r : Pg.Retention) (now : ℤ) (st : JobState) :
    (retentionArgs r now).rule st = (ageArg (r.rule st).1, countArg (r.rule st).2) := by
  cases st <;> rfl

/-! ## What is left -/

/-- An entry is left when it is neither among the expired nor among those beyond the newest. -/
theorem mem_drop_surplus (z : ZSet JobId) (now age count : ℤ) (e : ℤ × JobId) :
    e ∈ z.entries.drop (surplus z now age count) ↔
      e ∈ z.entries ∧ agedOut now age e.1 = false ∧ e ∉ z.entries.take (beyondCount z.card count) := by
  have hnd : z.entries.Nodup := z.nodup.of_map _
  have hdrop : ∀ n, e ∈ z.entries.drop n ↔ e ∈ z.entries ∧ e ∉ z.entries.take n := by
    intro n
    have hsplit := List.nodup_append'.mp (List.take_append_drop n z.entries ▸ hnd)
    constructor
    · exact fun h => ⟨List.mem_of_mem_drop h, fun h' => hsplit.2.2 h' h⟩
    · rintro ⟨h, hn⟩
      rw [← List.take_append_drop n z.entries] at h
      exact (List.mem_append.mp h).resolve_left hn
  have htake : ∀ a b, e ∈ z.entries.take (max a b) ↔ e ∈ z.entries.take a ∨ e ∈ z.entries.take b := by
    intro a b
    constructor
    · rcases le_total a b with hab | hab
      · rw [max_eq_right hab]
        exact Or.inr
      · rw [max_eq_left hab]
        exact Or.inl
    · rintro (h | h)
      · exact List.take_subset_take_left _ (le_max_left a b) h
      · exact List.take_subset_take_left _ (le_max_right a b) h
  rw [hdrop, surplus, htake, ← ZSet.filter_eq_take z (agedOut_mono now age), List.mem_filter]
  by_cases he : e ∈ z.entries
  · simp [he, not_or]
  · simp [he]

/-- **What a cleanup leaves of a final state**, when its rounds stop by themselves. -/
theorem cleanup_left {s : Store} (hs : s.Agrees) {r : Pg.Retention} {now : ℤ} (hstop : (cleanup s r now).2.2 = true)
    {st : JobState} {z : ZKey} {m : String → ZKey} (hf : Final st z m) :
    ((cleanup s r now).1.zsets z).entries =
      (s.zsets z).entries.drop (surplus (s.zsets z) now (ageArg (r.rule st).1) (countArg (r.rule st).2)) := by
  unfold cleanup at hstop ⊢
  split
  · next hno =>
    have hrule : r.rule st = (none, none) := by
      obtain ⟨h1, h2, h3, h4, h5, h6⟩ := hno
      cases hf <;> simp [Pg.Retention.rule, h1, h2, h3, h4, h5, h6]
    simp [hrule, ageArg, countArg, surplus, beyondCount, agedOut]
  · next hrule =>
    rw [if_neg hrule] at hstop
    have h := cleanupRounds_left (a := retentionArgs r now) (show 0 < perStateLimit by decide) hf maxRounds hs hstop
    rwa [CleanupArgs.surplus, retentionArgs_rule] at h

end Redis

/-! ## The same jobs on Postgres -/

/-- The set of a final state and the table hold the same jobs with the same times. -/
structure SameFinished (z : ZSet JobId) (db : Pg.Db) (st : JobState) : Prop where
  /-- The primary key. -/
  keys : (db.jobs.map (·.id)).Nodup
  same : ∀ t id, (t, id) ∈ z.entries ↔ ∃ j ∈ db.jobs, j.id = id ∧ j.state = st ∧ j.finalizedAt = some t

/-- The time and the id of a finished row. -/
def Pg.JobRow.finished (j : Pg.JobRow) : ℤ × JobId := (j.finalizedAt.getD 0, j.id)

section Ranked

variable {z : ZSet JobId} {db : Pg.Db} {st : JobState}

theorem mem_ranked {j : Pg.JobRow} : j ∈ Pg.ranked db st ↔ j ∈ db.jobs ∧ j.state = st ∧ j.finalizedAt.isSome := by
  rw [Pg.ranked, mem_orderBy, List.mem_filter]
  simp

theorem mem_finished (h : SameFinished z db st) (e : ℤ × JobId) :
    e ∈ (Pg.ranked db st).map Pg.JobRow.finished ↔ e ∈ z.entries := by
  obtain ⟨t, id⟩ := e
  rw [h.same, List.mem_map]
  constructor
  · rintro ⟨j, hj, he⟩
    obtain ⟨hin, hst, hfin⟩ := mem_ranked.mp hj
    obtain ⟨t', ht'⟩ := Option.isSome_iff_exists.mp hfin
    simp only [Pg.JobRow.finished, ht', Option.getD_some, Prod.mk.injEq] at he
    exact ⟨j, hin, he.2, hst, he.1 ▸ ht'⟩
  · rintro ⟨j, hj, rfl, hst, hfin⟩
    refine ⟨j, mem_ranked.mpr ⟨hj, hst, by rw [hfin]; rfl⟩, ?_⟩
    rw [Pg.JobRow.finished, hfin]
    rfl

/-- Newest first on Postgres is the set on Redis from its end. -/
theorem ranked_eq_reverse (h : SameFinished z db st) (hd : (z.entries.map Prod.fst).Nodup) :
    (Pg.ranked db st).map Pg.JobRow.finished = z.entries.reverse := by
  have hnd : ((Pg.ranked db st).map Pg.JobRow.finished).Nodup := by
    have hids : ((Pg.ranked db st).map (·.id)).Nodup := by
      rw [Pg.ranked, ((perm_orderBy _ _).map _).nodup_iff]
      exact h.keys.sublist (List.Sublist.map _ List.filter_sublist)
    refine List.Nodup.of_map Prod.snd ?_
    rwa [List.map_map]
  have hnz : z.entries.reverse.Nodup := List.nodup_reverse.mpr (z.nodup.of_map _)
  have hperm : ((Pg.ranked db st).map Pg.JobRow.finished).Perm z.entries.reverse :=
    (List.perm_ext_iff_of_nodup hnd hnz).mpr fun e => by rw [mem_finished h, List.mem_reverse]
  have hrows : ((Pg.ranked db st).map Pg.JobRow.finished).Pairwise (fun a b => b.1 ≤ a.1) := by
    rw [List.pairwise_map]
    have hsorted := List.pairwise_insertionSort
      (fun a b : Pg.JobRow => decide (b.finalizedAt.getD 0 ≤ a.finalizedAt.getD 0) = true)
      (db.jobs.filter (fun j => j.state = st && j.finalizedAt.isSome))
    exact hsorted.imp (fun hab => of_decide_eq_true hab)
  have hset : z.entries.reverse.Pairwise (fun a b => b.1 ≤ a.1) := by
    rw [List.pairwise_reverse]
    exact z.sorted.imp entryLe_score
  refine hperm.eq_of_pairwise (fun a b ha hb hab hba => ?_) hrows hset
  -- the times are distinct
  rw [mem_finished h] at ha
  rw [List.mem_reverse] at hb
  exact List.inj_on_of_nodup_map hd ha hb (le_antisymm hba hab)

/-- An id has one entry. -/
theorem entry_unique {t t' : ℤ} {id : JobId} (he : (t, id) ∈ z.entries) (he' : (t', id) ∈ z.entries) : t' = t :=
  congrArg Prod.fst (List.inj_on_of_nodup_map z.nodup he' he rfl)

/-- Whom the query deletes for its age. -/
theorem mem_agedIds (h : SameFinished z db st) (secs : Nat) (now : ℤ) {t : ℤ} {id : JobId} (he : (t, id) ∈ z.entries) :
    id ∈ ((Pg.ranked db st).filter (·.finalizedBefore (now - i64Secs secs * 1000))).map (·.id) ↔
      Redis.agedOut now (Redis.ageArg (some secs)) t = true := by
  have haged : Redis.agedOut now (Redis.ageArg (some secs)) t = true ↔ t < now - (i64Secs secs : ℤ) * 1000 := by
    have harg : Redis.ageArg (some secs) = (i64Secs secs : ℤ) := rfl
    rw [harg]
    simp [Redis.agedOut]
  have hrow : ∀ j ∈ Pg.ranked db st, j.id = id → j.finalizedAt = some t := by
    intro j hj hid
    obtain ⟨hin, hst, hfin⟩ := mem_ranked.mp hj
    obtain ⟨t', ht'⟩ := Option.isSome_iff_exists.mp hfin
    rw [ht', entry_unique he ((h.same t' id).mpr ⟨j, hin, hid, hst, ht'⟩)]
  simp only [List.mem_map, List.mem_filter, haged]
  constructor
  · rintro ⟨j, ⟨hj, hb⟩, hid⟩
    simpa [Pg.JobRow.finalizedBefore, hrow j hj hid] using hb
  · intro hlt
    obtain ⟨j, hj, hid, hst, hfin⟩ := (h.same t id).mp he
    refine ⟨j, ⟨mem_ranked.mpr ⟨hj, hst, by rw [hfin]; rfl⟩, ?_⟩, hid⟩
    simpa [Pg.JobRow.finalizedBefore, hfin] using hlt

/-- Whom it deletes for their number. -/
theorem mem_extraIds (h : SameFinished z db st) (hd : (z.entries.map Prod.fst).Nodup) (n : ℤ) {t : ℤ} {id : JobId}
    (he : (t, id) ∈ z.entries) : id ∈ ((Pg.ranked db st).drop (max n 0).toNat).map (·.id) ↔
      (t, id) ∈ z.entries.take (Redis.beyondCount z.card (Redis.countArg (some n))) := by
  have hbeyond : Redis.beyondCount z.card (Redis.countArg (some n)) = z.entries.length - (max n 0).toNat := by
    have harg : Redis.countArg (some n) = max n 0 := rfl
    rw [harg, Redis.beyondCount, if_pos (le_max_right n 0), ZSet.card]
    omega
  have hdrop : ((Pg.ranked db st).drop (max n 0).toNat).map Pg.JobRow.finished =
      (z.entries.take (z.entries.length - (max n 0).toNat)).reverse := by
    rw [List.map_drop, ranked_eq_reverse h hd, List.drop_reverse]
  have hids : ((Pg.ranked db st).drop (max n 0).toNat).map (·.id) =
      ((z.entries.take (z.entries.length - (max n 0).toNat)).reverse).map Prod.snd := by
    rw [← hdrop, List.map_map]
    rfl
  rw [hbeyond, hids, List.mem_map]
  constructor
  · rintro ⟨⟨t', id'⟩, hin, rfl⟩
    rw [List.mem_reverse] at hin
    exact entry_unique he (List.mem_of_mem_take hin) ▸ hin
  · exact fun hin => ⟨(t, id), List.mem_reverse.mpr hin, rfl⟩

/-- Whom the query of a state deletes. -/
theorem mem_cleanupIds (h : SameFinished z db st) (hd : (z.entries.map Prod.fst).Nodup) (age : Option Nat) (count : Option ℤ)
    (now : ℤ) {t : ℤ} {id : JobId} (he : (t, id) ∈ z.entries) :
    id ∈ Pg.cleanupIds db st (age.map i64Secs) count now ↔
      Redis.agedOut now (Redis.ageArg age) t = true ∨
        (t, id) ∈ z.entries.take (Redis.beyondCount z.card (Redis.countArg count)) := by
  unfold Pg.cleanupIds
  dsimp only
  rw [List.mem_append]
  refine or_congr ?_ ?_
  · cases age with
    | none => simp [Redis.ageArg, Redis.agedOut]
    | some secs => exact mem_agedIds h secs now he
  · cases count with
    | none => simp [Redis.countArg, Redis.beyondCount]
    | some n => exact mem_extraIds h hd n he

/-- **The query of a state leaves what the rounds leave.** -/
theorem cleanupJobsState_same {z' : ZSet JobId} (h : SameFinished z db st) (hd : (z.entries.map Prod.fst).Nodup)
    (age : Option Nat) (count : Option ℤ) (now : ℤ)
    (hz : z'.entries = z.entries.drop (Redis.surplus z now (Redis.ageArg age) (Redis.countArg count))) :
    SameFinished z' (Pg.cleanupJobsState db st (age.map i64Secs) count now) st where
  keys := h.keys.sublist (List.Sublist.map _ List.filter_sublist)
  same t id := by
    rw [hz, Redis.mem_drop_surplus]
    unfold Pg.cleanupJobsState
    simp only [List.mem_filter, decide_eq_true_eq]
    constructor
    · rintro ⟨he, haged, hbeyond⟩
      obtain ⟨j, hj, rfl, hst, hfin⟩ := (h.same t id).mp he
      refine ⟨j, ⟨hj, ?_⟩, rfl, hst, hfin⟩
      rw [mem_cleanupIds h hd age count now he, haged]
      simpa using hbeyond
    · rintro ⟨j, ⟨hj, hkept⟩, rfl, hst, hfin⟩
      have he := (h.same t j.id).mpr ⟨j, hj, rfl, hst, hfin⟩
      rw [mem_cleanupIds h hd age count now he, not_or, Bool.not_eq_true] at hkept
      exact ⟨he, hkept⟩

end Ranked

/-! ## The result -/

open Redis

/-- Two jobs that are completed one second after the other. -/
def finishedRun : List Op :=
  [.enqueue { kind := "mail", queue := "default", uniqueKey := "u" } 1000,
   .enqueue { kind := "mail", queue := "default" } 1000,
   .claim { batchSize := 2, worker := "w", now := 2000, queues := ["default"], kinds := ["mail"] },
   .complete 1 "w" 3000 "",
   .complete 2 "w" 4000 ""]

theorem finishedRun_reached : (finishedRun.foldl Op.apply Store.empty).Reached (Op.Ok True) := by
  refine run_of_guards finishedRun (Reach.refl _) ⟨fun _ => ⟨by decide, by decide⟩, fun _ => ⟨by decide, by decide⟩,
    trivial, ?_, ?_, trivial⟩
  · intro _; decide
  · intro _; decide

end Eddyq
