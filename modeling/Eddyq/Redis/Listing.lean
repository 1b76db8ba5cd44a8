import Eddyq.Redis.Stats

/-!
# Listing jobs on Redis

`fn_list_jobs` chooses sorted sets by the state, and for pending jobs by the queue, and counts and pages through all their
members; `list_jobs` drops the rows of the page that other filters exclude. So the listing answers exactly when those
filters exclude no job of the chosen sets (`listJobs_answers_iff`). An id is looked up without a glance at the other
filters. Without filters the pages tile the listing (`pages_tile`).

Ranks are exact numbers: Lua's doubles hold them far beyond the size of any set.
-/

namespace Eddyq.Redis

open Eddyq.Lib Stats

/-! ## Rows -/

/-- `from_timestamp_millis` of a field, between the first and the last day of `chrono`. -/
def msToDt (ms : Option ℤ) : Option ℤ :=
  (ms.filter fun n => -8334601228800000 ≤ n ∧ n ≤ 8210266876799999).map (· * 10 ^ 6)

/-- `parse` of a field into an integer type. -/
def parseInt (lo hi : ℤ) (x : Option ℤ) : Option ℤ := x.filter fun n => lo ≤ n ∧ n ≤ hi

/-- `hash_to_job_row` of a HASH that is there; `now` is the clock. -/
def hashToJobRow (now : ℤ) (id : JobId) (h : JobHash) : Stats.JobRow where
  id := id
  queue := h.queue.getD ""
  kind := h.kind.getD ""
  state := (h.state.map JobState.asStr).getD ""
  priority := (parseInt (-(2 ^ 15)) (2 ^ 15 - 1) h.priority).getD 0
  attempt := (parseInt (-(2 ^ 31)) (2 ^ 31 - 1) h.attempt).getD 0
  maxAttempts := (parseInt (-(2 ^ 31)) (2 ^ 31 - 1) h.maxAttempts).getD 3
  scheduledAt := (msToDt h.scheduledAt).getD now
  createdAt := (msToDt h.createdAt).getD now
  finalizedAt := ((msToDt h.completedAt).or (msToDt h.failedAt)).or (msToDt h.cancelledAt)
  groupKey := h.groupKey.filter (· ≠ "")
  tags := h.tags.getD []

/-- `filter_matches`. -/
def filterMatches (f : ListJobsFilter) (r : Stats.JobRow) : Bool :=
  (∀ k ∈ f.kind, r.kind = k) ∧ (∀ g ∈ f.groupKey, r.groupKey = some g) ∧ (∀ t ∈ f.tag, t ∈ r.tags) ∧
    ∀ before ∈ f.beforeCreatedAt, r.createdAt < before

/-! ## `fn_list_jobs` -/

/-- The set of a state. The pending jobs have one for each queue. -/
def sourceKey (st : JobState) (q : String) : ZKey :=
  match st with
  | .pending => .wait q
  | .running => .active
  | .scheduled => .delayed
  | .completed => .completed
  | .failed => .failed
  | .cancelled => .cancelled

/-- The `limit` ids from `offset` on. -/
def pageOf (ids : List JobId) (offset limit : Nat) : List JobId := (ids.take (offset + limit)).drop offset

/-- `eddyq_list_jobs`; no state is `any`. -/
def fnListJobs (s : Store) (state : Option JobState) (queue : String) (offset limit : Nat) : Nat × List JobId :=
  let limit := max 1 (min limit 500)
  match state with
  | some .pending =>
    if queue ≠ "" then ((s.zsets (.wait queue)).card, (s.zsets (.wait queue)).revRange offset limit)
    else
      -- the whole of every queue, one after the other
      ((s.queuesSeen.map (fun q => (s.zsets (.wait q)).card)).sum,
        pageOf (s.queuesSeen.flatMap (fun q => (s.zsets (.wait q)).members.reverse)) offset limit)
  | some st =>
    let z := s.zsets (sourceKey st queue)
    let ids := z.revRange offset limit
    (z.card, if queue ≠ "" then ids.filter (fun id => (s.hash id).queue = some queue) else ids)
  | none =>
    let keys := [.active, .delayed, .completed, .failed, .cancelled] ++ s.queuesSeen.map .wait
    ((keys.map (fun k => (s.zsets k).card)).sum,
      pageOf (keys.flatMap (fun k => (s.zsets k).revRange 0 (offset + limit))) offset limit)

/-! ## `list_jobs` -/

/-- The rows of the ids that have a HASH. -/
def rowsOf (s : Store) (now : ℤ) (ids : List JobId) : List Stats.JobRow :=
  ids.filterMap fun id => (s.job id).map (hashToJobRow now id)

/-- `list_one_job`. -/
def listOneJob (s : Store) (now : ℤ) (id : JobId) : JobList where
  total := (rowsOf s now [id]).length
  rows := rowsOf s now [id]

/-- `list_jobs`. -/
def listJobs (s : Store) (now : ℤ) (f : ListJobsFilter) (p : Pagination) : JobList :=
  match f.id with
  | some id => listOneJob s now id
  | none =>
    let reply := fnListJobs s f.state (f.queue.getD "") p.skipped p.pageSize
    { total := reply.1, rows := (rowsOf s now reply.2).filter (filterMatches f) }

/-! ## The statement -/

/-- The jobs of the store. -/
def Store.jobRows (s : Store) (now : ℤ) : Set Stats.JobRow := {r | ∃ id h, s.job id = some h ∧ r = hashToJobRow now id h}

/-- The jobs that a listing counts: the one with the id; else those in the state, if it is pending of the queue. -/
def Counted (f : ListJobsFilter) (r : Stats.JobRow) : Prop :=
  match f.id with
  | some id => r.id = id
  | none => (∀ st ∈ f.state, r.state = st.asStr) ∧ (f.state = some .pending → ∀ q ∈ f.queue, q ≠ "" → r.queue = q)

/-! ## The chosen sets -/

/-- Their keys. -/
def chosenKeys (s : Store) (state : Option JobState) (queue : String) : List ZKey :=
  match state with
  | some .pending => if queue ≠ "" then [.wait queue] else s.queuesSeen.map .wait
  | some st => [sourceKey st queue]
  | none => [.active, .delayed, .completed, .failed, .cancelled] ++ s.queuesSeen.map .wait

/-- Their members, each set from its end. -/
def pool (s : Store) (state : Option JobState) (queue : String) : List JobId :=
  (chosenKeys s state queue).flatMap fun k => (s.zsets k).members.reverse

section Pool

theorem take_flatMap_take {α β : Type*} (f : α → List β) (n : Nat) (ks : List α) {m : Nat} (h : m ≤ n) :
    (ks.flatMap (fun k => (f k).take n)).take m = (ks.flatMap f).take m := by
  induction ks generalizing m with
  | nil => rfl
  | cons k ks ih =>
    rw [List.flatMap_cons, List.flatMap_cons, List.take_append, List.take_append, List.take_take, min_eq_left h,
      List.length_take, ih (by omega)]
    congr 2
    omega

theorem pageOf_eq (ids : List JobId) (offset limit : Nat) : pageOf ids offset limit = (ids.drop offset).take limit := by
  rw [pageOf, List.drop_take, Nat.add_sub_cancel_left]

theorem card_eq_length_reverse (z : ZSet JobId) : z.card = z.members.reverse.length := by
  simp [ZSet.card, ZSet.members]

/-- Only a page of one state drops what is not on the queue. -/
def onQueue (s : Store) (state : Option JobState) (queue : String) (id : JobId) : Bool :=
  state = none ∨ state = some .pending ∨ queue = "" ∨ (s.hash id).queue = some queue

theorem onQueue_all {s : Store} {state : Option JobState} {queue : String}
    (h : state = none ∨ state = some .pending ∨ queue = "") : onQueue s state queue = fun _ => true := by
  funext id
  rcases h with rfl | rfl | rfl <;> simp [onQueue]

/-- The filter of a page of one state. -/
theorem filter_onQueue {s : Store} {st : JobState} {queue : String} (hst : st ≠ .pending) (ids : List JobId) :
    (if queue ≠ "" then ids.filter (fun id => (s.hash id).queue = some queue) else ids) =
      ids.filter (onQueue s (some st) queue) := by
  by_cases hq : queue = ""
  · rw [if_neg (not_not.mpr hq), onQueue_all (.inr (.inr hq)), List.filter_true]
  · rw [if_pos hq]
    congr 1
    funext id
    simp [onQueue, hq, hst]

/-- The cardinalities of the sets add up to the length of the pool. -/
theorem sum_card (s : Store) (keys : List ZKey) : (keys.map (fun k => (s.zsets k).card)).sum =
    (keys.flatMap (fun k => (s.zsets k).members.reverse)).length := by
  simp [List.length_flatMap, card_eq_length_reverse]

/-- **The function counts the pool and pages through it.** -/
theorem fnListJobs_eq (s : Store) (state : Option JobState) (queue : String) (offset : Nat) {limit : Nat} (hpos : 0 < limit)
    (hle : limit ≤ 500) : fnListJobs s state queue offset limit =
      ((pool s state queue).length, (((pool s state queue).drop offset).take limit).filter (onQueue s state queue)) := by
  have hlimit : max 1 (min limit 500) = limit := by omega
  unfold fnListJobs pool
  rw [hlimit]
  cases state with
  | none =>
    have hcut : ∀ keys : List ZKey,
        (keys.flatMap (fun k => (s.zsets k).revRange 0 (offset + limit))).take (offset + limit) =
          (keys.flatMap (fun k => (s.zsets k).members.reverse)).take (offset + limit) :=
      fun keys => take_flatMap_take (fun k => (s.zsets k).members.reverse) _ keys le_rfl
    dsimp only
    rw [onQueue_all (.inl rfl), List.filter_true, pageOf, hcut, ← pageOf, pageOf_eq, sum_card]
    rfl
  | some st =>
    by_cases hst : st = .pending
    · subst hst
      -- the wait sets of all queues, or that of one
      have hmap : ∀ qs : List String, qs.flatMap (fun q => (s.zsets (.wait q)).members.reverse) =
          (qs.map ZKey.wait).flatMap (fun k => (s.zsets k).members.reverse) := fun qs => by rw [List.flatMap_map]
      have htotal : ∀ qs : List String, (qs.map (fun q => (s.zsets (.wait q)).card)).sum =
          ((qs.map ZKey.wait).flatMap (fun k => (s.zsets k).members.reverse)).length := by
        intro qs
        rw [← sum_card, List.map_map]
        rfl
      rw [onQueue_all (.inr (.inl rfl)), List.filter_true]
      dsimp only [chosenKeys]
      by_cases hq : queue = ""
      · rw [if_neg (not_not.mpr hq), if_neg (not_not.mpr hq), pageOf_eq, hmap, htotal]
      · rw [if_pos hq, if_pos hq, List.flatMap_singleton, card_eq_length_reverse, ZSet.revRange]
    · have hkeys : chosenKeys s (some st) queue = [sourceKey st queue] := by
        cases st <;> first | rfl | exact absurd rfl hst
      rw [hkeys, List.flatMap_singleton, ← card_eq_length_reverse, ← filter_onQueue hst]
      cases st <;> first | rfl | exact absurd rfl hst

/-- The keys that a listing may choose. -/
def ZKey.listed : ZKey → Prop
  | .wait _ | .delayed | .active | .completed | .failed | .cancelled => True
  | _ => False

theorem chosenKeys_listed {s : Store} {state : Option JobState} {queue : String} {k : ZKey}
    (h : k ∈ chosenKeys s state queue) : k.listed := by
  cases state with
  | none =>
    simp only [chosenKeys, List.mem_append, List.mem_cons, List.not_mem_nil, or_false, List.mem_map] at h
    rcases h with (rfl | rfl | rfl | rfl | rfl) | ⟨q, _, rfl⟩ <;> trivial
  | some st =>
    cases st with
    | pending =>
      dsimp only [chosenKeys] at h
      split at h
      · rw [List.mem_singleton.mp h]
        trivial
      · obtain ⟨q, _, rfl⟩ := List.mem_map.mp h
        trivial
    | _ =>
      rw [List.mem_singleton.mp h]
      trivial

/-- Of these a job's state prescribes one. -/
theorem listed_home {k : ZKey} (h : k.listed) (st : JobState) (q g : String) : k ∈ homeKeys st q g ↔ k = sourceKey st q := by
  cases st <;> cases k <;> first | exact h.elim | (by_cases hg : g = "" <;> simp [homeKeys, sourceKey, hg])

theorem chosenKeys_nodup {s : Store} (h : s.queuesSeen.Nodup) (state : Option JobState) (queue : String) :
    (chosenKeys s state queue).Nodup := by
  have hwaits : (s.queuesSeen.map ZKey.wait).Nodup := h.map (fun _ _ he => ZKey.wait.inj he)
  cases state with
  | none =>
    refine List.nodup_append.mpr ⟨by decide, hwaits, ?_⟩
    intro k hk k' hk' heq
    obtain ⟨q, _, rfl⟩ := List.mem_map.mp hk'
    simp [heq] at hk
  | some st =>
    cases st with
    | pending =>
      dsimp only [chosenKeys]
      split
      · exact List.nodup_singleton _
      · exact hwaits
    | _ => exact List.nodup_singleton _

/-- The set of a job is chosen when the job is counted. -/
theorem mem_chosenKeys {s : Store} {state : Option JobState} {queue : String} {st : JobState} {q : String}
    (h : q ∈ s.queuesSeen) : sourceKey st q ∈ chosenKeys s state queue ↔
      (∀ st' ∈ state, st = st') ∧ (state = some .pending → queue ≠ "" → q = queue) := by
  cases state with
  | none => cases st <;> simp [sourceKey, chosenKeys, h]
  | some st' =>
    cases st' <;> cases st <;> by_cases hq : queue = "" <;> simp [sourceKey, chosenKeys, h, hq]

variable {s : Store}

theorem Store.Consistent.mem_listed (hs : s.Consistent) {k : ZKey} (hk : k.listed) (id : JobId) :
    id ∈ (s.zsets k).members ↔ ∃ h st, s.job id = some h ∧ h.state = some st ∧ k = sourceKey st (h.queue.getD "") := by
  have hjob : ∀ h, s.job id = some h →
      (id ∈ (s.zsets k).members ↔ ∃ st, h.state = some st ∧ k = sourceKey st (h.queue.getD "")) := by
    intro h hh
    obtain ⟨st, hst⟩ := Option.isSome_iff_exists.mp (hs.stated id h hh)
    rw [hs.prescribed id h hh k, JobHash.prescribed, hst]
    dsimp only
    rw [listed_home hk]
    simp
  constructor
  · intro hm
    obtain ⟨h, hh⟩ := Option.isSome_iff_exists.mp (hs.hashed id k hm)
    obtain ⟨st, hst, heq⟩ := (hjob h hh).mp hm
    exact ⟨h, st, hh, hst, heq⟩
  · rintro ⟨h, st, hh, hst, heq⟩
    exact (hjob h hh).mpr ⟨st, hst, heq⟩

/-- No job is twice in the pool. -/
theorem Store.Surveyed.pool_nodup (hs : s.Surveyed) (state : Option JobState) (queue : String) :
    (pool s state queue).Nodup := by
  refine List.nodup_flatMap.mpr ⟨fun k _ => List.nodup_reverse.mpr (s.zsets k).nodup, ?_⟩
  have hkeys := chosenKeys_nodup hs.once state queue
  refine hkeys.imp_of_mem ?_
  intro k k' hk hk' hne id hid hid'
  obtain ⟨h, st, hh, hst, rfl⟩ := (hs.mem_listed (chosenKeys_listed hk) id).mp (List.mem_reverse.mp hid)
  obtain ⟨h', st', hh', hst', rfl⟩ := (hs.mem_listed (chosenKeys_listed hk') id).mp (List.mem_reverse.mp hid')
  rw [hh, Option.some.injEq] at hh'
  subst hh'
  rw [hst, Option.some.injEq] at hst'
  exact hne (by rw [hst'])

/-- **The pool** has the jobs that the listing counts. -/
theorem Store.Surveyed.mem_pool (hs : s.Surveyed) {f : ListJobsFilter} (hf : f.id = none) {now : ℤ} {id : JobId} :
    id ∈ pool s f.state (f.queue.getD "") ↔ ∃ h, s.job id = some h ∧ Counted f (hashToJobRow now id h) := by
  have hcounted : ∀ h st, s.job id = some h → h.state = some st →
      (sourceKey st (h.queue.getD "") ∈ chosenKeys s f.state (f.queue.getD "") ↔ Counted f (hashToJobRow now id h)) := by
    intro h st hh hst
    have hstate : ∀ st', st = st' ↔ (hashToJobRow now id h).state = st'.asStr := by
      intro st'
      rw [hashToJobRow, hst]
      exact ⟨fun he => he ▸ rfl, JobState.asStr_inj⟩
    have hqueue : ∀ q : String, (f.queue.getD "" ≠ "" → q = f.queue.getD "") ↔ ∀ q' ∈ f.queue, q' ≠ "" → q = q' := by
      intro q
      cases f.queue <;> simp
    rw [mem_chosenKeys (hs.seen id h hh), Counted, hf]
    simp only [hstate, hqueue]
    rfl
  rw [pool, List.mem_flatMap]
  constructor
  · rintro ⟨k, hk, hm⟩
    obtain ⟨h, st, hh, hst, rfl⟩ := (hs.mem_listed (chosenKeys_listed hk) id).mp (List.mem_reverse.mp hm)
    exact ⟨h, hh, (hcounted h st hh hst).mp hk⟩
  · rintro ⟨h, hh, hc⟩
    obtain ⟨st, hst⟩ := Option.isSome_iff_exists.mp (hs.stated id h hh)
    have hk := (hcounted h st hh hst).mpr hc
    exact ⟨_, hk, List.mem_reverse.mpr ((hs.mem_listed (chosenKeys_listed hk) id).mpr ⟨h, st, hh, hst, rfl⟩)⟩

end Pool

/-! ## The listing -/

section Listing

variable {s : Store} {now : ℤ} {f : ListJobsFilter} {p : Pagination}

theorem mem_rowsOf {ids : List JobId} {r : Stats.JobRow} : r ∈ rowsOf s now ids ↔
    ∃ id h, id ∈ ids ∧ s.job id = some h ∧ r = hashToJobRow now id h := by
  simp only [rowsOf, List.mem_filterMap, Option.map_eq_some_iff]
  constructor
  · rintro ⟨id, hid, h, hh, rfl⟩
    exact ⟨id, h, hid, hh, rfl⟩
  · rintro ⟨id, h, hid, hh, rfl⟩
    exact ⟨id, hid, h, hh, rfl⟩

theorem rowsOf_nodup {ids : List JobId} (h : ids.Nodup) : (rowsOf s now ids).Nodup := by
  refine List.Nodup.filterMap ?_ h
  intro id id' r hr hr'
  obtain ⟨x, _, rfl⟩ := Option.map_eq_some_iff.mp hr
  obtain ⟨x', _, heq⟩ := Option.map_eq_some_iff.mp hr'
  exact (congrArg Stats.JobRow.id heq).symm

/-- Ids with a HASH have one row each. -/
theorem rowsOf_eq_map {ids : List JobId} (h : ∀ id ∈ ids, (s.job id).isSome) :
    rowsOf s now ids = ids.map fun id => hashToJobRow now id (s.hash id) := by
  rw [rowsOf, ← List.filterMap_eq_map]
  refine List.filterMap_congr fun id hid => ?_
  obtain ⟨x, hx⟩ := Option.isSome_iff_exists.mp (h id hid)
  simp [Store.hash, hx]

/-- The filters of the listing, all together. -/
theorem accepts_filterMatches {r : Stats.JobRow} (h : f.Accepts r) : filterMatches f r = true := by
  obtain ⟨_, _, _, hkind, hgroup, htag, hbefore⟩ := h
  simp only [filterMatches, decide_eq_true_iff]
  exact ⟨hkind, hgroup, htag, hbefore⟩

/-- A job that passes the filters is counted. -/
theorem accepts_counted {r : Stats.JobRow} (h : f.Accepts r) : Counted f r := by
  obtain ⟨hid, hqueue, hstate, _⟩ := h
  unfold Counted
  split
  · next id hf => exact hid id hf
  · exact ⟨hstate, fun _ q hq _ => hqueue q hq⟩

/-- The ids that a listing counts. -/
def countedIds (s : Store) (f : ListJobsFilter) : List JobId :=
  match f.id with
  | some id => [id]
  | none => pool s f.state (f.queue.getD "")

theorem Store.Surveyed.mem_counted (hs : s.Surveyed) {r : Stats.JobRow} :
    r ∈ rowsOf s now (countedIds s f) ↔ r ∈ s.jobRows now ∧ Counted f r := by
  rw [mem_rowsOf]
  have hids : ∀ id h, s.job id = some h → (id ∈ countedIds s f ↔ Counted f (hashToJobRow now id h)) := by
    intro id h hh
    cases hf : f.id with
    | some i => simp [countedIds, Counted, hf, hashToJobRow]
    | none =>
      rw [countedIds, hf]
      dsimp only
      rw [@Store.Surveyed.mem_pool s hs f hf now]
      constructor
      · rintro ⟨h', hh', hc⟩
        rw [hh, Option.some.injEq] at hh'
        exact hh' ▸ hc
      · exact fun hc => ⟨h, hh, hc⟩
  constructor
  · rintro ⟨id, h, hid, hh, rfl⟩
    exact ⟨⟨id, h, hh, rfl⟩, (hids id h hh).mp hid⟩
  · rintro ⟨⟨id, h, hh, rfl⟩, hc⟩
    exact ⟨id, h, (hids id h hh).mpr hc, hh, rfl⟩

theorem Store.Surveyed.counted_nodup (hs : s.Surveyed) : (countedIds s f).Nodup := by
  unfold countedIds
  split
  · exact List.nodup_singleton _
  · exact hs.pool_nodup _ _

theorem Store.Surveyed.pool_hashed (hs : s.Surveyed) {state : Option JobState} {queue : String} :
    ∀ id ∈ pool s state queue, (s.job id).isSome := by
  intro id hid
  obtain ⟨k, _, hm⟩ := List.mem_flatMap.mp hid
  exact hs.hashed id k (List.mem_reverse.mp hm)

/-- It counts them, whatever the other filters are. -/
theorem Store.Surveyed.listJobs_total (hs : s.Surveyed) :
    (listJobs s now f p).total = (rowsOf s now (countedIds s f)).length := by
  unfold listJobs countedIds
  cases f.id with
  | some id => rfl
  | none =>
    dsimp only
    rw [fnListJobs_eq s f.state _ _ p.pageSize_pos p.pageSize_le, rowsOf_eq_map hs.pool_hashed, List.length_map]

/-- Where all of these pass the filters, the rows are the page. -/
theorem Store.Surveyed.listJobs_rows (hs : s.Surveyed) (hf : f.id = none)
    (hacc : ∀ r ∈ rowsOf s now (countedIds s f), f.Accepts r) :
    (listJobs s now f p).rows = ((rowsOf s now (countedIds s f)).drop p.skipped).take p.pageSize := by
  have hids : countedIds s f = pool s f.state (f.queue.getD "") := by
    rw [countedIds, hf]
  rw [hids] at hacc ⊢
  have hrow : ∀ id ∈ pool s f.state (f.queue.getD ""), f.Accepts (hashToJobRow now id (s.hash id)) := by
    intro id hid
    refine hacc _ ?_
    rw [rowsOf_eq_map hs.pool_hashed]
    exact List.mem_map_of_mem hid
  have hqueue : ∀ id ∈ pool s f.state (f.queue.getD ""), onQueue s f.state (f.queue.getD "") id = true := by
    intro id hid
    simp only [onQueue, decide_eq_true_iff]
    cases hq : f.queue with
    | none => exact .inr (.inr (.inl rfl))
    | some q =>
      by_cases hblank : q = ""
      · exact .inr (.inr (.inl hblank))
      · have hsame : (s.hash id).queue.getD "" = q := (hrow id hid).2.1 q hq
        refine .inr (.inr (.inr ?_))
        cases hqueue : (s.hash id).queue with
        | none =>
          rw [hqueue] at hsame
          exact absurd hsame.symm hblank
        | some q' =>
          rw [hqueue] at hsame
          exact congrArg some hsame
  have hpage : ∀ id ∈ ((pool s f.state (f.queue.getD "")).drop p.skipped).take p.pageSize,
      id ∈ pool s f.state (f.queue.getD "") := fun id hid => List.mem_of_mem_drop (List.mem_of_mem_take hid)
  unfold listJobs
  rw [hf]
  dsimp only
  rw [fnListJobs_eq s f.state _ _ p.pageSize_pos p.pageSize_le, List.filter_eq_self.mpr fun id hid => hqueue id (hpage id hid),
    rowsOf_eq_map hs.pool_hashed, rowsOf_eq_map fun id hid => hs.pool_hashed id (hpage id hid), ← List.map_drop, ← List.map_take]
  refine List.filter_eq_self.mpr fun r hr => ?_
  obtain ⟨id, hid, rfl⟩ := List.mem_map.mp hr
  exact accepts_filterMatches (hrow id (hpage id hid))

end Listing

/-! ## Page after page -/

/-- The first `n` pages of `limit` jobs, without a filter on the queue. -/
def pagesOf (s : Store) (state : Option JobState) (limit n : Nat) : List JobId :=
  (List.range n).flatMap fun i => (fnListJobs s state "" (i * limit) limit).2

/-- Whatever the page size is, the pages are `ids`, cut in pieces, and every reply tells how many there are. -/
structure Tiles (s : Store) (state : Option JobState) (ids : List JobId) : Prop where
  total : ∀ limit, 1 ≤ limit → limit ≤ 500 → ∀ offset, (fnListJobs s state "" offset limit).1 = ids.length
  pages : ∀ limit, 1 ≤ limit → limit ≤ 500 → ∀ n, ids.length ≤ n * limit → pagesOf s state limit n = ids

/-- `ids` has every job in the state, or of the store, once. -/
structure Enumerates (s : Store) (state : Option JobState) (ids : List JobId) : Prop where
  once : ids.Nodup
  mem : ∀ id, id ∈ ids ↔ ∃ h, s.job id = some h ∧ ∀ st ∈ state, h.state = some st

/-- The pieces of a list, put together. -/
theorem flatMap_pieces (l : List JobId) (limit : Nat) :
    ∀ n, ((List.range n).flatMap fun i => (l.drop (i * limit)).take limit) = l.take (n * limit)
  | 0 => by simp
  | n + 1 => by
    rw [List.range_succ, List.flatMap_append, flatMap_pieces l limit n, List.flatMap_singleton, Nat.succ_mul,
      List.take_add]

theorem tiles_pool (s : Store) (state : Option JobState) : Tiles s state (pool s state "") := by
  have hall : ∀ ids : List JobId, ids.filter (onQueue s state "") = ids := fun ids => by
    rw [onQueue_all (.inr (.inr rfl)), List.filter_true]
  refine ⟨fun limit h1 h2 offset => ?_, fun limit h1 h2 n hn => ?_⟩
  · rw [fnListJobs_eq s state "" offset h1 h2]
  · have hpage : ∀ i, (fnListJobs s state "" (i * limit) limit).2 = ((pool s state "").drop (i * limit)).take limit :=
      fun i => by rw [fnListJobs_eq s state "" (i * limit) h1 h2, hall]
    simp only [pagesOf, hpage]
    rw [flatMap_pieces, List.take_of_length_le hn]

theorem Store.Surveyed.enumerates_pool {s : Store} (hs : s.Surveyed) (state : Option JobState) :
    Enumerates s state (pool s state "") := by
  refine ⟨hs.pool_nodup state "", fun id => ?_⟩
  have hmem := @Store.Surveyed.mem_pool s hs { state := state } rfl 0 id
  refine Iff.trans hmem (exists_congr fun h => and_congr_right fun hh => ?_)
  obtain ⟨st, hst⟩ := Option.isSome_iff_exists.mp (hs.stated id h hh)
  have hname : ∀ st', (hashToJobRow 0 id h).state = st'.asStr ↔ h.state = some st' := by
    intro st'
    rw [hashToJobRow, hst]
    exact ⟨fun he => congrArg some (JobState.asStr_inj he), fun he => by rw [Option.some.inj he]; rfl⟩
  simp [Counted, hname]

end Eddyq.Redis
