import Eddyq.Lib.Lives
import Eddyq.Redis.Leases

/-!
# Lives of jobs on Redis

`Store.life` reads the life of a job off its HASH, with the defaults the functions use for a field that is not there.
For each function, what it does to the HASHes says what it does to lives: a claim hands out pending jobs (`Replied`), a
verdict marks its own job (`Verdict.writes`), the recovery functions turn every running job they name once
(`fnSweepStale_hash`, `fnReclaimInFlight_hash`), so the backend is a lawful desk (`desk_lawful`).
-/

namespace Eddyq.Redis

open Eddyq.Lib

/-! ## HASHes and lives -/

/-- Where a HASH stands, given its state. -/
def JobHash.phase (h : JobHash) : JobState → Phase WorkerId
  | .pending | .scheduled => .waiting
  | .running => .running h.lockedBy
  | .completed => .completed
  | .failed => .failed
  | .cancelled => .cancelled

/-- The life of a HASH in a state. -/
def JobHash.lifeIn (h : JobHash) (st : JobState) : Life WorkerId where
  phase := h.phase st
  attempt := h.attempt.getD 0
  stalled := h.stalledCount.getD 0
  maxAttempts := h.maxAttempts.getD 3
  maxStalled := h.maxStalledCount.getD 1

/-- The life a HASH tells. -/
def JobHash.life (h : JobHash) : Option (Life WorkerId) := h.state.map h.lifeIn

/-- The life of a job. -/
def Store.life (s : Store) (id : JobId) : Option (Life WorkerId) := (s.hash id).life

section Lives

variable {s s' : Store} {A : Line} {id : JobId}

theorem life_congr (h : s'.hash = s.hash) : s'.life = s.life := by
  funext id
  rw [Store.life, Store.life, h]

theorem SameJobs.hash (h : SameJobs s s') : s'.hash = s.hash := by
  funext id
  rw [← Store.cell_fields, ← Store.cell_fields, h.1]

/-- An id of the future has no HASH. -/
theorem Refines.hash_fresh {named : Prop} (h : Refines named s A) (hid : s.idgen < id) : s.hash id = {} := by
  have hnone : A.jobs id = none := h.fresh id (h.idgen ▸ hid)
  have hc := h.cell id
  rw [hnone] at hc
  have hh : s.job id = none := hc.hash
  rw [Store.hash, hh]
  rfl

theorem Refines.life_fresh {named : Prop} (h : Refines named s A) (hid : s.idgen < id) : s.life id = none := by
  rw [Store.life, h.hash_fresh hid]
  rfl

/-! ### The turns of a HASH -/

theorem life_of_state {h : JobHash} {st : JobState} (hs : h.state = some st) : h.life = some (h.lifeIn st) := by
  rw [JobHash.life, hs]
  rfl

theorem recovered_life (t : ℤ) (h : JobHash) {l : Life WorkerId} (hl : h.life = some l) :
    (h.recovered t).life = some (l.next .recover) := by
  obtain ⟨st, hst, rfl⟩ := Option.map_eq_some_iff.mp hl
  by_cases hout : h.stalledOut
  · have hout' : (h.lifeIn st).stalledOut := hout
    simp only [Life.next, hout', if_true]
    simp [JobHash.recovered, hout, JobHash.life, JobHash.lifeIn, JobHash.phase]
  · have hout' : ¬ (h.lifeIn st).stalledOut := hout
    simp only [Life.next, hout', if_false]
    simp [JobHash.recovered, hout, JobHash.life, JobHash.lifeIn, JobHash.phase]

theorem started_life (a : ClaimArgs) {h : JobHash} {l : Life WorkerId} (hl : h.life = some l) :
    (h.started a).life = some (l.next (.claim a.worker)) := by
  obtain ⟨st, hst, rfl⟩ := Option.map_eq_some_iff.mp hl
  rfl

/-- What happens to the life under a verdict. -/
def Verdict.event : Verdict → Event WorkerId
  | .complete _ _ => .complete
  | .fail _ _ retryAt => if retryAt ≥ 0 then .retry else .fail

theorem mark_life (v : Verdict) {h : JobHash} {l : Life WorkerId} (hl : h.life = some l) :
    (v.mark h).life = some (l.next v.event) := by
  obtain ⟨st, hst, rfl⟩ := Option.map_eq_some_iff.mp hl
  cases v with
  | complete now result => rfl
  | fail now error retryAt =>
    unfold Verdict.mark Verdict.event
    dsimp only
    split
    · split <;> rfl
    · rfl

end Lives

/-! ## New jobs -/

/-- Nothing has happened to the jobs there are; new ones may have been born under new ids. -/
structure Born (s s' : Store) : Prop where
  next : s.idgen ≤ s'.idgen
  old : ∀ id, id ≤ s.idgen → s'.hash id = s.hash id
  born : ∀ id, s.idgen < id → s'.life id = none ∨ ∃ ma ms, s'.life id = some (.born ma ms)

section Born

variable {s s₁ s' : Store} {A : Line} {id : JobId}

theorem Born.trans (h : Born s s₁) (h' : Born s₁ s') : Born s s' := by
  refine ⟨h.next.trans h'.next, fun id hid => ?_, fun id hid => ?_⟩
  · rw [h'.old id (hid.trans h.next)]
    exact h.old id hid
  · by_cases hle : id ≤ s₁.idgen
    · rw [Store.life, h'.old id hle]
      exact h.born id hid
    · exact h'.born id (not_le.mp hle)

theorem Born.of_sameJobs (h : Refines False s A) (hs : SameJobs s s') : Born s s' := by
  refine ⟨hs.2.1.ge, fun id _ => congrFun hs.hash id, fun id hid => Or.inl ?_⟩
  rw [life_congr hs.hash]
  exact h.life_fresh hid

/-- The HASHes after an insertion under the next id. -/
theorem insertJob_next (h : Refines False s A) {s₁ : Store} (hc : s₁.cell = s.cell) (a : EnqueueArgs) (now : ℤ)
    (j : JobId) : (insertJob s₁ a (s.idgen + 1) now).hash j =
      if j = s.idgen + 1 then a.toHash (s.idgen + 1) now {} else s.hash j := by
  have hsame : s₁.hash = s.hash := by
    funext j
    rw [← Store.cell_fields, ← Store.cell_fields, hc]
  rw [insertJob_hash, hsame, h.hash_next]

theorem toHash_life (a : EnqueueArgs) (id : JobId) (now : ℤ) (h : JobHash) :
    (a.toHash id now h).life = some (.born a.maxAttempts a.maxStalledCount) := by
  unfold EnqueueArgs.toHash
  split <;> rfl

theorem Born.insert (h : Refines False s A) (s₁ : Store) (hc : s₁.cell = s.cell) (a : EnqueueArgs) (now : ℤ)
    (hhash : s'.hash = (insertJob s₁ a (s.idgen + 1) now).hash) (hn : s'.idgen = s.idgen + 1) : Born s s' := by
  have hj : ∀ j, s'.hash j = if j = s.idgen + 1 then a.toHash (s.idgen + 1) now {} else s.hash j := by
    intro j
    rw [hhash]
    exact insertJob_next h hc a now j
  refine ⟨by rw [hn]; exact Nat.le_succ _, fun id hid => ?_, fun id hid => ?_⟩
  · have hne : id ≠ s.idgen + 1 := by omega
    rw [hj, if_neg hne]
  · rw [Store.life, hj]
    split
    · exact Or.inr ⟨_, _, toHash_life _ _ _ _⟩
    · exact Or.inl (h.life_fresh hid)

theorem fnEnqueue_born (h : Refines False s A) (a : EnqueueArgs) (now : ℤ) : Born s (fnEnqueue s a now).1 := by
  unfold fnEnqueue
  split
  · exact .of_sameJobs h ⟨rfl, rfl, rfl⟩
  · refine .insert h (if a.uniqueKey ≠ "" then ({ s with idgen := s.idgen + 1 } : Store).setUnique a.uniqueKey
      (s.idgen + 1) else { s with idgen := s.idgen + 1 }) ?_ a now rfl ?_
    · split <;> rfl
    · rw [insertJob_idgen]
      split <;> rfl

theorem fnEnqueueMany_born (now : ℤ) : ∀ (as : List EnqueueArgs) {s : Store} {A : Line}, Refines False s A →
    Born s (fnEnqueueMany s as now).1
  | [], _, _, h => .of_sameJobs h ⟨rfl, rfl, rfl⟩
  | a :: as, s, A, h => by
    obtain ⟨A', _, h'⟩ := fnEnqueue_sim h a now nofun
    exact (fnEnqueue_born h a now).trans (fnEnqueueMany_born now as h')

theorem fnScheduleFire_born (h : Refines False s A) (a : FireArgs) : Born s (fnScheduleFire s a).1 := by
  rcases fnScheduleFire_cases s a with hsame | hs
  · rw [hsame]
    exact .of_sameJobs h ⟨rfl, rfl, rfl⟩
  · refine .insert h { s with idgen := s.idgen + 1 } rfl a.toEnqueue a.now ?_ ?_
    · exact hs.hash
    · exact hs.2.1.trans (insertJob_idgen _ _ _ _)

end Born

/-! ## Heartbeat, recovery, promotion and cancel -/

section Others

variable {s : Store} {A : Line} {id : JobId}

theorem fnHeartbeat_life (s : Store) (now : ℤ) (ids : List JobId) : (fnHeartbeat s now ids).1.life = s.life := by
  rw [fnHeartbeat, forEachCount_fst]
  refine forEach_inv (P := fun x : Store => x.life = s.life) rfl (fun x i _ hx => ?_)
  unfold heartbeatOne
  split
  · rw [← hx]
    funext j
    rw [Store.life, zadd_hash, hash_hset, Store.life]
    split
    · next hj =>
      subst hj
      rfl
    · rfl
  · exact hx

/-- A job that is known has a queue. -/
theorem Refines.queue_isSome (h : Refines False s A) {st : JobState} (hs : s.state id = some st) :
    (s.hash id).queue.isSome := by
  obtain ⟨i, hj, _⟩ := Rep.of_state h hs
  have hhas := (h.known hj).fields
  rw [Store.cell_fields] at hhas
  rw [hhas.queue]
  rfl

theorem Refines.active_running (h : Refines False s A) (hs : (s.zscore .active id).isSome) :
    s.state id = some .running := by
  obtain ⟨i, hj, hst⟩ := h.of_active hs
  have hhas := (h.known hj).fields
  rw [Store.cell_fields] at hhas
  rw [Store.state, hhas.state, hst]

theorem Refines.delayed_scheduled (h : Refines False s A) (hs : (s.zscore .delayed id).isSome) :
    s.state id = some .scheduled := by
  obtain ⟨i, hj, hst⟩ := h.of_delayed hs
  have hhas := (h.known hj).fields
  rw [Store.cell_fields] at hhas
  rw [Store.state, hhas.state, hst]

/-- The jobs that a sweep finds. -/
def Store.staleIds (s : Store) (staleBefore : ℤ) (batchMax : Nat) : List JobId :=
  (s.zsets .active).rangeByScore (fun sc => sc ≤ staleBefore) batchMax

theorem Refines.stale_running (h : Refines False s A) {t : ℤ} {n : Nat} (hid : id ∈ s.staleIds t n) :
    s.state id = some .running := by
  obtain ⟨sc, hsc, _⟩ := ZSet.mem_of_mem_rangeByScore hid
  exact h.active_running (Option.isSome_iff_exists.mpr ⟨sc, hsc⟩)

/-- **A sweep** recovers the jobs it finds. -/
theorem fnSweepStale_hash (h : Refines False s A) (t : ℤ) (n : Nat) (j : JobId) :
    (fnSweepStale s t n).1.hash j = if j ∈ s.staleIds t n then (s.hash j).recovered t else s.hash j := by
  rw [fnSweepStale, forEachCount_fst]
  refine forEach_each (c := Store.hash) (g := JobHash.recovered t) (Q := fun x => x.queue.isSome) (fun x i hq => ?_)
    (fun x i k hne => ?_) (fun x hq => ?_) (Or.inl (ZSet.nodup_rangeByScore _ _ _))
    (fun i hi => h.queue_isSome (h.stale_running hi)) j
  · rw [recoverOne_hash, if_pos rfl]
    exact ⟨rfl, recoverOne_goes t sweepError hq⟩
  · rw [recoverOne_hash, if_neg hne]
  · unfold JobHash.recovered
    split <;> exact hq

/-- What `eddyq_reclaim_in_flight` makes of a HASH it is given. -/
def JobHash.reclaimed (t : ℤ) (h : JobHash) : JobHash := if h.state = some .running then h.recovered t else h

theorem recovered_state (t : ℤ) (h : JobHash) : (h.recovered t).state ≠ some .running := by
  unfold JobHash.recovered
  split <;> nofun

/-- **A reclaim** recovers the running jobs it is given. -/
theorem fnReclaimInFlight_hash (h : Refines False s A) (now : ℤ) (ids : List JobId) (j : JobId) :
    (fnReclaimInFlight s now ids).1.hash j = if j ∈ ids then (s.hash j).reclaimed now else s.hash j := by
  rw [fnReclaimInFlight, forEachCount_fst]
  refine forEach_each (c := Store.hash) (g := JobHash.reclaimed now) (Q := fun x => x.state = some .running → x.queue.isSome)
    (fun x i hq => ?_) (fun x i k hne => ?_) (fun x hq hr => ?_) (Or.inr fun x _ => ?_)
    (fun i _ hr => h.queue_isSome hr) j
  · unfold reclaimOne JobHash.reclaimed
    by_cases hr : (x.hash i).state = some .running
    · have hrun : isRunning x i = true := decide_eq_true hr
      rw [if_pos hrun, if_pos hr, recoverOne_hash, if_pos rfl]
      exact ⟨rfl, recoverOne_goes now reclaimError (hq hr)⟩
    · have hidle : ¬ isRunning x i = true := fun hd => hr (of_decide_eq_true hd)
      rw [if_neg hidle, if_neg hr]
      exact ⟨rfl, rfl⟩
  · unfold reclaimOne
    split
    · rw [recoverOne_hash, if_neg hne]
    · rfl
  · unfold JobHash.reclaimed at hr
    split at hr
    · exact absurd hr (recovered_state now x)
    · next hno => exact absurd hr hno
  · -- an id may be listed twice: the second time its job does not run
    unfold JobHash.reclaimed
    by_cases hr : x.state = some .running
    · rw [if_pos hr, if_neg (recovered_state now x)]
    · rw [if_neg hr, if_neg hr]

/-- The jobs that a promotion finds. -/
def Store.dueIds (s : Store) (now : ℤ) (batchMax : Nat) : List JobId :=
  (s.zsets .delayed).rangeByScore (fun sc => sc ≤ now) batchMax

theorem Refines.due_scheduled (h : Refines False s A) {now : ℤ} {n : Nat} (hid : id ∈ s.dueIds now n) :
    s.state id = some .scheduled := by
  obtain ⟨sc, hsc, _⟩ := ZSet.mem_of_mem_rangeByScore hid
  exact h.delayed_scheduled (Option.isSome_iff_exists.mpr ⟨sc, hsc⟩)

theorem promoteOne_hash (now : ℤ) (s : Store) (i j : JobId) : (promoteOne now s i).1.hash j =
    if j = i then { s.hash i with state := some .pending } else s.hash j := by
  unfold promoteOne
  dsimp only
  split
  · rw [hash_hset, zremBoth_hash]
  · rw [zadd_hash, hash_hset, zremBoth_hash]

theorem fnPromoteDelayed_hash (h : Refines False s A) (now : ℤ) (n : Nat) (j : JobId) :
    (fnPromoteDelayed s now n).1.hash j =
      if j ∈ s.dueIds now n then { s.hash j with state := some .pending } else s.hash j := by
  rw [fnPromoteDelayed, forEachCount_fst]
  refine forEach_each (c := Store.hash) (g := fun x => { x with state := some .pending }) (Q := fun x => x.queue.isSome)
    (fun x i hq => ⟨?_, ?_⟩) (fun x i k hne => ?_) (fun x hq => hq) (Or.inl (ZSet.nodup_rangeByScore _ _ _))
    (fun i hi => h.queue_isSome (h.due_scheduled hi)) j
  · rw [promoteOne_hash, if_pos rfl]
  · obtain ⟨q, hq⟩ := Option.isSome_iff_exists.mp hq
    unfold promoteOne
    dsimp only
    rw [hq]
  · rw [promoteOne_hash, if_neg hne]

/-- **A promotion** is not seen in a life. -/
theorem fnPromoteDelayed_life (h : Refines False s A) (now : ℤ) (n : Nat) : (fnPromoteDelayed s now n).1.life = s.life := by
  funext j
  rw [Store.life, Store.life, fnPromoteDelayed_hash h]
  split
  · next hin =>
    have hst : (s.hash j).state = some .scheduled := h.due_scheduled hin
    simp [JobHash.life, JobHash.lifeIn, JobHash.phase, hst]
  · rfl

/-- The job waits. -/
def Store.waits (s : Store) (id : JobId) : Bool := s.state id = some .pending || s.state id = some .scheduled

/-- **A cancellation** ends a job that waits, and says whether it did. -/
theorem fnCancel_hash (h : Refines False s A) (i : JobId) (now : ℤ) (j : JobId) :
    ((fnCancel s i now).1.hash j = if j = i ∧ s.waits i then { s.hash i with
      state := some .cancelled, cancelledAt := some now } else s.hash j) ∧ (fnCancel s i now).2 = some (s.waits i) := by
  unfold fnCancel Store.waits
  dsimp only
  split
  · next hst =>
    have hwaits : s.state i = some .pending := hst
    have hqueue := h.queue_isSome hwaits
    split
    · next hnone =>
      rw [hnone] at hqueue
      cases hqueue
    · next q _ =>
      have hzrem : (s.zrem (.wait q) i).hash = s.hash := rfl
      rw [markCancelled_hash, hzrem]
      simp [hwaits]
  · next hst =>
    have hwaits : s.state i = some .scheduled := hst
    rw [markCancelled_hash, zremBoth_hash]
    simp [hwaits]
  · next hp hs =>
    have hp : s.state i ≠ some .pending := hp
    have hs : s.state i ≠ some .scheduled := hs
    simp [hp, hs]

end Others

/-! ## The desk -/

/-- What the reply tells the worker about its lease. -/
def ClaimedJob.toLease (j : ClaimedJob) : Lease JobId WorkerId where
  job := j.id
  worker := j.workerId
  attempt := j.attempt
  maxAttempts := j.maxAttempts

/-- The leases a call gives out. -/
def Op.leases (s : Store) : Op → List (Lease JobId WorkerId)
  | .claim a => (fnClaim s a).2.map (·.toLease)
  | _ => []

/-- `retry_at_ms`: a retry time in milliseconds, or `-1` for none. -/
def retryAtMs (retryAt : Option ℤ) : ℤ := retryAt.getD (-1)

/-- The verdicts the runtime makes under a lease when no handler asks for a retry: a failure is retried at the time
`retry_schedule` gives, or not at all. -/
def Verdict.From (x : Lease JobId WorkerId) : Verdict → Prop
  | .complete _ _ => True
  | .fail _ _ retryAt =>
    retryAt = retryAtMs none ∨ ∃ t, retryAt = retryAtMs (retrySchedule x.attempt x.maxAttempts t)

/-- The backend as a desk. -/
def desk : Desk Store Op Verdict JobId WorkerId where
  call s op := op.apply s
  leases s op := op.leases s
  judge s id w v := (v.toOp id w).apply s
  life := Store.life

section Desk

variable {s s' : Store} {A : Line} {id : JobId} {w : WorkerId}

/-- What is gone from the HASHes is gone from the lives. -/
theorem HashesKept.life (h : HashesKept s s') (id : JobId) : s'.life id = s.life id ∨ s'.life id = none := by
  rcases h id with h | h
  · left
    rw [Store.life, Store.life, Store.hash, Store.hash, h]
  · right
    rw [Store.life, Store.hash, h]
    rfl

theorem Born.moved (h : Born s s') (hr : Refines False s A) (id : JobId) :
    Life.Moved (id ≤ s.idgen) (s.life id) (s'.life id) := by
  by_cases hid : id ≤ s.idgen
  · rw [Store.life, Store.life, h.old id hid]
    exact .stay _
  · rw [hr.life_fresh (not_le.mp hid)]
    rcases h.born id (not_le.mp hid) with hb | ⟨ma, ms, hb⟩
    · rw [hb]
      exact .stay _
    · rw [hb]
      exact .born ma ms hid

theorem recovered_moved {used : Prop} {h : JobHash} (hs : h.state = some .running) (t : ℤ) :
    Life.Moved used h.life (h.recovered t).life := by
  have hl := life_of_state hs
  rw [recovered_life t h hl, hl]
  exact .recover (w := h.lockedBy) rfl

/-- What a call but a claim and a verdict does to a life. -/
theorem Op.moved (h : Refines False s A) (op : Op) (hv : op.notVerdict) (hc : ∀ a, op ≠ .claim a) (id : JobId) :
    Life.Moved (id ≤ s.idgen) (s.life id) ((op.apply s).life id) := by
  have hsame : ∀ {s'}, SameJobs s s' → Life.Moved (id ≤ s.idgen) (s.life id) (s'.life id) := by
    intro s' hs
    rw [life_congr hs.hash]
    exact .stay _
  cases op with
  | enqueue a now => exact (fnEnqueue_born h a now).moved h id
  | enqueueMany as now => exact (fnEnqueueMany_born now as h).moved h id
  | claim a => exact absurd rfl (hc a)
  | heartbeat now ids =>
    show Life.Moved _ _ ((fnHeartbeat s now ids).1.life id)
    rw [fnHeartbeat_life]
    exact .stay _
  | complete | fail => exact hv.elim
  | sweepStale t n =>
    show Life.Moved _ _ ((fnSweepStale s t n).1.life id)
    rw [Store.life, Store.life, fnSweepStale_hash h]
    split
    · next hin => exact recovered_moved (h.stale_running hin) t
    · exact .stay _
  | promoteDelayed now n =>
    show Life.Moved _ _ ((fnPromoteDelayed s now n).1.life id)
    rw [fnPromoteDelayed_life h]
    exact .stay _
  | reclaimInFlight now ids =>
    show Life.Moved _ _ ((fnReclaimInFlight s now ids).1.life id)
    rw [Store.life, Store.life, fnReclaimInFlight_hash h, JobHash.reclaimed]
    split
    · split
      · next hr => exact recovered_moved hr now
      · exact .stay _
    · exact .stay _
  | cancel i now =>
    show Life.Moved _ _ ((fnCancel s i now).1.life id)
    rw [Store.life, Store.life, (fnCancel_hash h i now id).1]
    split
    · next hw =>
      obtain ⟨rfl, hw⟩ := hw
      simp only [Store.waits, Bool.or_eq_true, decide_eq_true_eq] at hw
      rcases hw with hst | hst
      · have hst : (s.hash id).state = some .pending := hst
        simp only [JobHash.life, hst, Option.map_some]
        exact .cancel rfl
      · have hst : (s.hash id).state = some .scheduled := hst
        simp only [JobHash.life, hst, Option.map_some]
        exact .cancel rfl
    · exact .stay _
  | cleanup a =>
    rcases (fnCleanup_hashesKept s a).life id with hl | hl
    · rw [Op.apply, hl]
      exact .stay _
    · rw [Op.apply, hl]
      exact .gone _
  | scheduleFire a => exact (fnScheduleFire_born h a).moved h id
  | _ => exact hsame (Op.apply_sameJobs s _ rfl)

/-- The id counter never goes back. -/
theorem Line.Steps.idgen_le {A A' : Line} (h : A.Steps A') : A.idgen ≤ A'.idgen := by
  induction h with
  | refl => exact le_refl _
  | tail _ hs ih =>
    refine ih.trans ?_
    cases hs with
    | insert => exact Nat.le_succ _
    | move | finish | delete => exact le_refl _

theorem Refines.idgen_le (h : Refines False s A) {op : Op} (hok : op.Ok False s) : s.idgen ≤ (op.apply s).idgen := by
  obtain ⟨A', hsteps, h'⟩ := Op.apply_sim h op hok
  rw [h.idgen, h'.idgen]
  exact Line.Steps.idgen_le hsteps

/-- A running job under its worker is leased to it. -/
theorem leased_of_runs {x : Lease JobId WorkerId} (hr : desk.Runs s x) : s.LeasedTo x.job x.worker := by
  obtain ⟨l, hl, hp⟩ := hr
  obtain ⟨st, hst, rfl⟩ := Option.map_eq_some_iff.mp hl
  have hp : (s.hash x.job).phase st = .running (some x.worker) := hp
  cases st with
  | running => exact ⟨hst, Phase.running.inj hp⟩
  | _ => cases hp

theorem Verdict.ok_of_runs {x : Lease JobId WorkerId} (hr : desk.Runs s x) (v : Verdict) :
    (v.toOp x.job x.worker).Ok False s := by
  cases v <;> exact fun _ => (leased_of_runs hr).1

theorem Verdict.ruled {x : Lease JobId WorkerId} {v : Verdict} (hv : v.From x) (l : Life WorkerId) :
    Life.Ruled x (some l) (some (l.next v.event)) := by
  cases v with
  | complete now result => exact .complete l
  | fail now error retryAt =>
    unfold Verdict.event
    dsimp only
    split
    · next hge =>
      refine .retry l ?_
      rcases hv with rfl | ⟨t, rfl⟩
      · exact absurd hge (by decide)
      · cases hs : retrySchedule x.attempt x.maxAttempts t with
        | none =>
          rw [hs] at hge
          exact absurd hge (by decide)
        | some t' => exact retrySchedule_some hs
    · exact .fail l

/-- **The backend is a lawful desk.** -/
theorem desk_lawful : desk.Lawful (fun s => ∃ A, Refines False s A) (fun s id => id ≤ s.idgen) Op.notVerdict
    (fun x v => v.From x) where
  call_inv := by
    rintro s op ⟨A, h⟩ hv
    obtain ⟨A', _, h'⟩ := Op.apply_sim h op (Op.ok_of_notVerdict hv s)
    exact ⟨A', h'⟩
  judge_inv := by
    rintro s x v ⟨A, h⟩ hr
    obtain ⟨A', _, h'⟩ := Op.apply_sim h _ (Verdict.ok_of_runs hr v)
    exact ⟨A', h'⟩
  life_used := by
    rintro s id l ⟨A, h⟩ hl
    by_contra hid
    have hl : s.life id = some l := hl
    rw [h.life_fresh (not_le.mp hid)] at hl
    cases hl
  call_used := by
    rintro s op id ⟨A, h⟩ hv hid
    exact hid.trans (h.idgen_le (Op.ok_of_notVerdict hv s))
  judge_used := by
    rintro s v id x ⟨A, h⟩ hr hid
    exact hid.trans (h.idgen_le (Verdict.ok_of_runs hr v))
  distinct := by
    rintro s op ⟨A, h⟩
    show ((op.leases s).map (·.job)).Nodup
    cases op with
    | claim a =>
      show (((fnClaim s a).2.map (·.toLease)).map (·.job)).Nodup
      rw [List.map_map]
      exact (fnClaim_replied s a).distinct
    | _ => exact List.nodup_nil
  handed := by
    rintro s op x ⟨A, h⟩ hx
    have hx : x ∈ op.leases s := hx
    cases op with
    | claim a =>
      obtain ⟨j, hj, rfl⟩ := List.mem_map.mp hx
      obtain ⟨hst, hhash, hw, hat, hma⟩ := (fnClaim_replied s a).handed j hj
      have hst : (s.hash j.id).state = some .pending := hst
      show Life.Handed j.toLease (s.life j.id) ((fnClaim s a).1.life j.id)
      have hl := life_of_state hst
      rw [Store.life, Store.life, hhash, started_life a hl, hl, ← hw]
      exact .claim rfl hat hma
    | _ => exact absurd hx List.not_mem_nil
  moved := by
    rintro s op id ⟨A, h⟩ hv hno
    have hno : ∀ x ∈ op.leases s, x.job ≠ id := hno
    by_cases hc : ∃ a, op = .claim a
    · obtain ⟨a, rfl⟩ := hc
      show Life.Moved _ (s.life id) ((fnClaim s a).1.life id)
      have hrest : (fnClaim s a).1.hash id = s.hash id := by
        refine (fnClaim_replied s a).rest id (fun hm => ?_)
        obtain ⟨j, hj, he⟩ := List.mem_map.mp hm
        exact hno j.toLease (List.mem_map_of_mem hj) he
      rw [Store.life, Store.life, hrest]
      exact .stay _
    · exact op.moved h hv (fun a he => hc ⟨a, he⟩) id
  ruled := by
    rintro s x v ⟨A, h⟩ hr hv
    show Life.Ruled x (s.life x.job) (((v.toOp x.job x.worker).apply s).life x.job)
    obtain ⟨l, hl, _⟩ := hr
    have hl : s.life x.job = some l := hl
    rcases v.writes s x.job x.worker with ⟨_, hsame⟩ | ⟨y, hy, hkept, _⟩
    · rw [hsame]
      exact .stay _
    · rcases hkept.life x.job with hk | hk
      · have hmark : (y.hset x.job v.mark).life x.job = some (l.next v.event) := by
          rw [Store.life, hash_hset, if_pos rfl, hy]
          exact mark_life v hl
        rw [hk, hmark, hl]
        exact Verdict.ruled hv l
      · rw [hk]
        exact .gone _
  spared := by
    rintro s x v id ⟨A, h⟩ _ hne
    show Life.Moved _ (s.life id) (((v.toOp x.job x.worker).apply s).life id)
    rcases v.writes s x.job x.worker with ⟨_, hsame⟩ | ⟨y, hy, hkept, _⟩
    · rw [hsame]
      exact .stay _
    · have hother : (y.hset x.job v.mark).life id = s.life id := by
        rw [Store.life, hash_hset, if_neg hne, hy]
        rfl
      rcases hkept.life id with hk | hk
      · rw [hk, hother]
        exact .stay _
      · rw [hk]
        exact .gone _

end Desk

end Eddyq.Redis
