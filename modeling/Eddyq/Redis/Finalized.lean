import Eddyq.Redis.Listing
import Eddyq.Redis.Lives

/-!
# When a job was finalized

The row of a job shows one time as `finalized_at`: the first of `completed_at`, `failed_at` and `cancelled_at` that the
HASH has. A run keeps, beside the store, the time at which each job entered the state it is in (`Clocked`). The row
shows that time for the finished jobs and none for the others as long as `Op.Ends` holds of the calls: `eddyq_fail`
writes `failed_at` for a retry as well, and `eddyq_sweep_stale` writes the time of the last sign of life.
-/

namespace Eddyq.Redis

open Eddyq.Lib

/-! ## Runs with a clock -/

/-- A store, and when each job entered its state. -/
structure Clocked where
  store : Store
  entered : JobId → ℤ

/-- A time that `chrono` has. -/
def InClock (t : ℤ) : Prop := -8334601228800000 ≤ t ∧ t ≤ 8210266876799999

instance (t : ℤ) : Decidable (InClock t) := inferInstanceAs (Decidable (_ ∧ _))

/-- The backend passes its clock. A sweep is given the clock less the time after which a job is stale, and the
settings of groups, queues and schedules none. -/
def Op.At (t : ℤ) : Op → Prop
  | .enqueue _ now | .enqueueMany _ now | .heartbeat now _ | .complete _ _ now _ | .fail _ _ now _ _
  | .promoteDelayed now _ | .reclaimInFlight now _ | .cancel _ now => now = t
  | .claim a => a.now = t
  | .cleanup a => a.now = t
  | .scheduleFire a => a.now = t
  | _ => True

/-- One call at a time. -/
def Clocked.apply (z : Clocked) (c : ℤ × Op) : Clocked where
  store := c.2.apply z.store
  entered id := if (c.2.apply z.store).state id = z.store.state id then z.entered id else c.1

/-- What is asked of the calls so that the rows are right: no verdict reaches a job that does not run, no failure is
retried, and a sweep at another time than its own finds no job whose stall budget is spent. -/
def Op.Ends (t : ℤ) (s : Store) : Op → Prop
  | .complete id w _ _ => s.VerdictOk id w
  | .fail id w _ _ retryAt => s.VerdictOk id w ∧ (s.owner id = some w → retryAt < 0)
  | .sweepStale staleBefore n => ∀ id ∈ s.staleIds staleBefore n, (s.hash id).stalledOut → staleBefore = t
  | _ => True

/-- The states that calls of the backend reach from the empty store; of careful runs more is asked. -/
def Clocked.Reached (careful : Prop) (z : Clocked) : Prop :=
  Reach (Guarded (fun z (c : ℤ × Op) => InClock c.1 ∧ c.2.At c.1 ∧ (careful → c.2.Ends c.1 z.store)) Clocked.apply)
    ⟨.empty, fun _ => 0⟩ z

/-- The rows show when the finished jobs were finalized. -/
def Clocked.Shown (z : Clocked) : Prop :=
  ∀ now id h, z.store.job id = some h → ∀ t, (hashToJobRow now id h).finalizedAt = some t ↔
    (∃ st, h.state = some st ∧ st.terminal) ∧ t = z.entered id * 10 ^ 6

/-! ## What a HASH says -/

/-- The three times. -/
def JobHash.times (h : JobHash) : Option ℤ × Option ℤ × Option ℤ := (h.completedAt, h.failedAt, h.cancelledAt)

/-- The times of a job that is in this state since `e`. -/
def timesOf (e : ℤ) : JobState → Option ℤ × Option ℤ × Option ℤ
  | .completed => (some e, none, none)
  | .failed => (none, some e, none)
  | .cancelled => (none, none, some e)
  | _ => (none, none, none)

/-- The HASH has the time of its final state, and no other. -/
def JobHash.Ended (h : JobHash) (e : ℤ) : Prop :=
  match h.state with
  | some st => h.times = timesOf e st ∧ (st.terminal → InClock e)
  | none => h.times = (none, none, none)

/-- Not in a final state. -/
def JobHash.Open (h : JobHash) : Prop := ∀ st, h.state = some st → ¬ st.terminal

/-- What a call at the time `t` may do to a HASH. -/
inductive Turned (t : ℤ) (h : JobHash) : JobHash → Prop
  | stay {h' : JobHash} (state : h'.state = h.state) (times : h'.times = h.times) : Turned t h h'
  | gone : Turned t h {}
  | live {h' : JobHash} (was : h.Open) (is : h'.Open) (stated : h'.state.isSome) (times : h'.times = h.times) : Turned t h h'
  | finish {h' : JobHash} {k : JobState} (was : h.Open) (state : h'.state = some k) (final : k.terminal)
      (times : h.times = (none, none, none) → h'.times = timesOf t k) : Turned t h h'

section Turned

variable {t e : ℤ} {h h' : JobHash}

theorem timesOf_open {st : JobState} (hst : ¬ st.terminal) (e : ℤ) : timesOf e st = (none, none, none) := by
  cases st with
  | pending | scheduled | running => rfl
  | completed | failed | cancelled => exact absurd rfl hst

theorem JobHash.Ended.times_open (hh : h.Ended e) (ho : h.Open) : h.times = (none, none, none) := by
  unfold JobHash.Ended at hh
  cases hst : h.state with
  | none => rwa [hst] at hh
  | some st =>
    rw [hst] at hh
    rw [hh.1, timesOf_open (ho st hst)]

theorem ended_open (ho : h.Open) (ht : h.times = (none, none, none)) (e : ℤ) : h.Ended e := by
  unfold JobHash.Ended
  cases hst : h.state with
  | none => exact ht
  | some st => exact ⟨ht.trans (timesOf_open (ho st hst) e).symm, fun hf => absurd hf (ho st hst)⟩

/-- **One step**: the HASH still has the time of its state. -/
theorem Turned.ended (hm : Turned t h h') (hh : h.Ended e) (ht : InClock t) :
    h'.Ended (if h'.state = h.state then e else t) := by
  cases hm with
  | stay hst htimes =>
    rw [if_pos hst]
    unfold JobHash.Ended at hh ⊢
    rw [hst, htimes]
    exact hh
  | gone => exact ended_open (h := {}) (fun _ hs => nomatch hs) rfl _
  | live was is _ times => exact ended_open is (times.trans (hh.times_open was)) _
  | @finish _ st was state final times =>
    have hne : h'.state ≠ h.state := fun he => was st (he ▸ state) final
    rw [if_neg hne]
    unfold JobHash.Ended
    rw [state]
    exact ⟨times (hh.times_open was), fun _ => ht⟩

theorem msToDt_eq {e : ℤ} (h : InClock e) : msToDt (some e) = some (e * 10 ^ 6) := by
  have hin : (some e).filter (fun n => decide (-8334601228800000 ≤ n ∧ n ≤ 8210266876799999)) = some e := by
    simpa [InClock, Option.filter_eq_some_iff] using h
  rw [msToDt, hin]
  rfl

/-- The row of a HASH that has the time of its state. -/
theorem JobHash.Ended.finalizedAt (hh : h.Ended e) (now : ℤ) (id : JobId) :
    (hashToJobRow now id h).finalizedAt = if ∃ st, h.state = some st ∧ st.terminal then some (e * 10 ^ 6) else none := by
  have hrow : (hashToJobRow now id h).finalizedAt =
      ((msToDt h.times.1).or (msToDt h.times.2.1)).or (msToDt h.times.2.2) := rfl
  rw [hrow]
  unfold JobHash.Ended at hh
  cases hst : h.state with
  | none =>
    rw [hst] at hh
    rw [hh]
    simp [msToDt]
  | some st =>
    rw [hst] at hh
    obtain ⟨htimes, hclock⟩ := hh
    rw [htimes]
    have hnone : msToDt none = none := rfl
    cases st with
    | pending | scheduled | running => simp [timesOf, hnone, JobState.terminal]
    | completed | failed | cancelled => simp [timesOf, hnone, msToDt_eq (hclock rfl), JobState.terminal]

end Turned

/-! ## What a call does to the HASHes -/

section Calls

variable {s s₁ s' : Store} {A : Line} {t : ℤ} {id : JobId}

theorem Turned.same {h h' : JobHash} (he : h' = h) : Turned t h h' := he ▸ .stay rfl rfl

theorem HashesKept.turned (hk : HashesKept s s') (id : JobId) : Turned t (s.hash id) (s'.hash id) := by
  rcases hk id with h | h
  · exact .same (by rw [Store.hash, Store.hash, h])
  · have hnone : s'.hash id = {} := by rw [Store.hash, h]; rfl
    rw [hnone]
    exact .gone

theorem open_of_state {h : JobHash} {k : JobState} (hs : h.state = some k) (hst : ¬ k.terminal) : h.Open := by
  intro st' hs'
  rw [hs] at hs'
  exact Option.some.inj hs' ▸ hst

/-- A HASH is as it was, or a new one that nothing has happened to. -/
def HashesNew (s s' : Store) : Prop :=
  ∀ id, s'.hash id = s.hash id ∨ s.hash id = {} ∧ (s'.hash id).Open ∧ (s'.hash id).times = (none, none, none)

theorem HashesNew.trans (h : HashesNew s s₁) (h' : HashesNew s₁ s') : HashesNew s s' := by
  intro id
  rcases h' id with h' | ⟨hempty, hnew⟩
  · rw [h']
    exact h id
  · rcases h id with h | ⟨h, -⟩
    · exact Or.inr ⟨h ▸ hempty, hnew⟩
    · exact Or.inr ⟨h, hnew⟩

theorem HashesNew.turned (h : HashesNew s s') (id : JobId) : Turned t (s.hash id) (s'.hash id) := by
  rcases h id with h | ⟨hempty, hopen, htimes⟩
  · exact .same h
  · rw [hempty]
    by_cases hstated : (s'.hash id).state.isSome
    · exact .live (fun _ hs => nomatch hs) hopen hstated htimes
    · exact .stay (Option.not_isSome_iff_eq_none.mp hstated) htimes

theorem toHash_new (a : EnqueueArgs) (id : JobId) (now : ℤ) :
    (a.toHash id now {}).Open ∧ (a.toHash id now {}).times = (none, none, none) := by
  refine ⟨?_, rfl⟩
  by_cases hd : a.effectiveScheduled now ≤ now
  · exact open_of_state (k := .pending) (by simp [EnqueueArgs.toHash, hd]) (by decide)
  · exact open_of_state (k := .scheduled) (by simp [EnqueueArgs.toHash, hd]) (by decide)

theorem insertJob_new (s₁ : Store) (h : Refines False s A) (hc : s₁.cell = s.cell) (a : EnqueueArgs) (now : ℤ)
    (hhash : s'.hash = (insertJob s₁ a (s.idgen + 1) now).hash) : HashesNew s s' := by
  intro id
  rw [hhash, insertJob_next h hc]
  split
  · next hid =>
    rw [hid]
    exact Or.inr ⟨h.hash_next, toHash_new a _ now⟩
  · exact Or.inl rfl

theorem fnEnqueue_new (h : Refines False s A) (a : EnqueueArgs) (now : ℤ) : HashesNew s (fnEnqueue s a now).1 := by
  unfold fnEnqueue
  split
  · exact fun _ => Or.inl rfl
  · refine insertJob_new (if a.uniqueKey ≠ "" then ({ s with idgen := s.idgen + 1 } : Store).setUnique a.uniqueKey
      (s.idgen + 1) else { s with idgen := s.idgen + 1 }) h ?_ a now rfl
    split <;> rfl

theorem fnEnqueueMany_new (now : ℤ) : ∀ (as : List EnqueueArgs) {s : Store} {A : Line}, Refines False s A →
    HashesNew s (fnEnqueueMany s as now).1
  | [], _, _, _ => fun _ => Or.inl rfl
  | a :: as, s, A, h => by
    obtain ⟨A', _, h'⟩ := fnEnqueue_sim h a now nofun
    exact (fnEnqueue_new h a now).trans (fnEnqueueMany_new now as h')

theorem fnScheduleFire_new (h : Refines False s A) (a : FireArgs) : HashesNew s (fnScheduleFire s a).1 := by
  rcases fnScheduleFire_cases s a with hsame | hs
  · rw [hsame]
    exact fun _ => Or.inl rfl
  · exact insertJob_new { s with idgen := s.idgen + 1 } h rfl a.toEnqueue a.now hs.hash

theorem fnHeartbeat_turned (s : Store) (now : ℤ) (ids : List JobId) (id : JobId) :
    Turned t (s.hash id) ((fnHeartbeat s now ids).1.hash id) := by
  have hsame : ∀ j, ((fnHeartbeat s now ids).1.hash j).state = (s.hash j).state ∧
      ((fnHeartbeat s now ids).1.hash j).times = (s.hash j).times := by
    rw [fnHeartbeat, forEachCount_fst]
    refine forEach_inv (P := fun x : Store => ∀ j, (x.hash j).state = (s.hash j).state ∧ (x.hash j).times = (s.hash j).times)
      (fun _ => ⟨rfl, rfl⟩) (fun x i _ hx => ?_)
    unfold heartbeatOne
    split
    · intro j
      rw [zadd_hash, hash_hset]
      split
      · next hj => exact hj ▸ hx j
      · exact hx j
    · exact hx
  exact .stay (hsame id).1 (hsame id).2

theorem fnClaim_turned (s : Store) (a : ClaimArgs) (id : JobId) : Turned t (s.hash id) ((fnClaim s a).1.hash id) := by
  have h := fnClaim_replied s a
  by_cases hid : id ∈ (fnClaim s a).2.map (·.id)
  · obtain ⟨j, hj, rfl⟩ := List.mem_map.mp hid
    obtain ⟨hpending, hstarted, -⟩ := h.handed j hj
    rw [hstarted]
    exact .live (open_of_state hpending nofun) (open_of_state (k := .running) rfl nofun) rfl rfl
  · exact .same (h.rest id hid)

/-- A recovery: a job whose stall budget is spent fails, at the time given. -/
theorem recovered_turned {h : JobHash} (hs : h.state = some .running) {b : ℤ} (hb : h.stalledOut → b = t) :
    Turned t h (h.recovered b) := by
  have hopen := open_of_state hs nofun
  unfold JobHash.recovered
  split
  · next hout =>
    refine .finish (k := .failed) hopen rfl rfl (fun htimes => ?_)
    rw [hb hout]
    simp only [JobHash.times, Prod.mk.injEq] at htimes
    simp [JobHash.times, timesOf, htimes]
  · exact .live hopen (open_of_state (k := .pending) rfl nofun) rfl rfl

/-- A verdict that gets through marks the HASH of its job. -/
theorem Verdict.turned (v : Verdict) (w : WorkerId)
    (hmark : s.owner id = some w → Turned t (s.hash id) (v.mark (s.hash id))) (j : JobId) :
    Turned t (s.hash j) (((v.toOp id w).apply s).hash j) := by
  by_cases ho : s.owner id = some w
  · rcases v.writes s id w with ⟨hno, -⟩ | ⟨y, hy, hkept, -⟩
    · exact absurd ho hno
    · rcases hkept j with hj | hj
      · have hhash : ((v.toOp id w).apply s).hash j = if j = id then v.mark (s.hash id) else s.hash j := by
          rw [Store.hash, hj, ← Store.hash, hash_hset, hy]
        rw [hhash]
        split
        · next hid => exact hid ▸ hmark ho
        · exact .same rfl
      · have hnone : ((v.toOp id w).apply s).hash j = {} := by rw [Store.hash, hj]; rfl
        rw [hnone]
        exact .gone
  · have hstale : (v.toOp id w).apply s = s := by
      cases v with
      | complete now result => exact congrArg Prod.fst (fnComplete_stale ho now result)
      | fail now error retryAt => exact congrArg Prod.fst (fnFail_stale ho now error retryAt)
    exact .same (by rw [hstale])

/-- **A call** does to a HASH what may be done. -/
theorem Op.turned (h : Refines False s A) (op : Op) (hat : op.At t) (hend : op.Ends t s) (id : JobId) :
    Turned t (s.hash id) ((op.apply s).hash id) := by
  have hsame : ∀ {s'}, SameJobs s s' → Turned t (s.hash id) (s'.hash id) := fun hs => .same (by rw [hs.hash])
  cases op with
  | enqueue a now => exact (fnEnqueue_new h a now).turned id
  | enqueueMany as now => exact (fnEnqueueMany_new now as h).turned id
  | claim a => exact fnClaim_turned s a id
  | heartbeat now ids => exact fnHeartbeat_turned s now ids id
  | complete i w now result =>
    obtain rfl : now = t := hat
    refine (Verdict.complete now result).turned w (fun ho => ?_) id
    refine .finish (k := .completed) (open_of_state (hend ho) nofun) rfl rfl (fun htimes => ?_)
    simp only [JobHash.times, Prod.mk.injEq] at htimes
    simp [Verdict.mark, JobHash.times, timesOf, htimes]
  | fail i w now error retryAt =>
    obtain rfl : now = t := hat
    refine (Verdict.fail now error retryAt).turned w (fun ho => ?_) id
    have hfinal : ¬ retryAt ≥ 0 := not_le.mpr (hend.2 ho)
    have hmark : (Verdict.fail now error retryAt).mark (s.hash i) =
        { s.hash i with state := some .failed, failedAt := some now } := if_neg hfinal
    rw [hmark]
    refine .finish (k := .failed) (open_of_state (hend.1 ho) nofun) rfl rfl (fun htimes => ?_)
    simp only [JobHash.times, Prod.mk.injEq] at htimes
    simp [JobHash.times, timesOf, htimes]
  | sweepStale b n =>
    show Turned t _ ((fnSweepStale s b n).1.hash id)
    rw [fnSweepStale_hash h]
    split
    · next hin => exact recovered_turned (h.stale_running hin) (hend id hin)
    · exact .same rfl
  | promoteDelayed now n =>
    show Turned t _ ((fnPromoteDelayed s now n).1.hash id)
    rw [fnPromoteDelayed_hash h]
    split
    · next hin =>
      exact .live (open_of_state (h.due_scheduled hin) nofun) (open_of_state (k := .pending) rfl nofun) rfl rfl
    · exact .same rfl
  | reclaimInFlight now ids =>
    obtain rfl : now = t := hat
    show Turned now _ ((fnReclaimInFlight s now ids).1.hash id)
    rw [fnReclaimInFlight_hash h, JobHash.reclaimed]
    split
    · split
      · next hr => exact recovered_turned hr (fun _ => rfl)
      · exact .same rfl
    · exact .same rfl
  | cancel i now =>
    obtain rfl : now = t := hat
    show Turned now _ ((fnCancel s i now).1.hash id)
    rw [(fnCancel_hash h i now id).1]
    split
    · next hw =>
      obtain ⟨rfl, hw⟩ := hw
      have hopen : (s.hash id).Open := by
        simp only [Store.waits, Bool.or_eq_true, decide_eq_true_eq] at hw
        rcases hw with hw | hw
        · exact open_of_state hw nofun
        · exact open_of_state hw nofun
      refine .finish (k := .cancelled) hopen rfl rfl (fun htimes => ?_)
      simp only [JobHash.times, Prod.mk.injEq] at htimes
      simp [JobHash.times, timesOf, htimes]
    · exact .same rfl
  | cleanup a => exact (fnCleanup_hashesKept s a).turned id
  | scheduleFire a => exact (fnScheduleFire_new h a).turned id
  | _ => exact hsame (Op.apply_sameJobs s _ rfl)

end Calls

/-! ## Runs -/

/-- What a careful run keeps. -/
structure Clocked.Kept (z : Clocked) : Prop where
  refines : ∃ A, Refines False z.store A
  ended : ∀ id, (z.store.hash id).Ended (z.entered id)

section Runs

variable {z : Clocked} {t : ℤ} {op : Op}

theorem Op.Ends.ok {s : Store} (h : op.Ends t s) : op.Ok False s := by
  cases op with
  | enqueue | scheduleFire => exact nofun
  | enqueueMany => exact fun _ _ => nofun
  | complete => exact h
  | fail => exact h.1
  | _ => exact trivial

theorem Clocked.Kept.step (h : z.Kept) (ht : InClock t) (hat : op.At t) (hend : op.Ends t z.store) :
    (z.apply (t, op)).Kept := by
  obtain ⟨A, hr⟩ := h.refines
  obtain ⟨A', _, hr'⟩ := Op.apply_sim hr op hend.ok
  exact ⟨⟨A', hr'⟩, fun id => (Op.turned hr op hat hend id).ended (h.ended id) ht⟩

theorem Clocked.Reached.kept (h : z.Reached True) : z.Kept := by
  refine Reach.inv h ⟨⟨{}, empty_refines⟩, fun _ => rfl⟩ ?_
  rintro z ⟨t, op⟩ z' hz ⟨⟨ht, hat, hend⟩, rfl⟩
  exact hz.step ht hat (hend trivial)

/-- **In a careful run** every row shows the time at which its job was finalized, and none before. -/
theorem finalized_shown (z : Clocked) (h : z.Reached True) : z.Shown := by
  intro now id x hx t
  have hhash : z.store.hash id = x := by rw [Store.hash, hx]; rfl
  have hended := h.kept.ended id
  rw [hhash] at hended
  rw [hended.finalizedAt now id]
  split
  · next hfinal => exact ⟨fun he => ⟨hfinal, (Option.some.inj he).symm⟩, fun he => congrArg some he.2.symm⟩
  · next hopen => exact ⟨fun he => absurd he.symm (Option.some_ne_none t), fun he => absurd he.1 hopen⟩

end Runs

/-! ## A retry -/

/-- The run of `retriedRun` under the clock. -/
def retriedCalls : List (ℤ × Op) :=
  [(1000, .enqueue { kind := "mail", queue := "default" } 1000),
   (2000, .claim { batchSize := 1, worker := "w", now := 2000, queues := ["default"], kinds := ["mail"] }),
   (3000, .fail 1 "w" 3000 "timeout" 3600000)]

/-- A job that waits for its retry shows the time of its failure. -/
theorem retried_shown_fails : ¬ ∀ z : Clocked, z.Reached False → z.Shown := by
  intro h
  have hreach : (retriedCalls.foldl Clocked.apply ⟨.empty, fun _ => 0⟩).Reached False :=
    run_of_guards retriedCalls (Reach.refl _) (by simp [retriedCalls, Guards, InClock, Op.At])
  have hjob : ((retriedCalls.foldl Clocked.apply ⟨.empty, fun _ => 0⟩).store.job 1).isSome := by decide +kernel
  obtain ⟨x, hx⟩ := Option.isSome_iff_exists.mp hjob
  have hshown := h _ hreach 0 1 x hx (3000 * 10 ^ 6)
  have hhash : (retriedCalls.foldl Clocked.apply ⟨.empty, fun _ => 0⟩).store.hash 1 = x := by rw [Store.hash, hx]; rfl
  have hrow : (hashToJobRow 0 1 ((retriedCalls.foldl Clocked.apply ⟨.empty, fun _ => 0⟩).store.hash 1)).finalizedAt =
      some (3000 * 10 ^ 6) := by decide +kernel
  obtain ⟨⟨st, hst, hfinal⟩, -⟩ := hshown.mp (hhash ▸ hrow)
  have hstate : ((retriedCalls.foldl Clocked.apply ⟨.empty, fun _ => 0⟩).store.hash 1).state = some .scheduled := by
    decide +kernel
  rw [hhash, hst] at hstate
  cases hstate
  cases hfinal

/-- The same failure for good. -/
def failedCalls : List (ℤ × Op) :=
  [(1000, .enqueue { kind := "mail", queue := "default" } 1000),
   (2000, .claim { batchSize := 1, worker := "w", now := 2000, queues := ["default"], kinds := ["mail"] }),
   (3000, .fail 1 "w" 3000 "timeout" (-1))]

theorem failedCalls_shown : (failedCalls.foldl Clocked.apply ⟨.empty, fun _ => 0⟩).Shown := by
  refine finalized_shown _ (run_of_guards _ (Reach.refl _) ?_)
  refine ⟨⟨by decide, rfl, fun _ => trivial⟩, ⟨by decide, rfl, fun _ => trivial⟩, ⟨by decide, rfl, fun _ => ⟨?_, ?_⟩⟩, trivial⟩
  · intro _; decide +kernel
  · intro _; decide

end Eddyq.Redis
