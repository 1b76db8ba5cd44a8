import Eddyq.Lib.Leases
import Eddyq.Redis.Reached

/-!
# Leases on Redis

A verdict is gated by `locked_by` alone. A claim records its worker there (`fnClaim_replied`), a recovery that gives the
job back to its wait set blanks it, and a recovery that fails the job leaves it (`Op.leaseKept`). The rule of fencing
applies to runs without the last kind of recovery for jobs whose execution is unfinished (`fence`).
-/

namespace Eddyq.Redis

open Eddyq.Lib

/-! ## HASHes -/

section Hashes

variable {s s' : Store} (id : JobId)

theorem leaveRunning_job (s : Store) (g q : Option String) : (leaveRunning s id g q).job = s.job := by
  unfold leaveRunning
  cases given g <;> cases given q <;> rfl

theorem zaddBoth_job (s : Store) (z : ZKey) (nq : Option ZKey) (sc : ℤ) : (zaddBoth s z nq sc id).job = s.job := by
  unfold zaddBoth
  cases nq <;> rfl

theorem zremBoth_job (s : Store) (z : ZKey) (nq : Option ZKey) : (zremBoth s z nq id).job = s.job := by
  unfold zremBoth
  cases nq <;> rfl

theorem releaseUnique_job (s : Store) : (releaseUnique s id).job = s.job := by
  obtain ⟨un, h⟩ := dropUniqueIfOwner_eq s id (s.hash id).uniqueKey
  rw [releaseUnique, h]

theorem zadd_hash (s : Store) (k : ZKey) (sc : ℤ) : (s.zadd k sc id).hash = s.hash := rfl

/-- What `HSET` leaves in the HASH. -/
theorem hash_hset (s : Store) (f : JobHash → JobHash) (j : JobId) :
    (s.hset id f).hash j = if j = id then f (s.hash id) else s.hash j := by
  unfold Store.hset Store.hash
  by_cases h : j = id
  · subst h
    simp
  · simp [h]

theorem hash_congr (h : s'.job = s.job) : s'.hash = s.hash := by
  funext j
  rw [Store.hash, Store.hash, h]

/-- Every HASH is as it was, or gone. -/
def HashesKept (s s' : Store) : Prop := ∀ j, s'.job j = s.job j ∨ s'.job j = none

theorem HashesKept.of_job (h : s'.job = s.job) : HashesKept s s' := fun j => Or.inl (congrFun h j)

theorem HashesKept.trans {s₁ : Store} (h : HashesKept s s₁) (h' : HashesKept s₁ s') : HashesKept s s' := by
  intro j
  rcases h' j with h' | h'
  · rcases h j with h | h
    · exact Or.inl (h'.trans h)
    · exact Or.inr (h'.trans h)
  · exact Or.inr h'

theorem delJob_hashesKept (s : Store) : HashesKept s (s.delJob id) := by
  intro j
  by_cases hj : j = id
  · exact Or.inr (hj ▸ Function.update_self ..)
  · exact Or.inl (Function.update_of_ne hj ..)

theorem deleteJob_hashesKept (s : Store) : HashesKept s (deleteJob s id) := by
  intro j
  have hcell := congrArg JobCell.hash (congrFun (cell_deleteJob s id) j)
  by_cases hj : j = id
  · subst hj
    rw [Function.update_self] at hcell
    exact Or.inr hcell
  · rw [Function.update_of_ne hj] at hcell
    exact Or.inl hcell

theorem finalize_hashesKept (s : Store) (zset : ZKey) (nq : Option ZKey) (rule : Option RetentionRule) (now : ℤ) :
    HashesKept s (finalize s id zset nq rule now) := by
  refine finalize_inv (P := HashesKept s) (.of_job rfl) (.of_job (zaddBoth_job id s zset nq now)) (fun k x v hx => ?_)
    (fun x hx => ?_) rule
  · exact (hx.trans (deleteJob_hashesKept v x)).trans (.of_job rfl)
  · exact (hx.trans (.of_job (zremBoth_job id x zset nq))).trans (deleteJob_hashesKept id _)

theorem cleanupState_hashesKept (s : Store) (zset : ZKey) (nqKey : String → ZKey) (now age count : ℤ) (limit : Nat) :
    HashesKept s (cleanupState s zset nqKey now age count limit).1 := by
  unfold cleanupState
  split
  · exact .of_job rfl
  · dsimp only
    refine List.foldlRecOn _ _ (motive := fun x => HashesKept s x) (.of_job rfl) (fun x hx v _ => hx.trans ?_)
    exact (deleteJob_hashesKept v x).trans (.of_job (zremBoth_job _ _ _ _))

theorem fnCleanup_hashesKept (s : Store) (a : CleanupArgs) : HashesKept s (fnCleanup s a).1 :=
  ((cleanupState_hashesKept s _ _ _ _ _ _).trans (cleanupState_hashesKept _ _ _ _ _ _ _)).trans
    (cleanupState_hashesKept _ _ _ _ _ _ _)

end Hashes

/-! ## Calls that keep a lease -/

section Kept

variable {s s' : Store} {id : JobId}

/-- What a call but a claim does to the lease of a job: who is recorded after it was recorded before, and if the job was
running it still is. Workers have names. -/
def LeaseKept (s s' : Store) (id : JobId) : Prop :=
  ∀ w, w ≠ "" → s'.owner id = some w → s.owner id = some w ∧ (s.state id = some .running → s'.state id = some .running)

theorem LeaseKept.of_hash (h : s'.hash id = s.hash id) : LeaseKept s s' id := by
  intro w _ ho
  unfold Store.owner at ho ⊢
  unfold Store.state
  rw [h] at ho ⊢
  exact ⟨ho, fun hr => hr⟩

theorem LeaseKept.of_kept (h : HashesKept s s') : LeaseKept s s' id := by
  rcases h id with h | h
  · exact .of_hash (by rw [Store.hash, Store.hash, h])
  · intro w _ ho
    rw [Store.owner, Store.hash, h] at ho
    cases ho

/-- A job that nobody is recorded for. -/
theorem LeaseKept.of_nobody (h : s'.owner id = none ∨ s'.owner id = some "") : LeaseKept s s' id := by
  intro w hw ho
  rcases h with h | h
  · rw [h] at ho
    cases ho
  · rw [h, Option.some.injEq] at ho
    exact absurd ho.symm hw

/-- A job that was not running. -/
theorem LeaseKept.of_idle (ho : s'.owner id = s.owner id) (hr : s.state id ≠ some .running) : LeaseKept s s' id :=
  fun _ _ hw => ⟨ho ▸ hw, fun h => absurd h hr⟩

theorem LeaseKept.trans {s₁ : Store} (h : LeaseKept s s₁ id) (h' : LeaseKept s₁ s' id) : LeaseKept s s' id := by
  intro w hw ho
  obtain ⟨ho₁, hr₁⟩ := h' w hw ho
  obtain ⟨ho₀, hr₀⟩ := h w hw ho₁
  exact ⟨ho₀, fun hr => hr₁ (hr₀ hr)⟩

theorem SameJobs.leaseKept (h : SameJobs s s') : LeaseKept s s' id :=
  .of_hash (by rw [← Store.cell_fields, ← Store.cell_fields, h.1])

/-! ### Enqueue -/

variable {named : Prop} {A : Line}

/-- The next id is nobody's. -/
theorem Refines.hash_next (h : Refines named s A) : s.hash (s.idgen + 1) = {} := by
  have hnone : A.jobs (s.idgen + 1) = none := h.fresh _ (by rw [h.idgen]; exact Nat.lt_succ_self _)
  have hc := h.cell (s.idgen + 1)
  rw [hnone] at hc
  have hh : s.job (s.idgen + 1) = none := hc.hash
  rw [Store.hash, hh]
  rfl

/-- The HASHes after a new job. -/
theorem insertJob_hash (s : Store) (a : EnqueueArgs) (id : JobId) (now : ℤ) (j : JobId) :
    (insertJob s a id now).hash j = if j = id then a.toHash id now (s.hash id) else s.hash j := by
  have hcell := congrArg JobCell.fields (congrFun (cell_insertJob s id a now) j)
  rw [Store.cell_fields] at hcell
  rw [hcell]
  by_cases hj : j = id
  · subst hj
    rw [Function.update_self, if_pos rfl]
    unfold JobCell.inserted
    dsimp only
    split <;> rfl
  · rw [Function.update_of_ne hj, if_neg hj]
    rfl

theorem insertJob_leaseKept (h : Refines named s A) {s₁ : Store} (hc : s₁.cell = s.cell) (a : EnqueueArgs) (now : ℤ) :
    LeaseKept s (insertJob s₁ a (s.idgen + 1) now) id := by
  have hsame : s₁.hash = s.hash := by
    funext j
    rw [← Store.cell_fields, ← Store.cell_fields, hc]
  have hhash := insertJob_hash s₁ a (s.idgen + 1) now id
  rw [hsame] at hhash
  by_cases hid : id = s.idgen + 1
  · rw [if_pos hid, h.hash_next] at hhash
    refine .of_nobody (Or.inl ?_)
    rw [Store.owner, hhash]
    rfl
  · rw [if_neg hid] at hhash
    exact .of_hash hhash

theorem fnEnqueue_leaseKept (h : Refines named s A) (a : EnqueueArgs) (now : ℤ) :
    LeaseKept s (fnEnqueue s a now).1 id := by
  unfold fnEnqueue
  split
  · exact .of_hash rfl
  · refine insertJob_leaseKept h ?_ a now
    split <;> rfl

theorem fnEnqueueMany_leaseKept (now : ℤ) : ∀ (as : List EnqueueArgs) {s : Store} {A : Line}, Refines False s A →
    LeaseKept s (fnEnqueueMany s as now).1 id
  | [], _, _, _ => .of_hash rfl
  | a :: as, s, A, h => by
    obtain ⟨A', _, h'⟩ := fnEnqueue_sim h a now nofun
    exact (fnEnqueue_leaseKept h a now).trans (fnEnqueueMany_leaseKept now as h')

theorem fnScheduleFire_leaseKept (h : Refines named s A) (a : FireArgs) : LeaseKept s (fnScheduleFire s a).1 id := by
  rcases fnScheduleFire_cases s a with hsame | hs
  · rw [hsame]
    exact .of_hash rfl
  · have hins : LeaseKept s (insertJob { s with idgen := s.idgen + 1 } a.toEnqueue (s.idgen + 1) a.now) id := by
      refine insertJob_leaseKept h ?_ a.toEnqueue a.now
      rfl
    exact hins.trans hs.leaseKept

/-! ### Heartbeat, recovery and cancel -/

theorem fnHeartbeat_leaseKept (s : Store) (now : ℤ) (ids : List JobId) : LeaseKept s (fnHeartbeat s now ids).1 id := by
  rw [fnHeartbeat, forEachCount_fst]
  refine forEach_inv (P := fun x => LeaseKept s x id) (.of_hash rfl) (fun x i _ hx => hx.trans ?_)
  unfold heartbeatOne
  split
  · have hh := hash_hset i x (fun h => { h with lockedAt := some now }) id
    intro w _ ho
    have ho : ((x.hset i (fun h => { h with lockedAt := some now })).hash id).lockedBy = some w := ho
    show (x.hash id).lockedBy = some w ∧ ((x.hash id).state = some .running →
      ((x.hset i (fun h => { h with lockedAt := some now })).hash id).state = some .running)
    rw [hh] at ho ⊢
    split at ho
    · next hi =>
      subst hi
      rw [if_pos rfl]
      exact ⟨ho, fun hr => hr⟩
    · next hi =>
      rw [if_neg hi]
      exact ⟨ho, fun hr => hr⟩
  · exact .of_hash rfl

/-- The stall budget is spent. -/
def JobHash.stalledOut (h : JobHash) : Prop := h.stalledCount.getD 0 + 1 > h.maxStalledCount.getD 1

instance (h : JobHash) : Decidable h.stalledOut := inferInstanceAs (Decidable (_ > _))

/-- What a recovery makes of a HASH. -/
def JobHash.recovered (t : ℤ) (h : JobHash) : JobHash :=
  if h.stalledOut then
    { h with state := some .failed, stalledCount := some (h.stalledCount.getD 0 + 1), failedAt := some t }
  else
    { h with
      state := some .pending, stalledCount := some (h.stalledCount.getD 0 + 1)
      attempt := some (max (h.attempt.getD 0 - 1) 0), lockedBy := some "", lockedAt := some 0 }

/-- A recovery rewrites the HASH of its job, and goes on where the HASH has a queue. -/
theorem recoverOne_hash (t : ℤ) (e : String) (s : Store) (i j : JobId) :
    (recoverOne t e s i).1.hash j = if j = i then (s.hash i).recovered t else s.hash j := by
  have hleave : (leaveRunning s i (s.hash i).groupKey (s.hash i).queue).hash = s.hash :=
    hash_congr (leaveRunning_job i s _ _)
  unfold recoverOne
  dsimp only
  by_cases hout : (s.hash i).stalledOut
  · have hstalled : (s.hash i).stalledCount.getD 0 + 1 > (s.hash i).maxStalledCount.getD 1 := hout
    rw [if_pos hstalled, hash_congr (releaseUnique_job _ _), JobHash.recovered, if_pos hout]
    refine (congrFun (hash_congr (zaddBoth_job i _ _ _ _)) j).trans ?_
    rw [hash_hset, hleave]
  · have hstalled : ¬ (s.hash i).stalledCount.getD 0 + 1 > (s.hash i).maxStalledCount.getD 1 := hout
    rw [if_neg hstalled, JobHash.recovered, if_neg hout]
    split
    · rw [hash_hset, hleave]
    · rw [zadd_hash, hash_hset, hleave]

theorem recoverOne_goes (t : ℤ) (e : String) {s : Store} {i : JobId} (h : (s.hash i).queue.isSome) :
    (recoverOne t e s i).2 = true := by
  obtain ⟨q, hq⟩ := Option.isSome_iff_exists.mp h
  unfold recoverOne
  dsimp only
  split
  · rfl
  · rw [hq]

/-- A recovery that gives the job back forgets the worker. -/
theorem recoverOne_blank (t : ℤ) (e : String) (h : ¬ (s.hash id).stalledOut) :
    (recoverOne t e s id).1.owner id = some "" ∧ (recoverOne t e s id).1.state id = some .pending := by
  rw [Store.owner, Store.state, recoverOne_hash, if_pos rfl, JobHash.recovered, if_neg h]
  exact ⟨rfl, rfl⟩

/-- A recovery records nobody new. -/
theorem recoverOne_owner (t : ℤ) (e : String) (s : Store) (i : JobId) :
    (recoverOne t e s i).1.owner id = s.owner id ∨ (recoverOne t e s i).1.owner id = some "" := by
  rw [Store.owner, Store.owner, recoverOne_hash]
  by_cases hid : id = i
  · rw [if_pos hid, ← hid]
    by_cases hout : (s.hash id).stalledOut
    · rw [JobHash.recovered, if_pos hout]
      exact Or.inl rfl
    · rw [JobHash.recovered, if_neg hout]
      exact Or.inr rfl
  · rw [if_neg hid]
    exact Or.inl rfl

/-- Neither does a loop of recoveries. -/
theorem recoverAll_owner {f : Store → JobId → Store × Bool} (l : List JobId)
    (hf : ∀ x i, (f x i).1.owner id = x.owner id ∨ (f x i).1.owner id = some "") (s : Store) :
    (forEach f l s).1.owner id = s.owner id ∨ (forEach f l s).1.owner id = some "" := by
  refine forEach_inv (P := fun x : Store => x.owner id = s.owner id ∨ x.owner id = some "") (Or.inl rfl)
    (fun x i _ hx => ?_)
  rcases hf x i with h | h
  · rw [h]
    exact hx
  · exact Or.inr h

theorem fnSweepStale_leaseKept (s : Store) (t : ℤ) (n : Nat)
    (hout : id ∈ (s.zsets .active).rangeByScore (fun sc => sc ≤ t) n → ¬ (s.hash id).stalledOut) :
    LeaseKept s (fnSweepStale s t n).1 id := by
  rw [fnSweepStale, forEachCount_fst]
  refine forEach_local (c := fun x i => (i, x.cell i)) (P := fun x => LeaseKept s x id)
    (Q := fun p => p.1 = id → p.2 = s.cell id ∧ ¬ (s.hash id).stalledOut) (ZSet.nodup_rangeByScore _ _ _) (.of_hash rfl)
    (fun i hi he => ?_) (fun x i j hne => ?_) (fun x i hx hq => ?_)
  · dsimp only at he
    subst he
    exact ⟨rfl, hout hi⟩
  · rw [cell_recoverOne t sweepError x i hne]
  · by_cases hi : i = id
    · subst hi
      obtain ⟨hcell, hspare⟩ := hq rfl
      have hh : x.hash i = s.hash i := congrArg JobCell.fields hcell
      exact .of_nobody (Or.inr (recoverOne_blank t sweepError (hh ▸ hspare)).1)
    · have hne : id ≠ i := fun e => hi e.symm
      exact hx.trans (.of_hash (congrArg JobCell.fields (cell_recoverOne t sweepError x i hne)))

theorem fnReclaimInFlight_leaseKept (s : Store) (now : ℤ) (ids : List JobId)
    (hout : id ∈ ids → isRunning s id → ¬ (s.hash id).stalledOut) :
    LeaseKept s (fnReclaimInFlight s now ids).1 id := by
  rw [fnReclaimInFlight, forEachCount_fst]
  -- an id may be listed twice: the second time its job is pending
  have hinv : ∀ x : Store, (x.hash id = s.hash id ∨ x.owner id = some "" ∧ x.state id = some .pending) →
      LeaseKept s x id := by
    rintro x (h | ⟨h, _⟩)
    · exact .of_hash h
    · exact .of_nobody (Or.inr h)
  refine hinv _ (forEach_inv (P := fun x : Store => x.hash id = s.hash id ∨
    x.owner id = some "" ∧ x.state id = some .pending) (Or.inl rfl) (fun x i hi hx => ?_))
  unfold reclaimOne
  split
  · next hrun =>
    by_cases hid : i = id
    · subst hid
      have hstate : x.state i = some .running := of_decide_eq_true hrun
      rcases hx with hx | ⟨_, hp⟩
      · have hrun₀ : isRunning s i := by
          rw [isRunning, hx] at hrun
          exact hrun
        exact Or.inr (recoverOne_blank now reclaimError (hx ▸ hout hi hrun₀))
      · rw [hstate] at hp
        cases hp
    · have hne : id ≠ i := fun e => hid e.symm
      have hh : (recoverOne now reclaimError x i).1.hash id = x.hash id :=
        congrArg JobCell.fields (cell_recoverOne now reclaimError x i hne)
      unfold Store.owner Store.state at hx ⊢
      rw [hh]
      exact hx
  · exact hx

/-- A promotion touches jobs that wait. -/
theorem fnPromoteDelayed_leaseKept (h : Refines named s A) (now : ℤ) (n : Nat) :
    LeaseKept s (fnPromoteDelayed s now n).1 id := by
  rw [fnPromoteDelayed, forEachCount_fst]
  refine forEach_local (c := fun x i => (i, x.cell i)) (P := fun x => LeaseKept s x id)
    (Q := fun p => p.1 = id → p.2 = s.cell id ∧ s.state id ≠ some .running) (ZSet.nodup_rangeByScore _ _ _) (.of_hash rfl)
    (fun i hi he => ?_) (fun x i j hne => ?_) (fun x i hx hq => ?_)
  · dsimp only at he
    subst he
    refine ⟨rfl, fun hr => ?_⟩
    obtain ⟨sc, hsc, _⟩ := ZSet.mem_of_mem_rangeByScore hi
    obtain ⟨j, hj, hst⟩ := h.of_delayed (Option.isSome_iff_exists.mpr ⟨sc, hsc⟩)
    obtain ⟨j', hj', hst'⟩ := Rep.of_state h hr
    rw [hj, Option.some.injEq] at hj'
    subst hj'
    rw [hst] at hst'
    cases hst'
  · rw [cell_promoteOne now x i hne]
  · by_cases hi : i = id
    · subst hi
      obtain ⟨hcell, hidle⟩ := hq rfl
      have hh : x.hash i = s.hash i := congrArg JobCell.fields hcell
      refine .of_idle ?_ hidle
      have hset := hash_hset i (zremBoth x .delayed ((given (x.hash i).queue).map .nqscheduled) i)
        (fun h => { h with state := some .pending }) i
      rw [if_pos rfl, zremBoth_hash] at hset
      unfold Store.owner promoteOne
      dsimp only
      split
      · rw [hset, hh]
      · rw [zadd_hash, hset, hh]
    · have hne : id ≠ i := fun e => hi e.symm
      exact hx.trans (.of_hash (congrArg JobCell.fields (cell_promoteOne now x i hne)))

/-- Cancelling touches jobs that wait. -/
theorem markCancelled_hash (s : Store) (i : JobId) (q : Option String) (now : ℤ) (j : JobId) :
    (markCancelled s i q now).hash j =
      if j = i then { s.hash i with state := some .cancelled, cancelledAt := some now } else s.hash j := by
  unfold markCancelled
  rw [hash_congr (zaddBoth_job _ _ _ _ _), hash_congr (releaseUnique_job _ _), hash_hset]

theorem fnCancel_leaseKept (s : Store) (i : JobId) (now : ℤ) : LeaseKept s (fnCancel s i now).1 id := by
  have hmark : ∀ (x : Store) (q : Option String), x.hash = s.hash → s.state i ≠ some .running →
      LeaseKept s (markCancelled x i q now) id := by
    intro x q hx hidle
    have hh := markCancelled_hash x i q now id
    by_cases hid : id = i
    · subst hid
      rw [if_pos rfl, hx] at hh
      refine .of_idle ?_ hidle
      rw [Store.owner, hh]
      rfl
    · rw [if_neg hid, hx] at hh
      exact .of_hash hh
  unfold fnCancel
  dsimp only
  split
  · next hst =>
    have hidle : s.state i ≠ some .running := by
      rw [Store.state, hst]
      nofun
    split
    · exact .of_hash rfl
    · exact hmark _ _ rfl hidle
  · next hst =>
    have hidle : s.state i ≠ some .running := by
      rw [Store.state, hst]
      nofun
    exact hmark _ _ (zremBoth_hash s i _ _) hidle
  · exact .of_hash rfl

end Kept

/-! ## Claims -/

/-- What a claim makes of a HASH. -/
def JobHash.started (a : ClaimArgs) (h : JobHash) : JobHash :=
  { h with
    state := some .running, attempt := some (h.attempt.getD 0 + 1), lockedAt := some a.now, lockedBy := some a.worker }

/-- What a claim has done so far: the jobs of its reply were pending, have been started once, and the reply has their
numbers; every other HASH is as it was. -/
structure Replied (a : ClaimArgs) (s₀ s : Store) (out : List ClaimedJob) : Prop where
  distinct : (out.map (·.id)).Nodup
  handed : ∀ j ∈ out, s₀.state j.id = some .pending ∧ s.hash j.id = (s₀.hash j.id).started a ∧ j.workerId = a.worker ∧
    j.attempt = (s₀.hash j.id).attempt.getD 0 + 1 ∧ j.maxAttempts = (s₀.hash j.id).maxAttempts.getD 3
  rest : ∀ id, id ∉ out.map (·.id) → s.hash id = s₀.hash id
  idgen : s.idgen = s₀.idgen

section Claims

variable {a : ClaimArgs} {s₀ s s' : Store} {out : List ClaimedJob}

theorem Replied.begin (a : ClaimArgs) (s : Store) : Replied a s s [] :=
  ⟨List.nodup_nil, fun _ hj => absurd hj List.not_mem_nil, fun _ _ => rfl, rfl⟩

theorem Replied.congr (h : Replied a s₀ s out) (hh : s'.hash = s.hash) (hn : s'.idgen = s.idgen) :
    Replied a s₀ s' out := by
  refine ⟨h.distinct, fun j hj => ?_, fun id hid => ?_, hn.trans h.idgen⟩
  · rw [hh]
    exact h.handed j hj
  · rw [hh]
    exact h.rest id hid

theorem Gated.hash {g : String} {now : ℤ} {b : Bool} (h : Gated s g now s' b) :
    s'.hash = s.hash ∧ s'.idgen = s.idgen := by
  obtain ⟨gm, rfl⟩ := h.store_eq
  exact ⟨rfl, rfl⟩

theorem startJob_hash (s : Store) (a : ClaimArgs) (queue : String) (id : JobId) (attempt : ℤ) (g : Option String)
    (j : JobId) : (startJob s a queue id attempt g).hash j = if j = id then { s.hash id with
      state := some .running, attempt := some attempt, lockedAt := some a.now, lockedBy := some a.worker }
      else s.hash j := by
  have hset := hash_hset id ((s.zrem (.wait queue) id).zadd .active a.now id) (fun h => { h with
    state := some .running, attempt := some attempt, lockedAt := some a.now, lockedBy := some a.worker }) j
  unfold startJob
  dsimp only
  rw [zadd_hash]
  cases g with
  | none => exact hset
  | some g => exact hset

theorem startJob_idgen (s : Store) (a : ClaimArgs) (queue : String) (id : JobId) (n : ℤ) (g : Option String) :
    (startJob s a queue id n g).idgen = s.idgen := by
  unfold startJob
  cases g <;> rfl

/-- One candidate. -/
theorem Replied.entry {queue : String} {t : Option ℤ} {c c' : ClaimState} {id : JobId} (h : Replied a s₀ c.store c.out)
    (he : EntryStep a queue t c id c') : Replied a s₀ c'.store c'.out := by
  cases he with
  | skip => exact h
  | stop gate => exact h.congr gate.hash.1 gate.hash.2
  | gone gate => exact h.congr gate.hash.1 gate.hash.2
  | @start s₁ kind _ size isOpen hkind listed pending gate waits =>
    -- a pending job is not one that this claim has started
    have hnew : id ∉ c.out.map (·.id) := by
      intro hm
      obtain ⟨j, hj, rfl⟩ := List.mem_map.mp hm
      rw [Store.state, (h.handed j hj).2.1] at pending
      cases pending
    have hold : c.store.hash id = s₀.hash id := h.rest id hnew
    have hstart : ∀ i, (startJob s₁ a queue id ((c.store.hash id).attempt.getD 0 + 1)
        (given (c.store.hash id).groupKey)).hash i = if i = id then (c.store.hash id).started a else c.store.hash i := by
      intro i
      rw [startJob_hash, gate.hash.1]
      rfl
    refine ⟨?_, fun j hj => ?_, fun i hi => ?_, ((startJob_idgen _ _ _ _ _ _).trans gate.hash.2).trans h.idgen⟩
    · rw [List.map_append, List.map_singleton, List.nodup_append']
      refine ⟨h.distinct, List.nodup_singleton _, fun i hi hi' => hnew ?_⟩
      rw [List.mem_singleton.mp hi'] at hi
      exact hi
    · rcases List.mem_append.mp hj with hj | hj
      · have hne : j.id ≠ id := fun e => hnew (e ▸ List.mem_map_of_mem hj)
        rw [hstart, if_neg hne]
        exact h.handed j hj
      · have hst : s₀.state id = some .pending := by
          rw [Store.state, ← hold]
          exact pending
        have hid : (claimReply (c.store.hash id) a id kind t).id = id := rfl
        rw [List.mem_singleton.mp hj, hid, hstart, if_pos rfl, ← hold]
        exact ⟨hst, rfl, rfl, rfl, rfl⟩
    · rw [List.map_append, List.mem_append, not_or, List.map_singleton, List.mem_singleton] at hi
      have hne : i ≠ id := hi.2
      rw [hstart, if_neg hne]
      exact h.rest i hi.1

theorem fnClaim_replied (s : Store) (a : ClaimArgs) : Replied a s (fnClaim s a).1 (fnClaim s a).2 :=
  fnClaim_rule (Replied.begin a s) (fun he h => h.entry he)

/-- What this says of leases: the jobs of the reply are distinct, run, and are recorded for the worker; every other HASH is
as it was. -/
structure Claimed (a : ClaimArgs) (s s' : Store) (out : List ClaimedJob) : Prop where
  workers : ∀ j ∈ out, j.workerId = a.worker
  distinct : (out.map (·.id)).Nodup
  started : ∀ j ∈ out, s'.owner j.id = some a.worker ∧ s'.state j.id = some .running
  rest : ∀ id, id ∉ out.map (·.id) → s'.hash id = s.hash id

/-- **A claim** starts the jobs of its reply for its worker and touches no other HASH. -/
theorem fnClaim_claimed (s : Store) (a : ClaimArgs) : Claimed a s (fnClaim s a).1 (fnClaim s a).2 := by
  have h := fnClaim_replied s a
  refine ⟨fun j hj => (h.handed j hj).2.2.1, h.distinct, fun j hj => ?_, h.rest⟩
  rw [Store.owner, Store.state, (h.handed j hj).2.1]
  exact ⟨rfl, rfl⟩

end Claims

/-! ## The fence -/

/-- What an execution reports. -/
inductive Verdict
  | complete (now : ℤ) (result : String)
  | fail (now : ℤ) (error : String) (retryAt : ℤ)

/-- The call a verdict makes. -/
def Verdict.toOp (id : JobId) (w : WorkerId) : Verdict → Op
  | .complete now result => .complete id w now result
  | .fail now error retryAt => .fail id w now error retryAt

/-- The calls that are not verdicts. -/
def Op.notVerdict : Op → Prop
  | .complete .. | .fail .. => False
  | _ => True

/-- The jobs a call hands out: the reply of a claim. -/
def Op.grants (s : Store) : Op → List (JobId × WorkerId)
  | .claim a => (fnClaim s a).2.map (fun j => (j.id, j.workerId))
  | _ => []

/-- The call fails the job because its stall budget is spent. -/
def Op.deadLetters (s : Store) (id : JobId) : Op → Prop
  | .sweepStale t n => id ∈ (s.zsets .active).rangeByScore (fun sc => sc ≤ t) n ∧ (s.hash id).stalledOut
  | .reclaimInFlight _ ids => id ∈ ids ∧ isRunning s id ∧ (s.hash id).stalledOut
  | _ => False

/-- A call that does not fail a job of the worker. -/
def Op.Spares (s : Store) (op : Op) (id : JobId) (w : WorkerId) : Prop :=
  w ≠ "" ∧ (s.owner id = some w → ¬ op.deadLetters s id)

/-- The gate of the verdicts. -/
def Store.owned (s : Store) (id : JobId) (w : WorkerId) : Prop := s.owner id = some w

/-- The backend as a lessor. -/
def lessor : Lessor Store Op Verdict JobId WorkerId where
  call s op := op.apply s
  grants s op := op.grants s
  judge s id w v := (v.toOp id w).apply s
  running s id := s.state id = some .running

section Fence

variable {s : Store} {A : Line} {id : JobId} {w : WorkerId}

/-- The calls that are not verdicts need no guard. -/
theorem Op.ok_of_notVerdict {op : Op} (hv : op.notVerdict) (s : Store) : op.Ok False s := by
  cases op with
  | enqueue | scheduleFire => exact nofun
  | enqueueMany => exact fun _ _ => nofun
  | complete | fail => exact hv.elim
  | _ => exact trivial

theorem Op.leaseKept (h : Refines False s A) (op : Op) (hv : op.notVerdict) (hc : ∀ a, op ≠ .claim a)
    (hd : ¬ op.deadLetters s id) : LeaseKept s (op.apply s) id := by
  cases op with
  | enqueue a now => exact fnEnqueue_leaseKept h a now
  | enqueueMany as now => exact fnEnqueueMany_leaseKept now as h
  | claim a => exact absurd rfl (hc a)
  | heartbeat now ids => exact fnHeartbeat_leaseKept s now ids
  | complete => exact hv.elim
  | fail => exact hv.elim
  | sweepStale t n => exact fnSweepStale_leaseKept s t n (fun hm ho => hd ⟨hm, ho⟩)
  | promoteDelayed now n => exact fnPromoteDelayed_leaseKept h now n
  | reclaimInFlight now ids => exact fnReclaimInFlight_leaseKept s now ids (fun hm hr ho => hd ⟨hm, hr, ho⟩)
  | cancel i now => exact fnCancel_leaseKept s i now
  | cleanup a => exact .of_kept (fnCleanup_hashesKept s a)
  | scheduleFire a => exact fnScheduleFire_leaseKept h a
  | _ => exact (Op.apply_sameJobs s _ rfl).leaseKept

/-- What a verdict makes of a HASH. -/
def Verdict.mark (v : Verdict) (h : JobHash) : JobHash :=
  match v with
  | .complete now result => { h with state := some .completed, completedAt := some now, result := some result }
  | .fail now _ retryAt =>
    if retryAt ≥ 0 then
      if retryAt ≤ now then { h with state := some .pending, failedAt := some now }
      else { h with state := some .scheduled, failedAt := some now, scheduledAt := some retryAt }
    else { h with state := some .failed, failedAt := some now }

/-- Without a rule the finished job stays. -/
theorem finalize_none (s : Store) (id : JobId) (z : ZKey) (nq : Option ZKey) (now : ℤ) :
    (finalize s id z nq none now).job = s.job := zaddBoth_job id s z nq now

/-- A verdict is refused, or marks the HASH of its job; finished jobs may be deleted, but not where no rule says so. -/
theorem Verdict.writes (v : Verdict) (s : Store) (id : JobId) (w : WorkerId) :
    s.owner id ≠ some w ∧ (v.toOp id w).apply s = s ∨ ∃ y : Store, y.hash = s.hash ∧
      HashesKept (y.hset id v.mark) ((v.toOp id w).apply s) ∧
      ((s.hash id).removeOnComplete = none → (s.hash id).removeOnFail = none →
        ((v.toOp id w).apply s).job = (y.hset id v.mark).job) := by
  have hleave : ∀ x : Store, x.hash = s.hash →
      (leaveRunning x id (s.hash id).groupKey (s.hash id).queue).hash = s.hash := fun x hx =>
    (hash_congr (leaveRunning_job id x _ _)).trans hx
  cases v with
  | complete now result =>
    show _ ∧ (fnComplete s id w now result).1 = s ∨ ∃ y : Store, y.hash = s.hash ∧
      HashesKept (y.hset id _) (fnComplete s id w now result).1 ∧ (_ → _ → (fnComplete s id w now result).1.job = _)
    unfold fnComplete
    split
    · next ho => exact Or.inl ⟨ho, rfl⟩
    · refine Or.inr ⟨leaveRunning s id (s.hash id).groupKey (s.hash id).queue, hleave s rfl, ?_, fun hc _ => ?_⟩
      · exact (HashesKept.of_job (releaseUnique_job id _)).trans (finalize_hashesKept id _ _ _ _ _)
      · dsimp only
        rw [hc, finalize_none, releaseUnique_job]
        rfl
  | fail now error retryAt =>
    show _ ∧ (fnFail s id w now error retryAt).1 = s ∨ ∃ y : Store, y.hash = s.hash ∧
      HashesKept (y.hset id _) (fnFail s id w now error retryAt).1 ∧ (_ → _ → (fnFail s id w now error retryAt).1.job = _)
    unfold fnFail
    split
    · next ho => exact Or.inl ⟨ho, rfl⟩
    right
    refine ⟨leaveRunning (s.pushError id error) id (s.hash id).groupKey (s.hash id).queue,
      hleave (s.pushError id error) rfl, ?_⟩
    have hsame : ∀ (x y : Store) (p q : Prop), x.job = y.job → HashesKept y x ∧ (p → q → x.job = y.job) :=
      fun _ _ _ _ hx => ⟨.of_job hx, fun _ _ => hx⟩
    unfold Verdict.mark
    dsimp only
    split
    · split
      · split <;> exact hsame _ _ _ _ rfl
      · exact hsame _ _ _ _ (zaddBoth_job id _ _ _ _)
    · refine ⟨(HashesKept.of_job (releaseUnique_job id _)).trans (finalize_hashesKept id _ _ _ _ _), fun _ hf => ?_⟩
      have hf : ((s.pushError id error).hash id).removeOnFail = none := hf
      rw [hf, finalize_none, releaseUnique_job]
      rfl

theorem Verdict.mark_spec (v : Verdict) (h : JobHash) :
    (v.mark h).lockedBy = h.lockedBy ∧ (v.mark h).state ≠ some .running := by
  cases v with
  | complete now result => exact ⟨rfl, nofun⟩
  | fail now error retryAt =>
    unfold Verdict.mark
    dsimp only
    split
    · split <;> exact ⟨rfl, nofun⟩
    · exact ⟨rfl, nofun⟩

/-- A verdict rewrites the HASH of its job without touching the owner, and may delete finished jobs. -/
theorem Verdict.hashes (v : Verdict) (s : Store) (id : JobId) (w : WorkerId) : (v.toOp id w).apply s = s ∨
    ∃ (y : Store) (f : JobHash → JobHash), y.hash = s.hash ∧ (∀ h, (f h).lockedBy = h.lockedBy ∧ (f h).state ≠ some .running) ∧
      HashesKept (y.hset id f) ((v.toOp id w).apply s) := by
  rcases v.writes s id w with ⟨_, hsame⟩ | ⟨y, hy, hkept, _⟩
  · exact Or.inl hsame
  · exact Or.inr ⟨y, v.mark, hy, v.mark_spec, hkept⟩

/-- Whoever is recorded after a verdict was recorded before, and other jobs keep running. -/
theorem Verdict.recorded (v : Verdict) {id' : JobId} {w' : WorkerId} (ho : ((v.toOp id w).apply s).owner id' = some w') :
    s.owner id' = some w' ∧
      (id' ≠ id → s.state id' = some .running → ((v.toOp id w).apply s).state id' = some .running) := by
  rcases v.hashes s id w with hsame | ⟨y, f, hy, hf, hkept⟩
  · rw [hsame] at ho ⊢
    exact ⟨ho, fun _ hr => hr⟩
  rcases hkept id' with hj | hj
  · have hh : ((v.toOp id w).apply s).hash id' = if id' = id then f (s.hash id) else s.hash id' := by
      rw [← hy, ← hash_hset, Store.hash, Store.hash, hj]
    rw [Store.owner, hh] at ho
    rw [Store.state, Store.state, hh]
    by_cases hid : id' = id
    · subst hid
      rw [if_pos rfl, (hf _).1] at ho
      exact ⟨ho, fun hne => absurd rfl hne⟩
    · rw [if_neg hid] at ho ⊢
      exact ⟨ho, fun _ hr => hr⟩
  · rw [Store.owner, Store.hash, hj] at ho
    cases ho

/-- What a call grants is leased. -/
theorem Op.granted {op : Op} (hg : (id, w) ∈ op.grants s) : (op.apply s).LeasedTo id w := by
  cases op with
  | claim a =>
    obtain ⟨j, hj, hjw⟩ := List.mem_map.mp hg
    cases hjw
    have hc := fnClaim_claimed s a
    obtain ⟨ho, hst⟩ := hc.started j hj
    refine ⟨hst, ?_⟩
    show (fnClaim s a).1.owner j.id = some j.workerId
    rw [hc.workers j hj]
    exact ho
  | _ => exact absurd hg List.not_mem_nil

/-- **The gate is a fence** where no call fails a job for which its worker still has an execution. -/
theorem fence : Fence lessor (fun s => ∃ A, Refines False s A) Store.owned Op.notVerdict Op.Spares where
  call_inv := by
    rintro s op ⟨A, h⟩ hv
    obtain ⟨A', _, h'⟩ := Op.apply_sim h op (Op.ok_of_notVerdict hv s)
    exact ⟨A', h'⟩
  judge_inv := by
    rintro s id w v ⟨A, h⟩ hg
    have hok : (v.toOp id w).Ok False s := by
      cases v <;> exact fun ho => of_decide_eq_true (hg ho)
    obtain ⟨A', _, h'⟩ := Op.apply_sim h _ hok
    exact ⟨A', h'⟩
  shut := by
    intro s id w v _ hg
    cases v with
    | complete now result => exact congrArg Prod.fst (fnComplete_stale hg now result)
    | fail now error retryAt => exact congrArg Prod.fst (fnFail_stale hg now error retryAt)
  one _ h h' := Option.some.inj (h.symm.trans h')
  distinct := by
    intro s op _
    show ((op.grants s).map Prod.fst).Nodup
    cases op with
    | claim a =>
      show (((fnClaim s a).2.map (fun j => (j.id, j.workerId))).map Prod.fst).Nodup
      rw [List.map_map]
      exact (fnClaim_claimed s a).distinct
    | _ => exact List.nodup_nil
  granted _ hg := ⟨decide_eq_true (Op.granted hg).1, (Op.granted hg).2⟩
  kept := by
    rintro s op id w ⟨A, h⟩ hv ⟨hw, hd⟩ hno ho
    have hno : (id, w) ∉ op.grants s := hno
    have ho : (op.apply s).owner id = some w := ho
    by_cases hc : ∃ a, op = .claim a
    · obtain ⟨a, rfl⟩ := hc
      have hc := fnClaim_claimed s a
      have hrest : (fnClaim s a).1.hash id = s.hash id := by
        refine hc.rest id (fun hm => hno ?_)
        obtain ⟨j, hj, rfl⟩ := List.mem_map.mp hm
        have hw' : j.workerId = w := by
          rw [hc.workers j hj]
          exact Option.some.inj ((hc.started j hj).1.symm.trans ho)
        rw [← hw']
        exact List.mem_map_of_mem hj
      obtain ⟨ho', hr'⟩ := LeaseKept.of_hash hrest w hw ho
      exact ⟨ho', fun hr => decide_eq_true (hr' (of_decide_eq_true hr))⟩
    · by_cases hdl : op.deadLetters s id
      · -- the job fails; who is recorded now was recorded before, and is not the worker
        have hrec : (op.apply s).owner id = s.owner id ∨ (op.apply s).owner id = some "" := by
          cases op with
          | sweepStale t n =>
            show (fnSweepStale s t n).1.owner id = s.owner id ∨ (fnSweepStale s t n).1.owner id = some ""
            rw [fnSweepStale, forEachCount_fst]
            exact recoverAll_owner _ (fun x i => recoverOne_owner t sweepError x i) s
          | reclaimInFlight now ids =>
            show (fnReclaimInFlight s now ids).1.owner id = s.owner id ∨ (fnReclaimInFlight s now ids).1.owner id = some ""
            rw [fnReclaimInFlight, forEachCount_fst]
            refine recoverAll_owner _ (fun x i => ?_) s
            unfold reclaimOne
            split
            · exact recoverOne_owner now reclaimError x i
            · exact Or.inl rfl
          | _ => exact hdl.elim
        rcases hrec with hr | hr
        · rw [hr] at ho
          exact absurd hdl (hd ho)
        · rw [hr, Option.some.injEq] at ho
          exact absurd ho.symm hw
      · obtain ⟨ho', hr'⟩ := Op.leaseKept h op hv (fun a he => hc ⟨a, he⟩) hdl w hw ho
        exact ⟨ho', fun hr => decide_eq_true (hr' (of_decide_eq_true hr))⟩
  judged := by
    intro s id w id' w' v _ _ ho
    obtain ⟨ho', hr'⟩ := v.recorded ho
    exact ⟨ho', fun hne hr => decide_eq_true (hr' hne (of_decide_eq_true hr))⟩

end Fence

end Eddyq.Redis
