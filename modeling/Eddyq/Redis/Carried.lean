import Eddyq.Redis.Frames
import Eddyq.Redis.Timed

/-!
# What a job carries

An enqueue writes the kind, payload, priority, queue, group and limits of a job (`Content`); no other call writes any of
them, though a late verdict may delete a HASH and a later call make another one with fields of its own. `Moved` is what any
other call may do to a cell. A job that no claim has started is `Unclaimed`: the calls on running jobs do not find it.
`Bare` are the cells of ids that nobody has. All of this holds for any calls in any order, late verdicts included
(`Op.apply_kept`), and `fnClaim_handed` says what a claim does and replies.
-/

namespace Eddyq.Redis

open Eddyq.Lib

/-! ## One cell -/

/-- The fields that only an enqueue writes. -/
structure Content where
  kind : Option String := none
  payload : Option String := none
  priority : Option ℤ := none
  maxAttempts : Option ℤ := none
  maxStalledCount : Option ℤ := none
  queue : Option String := none
  groupKey : Option String := none

def JobHash.content (h : JobHash) : Content where
  kind := h.kind
  payload := h.payload
  priority := h.priority
  maxAttempts := h.maxAttempts
  maxStalledCount := h.maxStalledCount
  queue := h.queue
  groupKey := h.groupKey

namespace JobCell

/-- What a call may do to a job. -/
structure Moved (c c' : JobCell) : Prop where
  content : c'.fields.content = c.fields.content ∨ c'.fields.content = {}
  wait : ∀ q, (c'.score (.wait q)).isSome → (c.score (.wait q)).isSome ∨ c.fields.queue = some q
  attempt : 0 ≤ c.fields.attempt.getD 0 → 0 ≤ c'.fields.attempt.getD 0
  stalled : 0 ≤ c.fields.stalledCount.getD 0 → 0 ≤ c'.fields.stalledCount.getD 0

/-- No claim has started the job. -/
structure Unclaimed (c : JobCell) : Prop where
  state : c.fields.state ≠ some .running
  active : c.score .active = none
  attempt : c.fields.attempt.getD 0 = 0
  stalled : c.fields.stalledCount.getD 0 = 0
  owner : c.fields.lockedBy = none

/-- Neither a HASH nor a set has the job. -/
structure Bare (c : JobCell) : Prop where
  hash : c.hash = none
  score : ∀ k, c.score k = none

variable {c c' c'' : JobCell}

theorem Moved.refl (c : JobCell) : c.Moved c := ⟨.inl rfl, fun _ => .inl, id, id⟩

theorem Moved.trans (h : c.Moved c') (h' : c'.Moved c'') : c.Moved c'' where
  content := by
    rcases h'.content with he | he
    · rw [he]
      exact h.content
    · exact .inr he
  wait q hq := by
    rcases h'.wait q hq with hw | hw
    · exact h.wait q hw
    · rcases h.content with he | he
      · exact .inr ((congrArg Content.queue he).symm.trans hw)
      · cases (congrArg Content.queue he).symm.trans hw
  attempt ha := h'.attempt (h.attempt ha)
  stalled hs := h'.stalled (h.stalled hs)

theorem Moved.hset (c : JobCell) {f : JobHash → JobHash} (hf : ∀ h, (f h).content = h.content)
    (ha : 0 ≤ c.fields.attempt.getD 0 → 0 ≤ (f c.fields).attempt.getD 0)
    (hs : 0 ≤ c.fields.stalledCount.getD 0 → 0 ≤ (f c.fields).stalledCount.getD 0) : c.Moved (c.hset f) :=
  ⟨.inl (hf c.fields), fun _ => .inl, ha, hs⟩

/-- The counts are not touched. -/
theorem Moved.mark (c : JobCell) {f : JobHash → JobHash} (hf : ∀ h, (f h).content = h.content ∧
    (f h).attempt = h.attempt ∧ (f h).stalledCount = h.stalledCount) : c.Moved (c.hset f) := by
  obtain ⟨-, hattempt, hstalled⟩ := hf c.fields
  refine .hset c (fun h => (hf h).1) (fun ha => ?_) (fun hs => ?_)
  · rwa [hattempt]
  · rwa [hstalled]

theorem Moved.zrem (c : JobCell) (k : ZKey) : c.Moved (c.zrem k) := by
  refine ⟨.inl rfl, fun q hq => .inl ?_, id, id⟩
  rw [zrem_score] at hq
  split at hq
  · cases hq
  · exact hq

theorem Moved.zadd (c : JobCell) {k : ZKey} (hk : ∀ q, k ≠ .wait q) (sc : ℤ) : c.Moved (c.zadd k sc) := by
  refine ⟨.inl rfl, fun q hq => .inl ?_, id, id⟩
  rwa [zadd_score, if_neg (Ne.symm (hk q))] at hq

/-- The job is put into the wait set of its queue. -/
theorem Moved.joinWait {q : String} (hq : c.fields.queue = some q) (sc : ℤ) : c.Moved (c.zadd (.wait q) sc) := by
  refine ⟨.inl rfl, fun q' hq' => ?_, id, id⟩
  by_cases heq : q' = q
  · exact .inr (heq ▸ hq)
  · rw [zadd_score, if_neg (fun he => heq (ZKey.wait.inj he))] at hq'
    exact .inl hq'

theorem Moved.pushError (c : JobCell) (e : String) : c.Moved (c.pushError e) := ⟨.inl rfl, fun _ => .inl, id, id⟩

theorem Moved.deleted (c : JobCell) : c.Moved c.deleted := ⟨.inr rfl, fun _ => .inl, fun _ => le_rfl, fun _ => le_rfl⟩

theorem Moved.leaveRunning (c : JobCell) (g q : Option String) : c.Moved (c.leaveRunning g q) := by
  have hactive := Moved.zrem c .active
  unfold JobCell.leaveRunning
  cases given g with
  | none =>
    cases given q with
    | none => exact hactive
    | some q => exact hactive.trans (.zrem _ _)
  | some g =>
    cases given q with
    | none => exact hactive.trans (.zrem _ _)
    | some q => exact (hactive.trans (.zrem _ _)).trans (.zrem _ _)

theorem Moved.zremBoth (c : JobCell) (z : ZKey) (o : Option ZKey) : c.Moved (c.zremBoth z o) := by
  cases o with
  | none => exact .zrem c z
  | some k => exact (Moved.zrem c z).trans (.zrem _ k)

theorem Moved.zaddBoth (c : JobCell) {z : ZKey} (hz : ∀ q, z ≠ .wait q) {o : Option ZKey}
    (ho : ∀ k, o = some k → ∀ q, k ≠ .wait q) (sc : ℤ) : c.Moved (c.zaddBoth z o sc) := by
  cases o with
  | none => exact .zadd c hz sc
  | some k => exact (Moved.zadd c hz sc).trans (.zadd _ (ho k rfl) sc)

/-- Rewriting the state of a job that does not run. -/
theorem Unclaimed.hset (h : c.Unclaimed) {f : JobHash → JobHash} (hs : (f c.fields).state ≠ some .running)
    (hf : (f c.fields).attempt = c.fields.attempt ∧ (f c.fields).stalledCount = c.fields.stalledCount ∧
      (f c.fields).lockedBy = c.fields.lockedBy) : (c.hset f).Unclaimed := by
  obtain ⟨hattempt, hstalled, howner⟩ := hf
  refine ⟨hs, h.active, ?_, ?_, howner.trans h.owner⟩
  · exact (congrArg (Option.getD · 0) hattempt).trans h.attempt
  · exact (congrArg (Option.getD · 0) hstalled).trans h.stalled

theorem Unclaimed.zrem (h : c.Unclaimed) (k : ZKey) : (c.zrem k).Unclaimed := by
  refine ⟨h.state, ?_, h.attempt, h.stalled, h.owner⟩
  rw [zrem_score]
  split
  · rfl
  · exact h.active

theorem Unclaimed.zadd (h : c.Unclaimed) {k : ZKey} (hk : k ≠ .active) (sc : ℤ) : (c.zadd k sc).Unclaimed := by
  refine ⟨h.state, ?_, h.attempt, h.stalled, h.owner⟩
  rw [zadd_score, if_neg (Ne.symm hk)]
  exact h.active

theorem Unclaimed.zremBoth (h : c.Unclaimed) (z : ZKey) (o : Option ZKey) : (c.zremBoth z o).Unclaimed := by
  cases o with
  | none => exact h.zrem z
  | some k => exact (h.zrem z).zrem k

theorem Unclaimed.zaddBoth (h : c.Unclaimed) {z : ZKey} (hz : z ≠ .active) {o : Option ZKey}
    (ho : ∀ k, o = some k → k ≠ .active) (sc : ℤ) : (c.zaddBoth z o sc).Unclaimed := by
  cases o with
  | none => exact h.zadd hz sc
  | some k => exact (h.zadd hz sc).zadd (ho k rfl) sc

theorem Bare.zrem (h : c.Bare) (k : ZKey) : (c.zrem k).Bare := by
  refine ⟨h.hash, fun k' => ?_⟩
  rw [zrem_score]
  split
  · rfl
  · exact h.score k'

theorem Bare.zremBoth (h : c.Bare) (z : ZKey) (o : Option ZKey) : (c.zremBoth z o).Bare := by
  cases o with
  | none => exact h.zrem z
  | some k => exact (h.zrem z).zrem k

theorem Bare.unclaimed (h : c.Bare) : c.Unclaimed := by
  have hfields : c.fields = {} := by rw [fields, h.hash]; rfl
  refine ⟨?_, h.score _, ?_, ?_, ?_⟩ <;> rw [hfields]
  · rintro ⟨⟩
  · rfl
  · rfl

/-- What a call other than an enqueue or a claim does to a job. -/
structure Kept (c c' : JobCell) : Prop extends Moved c c' where
  unclaimed : c.Unclaimed → c'.Unclaimed
  bare : c.Bare → c'.Bare

theorem Kept.refl (c : JobCell) : c.Kept c := ⟨.refl c, id, id⟩

theorem Kept.trans (h : c.Kept c') (h' : c'.Kept c'') : c.Kept c'' :=
  ⟨h.toMoved.trans h'.toMoved, h'.unclaimed ∘ h.unclaimed, h'.bare ∘ h.bare⟩

theorem Kept.zrem (c : JobCell) (k : ZKey) : c.Kept (c.zrem k) := ⟨.zrem c k, (·.zrem k), (·.zrem k)⟩

theorem Kept.zremBoth (c : JobCell) (z : ZKey) (o : Option ZKey) : c.Kept (c.zremBoth z o) :=
  ⟨.zremBoth c z o, (·.zremBoth z o), (·.zremBoth z o)⟩

theorem Kept.deleted (c : JobCell) : c.Kept c.deleted :=
  ⟨.deleted c, fun h => ⟨nofun, h.active, rfl, rfl, rfl⟩, fun h => ⟨rfl, h.score⟩⟩

end JobCell

/-! ## The store -/

/-- Every job is kept. -/
def Carried (s s' : Store) : Prop := ∀ id, (s.cell id).Kept (s'.cell id)

section Store

variable {s x x' : Store} {id : JobId} {c : JobCell}

theorem Carried.refl (s : Store) : Carried s s := fun id => .refl (s.cell id)

theorem Carried.trans (h : Carried s x) (h' : Carried x x') : Carried s x' := fun id => (h id).trans (h' id)

theorem Carried.of_cell (h : x.cell = s.cell) : Carried s x := fun id => h ▸ .refl (s.cell id)

/-- One cell is rewritten, and kept. -/
theorem Carried.update (h : Carried s x) (id : JobId) (hc : x'.cell = Function.update x.cell id c)
    (hk : (x.cell id).Kept c) : Carried s x' := by
  refine h.trans fun j => ?_
  rw [hc]
  by_cases hj : j = id
  · subst hj
    rwa [Function.update_self]
  · rw [Function.update_of_ne hj]
    exact .refl _

/-- The cell of a job that was there is rewritten. -/
theorem Carried.touch (h : Carried s x) (id : JobId) (hc : x'.cell = Function.update x.cell id c)
    (hm : (x.cell id).Moved c) (hu : (s.cell id).Unclaimed → (x.cell id).Unclaimed → c.Unclaimed)
    (hb : ¬ (s.cell id).Bare) : Carried s x' := by
  intro j
  rw [hc]
  by_cases hj : j = id
  · subst hj
    rw [Function.update_self]
    exact ⟨(h j).toMoved.trans hm, fun hs => hu hs ((h j).unclaimed hs), fun hs => absurd hs hb⟩
  · rw [Function.update_of_ne hj]
    exact h j

/-- The cell of a job that has been started is rewritten. -/
theorem Carried.seize (h : Carried s x) (id : JobId) (hc : x'.cell = Function.update x.cell id c)
    (hm : (x.cell id).Moved c) (hs : ¬ (s.cell id).Unclaimed) : Carried s x' :=
  h.touch id hc hm (fun hu _ => absurd hu hs) (fun hb => hs hb.unclaimed)

theorem Carried.loop {ι : Type} {f : Store → ι → Store × Bool} {hit : Store → ι → Bool} {l : List ι}
    (hf : ∀ x, ∀ i ∈ l, Carried s x → Carried s (f x i).1) : Carried s (forEachCount f hit l s).1 := by
  rw [forEachCount_fst]
  exact forEach_inv (.refl s) hf

theorem claimed_of_owner {w : WorkerId} (h : (s.hash id).lockedBy = some w) : ¬ (s.cell id).Unclaimed := by
  intro hu
  cases hu.owner.symm.trans h

theorem claimed_of_running (h : (s.hash id).state = some .running) : ¬ (s.cell id).Unclaimed := fun hu => hu.state h

theorem claimed_of_active (h : (s.zscore .active id).isSome) : ¬ (s.cell id).Unclaimed := by
  intro hu
  rw [← Store.cell_score, hu.active] at h
  cases h

theorem known_of_state {st : JobState} (h : (s.hash id).state = some st) : ¬ (s.cell id).Bare := by
  intro hb
  rw [← Store.cell_fields, JobCell.fields, hb.hash] at h
  cases h

theorem known_of_score {k : ZKey} (h : (s.zscore k id).isSome) : ¬ (s.cell id).Bare := by
  intro hb
  rw [← Store.cell_score, hb.score] at h
  cases h

/-! ## Verdicts -/

theorem Carried.finalize (h : Carried s x) (hs : ¬ (s.cell id).Unclaimed) {z : ZKey} (hz : ∀ q, z ≠ .wait q)
    {o : Option ZKey} (ho : ∀ k, o = some k → ∀ q, k ≠ .wait q) (rule : Option RetentionRule) (now : ℤ) :
    Carried s (Redis.finalize x id z o rule now) := by
  refine finalize_inv (P := Carried s) h ?_ (fun k y v hy => ?_) (fun y hy => ?_) rule
  · exact h.seize id (cell_zaddBoth x id z o now) (.zaddBoth _ hz ho now) hs
  · exact hy.update v (cell_pruneJob y v z k) (((JobCell.Kept.deleted _).trans (.zrem _ z)).trans (.zrem _ k))
  · have hout := hy.update id (cell_zremBoth y id z o) (.zremBoth _ z o)
    exact hout.update id (cell_deleteJob _ id) (.deleted _)

theorem fnComplete_carried (s : Store) (id : JobId) (w : WorkerId) (now : ℤ) (result : String) :
    Carried s (fnComplete s id w now result).1 := by
  unfold fnComplete
  split
  · exact .refl s
  · next ho =>
    have hs := claimed_of_owner (not_not.mp ho)
    have hdone := (JobCell.Moved.leaveRunning (s.cell id) (s.hash id).groupKey (s.hash id).queue).trans
      (.mark _ (f := fun h => { h with state := some .completed, completedAt := some now, result := some result })
        fun _ => ⟨rfl, rfl, rfl⟩)
    dsimp only
    refine Carried.finalize ((Carried.refl s).seize id ?_ hdone hs) hs (z := .completed) nofun
      (fun k hk q => mirror_ne (m := .nqcompleted) (z := .wait q) nofun _ k hk) _ now
    simp

/-- A field that leaving the running sets does not change. -/
theorem fields_leaveRunning (c : JobCell) (g q : Option String) : (c.leaveRunning g q).fields = c.fields := by
  rw [JobCell.fields, JobCell.leaveRunning_hash, JobCell.fields]

theorem fnFail_carried (s : Store) (id : JobId) (w : WorkerId) (now : ℤ) (error : String) (retryAt : ℤ) :
    Carried s (fnFail s id w now error retryAt).1 := by
  have hleft := (JobCell.Moved.pushError (s.cell id) error).trans (.leaveRunning _ (s.hash id).groupKey (s.hash id).queue)
  have hread : (s.pushError id error).hash id = s.hash id := rfl
  unfold fnFail
  split
  · exact .refl s
  next ho =>
  have hs := claimed_of_owner (not_not.mp ho)
  simp only [hread]
  split
  · split
    · have hback := hleft.trans (.mark _ (f := fun h => { h with state := some .pending, failedAt := some now })
        fun _ => ⟨rfl, rfl, rfl⟩)
      split
      · refine (Carried.refl s).seize id ?_ hback hs
        simp
      · next q hq =>
        refine (Carried.refl s).seize id ?_ (hback.trans (.joinWait (q := q) ?_ (waitScore ((s.hash id).priority.getD 0) retryAt))) hs
        · simp
        · show ((((s.cell id).pushError error).leaveRunning _ _).fields).queue = some q
          rw [fields_leaveRunning]
          exact hq
    · have hback := hleft.trans (.mark _ (f := fun h => { h with
        state := some .scheduled, failedAt := some now, scheduledAt := some retryAt }) fun _ => ⟨rfl, rfl, rfl⟩)
      refine (Carried.refl s).seize id ?_ (hback.trans (.zaddBoth _ (z := .delayed) nofun
        (fun k hk q => mirror_ne (m := .nqscheduled) (z := .wait q) nofun (s.hash id).queue k hk) retryAt)) hs
      simp
  · have hdone := hleft.trans (.mark _ (f := fun h => { h with state := some .failed, failedAt := some now })
      fun _ => ⟨rfl, rfl, rfl⟩)
    refine Carried.finalize ((Carried.refl s).seize id ?_ hdone hs) hs (z := .failed) nofun
      (fun k hk q => mirror_ne (m := .nqfailed) (z := .wait q) nofun _ k hk) _ now
    simp

/-! ## Recovery and promotion -/

/-- A job that has been started is recovered or failed. -/
theorem Carried.recover (h : Carried s x) (hs : ¬ (s.cell id).Unclaimed) (t : ℤ) (e : String) :
    Carried s (recoverOne t e x id).1 := by
  have hleft := JobCell.Moved.leaveRunning (x.cell id) (x.hash id).groupKey (x.hash id).queue
  have hfields := fields_leaveRunning (x.cell id) (x.hash id).groupKey (x.hash id).queue
  -- one more stall is still a count
  have hstalled : 0 ≤ ((x.cell id).leaveRunning (x.hash id).groupKey (x.hash id).queue).fields.stalledCount.getD 0 →
      0 ≤ (x.hash id).stalledCount.getD 0 + 1 := by
    rw [hfields, Store.cell_fields]
    exact fun hs => by omega
  unfold recoverOne
  dsimp only
  split
  · have hfailed := hleft.trans (.hset _ (f := fun h => { h with
      state := some .failed, stalledCount := some ((x.hash id).stalledCount.getD 0 + 1), failedAt := some t })
      (fun _ => rfl) (fun ha => ha) hstalled)
    refine h.seize id ?_ ((hfailed.trans (.zaddBoth _ (z := .failed) nofun
      (fun k hk q => mirror_ne (m := .nqfailed) (z := .wait q) nofun (x.hash id).queue k hk) t)).trans (.pushError _ e)) hs
    simp
  · have hback := hleft.trans (.hset _ (f := fun h => { h with
      state := some .pending, stalledCount := some ((x.hash id).stalledCount.getD 0 + 1)
      attempt := some (max ((x.hash id).attempt.getD 0 - 1) 0), lockedBy := some "", lockedAt := some 0 })
      (fun _ => rfl) (fun _ => le_max_right _ _) hstalled)
    split
    · refine h.seize id ?_ hback hs
      simp
    · next q hq =>
      refine h.seize id ?_ (hback.trans (.joinWait (q := q) ?_ (waitScore ((x.hash id).priority.getD 0) t))) hs
      · simp
      · show (((x.cell id).leaveRunning _ _).fields).queue = some q
        rw [hfields]
        exact hq

theorem fnSweepStale_carried (s : Store) (t : ℤ) (n : Nat) : Carried s (fnSweepStale s t n).1 := by
  refine Carried.loop fun x id hid hx => ?_
  obtain ⟨sc, hsc, -⟩ := ZSet.mem_of_mem_rangeByScore hid
  exact hx.recover (claimed_of_active (Option.isSome_of_eq_some hsc)) t sweepError

theorem fnReclaimInFlight_carried (s : Store) (now : ℤ) (ids : List JobId) :
    Carried s (fnReclaimInFlight s now ids).1 := by
  refine Carried.loop fun x id _ hx => ?_
  unfold reclaimOne
  split
  · next hrun => exact hx.recover (fun hu => claimed_of_running (of_decide_eq_true hrun) ((hx id).unclaimed hu)) now _
  · exact hx

theorem fnHeartbeat_carried (s : Store) (now : ℤ) (ids : List JobId) : Carried s (fnHeartbeat s now ids).1 := by
  refine Carried.loop fun x id _ hx => ?_
  unfold heartbeatOne
  split
  · next hrun =>
    have hs : ¬ (s.cell id).Unclaimed := fun hu =>
      claimed_of_running (of_decide_eq_true hrun) ((hx id).unclaimed hu)
    have hbeat := (JobCell.Moved.mark (x.cell id) (f := fun h => { h with lockedAt := some now })
      fun _ => ⟨rfl, rfl, rfl⟩).trans (.zadd _ (k := .active) nofun now)
    refine hx.seize id ?_ hbeat hs
    simp
  · exact hx

theorem fnPromoteDelayed_carried (s : Store) (now : ℤ) (n : Nat) : Carried s (fnPromoteDelayed s now n).1 := by
  refine Carried.loop fun x id hid hx => ?_
  obtain ⟨sc, hsc, -⟩ := ZSet.mem_of_mem_rangeByScore hid
  have hb : ¬ (s.cell id).Bare := known_of_score (Option.isSome_of_eq_some hsc)
  have hhash : ((x.cell id).zremBoth .delayed ((given (x.hash id).queue).map .nqscheduled)).fields = (x.cell id).fields := by
    cases given (x.hash id).queue <;> rfl
  have hpend := (JobCell.Moved.zremBoth (x.cell id) .delayed ((given (x.hash id).queue).map .nqscheduled)).trans
    (.mark _ (f := fun h => { h with state := some .pending }) fun _ => ⟨rfl, rfl, rfl⟩)
  have hfree : (x.cell id).Unclaimed → (((x.cell id).zremBoth .delayed ((given (x.hash id).queue).map .nqscheduled)).hset
      fun h => { h with state := some .pending }).Unclaimed := fun hu => (hu.zremBoth _ _).hset nofun ⟨rfl, rfl, rfl⟩
  unfold promoteOne
  dsimp only
  split
  · refine hx.touch id ?_ hpend (fun _ => hfree) hb
    simp
  · next q hq =>
    refine hx.touch id ?_ (hpend.trans (.joinWait (q := q) ?_ (waitScore ((x.hash id).priority.getD 0) now))) (fun _ hu => (hfree hu).zadd (k := .wait q) nofun _) hb
    · simp
    · show (JobCell.zremBoth _ _ _).fields.queue = some q
      rw [hhash]
      exact hq

/-! ## Cancel and cleanup -/

theorem fnCancel_carried (s : Store) (id : JobId) (now : ℤ) : Carried s (fnCancel s id now).1 := by
  have hmark : ∀ (x : Store) (o : Option String), Carried s x → ¬ (s.cell id).Bare → Carried s (markCancelled x id o now) := by
    intro x o hx hb
    have hset := JobCell.Moved.mark (x.cell id) (f := fun h => { h with state := some .cancelled, cancelledAt := some now })
      fun _ => ⟨rfl, rfl, rfl⟩
    refine hx.touch id ?_ (hset.trans (.zaddBoth _ (z := .cancelled) nofun
      (fun k hk q => mirror_ne (m := .nqcancelled) (z := .wait q) nofun o k hk) now)) (fun _ hu => ?_) hb
    · simp [markCancelled]
    · exact (hu.hset (f := fun h => { h with state := some .cancelled, cancelledAt := some now }) nofun
        ⟨rfl, rfl, rfl⟩).zaddBoth (z := .cancelled) nofun (mirror_ne (m := .nqcancelled) (z := .active) nofun o) now
  unfold fnCancel
  dsimp only
  split
  · next hst =>
    split
    · exact .refl s
    · exact hmark _ _ ((Carried.refl s).update id (Store.cell_zrem s id _) (.zrem _ _)) (known_of_state hst)
  · next hst =>
    exact hmark _ _ ((Carried.refl s).update id (cell_zremBoth s id _ _) (.zremBoth _ _ _)) (known_of_state hst)
  · exact .refl s

theorem fnCleanup_carried (s : Store) (a : CleanupArgs) : Carried s (fnCleanup s a).1 := by
  have hstate : ∀ (x : Store) (z : ZKey) (m : String → ZKey) (age count : ℤ) (limit : Nat),
      Carried x (cleanupState x z m a.now age count limit).1 := by
    intro x z m age count limit
    unfold cleanupState
    split
    · exact .refl x
    · refine List.foldlRecOn _ _ (motive := fun y => Carried x y) (.refl x) (fun y hy v _ => ?_)
      have hdel := hy.update v (cell_deleteJob y v) (.deleted _)
      exact hdel.update v (cell_zremBoth _ v z _) (.zremBoth _ z _)
  exact Carried.trans (Carried.trans (hstate _ _ _ _ _ _) (hstate _ _ _ _ _ _)) (hstate _ _ _ _ _ _)

/-- **Any other call** keeps every job. -/
theorem Op.apply_carried (s : Store) (op : Op) (h : op.onJobs ∨ op.onSettings) : Carried s (op.apply s) := by
  rcases h with h | h
  · cases op with
    | heartbeat now ids => exact fnHeartbeat_carried s now ids
    | complete id w now result => exact fnComplete_carried s id w now result
    | fail id w now error retryAt => exact fnFail_carried s id w now error retryAt
    | sweepStale t n => exact fnSweepStale_carried s t n
    | promoteDelayed now n => exact fnPromoteDelayed_carried s now n
    | reclaimInFlight now ids => exact fnReclaimInFlight_carried s now ids
    | cancel id now => exact fnCancel_carried s id now
    | cleanup a => exact fnCleanup_carried s a
    | _ => cases h
  · exact .of_cell (Op.apply_sameJobs s op h).1

/-! ## New jobs -/

/-- What a job is enqueued with. -/
def EnqueueArgs.content (a : EnqueueArgs) : Content where
  kind := some a.kind
  payload := some a.payload
  priority := some a.priority
  maxAttempts := some a.maxAttempts
  maxStalledCount := some a.maxStalledCount
  queue := some a.queue
  groupKey := some a.groupKey

/-- A job that was enqueued with this: its HASH has it or has nothing, and it waits in no other queue. -/
structure JobCell.Carries (k : Content) (c : JobCell) : Prop where
  content : c.fields.content = k ∨ c.fields.content = {}
  wait : ∀ q, (c.score (.wait q)).isSome → k.queue = some q
  attempt : 0 ≤ c.fields.attempt.getD 0
  stalled : 0 ≤ c.fields.stalledCount.getD 0

theorem JobCell.Carries.moved {k : Content} {c' : JobCell} (h : c.Carries k) (hm : c.Moved c') : c'.Carries k where
  content := by
    rcases hm.content with he | he
    · rw [he]
      exact h.content
    · exact .inr he
  wait q hq := by
    rcases hm.wait q hq with hw | hw
    · exact h.wait q hw
    · rcases h.content with he | he
      · exact (congrArg Content.queue he).symm.trans hw
      · cases (congrArg Content.queue he).symm.trans hw
  attempt := hm.attempt h.attempt
  stalled := hm.stalled h.stalled

theorem inserted_carries (hb : c.Bare) (a : EnqueueArgs) (id : JobId) (now : ℤ) :
    (c.inserted a id now).Carries a.content := by
  refine ⟨.inl ?_, fun q hq => ?_, ?_, ?_⟩
  · rw [inserted_fields]
    rfl
  · unfold JobCell.inserted at hq
    dsimp only at hq
    split at hq
    · by_cases heq : ZKey.wait q = .wait a.queue
      · obtain rfl := ZKey.wait.inj heq
        rfl
      · rw [JobCell.zadd_score, if_neg heq, hb.score] at hq
        cases hq
    · rw [JobCell.zadd_score, if_neg nofun, JobCell.zadd_score, if_neg nofun, hb.score] at hq
      cases hq
  · rw [inserted_fields]
    exact le_rfl
  · rw [inserted_fields]
    exact le_rfl

theorem inserted_unclaimed (hb : c.Bare) (a : EnqueueArgs) (id : JobId) (now : ℤ) :
    (c.inserted a id now).Unclaimed := by
  refine ⟨?_, ?_, ?_, ?_, ?_⟩
  · rw [inserted_fields]
    dsimp only [EnqueueArgs.toHash]
    split <;> nofun
  · unfold JobCell.inserted
    dsimp only
    split
    · rw [JobCell.zadd_score, if_neg nofun]
      exact hb.score _
    · rw [JobCell.zadd_score, if_neg nofun, JobCell.zadd_score, if_neg nofun]
      exact hb.score _
  · rw [inserted_fields]
    rfl
  · rw [inserted_fields]
    rfl
  · rw [inserted_fields]
    exact hb.unclaimed.owner

/-- A job has been added under the next id. -/
structure Entered (a : EnqueueArgs) (now : ℤ) (s s' : Store) : Prop where
  cell : s'.cell = Function.update s.cell (s.idgen + 1) ((s.cell (s.idgen + 1)).inserted a (s.idgen + 1) now)
  idgen : s'.idgen = s.idgen + 1
  nqMeta : s'.nqMeta = s.nqMeta

theorem materialized_nqMeta (s : Store) (g : String) (now : ℤ) (ks : List SKey) (id : JobId) :
    (saddAll (maybeMaterializeGroup s g now) ks id).nqMeta = s.nqMeta := by
  obtain ⟨st, h⟩ := saddAll_eq (maybeMaterializeGroup s g now) id ks
  obtain ⟨gm, gs, hg⟩ := maybeMaterializeGroup_eq s g now
  rw [h, hg]

theorem insertJob_nqMeta (s : Store) (id : JobId) (a : EnqueueArgs) (now : ℤ) :
    (insertJob s a id now).nqMeta = s.nqMeta := by
  unfold insertJob
  dsimp only
  split
  · exact materialized_nqMeta _ a.groupKey now (a.tags.map .tagset) id
  · exact materialized_nqMeta _ a.groupKey now (a.tags.map .tagset) id

theorem insertJob_entered (hc : x.cell = s.cell) (hi : x.idgen = s.idgen + 1) (hq : x.nqMeta = s.nqMeta)
    (a : EnqueueArgs) (now : ℤ) : Entered a now s (insertJob x a (s.idgen + 1) now) where
  cell := by rw [cell_insertJob, hc]
  idgen := by rw [insertJob_idgen, hi]
  nqMeta := by rw [insertJob_nqMeta, hq]

/-- **An enqueue** adds a job, unless its unique key is reserved. -/
theorem fnEnqueue_entered (s : Store) (a : EnqueueArgs) (now : ℤ) : fnEnqueue s a now = (s, none) ∨
    ∃ s', fnEnqueue s a now = (s', some (s.idgen + 1)) ∧ Entered a now s s' := by
  unfold fnEnqueue
  split
  · exact .inl rfl
  · refine .inr ⟨_, rfl, ?_⟩
    split
    · refine insertJob_entered (s := s) ?_ ?_ ?_ a now <;> rfl
    · refine insertJob_entered (s := s) ?_ ?_ ?_ a now <;> rfl

/-- So does a fire, unless its schedule is gone. -/
theorem fnScheduleFire_entered (s : Store) (a : FireArgs) : fnScheduleFire s a = (s, none) ∨
    ∃ s', fnScheduleFire s a = (s', some (s.idgen + 1)) ∧ Entered a.toEnqueue a.now s s' := by
  unfold fnScheduleFire
  split
  · exact .inl rfl
  · refine .inr ⟨_, rfl, ?_⟩
    obtain ⟨l, hl⟩ := setSchedule_eq (insertJob { s with idgen := s.idgen + 1 } a.toEnqueue (s.idgen + 1) a.now) a.name _
    have hnew := insertJob_entered (s := s) (x := { s with idgen := s.idgen + 1 }) rfl rfl rfl a.toEnqueue a.now
    rw [hl]
    exact ⟨hnew.cell, hnew.idgen, hnew.nqMeta⟩

/-! ## Claims -/

/-- What a claim in `s` has done, and what it replies. -/
structure Handed (a : ClaimArgs) (s s' : Store) (out : List ClaimedJob) : Prop where
  reply : ∀ e ∈ out, ∃ q ∈ a.queues, ∃ kind ∈ a.kinds, s.state e.id = some .pending ∧
    (s.zscore (.wait q) e.id).isSome ∧ (s.hash e.id).kind = some kind ∧
    e = claimReply (s.hash e.id) a e.id kind (queueTimeout s q)
  running : ∀ e ∈ out, s'.state e.id = some .running
  moved : ∀ e ∈ out, (s.cell e.id).Moved (s'.cell e.id)
  rest : ∀ id, id ∉ out.map (·.id) → s'.cell id = s.cell id
  idgen : s'.idgen = s.idgen
  nqMeta : s'.nqMeta = s.nqMeta

variable {a : ClaimArgs} {out : List ClaimedJob}

/-- The timeouts do not change during a claim. -/
theorem Handed.queueTimeout (h : Handed a s x out) (q : String) : queueTimeout x q = queueTimeout s q := by
  rw [Redis.queueTimeout, readNqMeta, h.nqMeta]
  rfl

theorem startJob_moved (x : Store) (a : ClaimArgs) (q : String) (id : JobId) (g : Option String) :
    (x.cell id).Moved ((startJob x a q id ((x.hash id).attempt.getD 0 + 1) g).cell id) := by
  have hmoved := ((JobCell.Moved.zrem (x.cell id) (.wait q)).trans (.zadd _ (k := .active) nofun a.now)).trans
    (.hset _ (f := fun h => { h with
      state := some .running, attempt := some ((x.hash id).attempt.getD 0 + 1), lockedAt := some a.now
      lockedBy := some a.worker }) (fun _ => rfl) (fun (ha : 0 ≤ (x.hash id).attempt.getD 0) => ?_) fun hs => hs)
  · unfold startJob
    cases g with
    | none => simpa using hmoved.trans (.zadd _ (k := .nqrun q) nofun a.now)
    | some g =>
      simpa using (hmoved.trans (.zadd _ (k := .grouprun g) nofun a.now)).trans (.zadd _ (k := .nqrun q) nofun a.now)
  · show 0 ≤ (x.hash id).attempt.getD 0 + 1
    omega

/-- The gates write metadata of groups only. -/
theorem Handed.gated (h : Handed a s x out) {g : String} {b : Bool} (hg : Gated x g a.now x' b) : Handed a s x' out := by
  obtain ⟨gm, rfl⟩ := hg.store_eq
  exact ⟨h.reply, h.running, h.moved, h.rest, h.idgen, h.nqMeta⟩

/-- A pending job has not been started by this claim. -/
theorem Handed.untouched (h : Handed a s x out) (hp : x.state id = some .pending) : id ∉ out.map (·.id) := by
  intro hm
  obtain ⟨e, he, rfl⟩ := List.mem_map.mp hm
  rw [h.running e he] at hp
  cases hp

/-- A job is started. -/
theorem Handed.start (h : Handed a s x out) {q : String} (hq : q ∈ a.queues) {kind : String}
    (hkind : (x.hash id).kind = some kind) (hlisted : kind ∈ a.kinds) (hp : x.state id = some .pending)
    (hw : (x.zscore (.wait q) id).isSome) : Handed a s
      (startJob x a q id ((x.hash id).attempt.getD 0 + 1) (given (x.hash id).groupKey))
      (out ++ [claimReply (x.hash id) a id kind (Redis.queueTimeout s q)]) := by
  have hnew := h.untouched hp
  have hcell : x.cell id = s.cell id := h.rest id hnew
  have hhash : x.hash id = s.hash id := congrArg JobCell.fields hcell
  have hother : ∀ j, j ≠ id → (startJob x a q id ((x.hash id).attempt.getD 0 + 1) (given (x.hash id).groupKey)).cell j =
      x.cell j := fun j hj => startJob_cell_ne x a q id _ _ hj
  have hne : ∀ e ∈ out, e.id ≠ id := fun e he heq => hnew (heq ▸ List.mem_map_of_mem he)
  refine ⟨fun e he => ?_, fun e he => ?_, fun e he => ?_, fun j hj => ?_, ?_, ?_⟩
  · rcases List.mem_append.mp he with he | he
    · exact h.reply e he
    · obtain rfl := List.mem_singleton.mp he
      refine ⟨q, hq, kind, hlisted, ?_, ?_, ?_, ?_⟩
      · exact (congrArg JobHash.state hhash).symm.trans hp
      · have hscore : x.zscore (.wait q) id = s.zscore (.wait q) id := congrArg (fun c => c.score (.wait q)) hcell
        rw [hscore] at hw
        exact hw
      · exact (congrArg JobHash.kind hhash).symm.trans hkind
      · exact congrArg (fun h => claimReply h a id kind (Redis.queueTimeout s q)) hhash
  · rcases List.mem_append.mp he with he | he
    · exact (congrArg (fun c => c.fields.state) (hother e.id (hne e he))).trans (h.running e he)
    · obtain rfl := List.mem_singleton.mp he
      show ((startJob _ a q id _ _).hash id).state = some .running
      rw [startJob_hash, if_pos rfl]
  · rcases List.mem_append.mp he with he | he
    · rw [hother e.id (hne e he)]
      exact h.moved e he
    · obtain rfl := List.mem_singleton.mp he
      show (s.cell id).Moved ((startJob _ a q id _ _).cell id)
      rw [← hcell]
      exact startJob_moved x a q id _
  · rw [List.map_append, List.mem_append, not_or, List.map_singleton, List.mem_singleton] at hj
    exact (hother j hj.2).trans (h.rest j hj.1)
  · exact (startJob_idgen x a q id _ _).trans h.idgen
  · exact (startJob_nqMeta x a q id _ _).trans h.nqMeta

/-- One candidate of a listed queue. -/
theorem Handed.entry {c c' : ClaimState} (h : Handed a s c.store c.out) {q : String} (hq : q ∈ a.queues)
    (he : EntryStep a q (Redis.queueTimeout s q) c id c') : Handed a s c'.store c'.out := by
  cases he with
  | skip => exact h
  | stop gate => exact h.gated gate
  | gone gate => exact h.gated gate
  | @start s' kind _ size isOpen hkind listed pending gate waits =>
    have hgated := h.gated gate
    obtain ⟨gm, rfl⟩ := gate.store_eq
    exact hgated.start hq hkind listed pending waits

/-- **A claim** starts pending jobs of the listed queues and kinds, and replies each with its fields. -/
theorem fnClaim_handed (s : Store) (a : ClaimArgs) : Handed a s (fnClaim s a).1 (fnClaim s a).2 := by
  have hbegin : Handed a s s [] := ⟨fun _ h => absurd h List.not_mem_nil, fun _ h => absurd h List.not_mem_nil,
    fun _ h => absurd h List.not_mem_nil, fun _ _ => rfl, rfl, rfl⟩
  refine claimQueues_rule a.queues (fun q hq x out h => ?_) hbegin
  have hslice : ∀ (c : ClaimState) (offset n : Nat), Handed a s c.store c.out →
      Handed a s (claimSlice a q (Redis.queueTimeout x q) ((c.store.zsets (.wait q)).range offset n) c).store
        (claimSlice a q (Redis.queueTimeout x q) ((c.store.zsets (.wait q)).range offset n) c).out := by
    intro c offset n hc
    rw [h.queueTimeout q]
    exact forEach_inv (P := fun c : ClaimState => Handed a s c.store c.out) hc
      (fun c id _ hc => hc.entry hq (claimEntry_step a q _ c id))
  exact claimPages_rule (P := fun c => Handed a s c.store c.out) hslice _ _ h

end Store

end Eddyq.Redis
