import Eddyq.Redis.Cells

/-!
# What the functions on jobs are made of

The verdicts, the recovery functions, promotion, cancellation, heartbeat and cleanup are runs of few commands on keys of
jobs and reservations (`Op.apply_commands`). What every command keeps, every call keeps: `OnJobs s s'` says that the id
counter, the groups, the queues and the schedules stay.
-/

namespace Eddyq.Redis

open Eddyq.Lib

/-! ## Commands -/

/-- A command of the calls on jobs. What is written to a HASH is no queue, and no job is made to run; only a stamp goes to
`active`. -/
inductive Command (stamps : Prop) (s : Store) : Store → Prop
  | hset (id : JobId) (f : JobHash → JobHash) (queue : ∀ h, (f h).queue = h.queue)
      (runs : ∀ h, (f h).state = some .running → h.state = some .running ∧ (f h).lockedBy = h.lockedBy) :
      Command stamps s (s.hset id f)
  | stamp (id : JobId) (sc : ℤ) (allowed : stamps) : Command stamps s (s.zadd .active sc id)
  | zadd (k : ZKey) (sc : ℤ) (id : JobId) (aside : k ≠ .active) : Command stamps s (s.zadd k sc id)
  | zrem (k : ZKey) (id : JobId) : Command stamps s (s.zrem k id)
  | srem (k : SKey) (id : JobId) : Command stamps s (s.srem k id)
  | delUnique (u : String) : Command stamps s (s.delUnique u)
  | pushError (id : JobId) (e : String) : Command stamps s (s.pushError id e)
  | delErrors (id : JobId) : Command stamps s (s.delErrors id)
  | delJob (id : JobId) : Command stamps s (s.delJob id)

/-- Any number of commands. -/
def Commands (stamps : Prop) : Store → Store → Prop := Relation.ReflTransGen (Command stamps)

section Commands

variable {stamps : Prop} {s s₁ s' : Store}

theorem Commands.refl (s : Store) : Commands stamps s s := Relation.ReflTransGen.refl

theorem Commands.trans (h : Commands stamps s s₁) (h' : Commands stamps s₁ s') : Commands stamps s s' :=
  Relation.ReflTransGen.trans h h'

theorem Commands.tail (h : Commands stamps s s₁) (h' : Command stamps s₁ s') : Commands stamps s s' :=
  Relation.ReflTransGen.tail h h'

/-- A write of a state that is not `running`. -/
theorem Commands.set (h : Commands stamps s s₁) (id : JobId) {f : JobHash → JobHash} (queue : ∀ h, (f h).queue = h.queue)
    (stops : ∀ h, (f h).state ≠ some .running) : Commands stamps s (s₁.hset id f) :=
  h.tail (.hset id f queue fun h hr => absurd hr (stops h))

/-- A loop. -/
theorem Commands.loop {ι : Type} {f : Store → ι → Store × Bool} (hf : ∀ x i, Commands stamps x (f x i).1) (l : List ι)
    (s : Store) : Commands stamps s (forEach f l s).1 :=
  forEach_inv (P := fun x => Commands stamps s x) (.refl s) (fun x i _ hx => hx.trans (hf x i))

/-- A loop that counts its hits. -/
theorem Commands.count {ι : Type} {f : Store → ι → Store × Bool} (hf : ∀ x i, Commands stamps x (f x i).1)
    (hit : Store → ι → Bool) (l : List ι) (s : Store) : Commands stamps s (forEachCount f hit l s).1 := by
  rw [forEachCount_fst]
  exact .loop hf l s

end Commands

/-! ## The helpers -/

/-- The mirror of a state set is no other set. -/
theorem mirror_ne {m : String → ZKey} {z : ZKey} (hm : ∀ x, m x ≠ z) (o : Option String) :
    ∀ k, (given o).map m = some k → k ≠ z := by
  intro k hk
  obtain ⟨x, _, rfl⟩ := Option.map_eq_some_iff.mp hk
  exact hm x

section Helpers

variable {stamps : Prop} (s : Store) (id : JobId)

theorem leaveRunning_commands (g q : Option String) : Commands stamps s (leaveRunning s id g q) := by
  have hact : Commands stamps s (s.zrem .active id) := (Commands.refl s).tail (.zrem _ id)
  unfold leaveRunning
  cases given g with
  | none =>
    cases given q with
    | none => exact hact
    | some q => exact hact.tail (.zrem _ id)
  | some g =>
    cases given q with
    | none => exact hact.tail (.zrem _ id)
    | some q => exact (hact.tail (.zrem _ id)).tail (.zrem _ id)

theorem zaddBoth_commands {z : ZKey} {nq : Option ZKey} (hz : z ≠ .active) (hnq : ∀ k, nq = some k → k ≠ .active) (sc : ℤ) :
    Commands stamps s (zaddBoth s z nq sc id) := by
  have hadd : Commands stamps s (s.zadd z sc id) := (Commands.refl s).tail (.zadd z sc id hz)
  unfold zaddBoth
  cases nq with
  | none => exact hadd
  | some k => exact hadd.tail (.zadd k sc id (hnq k rfl))

theorem zremBoth_commands (z : ZKey) (nq : Option ZKey) : Commands stamps s (zremBoth s z nq id) := by
  have hrem : Commands stamps s (s.zrem z id) := (Commands.refl s).tail (.zrem z id)
  unfold zremBoth
  cases nq with
  | none => exact hrem
  | some k => exact hrem.tail (.zrem k id)

theorem dropUniqueIfOwner_commands (u : Option String) : Commands stamps s (dropUniqueIfOwner s u id) := by
  unfold dropUniqueIfOwner
  split
  · exact .refl s
  split
  · exact (Commands.refl s).tail (.delUnique _)
  · exact .refl s

theorem releaseUnique_commands : Commands stamps s (releaseUnique s id) := dropUniqueIfOwner_commands s id _

theorem deleteJob_commands : Commands stamps s (deleteJob s id) := by
  have hsrem : Commands stamps s (sremAll s (s.hash id).indexKeys id) :=
    List.foldlRecOn _ _ (motive := fun x => Commands stamps s x) (.refl s) (fun x hx k _ => hx.tail (.srem k id))
  exact ((hsrem.trans (dropUniqueIfOwner_commands _ id _)).tail (.delErrors id)).tail (.delJob id)

theorem finalize_commands {z : ZKey} {nq : Option ZKey} (hz : z ≠ .active) (hnq : ∀ k, nq = some k → k ≠ .active)
    (rule : Option RetentionRule) (now : ℤ) : Commands stamps s (finalize s id z nq rule now) := by
  refine finalize_inv (P := Commands stamps s) (.refl s) (zaddBoth_commands s id hz hnq now) (fun k x v hx => ?_)
    (fun x hx => ?_) rule
  · exact ((hx.trans (deleteJob_commands x v)).tail (.zrem z v)).tail (.zrem k v)
  · exact (hx.trans (zremBoth_commands x id z nq)).trans (deleteJob_commands _ id)

end Helpers

/-! ## The functions -/

section Functions

variable {stamps : Prop} (s : Store) (id : JobId) (now : ℤ)

theorem fnComplete_commands (w : WorkerId) (result : String) : Commands stamps s (fnComplete s id w now result).1 := by
  unfold fnComplete
  split
  · exact .refl s
  · have hleave : Commands stamps s (leaveRunning s id (s.hash id).groupKey (s.hash id).queue) := leaveRunning_commands s id _ _
    have hset := hleave.set id (f := fun h => { h with
      state := some .completed, completedAt := some now, result := some result }) (fun _ => rfl) fun _ => nofun
    exact (hset.trans (releaseUnique_commands _ id)).trans
      (finalize_commands _ id (z := .completed) nofun (mirror_ne (z := .active) (m := .nqcompleted) (fun _ => nofun) _) _ now)

theorem fnFail_commands (w : WorkerId) (error : String) (retryAt : ℤ) :
    Commands stamps s (fnFail s id w now error retryAt).1 := by
  have hpush : Commands stamps s (s.pushError id error) := (Commands.refl s).tail (.pushError id error)
  have hleave := hpush.trans (leaveRunning_commands (s.pushError id error) id ((s.pushError id error).hash id).groupKey
    ((s.pushError id error).hash id).queue)
  unfold fnFail
  split
  · exact .refl s
  dsimp only
  split
  · split
    · have hset := hleave.set id (f := fun h => { h with
        state := some .pending, failedAt := some now }) (fun _ => rfl) fun _ => nofun
      split
      · exact hset
      · exact hset.tail (.zadd _ _ id nofun)
    · have hset := hleave.set id (f := fun h => { h with
        state := some .scheduled, failedAt := some now, scheduledAt := some retryAt }) (fun _ => rfl) fun _ => nofun
      exact hset.trans
        (zaddBoth_commands _ id (z := .delayed) nofun (mirror_ne (z := .active) (m := .nqscheduled) (fun _ => nofun) _) retryAt)
  · have hset := hleave.set id (f := fun h => { h with
      state := some .failed, failedAt := some now }) (fun _ => rfl) fun _ => nofun
    exact (hset.trans (releaseUnique_commands _ id)).trans
      (finalize_commands _ id (z := .failed) nofun (mirror_ne (z := .active) (m := .nqfailed) (fun _ => nofun) _) _ now)

theorem recoverOne_commands (time : ℤ) (error : String) : Commands stamps s (recoverOne time error s id).1 := by
  have hleave : Commands stamps s (leaveRunning s id (s.hash id).groupKey (s.hash id).queue) := leaveRunning_commands s id _ _
  unfold recoverOne
  dsimp only
  split
  · have hset := hleave.set id (f := fun h => { h with
      state := some .failed, stalledCount := some ((s.hash id).stalledCount.getD 0 + 1), failedAt := some time })
      (fun _ => rfl) fun _ => nofun
    have hadd := hset.trans (zaddBoth_commands _ id (z := .failed) nofun
      (mirror_ne (z := .active) (m := .nqfailed) (fun _ => nofun) (s.hash id).queue) time)
    exact (hadd.tail (.pushError id error)).trans (releaseUnique_commands _ id)
  · have hset := hleave.set id (f := fun h => { h with
      state := some .pending, stalledCount := some ((s.hash id).stalledCount.getD 0 + 1)
      attempt := some (max ((s.hash id).attempt.getD 0 - 1) 0), lockedBy := some "", lockedAt := some 0 })
      (fun _ => rfl) fun _ => nofun
    split
    · exact hset
    · exact hset.tail (.zadd _ _ id nofun)

theorem promoteOne_commands : Commands stamps s (promoteOne now s id).1 := by
  have hleave : Commands stamps s (zremBoth s .delayed ((given (s.hash id).queue).map .nqscheduled) id) :=
    zremBoth_commands s id _ _
  have hset := hleave.set id (f := fun h => { h with state := some .pending }) (fun _ => rfl) fun _ => nofun
  unfold promoteOne
  dsimp only
  split
  · exact hset
  · exact hset.tail (.zadd _ _ id nofun)

theorem heartbeatOne_commands (allowed : stamps) : Commands stamps s (heartbeatOne now s id).1 := by
  unfold heartbeatOne
  split
  · have hset : Command stamps s (s.hset id fun h => { h with lockedAt := some now }) :=
      .hset id _ (fun _ => rfl) fun _ hr => ⟨hr, rfl⟩
    exact ((Commands.refl s).tail hset).tail (.stamp id now allowed)
  · exact .refl s

theorem reclaimOne_commands : Commands stamps s (reclaimOne now s id).1 := by
  unfold reclaimOne
  split
  · exact recoverOne_commands s id now reclaimError
  · exact .refl s

theorem fnCancel_commands : Commands stamps s (fnCancel s id now).1 := by
  have hmark : ∀ (x : Store) (q : Option String), Commands stamps s x → Commands stamps s (markCancelled x id q now) := by
    intro x q hx
    have hset := hx.set id (f := fun h => { h with
      state := some .cancelled, cancelledAt := some now }) (fun _ => rfl) fun _ => nofun
    exact (hset.trans (releaseUnique_commands _ id)).trans
      (zaddBoth_commands _ id (z := .cancelled) nofun (mirror_ne (z := .active) (m := .nqcancelled) (fun _ => nofun) q) now)
  unfold fnCancel
  dsimp only
  split
  · split
    · exact .refl s
    · exact hmark _ _ ((Commands.refl s).tail (.zrem _ id))
  · exact hmark _ _ (zremBoth_commands s id _ _)
  · exact .refl s

theorem cleanupState_commands (z : ZKey) (m : String → ZKey) (age count : ℤ) (limit : Nat) :
    Commands stamps s (cleanupState s z m now age count limit).1 := by
  unfold cleanupState
  split
  · exact .refl s
  · refine List.foldlRecOn _ _ (motive := fun x => Commands stamps s x) (.refl s) (fun x hx v _ => hx.trans ?_)
    exact (deleteJob_commands x v).trans (zremBoth_commands _ v _ _)

theorem fnCleanup_commands (a : CleanupArgs) : Commands stamps s (fnCleanup s a).1 :=
  ((cleanupState_commands ..).trans (cleanupState_commands ..)).trans (cleanupState_commands ..)

end Functions

/-- The calls on jobs that are there. -/
def Op.onJobs : Op → Bool
  | .heartbeat .. | .complete .. | .fail .. | .sweepStale .. | .promoteDelayed .. | .reclaimInFlight .. | .cancel ..
  | .cleanup _ => true
  | _ => false

/-- **The calls on jobs** are made of commands, and only a heartbeat stamps. -/
theorem Op.apply_commands (stamps : Prop) (s : Store) (op : Op) (h : op.onJobs)
    (beats : ∀ now ids, op = .heartbeat now ids → stamps) : Commands stamps s (op.apply s) := by
  cases op with
  | heartbeat now ids => exact .count (fun x id => heartbeatOne_commands x id now (beats now ids rfl)) isRunning ids s
  | complete id w now result => exact fnComplete_commands s id now w result
  | fail id w now error retryAt => exact fnFail_commands s id now w error retryAt
  | sweepStale t n => exact .count (recoverOne_commands · · t sweepError) _ ((s.zsets .active).rangeByScore (· ≤ t) n) s
  | promoteDelayed now n => exact .count (promoteOne_commands · · now) _ ((s.zsets .delayed).rangeByScore (· ≤ now) n) s
  | reclaimInFlight now ids => exact .count (reclaimOne_commands · · now) isRunning ids s
  | cancel id now => exact fnCancel_commands s id now
  | cleanup a => exact fnCleanup_commands s a
  | _ => cases h

/-! ## What they leave alone -/

/-- Only keys of jobs and reservations are written. -/
structure OnJobs (s s' : Store) : Prop where
  frame : s' = { s with job := s'.job, errors := s'.errors, zsets := s'.zsets, sets := s'.sets, unique := s'.unique }

namespace OnJobs

variable {s s₁ s' : Store}

theorem refl (s : Store) : OnJobs s s := ⟨rfl⟩

theorem trans (h : OnJobs s s₁) (h' : OnJobs s₁ s') : OnJobs s s' := by
  refine ⟨?_⟩
  rw [h'.frame, h.frame]

theorem idgen (h : OnJobs s s') : s'.idgen = s.idgen := by rw [h.frame]
theorem groupMeta (h : OnJobs s s') : s'.groupMeta = s.groupMeta := by rw [h.frame]
theorem nqMeta (h : OnJobs s s') : s'.nqMeta = s.nqMeta := by rw [h.frame]

end OnJobs

theorem Command.onJobs {stamps : Prop} {s s' : Store} (h : Command stamps s s') : OnJobs s s' := by
  cases h <;> exact ⟨rfl⟩

theorem Commands.onJobs {stamps : Prop} {s s' : Store} (h : Commands stamps s s') : OnJobs s s' := by
  induction h with
  | refl => exact .refl s
  | tail _ hc ih => exact ih.trans hc.onJobs

/-- **The calls on jobs** write keys of jobs only. -/
theorem Op.apply_onJobs (s : Store) (op : Op) (h : op.onJobs) : OnJobs s (op.apply s) :=
  (Op.apply_commands True s op h fun _ _ _ => trivial).onJobs

end Eddyq.Redis
