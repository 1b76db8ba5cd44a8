import Eddyq.Redis.Frames
import Eddyq.Redis.Order

/-!
# Every waiting job has the score of its due time

`JobCell.Timed q d` is the invariant of one job that is due at `d`: it is in no group, its numbers fit, and in the wait
set of `q` it has the score of its priority and of `d`. Every command on another set, and every change of other fields,
keeps it (`JobCell.Timed.zadd`, `zrem`, `hset`); so does putting the job in at its due time (`JobCell.Timed.joinWait`).
Hence every call that meets `Op.Prompt` keeps it (`Dated.Timed.step`). Then the members of the wait set are in the order
of their ranks (`Dated.Timed.sorted`).
-/

namespace Eddyq.Redis

open Eddyq.Lib

/-! ## One job -/

/-- The job is in no group, and waits with the score of its due time. -/
structure JobCell.Timed (q : String) (d : ℤ) (c : JobCell) : Prop where
  free : ∀ h, c.hash = some h → given h.groupKey = none
  fits : ∀ h, c.hash = some h → Fits (h.priority.getD 0) d
  score : ∀ h sc, c.hash = some h → c.score (.wait q) = some sc → sc = waitScore (h.priority.getD 0) d

theorem JobCell.leaveRunning_hash (c : JobCell) (g q : Option String) : (c.leaveRunning g q).hash = c.hash := by
  unfold JobCell.leaveRunning
  cases given g <;> cases given q <;> rfl

namespace JobCell.Timed

variable {q : String} {d : ℤ} {c : JobCell}

/-- An id without a HASH. -/
theorem of_none (h : c.hash = none) : c.Timed q d := by
  constructor <;> simp [h]

/-- A rewriting of the HASH that keeps the group and the priority. -/
theorem hset (h : c.Timed q d) (hc : c.hash.isSome) {f : JobHash → JobHash}
    (hf : ∀ x, (f x).groupKey = x.groupKey ∧ (f x).priority = x.priority) : (c.hset f).Timed q d := by
  obtain ⟨x, hx⟩ := Option.isSome_iff_exists.mp hc
  have hnew : ∀ y, (c.hset f).hash = some y → y.groupKey = x.groupKey ∧ y.priority = x.priority := by
    intro y hy
    have hfx : f x = y := by simpa [JobCell.hset, JobCell.fields, hx] using hy
    exact hfx ▸ hf x
  refine ⟨fun y hy => ?_, fun y hy => ?_, fun y sc hy hsc => ?_⟩
  · rw [(hnew y hy).1]
    exact h.free x hx
  · rw [(hnew y hy).2]
    exact h.fits x hx
  · rw [(hnew y hy).2]
    exact h.score x sc hx hsc

theorem zrem (h : c.Timed q d) (k : ZKey) : (c.zrem k).Timed q d := by
  refine ⟨h.free, h.fits, fun x sc hx hsc => ?_⟩
  rw [JobCell.zrem_score] at hsc
  split at hsc
  · cases hsc
  · exact h.score x sc hx hsc

theorem zadd (h : c.Timed q d) {k : ZKey} (hk : k ≠ .wait q) (sc : ℤ) : (c.zadd k sc).Timed q d := by
  refine ⟨h.free, h.fits, fun x sc' hx hsc => ?_⟩
  rw [JobCell.zadd_score, if_neg (Ne.symm hk)] at hsc
  exact h.score x sc' hx hsc

/-- The job is put into a wait set at its due time. -/
theorem joinWait (h : c.Timed q d) (q' : String) {p : Option ℤ} (hp : c.fields.priority = p) :
    (c.zadd (.wait q') (waitScore (p.getD 0) d)).Timed q d := by
  refine ⟨h.free, h.fits, fun x sc hx hsc => ?_⟩
  rw [JobCell.zadd_score] at hsc
  split at hsc
  · have hx' : c.hash = some x := hx
    rw [← Option.some.inj hsc, ← hp, JobCell.fields, hx']
    rfl
  · exact h.score x sc hx hsc

theorem pushError (h : c.Timed q d) (e : String) : (c.pushError e).Timed q d := ⟨h.free, h.fits, h.score⟩

theorem leaveRunning (h : c.Timed q d) (g q' : Option String) : (c.leaveRunning g q').Timed q d := by
  unfold JobCell.leaveRunning
  cases given g <;> cases given q'
  · exact h.zrem _
  · exact (h.zrem _).zrem _
  · exact (h.zrem _).zrem _
  · exact ((h.zrem _).zrem _).zrem _

theorem zremBoth (h : c.Timed q d) (z : ZKey) (o : Option ZKey) : (c.zremBoth z o).Timed q d := by
  cases o with
  | none => exact h.zrem z
  | some k => exact (h.zrem z).zrem k

theorem zaddBoth (h : c.Timed q d) {z : ZKey} (hz : z ≠ .wait q) {o : Option ZKey} (ho : ∀ k, o = some k → k ≠ .wait q)
    (sc : ℤ) : (c.zaddBoth z o sc).Timed q d := by
  cases o with
  | none => exact h.zadd hz sc
  | some k => exact (h.zadd hz sc).zadd (ho k rfl) sc

/-- A job that does not wait may be given another due time. -/
theorem redate (h : c.Timed q d) (hw : c.score (.wait q) = none) {d' : ℤ}
    (hf : ∀ x, c.hash = some x → Fits (x.priority.getD 0) d') : c.Timed q d' :=
  ⟨h.free, hf, fun x sc _ hsc => by rw [hw] at hsc; cases hsc⟩

/-- A new job. -/
theorem inserted (hs : c.score (.wait q) = none) {a : EnqueueArgs} (id : JobId) (now : ℤ)
    (hg : a.groupKey = "") (hf : Fits a.priority (a.effectiveScheduled now)) :
    (c.inserted a id now).Timed q (a.effectiveScheduled now) := by
  have hbase : JobCell.Timed q (a.effectiveScheduled now)
      { hash := some (a.toHash id now c.fields), score := c.score
        member := fun k => k = .queueset a.queue ∨ k = .kindset a.kind ∨ k ∈ a.tags.map SKey.tagset ∨ c.member k
        errors := c.errors } := by
    refine ⟨fun x hx => ?_, fun x hx => ?_, fun x sc _ hsc => ?_⟩
    · rw [← Option.some.inj hx]
      simp [EnqueueArgs.toHash, hg]
    · rw [← Option.some.inj hx]
      exact hf
    · have hsc : c.score (.wait q) = some sc := hsc
      rw [hs] at hsc
      cases hsc
  unfold JobCell.inserted
  dsimp only
  split
  · exact hbase.joinWait a.queue (p := some a.priority) rfl
  · exact (hbase.zadd (k := .delayed) nofun _).zadd (k := .nqscheduled a.queue) nofun _

end JobCell.Timed

/-! ## The store -/

/-- Every job of the store is timed. -/
def Store.Timed (q : String) (due : JobId → ℤ) (s : Store) : Prop := ∀ id, (s.cell id).Timed q (due id)

section Store

variable {q : String} {due : JobId → ℤ} {s s' : Store} {A : Line} {id : JobId}

theorem Store.Timed.congr (h : s.Timed q due) (hc : s'.cell = s.cell) : s'.Timed q due := fun id => hc ▸ h id

/-- One cell is rewritten. -/
theorem Store.Timed.update (h : s.Timed q due) (id : JobId) {c : JobCell} (hc : s'.cell = Function.update s.cell id c)
    (ht : c.Timed q (due id)) : s'.Timed q due := by
  intro j
  rw [hc]
  by_cases hj : j = id
  · subst hj
    rw [Function.update_self]
    exact ht
  · rw [Function.update_of_ne hj]
    exact h j

/-- One cell is rewritten, and its job has another due time. -/
theorem Store.Timed.redate (h : s.Timed q due) (id : JobId) {c : JobCell} {d : ℤ}
    (hc : s'.cell = Function.update s.cell id c) (ht : c.Timed q d) : s'.Timed q (Function.update due id d) := by
  intro j
  rw [hc]
  by_cases hj : j = id
  · subst hj
    rw [Function.update_self, Function.update_self]
    exact ht
  · rw [Function.update_of_ne hj, Function.update_of_ne hj]
    exact h j

/-- A job that has a state has a HASH. -/
theorem hash_of_state {st : JobState} (h : (s.hash id).state = some st) : (s.cell id).hash.isSome := by
  show (s.job id).isSome
  cases hj : s.job id with
  | none =>
    rw [Store.hash, hj] at h
    cases h
  | some x => rfl

theorem hash_of_owner {w : WorkerId} (h : s.owner id = some w) : (s.cell id).hash.isSome := by
  show (s.job id).isSome
  cases hj : s.job id with
  | none =>
    rw [Store.owner, Store.hash, hj] at h
    cases h
  | some x => rfl

/-- Who is in a wait set is pending. -/
theorem Refines.wait_pending (hr : Refines False s A) (h : (s.zscore (.wait q) id).isSome) :
    s.state id = some .pending := by
  obtain ⟨i, hj, _, hk⟩ := hr.of_score (k := .wait q) nofun h
  have hhas := (hr.known hj).fields
  rw [Store.cell_fields] at hhas
  rw [Store.state, hhas.state, (wait_mem_homeKeys.mp hk).1]

theorem Refines.not_waiting (hr : Refines False s A) (h : s.state id = some .running) : s.zscore (.wait q) id = none := by
  by_contra hne
  have hp := hr.wait_pending (Option.isSome_iff_ne_none.mpr hne)
  rw [h] at hp
  cases hp

/-! ## Enqueue and fire -/

/-- No key mentions the next id. -/
theorem Refines.next_gone (hr : Refines False s A) : (s.cell (s.idgen + 1)).Gone False := by
  have hcell := hr.cell (s.idgen + 1)
  rw [hr.fresh _ (by rw [hr.idgen]; exact Nat.lt_succ_self _)] at hcell
  exact hcell

/-- No job gets the next id. -/
theorem Store.Timed.unused (hr : Refines False s A) (h : s.Timed q due) (d : ℤ) :
    s.Timed q (Function.update due (s.idgen + 1) d) :=
  h.redate _ (Function.update_eq_self _ _).symm (.of_none hr.next_gone.hash)

theorem Store.Timed.insert (hr : Refines False s A) (h : s.Timed q due) {s₁ : Store} (hc : s₁.cell = s.cell)
    (a : EnqueueArgs) (now : ℤ) (hg : a.groupKey = "") (hf : Fits a.priority (a.effectiveScheduled now)) :
    (insertJob s₁ a (s.idgen + 1) now).Timed q (Function.update due (s.idgen + 1) (a.effectiveScheduled now)) := by
  refine h.redate _ (c := (s.cell (s.idgen + 1)).inserted a (s.idgen + 1) now) ?_
    (JobCell.Timed.inserted (hr.next_gone.score (.wait q) nofun) _ now hg hf)
  rw [cell_insertJob, hc]

theorem Store.Timed.enqueue (hr : Refines False s A) (h : s.Timed q due) (a : EnqueueArgs) (now : ℤ)
    (hg : a.groupKey = "") (hf : Fits a.priority (a.effectiveScheduled now)) :
    (fnEnqueue s a now).1.Timed q (Function.update due (s.idgen + 1) (a.effectiveScheduled now)) := by
  unfold fnEnqueue
  split
  · exact h.unused hr _
  · refine h.insert hr ?_ a now hg hf
    split <;> rfl

theorem Store.Timed.enqueueMany (now : ℤ) : ∀ (as : List EnqueueArgs) {s : Store} {A : Line} {due : JobId → ℤ},
    Refines False s A → s.Timed q due → (∀ a ∈ as, a.groupKey = "") →
      (∀ a ∈ as, Fits a.priority (a.effectiveScheduled now)) → (fnEnqueueMany s as now).1.Timed q (dueMany s as now due)
  | [], _, _, _, _, h, _, _ => h
  | a :: as, s, A, due, hr, h, hg, hf => by
    obtain ⟨A', _, hr'⟩ := fnEnqueue_sim hr a now nofun
    have hfirst := h.enqueue hr a now (hg a List.mem_cons_self) (hf a List.mem_cons_self)
    exact enqueueMany now as hr' hfirst (fun b hb => hg b (List.mem_cons_of_mem _ hb))
      (fun b hb => hf b (List.mem_cons_of_mem _ hb))

theorem Store.Timed.fire (hr : Refines False s A) (h : s.Timed q due) (a : FireArgs) (hf : Fits a.priority a.now) :
    (fnScheduleFire s a).1.Timed q (Function.update due (s.idgen + 1) a.now) := by
  rcases fnScheduleFire_cases s a with hsame | hs
  · rw [hsame]
    exact h.unused hr _
  · have hcell : ({ s with idgen := s.idgen + 1 } : Store).cell = s.cell := rfl
    have hins := h.insert hr hcell a.toEnqueue a.now rfl hf
    exact hins.congr hs.1

/-! ## Claim and heartbeat -/

theorem Store.Timed.start (h : s.Timed q due) (hp : (s.cell id).hash.isSome) (a : ClaimArgs) (q' : String) (n : ℤ)
    (g : Option String) : (startJob s a q' id n g).Timed q due := by
  refine h.update id (c := (startJob s a q' id n g).cell id) ?_ ?_
  · unfold startJob
    cases g <;> simp
  · have hmoved := (((h id).zrem (.wait q')).zadd (k := .active) nofun a.now).hset hp (f := fun h => { h with
      state := some .running, attempt := some n, lockedAt := some a.now, lockedBy := some a.worker })
      (fun _ => ⟨rfl, rfl⟩)
    unfold startJob
    cases g with
    | none => simpa using hmoved.zadd (k := .nqrun q') nofun a.now
    | some g => simpa using (hmoved.zadd (k := .grouprun g) nofun a.now).zadd (k := .nqrun q') nofun a.now

theorem Store.Timed.claim (h : s.Timed q due) (a : ClaimArgs) : (fnClaim s a).1.Timed q due := by
  refine fnClaim_rule (P := fun s _ => s.Timed q due) h (fun he hs => ?_)
  cases he with
  | skip => exact hs
  | stop gate => exact hs.congr gate.sameJobs.1
  | gone gate => exact hs.congr gate.sameJobs.1
  | @start s' kind _ size isOpen hkind listed pending gate waits =>
    have hs' := hs.congr gate.sameJobs.1
    refine hs'.start ?_ a _ _ _
    rw [gate.sameJobs.1]
    exact hash_of_state pending

theorem Store.Timed.heartbeat (h : s.Timed q due) (now : ℤ) (ids : List JobId) : (fnHeartbeat s now ids).1.Timed q due := by
  rw [fnHeartbeat, forEachCount_fst]
  refine forEach_inv h (fun x id _ hx => ?_)
  unfold heartbeatOne
  split
  · next hrun =>
    have hbeat := (hx id).hset (hash_of_state (of_decide_eq_true hrun)) (f := fun h => { h with lockedAt := some now })
      (fun _ => ⟨rfl, rfl⟩)
    refine hx.update id ?_ (hbeat.zadd (k := .active) (by rintro ⟨⟩) now)
    simp
  · exact hx

/-! ## Recovery and promotion -/

/-- A running job is recovered at its due time, or failed. -/
theorem Store.Timed.recover (h : s.Timed q due) (hp : (s.cell id).hash.isSome) (t : ℤ) (e : String)
    (ht : ¬ (s.hash id).stalledOut → due id = t) : (recoverOne t e s id).1.Timed q due := by
  have hleft := (h id).leaveRunning (s.hash id).groupKey (s.hash id).queue
  have hp' : ((s.cell id).leaveRunning (s.hash id).groupKey (s.hash id).queue).hash.isSome := by
    rw [JobCell.leaveRunning_hash]
    exact hp
  unfold recoverOne
  dsimp only
  split
  · have hfailed := hleft.hset hp' (f := fun h' => { h' with
      state := some .failed, stalledCount := some ((s.hash id).stalledCount.getD 0 + 1), failedAt := some t })
      (fun _ => ⟨rfl, rfl⟩)
    have hmirror : ∀ k, (given (s.hash id).queue).map ZKey.nqfailed = some k → k ≠ .wait q := by
      rintro k hk rfl
      simp at hk
    refine h.update id ?_ ((hfailed.zaddBoth (z := .failed) nofun hmirror t).pushError e)
    simp
  · next hout =>
    have hback := hleft.hset hp' (f := fun h' => { h' with
      state := some .pending, stalledCount := some ((s.hash id).stalledCount.getD 0 + 1),
      attempt := some (max ((s.hash id).attempt.getD 0 - 1) 0), lockedBy := some "", lockedAt := some 0 })
      (fun _ => ⟨rfl, rfl⟩)
    split
    · refine h.update id ?_ hback
      simp
    · next q' _ =>
      obtain rfl := ht hout
      refine h.update id ?_ (hback.joinWait q' (p := (s.hash id).priority) ?_)
      · simp
      · show (JobCell.leaveRunning _ _ _).fields.priority = _
        rw [JobCell.fields, JobCell.leaveRunning_hash]
        rfl

theorem Store.Timed.sweep (hr : Refines False s A) (h : s.Timed q due) {t : ℤ} {n : Nat}
    (ht : ∀ id ∈ s.staleIds t n, ¬ (s.hash id).stalledOut → due id = t) : (fnSweepStale s t n).1.Timed q due := by
  rw [fnSweepStale, forEachCount_fst]
  refine forEach_local (c := fun x id => (id, x.cell id))
    (Q := fun e => e.2.hash.isSome ∧ (¬ e.2.fields.stalledOut → due e.1 = t)) (ZSet.nodup_rangeByScore _ _ _) h
    (fun id hid => ⟨hash_of_state (hr.stale_running hid), ht id hid⟩) (fun x id j hne => ?_) (fun x id hx hq => ?_)
  · rw [cell_recoverOne t sweepError x id hne]
  · exact hx.recover hq.1 t sweepError hq.2

theorem Store.Timed.reclaim (h : s.Timed q due) {now : ℤ} {ids : List JobId}
    (ht : ∀ id ∈ ids, s.state id = some .running → ¬ (s.hash id).stalledOut → due id = now) :
    (fnReclaimInFlight s now ids).1.Timed q due := by
  rw [fnReclaimInFlight, forEachCount_fst]
  -- a job that still runs has not been touched
  have hloop : (forEach (reclaimOne now) ids s).1.Timed q due ∧ ∀ id,
      (forEach (reclaimOne now) ids s).1.state id = some .running → (forEach (reclaimOne now) ids s).1.hash id = s.hash id := by
    refine forEach_inv (P := fun x : Store => x.Timed q due ∧ ∀ id, x.state id = some .running → x.hash id = s.hash id)
      ⟨h, fun _ _ => rfl⟩ (fun x id hid hx => ?_)
    unfold reclaimOne
    split
    · next hrun =>
      have hst : x.state id = some .running := of_decide_eq_true hrun
      have hsame := hx.2 id hst
      have hdue : ¬ (x.hash id).stalledOut → due id = now := by
        rw [Store.state, hsame] at hst
        rw [hsame]
        exact ht id hid hst
      refine ⟨hx.1.recover (hash_of_state hst) now _ hdue, fun j hj => ?_⟩
      rw [Store.state, recoverOne_hash] at hj
      rw [recoverOne_hash]
      split at hj
      · exact absurd hj (recovered_state now _)
      · next hne =>
        rw [if_neg hne]
        exact hx.2 j hj
    · exact hx
  exact hloop.1

theorem Store.Timed.promote (hr : Refines False s A) (h : s.Timed q due) {now : ℤ} {n : Nat}
    (ht : ∀ id ∈ s.dueIds now n, due id = now) : (fnPromoteDelayed s now n).1.Timed q due := by
  rw [fnPromoteDelayed, forEachCount_fst]
  refine forEach_local (c := fun x id => (id, x.cell id)) (Q := fun e => e.2.hash.isSome ∧ due e.1 = now)
    (ZSet.nodup_rangeByScore _ _ _) h (fun id hid => ⟨hash_of_state (hr.due_scheduled hid), ht id hid⟩)
    (fun x id j hne => ?_) (fun x id hx hq => ?_)
  · rw [cell_promoteOne now x id hne]
  · obtain ⟨hp, rfl⟩ := hq
    have hleft := (hx id).zremBoth .delayed ((given (x.hash id).queue).map .nqscheduled)
    have hhash : ((x.cell id).zremBoth .delayed ((given (x.hash id).queue).map .nqscheduled)).hash = (x.cell id).hash := by
      cases given (x.hash id).queue <;> rfl
    have hpend := hleft.hset (by rw [hhash]; exact hp) (f := fun h => { h with state := some .pending })
      (fun _ => ⟨rfl, rfl⟩)
    unfold promoteOne
    dsimp only
    split
    · refine hx.update id ?_ hpend
      simp
    · next q' _ =>
      refine hx.update id ?_ (hpend.joinWait q' (p := (x.hash id).priority) ?_)
      · simp
      · show (JobCell.zremBoth _ _ _).fields.priority = _
        rw [JobCell.fields, hhash]
        rfl

/-! ## Verdicts, cancel and cleanup -/

/-- A deleted job has no HASH. -/
theorem Store.Timed.delete (h : s.Timed q due) {c : JobCell} (hc : s'.cell = Function.update s.cell id c)
    (hn : c.hash = none) : s'.Timed q due := h.update id hc (.of_none hn)

theorem Store.Timed.zaddBoth (h : s.Timed q due) {z : ZKey} (hz : z ≠ .wait q) {o : Option ZKey}
    (ho : ∀ k, o = some k → k ≠ .wait q) (sc : ℤ) (id : JobId) : (Redis.zaddBoth s z o sc id).Timed q due :=
  h.update id (cell_zaddBoth s id z o sc) ((h id).zaddBoth hz ho sc)

/-- The end of a finished job does not touch the wait sets. -/
theorem Store.Timed.finalize (h : s.Timed q due) (id : JobId) {z : ZKey} (hz : z ≠ .wait q) {o : Option ZKey}
    (ho : ∀ k, o = some k → k ≠ .wait q) (rule : Option RetentionRule) (now : ℤ) :
    (Redis.finalize s id z o rule now).Timed q due := by
  refine finalize_inv (P := fun x => x.Timed q due) h (h.zaddBoth hz ho now id) (fun k x v hx => ?_) (fun x hx => ?_) rule
  · exact hx.delete (cell_pruneJob x v z k) rfl
  · have hout := hx.update id (cell_zremBoth x id z o) ((hx id).zremBoth z o)
    exact hout.delete (cell_deleteJob _ id) rfl

theorem Store.Timed.complete (h : s.Timed q due) (id : JobId) (w : WorkerId) (now : ℤ) (result : String) :
    (fnComplete s id w now result).1.Timed q due := by
  unfold fnComplete
  split
  · exact h
  · next ho =>
    have hp : (s.cell id).hash.isSome := hash_of_owner (not_not.mp ho)
    have hdone := ((h id).leaveRunning (s.hash id).groupKey (s.hash id).queue).hset
      (by rw [JobCell.leaveRunning_hash]; exact hp)
      (f := fun h => { h with state := some .completed, completedAt := some now, result := some result })
      (fun _ => ⟨rfl, rfl⟩)
    dsimp only
    refine Store.Timed.finalize (h.update id ?_ hdone) id (z := .completed) nofun
      (mirror_ne (m := .nqcompleted) (z := .wait q) nofun _) _ now
    simp

/-- A verdict that gives a running job back at the time of its retry. -/
theorem Store.Timed.fail (hr : Refines False s A) (h : s.Timed q due) {id : JobId} {w : WorkerId}
    (hok : s.VerdictOk id w) (now : ℤ) (error : String) {retryAt : ℤ}
    (hf : 0 ≤ retryAt → Fits ((s.hash id).priority.getD 0) retryAt) :
    (fnFail s id w now error retryAt).1.Timed q
      (if s.owner id = some w ∧ 0 ≤ retryAt then Function.update due id retryAt else due) := by
  by_cases hown : s.owner id = some w
  · have hgo : ¬ (s.hash id).lockedBy ≠ some w := not_not.mpr hown
    unfold fnFail
    rw [if_neg hgo]
    have hp : (s.cell id).hash.isSome := hash_of_owner hown
    have hleft := ((h id).pushError error).leaveRunning (s.hash id).groupKey (s.hash id).queue
    have hhash : (((s.cell id).pushError error).leaveRunning (s.hash id).groupKey (s.hash id).queue).hash =
        (s.cell id).hash := JobCell.leaveRunning_hash _ _ _
    have hp' : (((s.cell id).pushError error).leaveRunning (s.hash id).groupKey (s.hash id).queue).hash.isSome := by
      rw [hhash]
      exact hp
    -- a running job is in no wait set
    have hout : (((s.cell id).pushError error).leaveRunning (s.hash id).groupKey (s.hash id).queue).score (.wait q) =
        none := by
      rw [JobCell.leaveRunning_score]
      split
      · rfl
      · exact hr.not_waiting (hok hown)
    have hread : (s.pushError id error).hash id = s.hash id := rfl
    simp only [hread]
    by_cases hretry : 0 ≤ retryAt
    · have hyes : retryAt ≥ 0 := hretry
      have hfits : ∀ x, (((s.cell id).pushError error).leaveRunning (s.hash id).groupKey (s.hash id).queue).hash = some x →
          Fits (x.priority.getD 0) retryAt := by
        intro x hx
        have hx' : (s.cell id).hash = some x := hhash.symm.trans hx
        have hread : s.hash id = x := by rw [← Store.cell_fields, JobCell.fields, hx']; rfl
        exact hread ▸ hf hretry
      have hfree := hleft.redate hout hfits
      rw [if_pos ⟨hown, hretry⟩, if_pos hyes]
      split
      · have hback := hfree.hset hp' (f := fun h => { h with state := some .pending, failedAt := some now })
          (fun _ => ⟨rfl, rfl⟩)
        split
        · refine h.redate id ?_ hback
          simp
        · next q' _ =>
          refine h.redate id ?_ (hback.joinWait q' (p := (s.hash id).priority) ?_)
          · simp
          · show (JobCell.leaveRunning _ _ _).fields.priority = _
            rw [JobCell.fields, hhash]
            rfl
      · have hback := hfree.hset hp' (f := fun h => { h with
          state := some .scheduled, failedAt := some now, scheduledAt := some retryAt }) (fun _ => ⟨rfl, rfl⟩)
        refine h.redate id ?_ (hback.zaddBoth (z := .delayed) (by rintro ⟨⟩)
          (mirror_ne (m := .nqscheduled) (z := .wait q) (fun x => by rintro ⟨⟩) (s.hash id).queue) retryAt)
        simp
    · have hno : ¬ retryAt ≥ 0 := hretry
      have hdone := hleft.hset hp' (f := fun h => { h with state := some .failed, failedAt := some now }) (fun _ => ⟨rfl, rfl⟩)
      rw [if_neg (fun hboth => hretry hboth.2), if_neg hno]
      refine Store.Timed.finalize (h.update id ?_ hdone) id (z := .failed) (by rintro ⟨⟩)
        (mirror_ne (m := .nqfailed) (z := .wait q) (fun x => by rintro ⟨⟩) _) _ now
      simp
  · rw [fnFail_stale hown, if_neg (fun hboth => hown hboth.1)]
    exact h

theorem Store.Timed.cancel (h : s.Timed q due) (id : JobId) (now : ℤ) : (fnCancel s id now).1.Timed q due := by
  have hmark : ∀ (x : Store) (o : Option String), x.Timed q due → (x.cell id).hash.isSome →
      (markCancelled x id o now).Timed q due := by
    intro x o hx hp
    have hset := (hx id).hset hp (f := fun h => { h with state := some .cancelled, cancelledAt := some now })
      (fun _ => ⟨rfl, rfl⟩)
    refine Store.Timed.zaddBoth (hx.update id ?_ hset) (z := .cancelled) nofun
      (mirror_ne (m := .nqcancelled) (z := .wait q) nofun o) now id
    simp
  unfold fnCancel
  dsimp only
  split
  · next hst =>
    split
    · exact h
    · next q' _ =>
      refine hmark _ _ (h.update id (Store.cell_zrem s id (.wait q')) ((h id).zrem _)) ?_
      rw [Store.cell_zrem, Function.update_self]
      exact hash_of_state hst
  · next hst =>
    refine hmark _ _ (h.update id (cell_zremBoth s id _ _) ((h id).zremBoth _ _)) ?_
    show (Store.job _ id).isSome
    rw [zremBoth_job]
    exact hash_of_state hst
  · exact h

theorem Store.Timed.cleanup (h : s.Timed q due) (a : CleanupArgs) : (fnCleanup s a).1.Timed q due := by
  have hstate : ∀ (x : Store) (z : ZKey) (m : String → ZKey) (now age count : ℤ) (limit : Nat), x.Timed q due →
      (cleanupState x z m now age count limit).1.Timed q due := by
    intro x z m now age count limit hx
    unfold cleanupState
    split
    · exact hx
    · refine List.foldlRecOn _ _ (motive := fun x : Store => x.Timed q due) hx (fun y hy v _ => ?_)
      have hdel := hy.delete (cell_deleteJob y v) rfl
      exact hdel.update v (cell_zremBoth _ v z _) ((hdel v).zremBoth _ _)
  unfold fnCleanup
  dsimp only
  exact hstate _ _ _ _ _ _ _ (hstate _ _ _ _ _ _ _ (hstate _ _ _ _ _ _ _ h))

end Store

/-! ## Calls and runs -/

/-- The invariant of the runs. -/
structure Dated.Timed (q : String) (z : Dated) : Prop where
  refines : ∃ A, Refines False z.store A
  timed : z.store.Timed q z.due

section Runs

variable {q : String} {z : Dated}

theorem Op.Prompt.ok {op : Op} (h : op.Prompt q z) : op.Ok False z.store := by
  cases op
  case enqueue => exact nofun
  case enqueueMany => exact fun _ _ => nofun
  case scheduleFire => exact nofun
  case complete => exact h
  case fail => exact h.1
  all_goals trivial

/-- **A call keeps every job timed.** -/
theorem Dated.Timed.step (h : z.Timed q) (op : Op) (hp : op.Plain q) (hok : op.Prompt q z) : (z.apply op).Timed q := by
  obtain ⟨A, hr⟩ := h.refines
  obtain ⟨A', _, hr'⟩ := Op.apply_sim hr op hok.ok
  refine ⟨⟨A', hr'⟩, ?_⟩
  have ht := h.timed
  have hsettings := fun hs : op.onSettings = true => ht.congr (Op.apply_sameJobs z.store op hs).1
  cases op with
  | enqueue a now => exact ht.enqueue hr a now hp.2 hok
  | enqueueMany as now => exact ht.enqueueMany now as hr (fun a ha => (hp a ha).2) hok
  | claim a => exact ht.claim a
  | heartbeat now ids => exact ht.heartbeat now ids
  | complete id w now result => exact ht.complete id w now result
  | fail id w now error retryAt => exact ht.fail hr hok.1 now error hok.2
  | sweepStale t n => exact ht.sweep hr hok
  | promoteDelayed now n => exact ht.promote hr hok
  | reclaimInFlight now ids => exact ht.reclaim hok
  | cancel id now => exact ht.cancel id now
  | cleanup a => exact ht.cleanup a
  | scheduleFire a => exact ht.fire hr a hok
  | _ => exact hsettings rfl

/-- **Every job of a run is timed.** -/
theorem Dated.Reached.timed (h : z.Reached q True) : z.Timed q := by
  refine Reach.inv h ⟨⟨{}, empty_refines⟩, fun id => .of_none rfl⟩ ?_
  rintro z op z' hz ⟨⟨hp, hok⟩, rfl⟩
  exact hz.step op hp (hok trivial)

/-- The members of the wait set are in the order of their ranks. -/
theorem Dated.Timed.sorted (h : z.Timed q) (hc : z.Clear q) :
    ((z.members q).map z.rank).Pairwise (fun a b => a.le b = true) := by
  have hrank : ∀ e ∈ (z.store.zsets (.wait q)).entries, e.2 ∈ z.members q ∧
      Fits (z.rank e.2).priority (z.due e.2) ∧ e.1 = waitScore (z.rank e.2).priority (z.due e.2) := by
    rintro ⟨sc, id⟩ he
    have hscore : z.store.zscore (.wait q) id = some sc := ZSet.mem_entries_iff.mp he
    have hsome : (z.store.zscore (.wait q) id).isSome := by rw [hscore]; rfl
    obtain ⟨A, hr⟩ := h.refines
    obtain ⟨x, hx⟩ := Option.isSome_iff_exists.mp (hash_of_state (hr.wait_pending hsome))
    have hhash : z.store.hash id = x := by rw [← Store.cell_fields, JobCell.fields, hx]; rfl
    refine ⟨ZSet.mem_members.mpr hsome, ?_, ?_⟩
    · show Fits ((z.store.hash id).priority.getD 0) _
      rw [hhash]
      exact (h.timed id).fits x hx
    · show sc = waitScore ((z.store.hash id).priority.getD 0) _
      rw [hhash]
      exact (h.timed id).score x sc hx hscore
  rw [Dated.members, ZSet.members, List.map_map, List.pairwise_map]
  refine (z.store.zsets (.wait q)).sorted.imp_of_mem (fun {e e'} he he' hle => ?_)
  obtain ⟨hm, hf, hs⟩ := hrank e he
  obtain ⟨hm', hf', hs'⟩ := hrank e' he'
  show ((z.rank e.2).le (z.rank e'.2)) = true
  simp only [Rank.le, Bool.or_eq_true, Bool.and_eq_true, decide_eq_true_eq, gt_iff_lt]
  rcases hle with hlt | ⟨heq, htext⟩
  · rw [hs, hs'] at hlt
    rcases hf.of_lt hf' hlt with hp | ⟨hp, hd⟩
    · exact .inl hp
    · exact .inr ⟨hp, .inl hd⟩
  · rw [hs, hs'] at heq
    obtain ⟨hp, hd⟩ := hf.of_eq hf' heq
    exact .inr ⟨hp, .inr ⟨hd, le_of_repr_le (hc _ hm _ hm' hp hd) htext⟩⟩

end Runs

end Eddyq.Redis
