import Eddyq.Redis.Refinement

/-!
# Every call and every run of the Redis backend

The recovery functions, cancel and cleanup refine the line of jobs like the rest (`fnSweepStale_sim`,
`fnReclaimInFlight_sim`, `fnPromoteDelayed_sim`, `fnCancel_sim`, `fnCleanup_sim`). Together: a call that meets the
guard `Op.Ok` moves the line by some steps (`Op.apply_sim`), hence so does a run (`reached_sim`).
-/

namespace Eddyq.Redis

open Eddyq.Lib

/-! ## Recovery -/

section Recovery

variable {named : Prop} {s : Store} {A : Line} {id : JobId} {i : JobInfo}

theorem cell_recoverOne (t : ℤ) (e : String) (s : Store) (id : JobId) {j : JobId} (hne : j ≠ id) :
    (recoverOne t e s id).1.cell j = s.cell j := by
  unfold recoverOne
  dsimp only
  split
  · simp [hne]
  split
  · simp [hne]
  · simp [hne]

theorem recoverOne_sim (h : Refines named s A) (hj : A.jobs id = some i) (hst : i.state = .running) (t : ℤ)
    (e : String) : Follows named A (recoverOne t e s id).1 := by
  have hleft := (Rep.home h hj nofun).leaveRunning hst
  have hlive := live_of_running hst
  unfold recoverOne
  simp only [h.hash_queue hj, h.hash_group hj]
  split
  · have hl := hleft.hset (f := fun h' => { h' with
      state := some .failed, stalledCount := some ((s.hash id).stalledCount.getD 0 + 1), failedAt := some t })
      (fun _ => rfl) (fun _ => ⟨rfl, rfl, rfl, rfl, rfl⟩)
    have hh := (hl.zaddBoth (m := .nqfailed) rfl rfl t).pushError e
    refine h.finish hj hlive .failed rfl ?_ ?_ ?_ hh
    · simp
    · simp
    · refine @releaseUnique_release named _ A id { i with state := .failed } ?_ ?_
      · simpa using hh.toKnown
      · simpa using h.unique
  · have hl := hleft.hset (f := fun h' => { h' with
      state := some .pending, stalledCount := some ((s.hash id).stalledCount.getD 0 + 1),
      attempt := some (max ((s.hash id).attempt.getD 0 - 1) 0), lockedBy := some "", lockedAt := some 0 })
      (fun _ => rfl) (fun _ => ⟨rfl, rfl, rfl, rfl, rfl⟩)
    refine h.move hj hlive .pending nofun ?_ ?_ ?_ (hl.joinWait rfl (waitScore ((s.hash id).priority.getD 0) t))
    · simp
    · simp
    · simp

/-- A member of `active` is running. -/
theorem Refines.of_active (h : Refines named s A) (hs : (s.zscore .active id).isSome) :
    ∃ i, A.jobs id = some i ∧ i.state = .running := by
  obtain ⟨i, hj, _, hk⟩ := h.of_score (k := .active) nofun hs
  refine ⟨i, hj, ?_⟩
  cases hst : i.state <;> by_cases hg : i.group = "" <;> simp [JobInfo.homeKeys, homeKeys, hst, hg] at hk ⊢

/-- A member of `delayed` is scheduled. -/
theorem Refines.of_delayed (h : Refines named s A) (hs : (s.zscore .delayed id).isSome) :
    ∃ i, A.jobs id = some i ∧ i.state = .scheduled := by
  obtain ⟨i, hj, _, hk⟩ := h.of_score (k := .delayed) nofun hs
  refine ⟨i, hj, ?_⟩
  cases hst : i.state <;> by_cases hg : i.group = "" <;> simp [JobInfo.homeKeys, homeKeys, hst, hg] at hk ⊢

theorem fnSweepStale_sim (h : Refines named s A) (t : ℤ) (n : Nat) : Follows named A (fnSweepStale s t n).1 := by
  rw [fnSweepStale, forEachCount_fst]
  refine forEach_local (c := Store.cell) (Q := fun c => (c.score .active).isSome) (ZSet.nodup_rangeByScore _ _ _)
    (.refl h) (fun id hid => ?_) (fun s id j hne => ?_) (fun s id hs hq => ?_)
  · obtain ⟨sc, hsc, _⟩ := ZSet.mem_of_mem_rangeByScore hid
    exact Option.isSome_iff_exists.mpr ⟨sc, hsc⟩
  · exact cell_recoverOne t sweepError s id hne
  · refine hs.bind (f := fun s => (recoverOne t sweepError s id).1) (fun A' hr => ?_)
    obtain ⟨i, hj, hst⟩ := hr.of_active hq
    exact recoverOne_sim hr hj hst t _

theorem reclaimOne_sim (h : Follows named A s) (now : ℤ) (id : JobId) : Follows named A (reclaimOne now s id).1 := by
  unfold reclaimOne
  split
  · next hrun =>
    refine h.bind (f := fun s => (recoverOne now reclaimError s id).1) (fun A' hr => ?_)
    obtain ⟨i, hj, hst⟩ := hr.of_state (of_decide_eq_true hrun)
    exact recoverOne_sim hr hj hst now _
  · exact h

theorem fnReclaimInFlight_sim (h : Refines named s A) (now : ℤ) (ids : List JobId) :
    Follows named A (fnReclaimInFlight s now ids).1 := by
  rw [fnReclaimInFlight, forEachCount_fst]
  exact forEach_inv (.refl h) (fun s id _ hs => reclaimOne_sim hs now id)

theorem cell_promoteOne (now : ℤ) (s : Store) (id : JobId) {j : JobId} (hne : j ≠ id) :
    (promoteOne now s id).1.cell j = s.cell j := by
  unfold promoteOne
  dsimp only
  split
  · simp [hne]
  · simp [hne]

theorem promoteOne_sim (h : Refines named s A) (hj : A.jobs id = some i) (hst : i.state = .scheduled) (now : ℤ) :
    Follows named A (promoteOne now s id).1 := by
  have hk : i.homeKeys = [.delayed, .nqscheduled i.queue] := by simp [JobInfo.homeKeys, homeKeys, hst]
  have hl := ((Rep.home h hj not_false).zremBoth (m := .nqscheduled) rfl hk).hset (f := fun h' => { h' with
    state := some .pending }) (fun _ => rfl) (fun _ => ⟨rfl, rfl, rfl, rfl, rfl⟩)
  unfold promoteOne
  simp only [h.hash_queue hj]
  refine h.move hj (by rw [hst]; decide) .pending (by decide) ?_ ?_ ?_
    (hl.joinWait rfl (waitScore ((s.hash id).priority.getD 0) now))
  · simp
  · simp
  · simp

theorem fnPromoteDelayed_sim (h : Refines named s A) (now : ℤ) (n : Nat) :
    Follows named A (fnPromoteDelayed s now n).1 := by
  rw [fnPromoteDelayed, forEachCount_fst]
  refine forEach_local (c := Store.cell) (Q := fun c => (c.score .delayed).isSome) (ZSet.nodup_rangeByScore _ _ _)
    (.refl h) (fun id hid => ?_) (fun s id j hne => ?_) (fun s id hs hq => ?_)
  · obtain ⟨sc, hsc, _⟩ := ZSet.mem_of_mem_rangeByScore hid
    exact Option.isSome_iff_exists.mpr ⟨sc, hsc⟩
  · exact cell_promoteOne now s id hne
  · refine hs.bind (f := fun s => (promoteOne now s id).1) (fun A' hr => ?_)
    obtain ⟨i, hj, hst⟩ := hr.of_delayed hq
    exact promoteOne_sim hr hj hst now

end Recovery

/-! ## Cancel and cleanup -/

section Cancel

variable {named : Prop} {s : Store} {A : Line} {id : JobId} {i : JobInfo}

/-- The end of a cancellation, for a job that has left its waiting set. -/
theorem markCancelled_sim (h : Refines named s A) (hj : A.jobs id = some i) (hlive : ¬ i.state.terminal)
    {s₁ : Store} {c : JobCell} (hc : s₁.cell = Function.update s.cell id c) (hi : s₁.idgen = s.idgen)
    (hu : s₁.unique = s.unique) (hl : c.Loose named i) (now : ℤ) :
    Follows named A (markCancelled s₁ id (some i.queue) now) := by
  have hm := hl.hset (f := fun h' => { h' with state := some .cancelled, cancelledAt := some now })
    (fun _ => rfl) (fun _ => ⟨rfl, rfl, rfl, rfl, rfl⟩)
  unfold markCancelled
  dsimp only
  refine h.finish hj hlive .cancelled rfl ?_ ?_ ?_ (hm.zaddBoth (m := .nqcancelled) rfl rfl now)
  · simp [hc]
  · simp [hi]
  · rw [zaddBoth_unique]
    refine @releaseUnique_release named _ A id { i with state := .cancelled } ?_ ?_
    · simpa [hc] using hm.toKnown
    · simpa [hu] using h.unique

theorem fnCancel_sim (h : Refines named s A) (id : JobId) (now : ℤ) : Follows named A (fnCancel s id now).1 := by
  unfold fnCancel
  dsimp only
  split
  · next hst =>
    obtain ⟨i, hj, hp⟩ := h.of_state hst
    have hlive : ¬ i.state.terminal := by rw [hp]; nofun
    rw [h.hash_queue hj]
    exact markCancelled_sim h hj hlive (Store.cell_zrem s id _) rfl rfl ((Rep.home h hj nofun).leaveWait hp) now
  · next hst =>
    obtain ⟨i, hj, hp⟩ := h.of_state hst
    have hlive : ¬ i.state.terminal := by rw [hp]; nofun
    have hk : i.homeKeys = [.delayed, .nqscheduled i.queue] := by simp [JobInfo.homeKeys, homeKeys, hp]
    rw [h.hash_queue hj]
    exact markCancelled_sim h hj hlive (cell_zremBoth s id _ _) (zremBoth_idgen ..) (zremBoth_unique ..)
      ((Rep.home h hj nofun).zremBoth (m := .nqscheduled) rfl hk) now
  · exact .refl h

/-- The victims of a cleanup are distinct members of the state's set. -/
theorem cleanupVictims_spec (z : ZSet JobId) (now age count : ℤ) (limit : Nat) :
    (cleanupVictims z now age count limit).Nodup ∧
      ∀ v ∈ cleanupVictims z now age count limit, (z.score? v).isSome := by
  have haged : ∀ p, (z.rangeByScore p limit).Nodup ∧ ∀ v ∈ z.rangeByScore p limit, (z.score? v).isSome := by
    refine fun p => ⟨ZSet.nodup_rangeByScore _ _ _, fun v hv => ?_⟩
    obtain ⟨sc, hsc, _⟩ := ZSet.mem_of_mem_rangeByScore hv
    exact Option.isSome_iff_exists.mpr ⟨sc, hsc⟩
  have hcount : ∀ (aged ids : List JobId), (aged.Nodup ∧ ∀ v ∈ aged, (z.score? v).isSome) →
      (ids.Nodup ∧ ∀ v ∈ ids, (z.score? v).isSome) →
      ((aged ++ ids.filter (· ∉ aged)).take limit).Nodup ∧
        ∀ v ∈ (aged ++ ids.filter (· ∉ aged)).take limit, (z.score? v).isSome := by
    intro aged ids ha hids
    refine ⟨List.Nodup.sublist (List.take_sublist _ _) (List.nodup_append'.mpr ⟨ha.1, hids.1.filter _, ?_⟩), ?_⟩
    · intro v hv hv'
      exact absurd hv (of_decide_eq_true (List.mem_filter.mp hv').2)
    · intro v hv
      rcases List.mem_append.mp (List.mem_of_mem_take hv) with hv | hv
      · exact ha.2 v hv
      · exact hids.2 v (List.mem_of_mem_filter hv)
  have hrange : ∀ n, (z.range 0 n).Nodup ∧ ∀ v ∈ z.range 0 n, (z.score? v).isSome :=
    fun n => ⟨ZSet.nodup_range _ _ _, fun v hv => ZSet.mem_of_mem_range hv⟩
  have hnil : ([] : List JobId).Nodup ∧ ∀ v ∈ ([] : List JobId), (z.score? v).isSome := ⟨List.nodup_nil, nofun⟩
  unfold cleanupVictims
  dsimp only
  split_ifs
  · exact hcount _ _ (haged _) (hrange _)
  · exact hcount _ _ (haged _) hnil
  · exact haged _
  · exact hcount _ _ hnil (hrange _)
  · exact hcount _ _ hnil hnil
  · exact hnil

theorem cleanupState_sim {st : JobState} {z : ZKey} {m : String → ZKey} (hf : Final st z m) (h : Follows named A s)
    (now age count : ℤ) (limit : Nat) : Follows named A (cleanupState s z m now age count limit).1 := by
  unfold cleanupState
  split
  · exact h
  · obtain ⟨A₁, h₁, hr₁⟩ := h
    obtain ⟨hnd, hv⟩ := cleanupVictims_spec (s.zsets z) now age count limit
    have hall : ∃ A', A₁.Steps A' ∧ Refines named ((cleanupVictims (s.zsets z) now age count limit).foldl
        (cleanupOne z m) s) A' ∧ ∀ j, False → A'.jobs j = A₁.jobs j := by
      refine deleteAll_sim hf.tracked (fun s v j hj => ?_) (fun s A v hr hs hl => ?_) hr₁ hnd hv
      · simp [cleanupOne, hj]
      · obtain ⟨i, hj, _, hk⟩ := hr.of_score hf.tracked hs
        have hst := hf.of_mem hk
        have hg := (hr.home hj hl).deleted_zremBoth hf.blank (hf.homeKeys hst)
        refine hr.delete hj (hst ▸ hf.terminal) ?_ ?_ ?_ (fun _ _ => Iff.rfl) hg
        · simp [cleanupOne, hr.hash_queue hj]
        · simp [cleanupOne]
        · simp [cleanupOne]
    obtain ⟨A₂, h₂, hr₂, _⟩ := hall
    exact ⟨A₂, h₁.trans h₂, hr₂⟩

theorem fnCleanup_sim (h : Refines named s A) (a : CleanupArgs) : Follows named A (fnCleanup s a).1 := by
  unfold fnCleanup
  dsimp only
  exact cleanupState_sim .cancelled (cleanupState_sim .failed (cleanupState_sim .completed (.refl h) _ _ _ _)
    _ _ _ _) _ _ _ _

end Cancel

/-! ## Calls and runs -/

/-- What the calls of a run are asked: verdicts come from the current lease and, when `named`, new jobs have names. -/
def Op.Ok (named : Prop) (s : Store) : Op → Prop
  | .enqueue a _ => named → a.queue ≠ "" ∧ a.kind ≠ ""
  | .enqueueMany as _ => ∀ a ∈ as, named → a.queue ≠ "" ∧ a.kind ≠ ""
  | .scheduleFire a => named → a.queue ≠ "" ∧ a.kind ≠ ""
  | .complete id w _ _ => s.VerdictOk id w
  | .fail id w _ _ _ => s.VerdictOk id w
  | _ => True

section System

variable {named : Prop} {s : Store} {A : Line}

theorem fnScheduleFire_sim (h : Refines named s A) (a : FireArgs) (hn : named → a.queue ≠ "" ∧ a.kind ≠ "") :
    Follows named A (fnScheduleFire s a).1 := by
  rcases fnScheduleFire_cases s a with hsame | hs
  · rw [hsame]
    exact .refl h
  · have hins : Follows named A (insertJob { s with idgen := s.idgen + 1 } a.toEnqueue (s.idgen + 1) a.now) :=
      insertJob_sim h a.toEnqueue a.now hn (fun hne => absurd rfl hne) rfl rfl h.unique
    obtain ⟨A', hA', hr⟩ := hins
    exact ⟨A', hA', hs.refines hr⟩

/-- A call that does not touch jobs. -/
theorem SameJobs.follows {s' : Store} (hs : SameJobs s s') (h : Refines named s A) : Follows named A s' :=
  .refl (hs.refines h)

/-- The calls on schedules, groups and queues; a fire makes a job. -/
def Op.onSettings : Op → Bool
  | .scheduleUpsert _ | .scheduleRemove _ | .scheduleSetEnabled .. | .groupSetConcurrency .. | .groupSetPaused ..
  | .groupSetRate .. | .groupClearRate _ | .groupSetRule .. | .groupRemoveRule _ | .queueSetConcurrency ..
  | .queueSetPaused .. | .queueSetTimeout .. => true
  | _ => false

/-- **The calls on settings** leave the jobs alone. -/
theorem Op.apply_sameJobs (s : Store) (op : Op) (h : op.onSettings) : SameJobs s (op.apply s) := by
  cases op with
  | scheduleUpsert a => exact fnScheduleUpsert_sameJobs s a
  | scheduleRemove name => exact fnScheduleRemove_sameJobs s name
  | scheduleSetEnabled name e next => exact fnScheduleSetEnabled_sameJobs s name e next
  | groupSetConcurrency | groupSetPaused | groupSetRate | groupClearRate | groupRemoveRule => exact ⟨rfl, rfl, rfl⟩
  | queueSetConcurrency | queueSetPaused => exact ⟨rfl, rfl, rfl⟩
  | groupSetRule pattern rule =>
    show SameJobs s (fnGroupSetRule s pattern rule)
    unfold fnGroupSetRule
    split <;> exact ⟨rfl, rfl, rfl⟩
  | queueSetTimeout name t =>
    show SameJobs s (fnQueueSetTimeout s name t)
    unfold fnQueueSetTimeout
    split <;> exact ⟨rfl, rfl, rfl⟩
  | _ => cases h

/-- **A call moves the line by some steps.** -/
theorem Op.apply_sim (h : Refines named s A) (op : Op) (hok : op.Ok named s) : Follows named A (op.apply s) := by
  cases op with
  | enqueue a now => exact fnEnqueue_sim h a now hok
  | enqueueMany as now => exact fnEnqueueMany_sim now as (.refl h) hok
  | claim a => exact fnClaim_sim h a
  | heartbeat now ids => exact fnHeartbeat_sim h now ids
  | complete id w now result => exact fnComplete_sim h hok now result
  | fail id w now error retryAt => exact fnFail_sim h hok now error retryAt
  | sweepStale t n => exact fnSweepStale_sim h t n
  | promoteDelayed now n => exact fnPromoteDelayed_sim h now n
  | reclaimInFlight now ids => exact fnReclaimInFlight_sim h now ids
  | cancel id now => exact fnCancel_sim h id now
  | cleanup a => exact fnCleanup_sim h a
  | scheduleFire a => exact fnScheduleFire_sim h a hok
  | _ => exact (Op.apply_sameJobs s _ rfl).follows h

theorem empty_refines : Refines named Store.empty {} :=
  ⟨rfl, rfl, fun _ _ => rfl, fun _ => ⟨rfl, fun _ _ hm => absurd hm (Finset.notMem_empty _), fun _ _ => rfl, rfl⟩⟩

/-- **The store of every run is that of a line.** -/
theorem reached_sim (h : s.Reached (Op.Ok named)) : Follows named {} s := by
  refine Reach.inv h (.refl empty_refines) ?_
  rintro s op s' hs ⟨hok, rfl⟩
  exact hs.bind (f := fun s => op.apply s) (fun A hA => Op.apply_sim hA op hok)

/-- Its reservations are sound. -/
theorem reached_sound (h : s.Reached (Op.Ok named)) : ∃ A : Line, A.Sound ∧ Refines named s A := by
  obtain ⟨A, hA, hr⟩ := reached_sim h
  exact ⟨A, Line.Sound.init.steps hA, hr⟩

end System

end Eddyq.Redis
