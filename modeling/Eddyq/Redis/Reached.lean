import Eddyq.Redis.Simulation

/-!
# What a reached store looks like

* `verdict_gate_iff`: a verdict of a worker without the lease is refused, and changes nothing, exactly when the
  recorded owner is someone else or the job is running. The verdicts look at the owner only, which stays recorded
  after a completion, a retry and a failure (`verdict_gate_fails`).
* `reached_consistent`: in runs with named jobs and current verdicts, the HASHes, the sorted sets, the id sets and
  the error lists agree.
* `reached_reserved`: in runs with current verdicts, a unique key is reserved by its one live job, and tearing down a
  finished job releases nothing.
-/

namespace Eddyq.Redis

open Eddyq.Lib

/-! ## The gate of the verdicts -/

/-- Without the lease, both verdicts are refused and leave every key as it was. -/
def Store.Gate (s : Store) (id : JobId) (w : WorkerId) : Prop :=
  ¬ s.LeasedTo id w →
    (∀ now result, fnComplete s id w now result = (s, 0)) ∧
    (∀ now error retryAt, fnFail s id w now error retryAt = (s, some .stale))

theorem fnComplete_stale {s : Store} {id : JobId} {w : WorkerId} (h : s.owner id ≠ some w) (now : ℤ) (r : String) :
    fnComplete s id w now r = (s, 0) := if_pos h

theorem fnFail_stale {s : Store} {id : JobId} {w : WorkerId} (h : s.owner id ≠ some w) (now : ℤ) (e : String)
    (retryAt : ℤ) : fnFail s id w now e retryAt = (s, some .stale) := if_pos h

theorem fnComplete_owned {s : Store} {id : JobId} {w : WorkerId} (h : s.owner id = some w) (now : ℤ) (r : String) :
    (fnComplete s id w now r).2 = 1 := by
  have hneg : ¬ (s.hash id).lockedBy ≠ some w := not_not.mpr h
  unfold fnComplete
  rw [if_neg hneg]

/-- A recorded owner whose job is not running gets through. -/
theorem not_gate_of_owned {s : Store} {id : JobId} {w : WorkerId} (ho : s.owner id = some w)
    (hst : s.state id ≠ some .running) : ¬ s.Gate id w := by
  intro hg
  have hr := congrArg Prod.snd ((hg (fun hl => hst hl.1)).1 0 "")
  rw [fnComplete_owned ho] at hr
  cases hr

/-- **The gate holds exactly when the worker is not the recorded owner or the job is running.** -/
theorem verdict_gate_iff (s : Store) (id : JobId) (w : WorkerId) :
    s.Gate id w ↔ (s.owner id = some w → s.state id = some .running) := by
  constructor
  · intro hg ho
    by_contra hst
    exact not_gate_of_owned ho hst hg
  · intro hok hl
    have ho : s.owner id ≠ some w := fun ho => hl ⟨hok ho, ho⟩
    exact ⟨fnComplete_stale ho, fnFail_stale ho⟩

/-- A job that was claimed and failed with a retry an hour later. -/
def retriedRun : List Op :=
  [.enqueue { kind := "mail", queue := "default" } 1000,
   .claim { batchSize := 1, worker := "w", now := 2000, queues := ["default"], kinds := ["mail"] },
   .fail 1 "w" 3000 "timeout" 3600000]

/-- The same worker's late verdict completes the job that waits for its retry. -/
theorem verdict_gate_fails :
    ¬ ∀ s : Store, s.Reached (fun _ _ => True) → ∀ id w, s.Gate id w := by
  intro h
  have hreach : (retriedRun.foldl Op.apply Store.empty).Reached (fun _ _ => True) :=
    run_of_guards retriedRun (Reach.refl _) (by simp [retriedRun, Guards])
  have howner : (retriedRun.foldl Op.apply Store.empty).owner 1 = some "w" := by decide
  have hstate : (retriedRun.foldl Op.apply Store.empty).state 1 = some .scheduled := by decide
  exact not_gate_of_owned howner (by rw [hstate]; nofun) (h _ hreach 1 "w")

/-! ## State and indexes -/

/-- The sorted sets that the HASH's state prescribes. -/
def JobHash.prescribed (h : JobHash) : List ZKey :=
  match h.state with
  | some st => homeKeys st (h.queue.getD "") (h.groupKey.getD "")
  | none => []

/-- The queue, the kind and the tags of a HASH. -/
def JobHash.Carries (h : JobHash) : SKey → Prop
  | .queueset q => h.queue = some q
  | .kindset k => h.kind = some k
  | .tagset t => t ∈ h.tags.getD []

/-- HASHes, sorted sets, id sets and error lists agree. -/
structure Store.Consistent (s : Store) : Prop where
  /-- Every HASH has a state. -/
  stated : ∀ id h, s.job id = some h → h.state.isSome
  /-- A job is in the sets its state prescribes, and in no other. -/
  prescribed : ∀ id h, s.job id = some h → ∀ k, id ∈ (s.zsets k).members ↔ k ∈ h.prescribed
  /-- A finished job has the same score in both its sets. -/
  mirrored : ∀ id h st, s.job id = some h → h.state = some st → st.terminal →
    ∀ k ∈ h.prescribed, ∀ k' ∈ h.prescribed, s.zscore k id = s.zscore k' id
  /-- Members of sorted sets have a HASH. -/
  hashed : ∀ id k, id ∈ (s.zsets k).members → (s.job id).isSome
  /-- Error lists have a HASH. -/
  errors : ∀ id, s.errors id ≠ [] → (s.job id).isSome
  /-- The id sets contain a job iff its HASH carries their name. -/
  indexed : ∀ id k, id ∈ s.sets k ↔ ∃ h, s.job id = some h ∧ h.Carries k

section Consistent

variable {s : Store} {A : Line} {id : JobId}

/-- The two cases of an id: no key mentions it, or a HASH does and its job is at home. -/
theorem Refines.cases {named : Prop} (hr : Refines named s A) (id : JobId) :
    (A.jobs id = none ∧ (s.cell id).Gone named) ∨
      ∃ i h, A.jobs id = some i ∧ s.job id = some h ∧ h.Has i ∧ (s.cell id).Home named i := by
  cases hj : A.jobs id with
  | none =>
    have hc := hr.cell id
    rw [hj] at hc
    exact Or.inl ⟨rfl, hc⟩
  | some i =>
    have hh := Rep.home hr hj nofun
    obtain ⟨h, hhash, hhas⟩ := hh.hash
    exact Or.inr ⟨i, h, rfl, hhash, hhas, hh⟩

theorem JobHash.Has.prescribed_eq {h : JobHash} {i : JobInfo} (hi : h.Has i) : h.prescribed = i.homeKeys := by
  simp [JobHash.prescribed, JobInfo.homeKeys, hi.state, hi.queue, hi.group]

theorem JobHash.Has.carries_iff {h : JobHash} {i : JobInfo} (hi : h.Has i) (k : SKey) :
    h.Carries k ↔ k ∈ i.indexKeys := by
  cases k <;> simp [JobHash.Carries, JobInfo.indexKeys, hi.queue, hi.kind, hi.tags, eq_comm]

/-- A store that refines a line of named jobs is consistent. -/
theorem Refines.consistent (hr : Refines True s A) : s.Consistent := by
  have hz : ∀ k : ZKey, k.Tracked True := fun _ _ => trivial
  have hk : ∀ k : SKey, k.Tracked True := fun _ _ => trivial
  have hcase : ∀ id h, s.job id = some h → ∃ i, h.Has i ∧ (s.cell id).Home True i := by
    intro id h hjob
    rcases hr.cases id with ⟨_, hg⟩ | ⟨i, h', _, hjob', hhas, hh⟩
    · have hnone : s.job id = none := hg.hash
      rw [hnone] at hjob
      cases hjob
    · rw [hjob] at hjob'
      cases hjob'
      exact ⟨i, hhas, hh⟩
  have hsome : ∀ id, (s.cell id).Gone True ∨ (s.job id).isSome := by
    intro id
    rcases hr.cases id with ⟨_, hg⟩ | ⟨_, h, _, hjob, _⟩
    · exact Or.inl hg
    · exact Or.inr (by rw [hjob]; rfl)
  refine ⟨fun id h hjob => ?_, fun id h hjob k => ?_, fun id h st hjob hst ht => ?_, fun id k hm => ?_,
    fun id he => ?_, fun id k => ?_⟩
  · obtain ⟨i, hhas, _⟩ := hcase id h hjob
    rw [hhas.state]
    rfl
  · obtain ⟨i, hhas, hh⟩ := hcase id h hjob
    rw [ZSet.mem_members, hhas.prescribed_eq]
    exact hh.score k (hz k)
  · obtain ⟨i, hhas, hh⟩ := hcase id h hjob
    have hst' : i.state = st := Option.some.inj (hhas.state.symm.trans hst)
    rw [hhas.prescribed_eq]
    intro k hk₁ k' hk₂
    exact hh.mirror (hst' ▸ ht) k hk₁ k' hk₂ (hz k) (hz k')
  · rcases hsome id with hg | hg
    · have hnone : (s.zsets k).score? id = none := hg.score k (hz k)
      rw [ZSet.mem_members, hnone] at hm
      cases hm
    · exact hg
  · rcases hsome id with hg | hg
    · exact absurd hg.errors he
    · exact hg
  · constructor
    · intro hm
      rcases hr.cases id with ⟨_, hg⟩ | ⟨i, h, _, hjob, hhas, hh⟩
      · exact absurd hm (hg.member k (hk k))
      · exact ⟨h, hjob, (hhas.carries_iff k).mpr ((hh.member k (hk k)).mp hm)⟩
    · rintro ⟨h, hjob, hc⟩
      obtain ⟨i, hhas, hh⟩ := hcase id h hjob
      exact (hh.member k (hk k)).mpr ((hhas.carries_iff k).mp hc)

end Consistent

/-- **State and indexes agree** in every run whose jobs have names and whose verdicts come from the current lease. -/
theorem reached_consistent (s : Store) (h : s.Reached (Op.Ok True)) : s.Consistent := by
  obtain ⟨A, _, hr⟩ := reached_sim h
  exact hr.consistent

/-- Claim, retry, promote, claim again, complete, clean up. -/
def mixedRun : List Op :=
  [.enqueue { kind := "mail", queue := "default", groupKey := "g", tags := ["a"], uniqueKey := "u" } 1000,
   .claim { batchSize := 1, worker := "w", now := 2000, queues := ["default"], kinds := ["mail"] },
   .fail 1 "w" 3000 "timeout" 4000,
   .promoteDelayed 5000 10,
   .claim { batchSize := 1, worker := "w", now := 6000, queues := ["default"], kinds := ["mail"] },
   .complete 1 "w" 7000 "",
   .cleanup { now := 9000, ageCompleted := 1 }]

theorem mixedRun_reached (named : Prop) : (mixedRun.foldl Op.apply Store.empty).Reached (Op.Ok named) := by
  refine run_of_guards mixedRun (Reach.refl _) ⟨fun _ => ⟨by decide, by decide⟩, trivial, ?_, trivial, trivial, ?_,
    trivial, trivial⟩
  · intro _; decide
  · intro _; decide

theorem mixedRun_consistent : (mixedRun.foldl Op.apply Store.empty).Reached (Op.Ok True) ∧
    (mixedRun.foldl Op.apply Store.empty).Consistent :=
  ⟨mixedRun_reached True, reached_consistent _ (mixedRun_reached True)⟩

/-! ## Unique keys -/

/-- A pending, scheduled or running job with this unique key. -/
def Store.LiveWith (s : Store) (u : String) (id : JobId) : Prop :=
  ∃ h st, s.job id = some h ∧ h.uniqueKey = some u ∧ h.state = some st ∧ ¬ st.terminal

/-- The reservations are those of the live jobs. -/
structure Store.Reserved (s : Store) : Prop where
  /-- One live job a key. -/
  single : ∀ u, u ≠ "" → ∀ id id', s.LiveWith u id → s.LiveWith u id' → id = id'
  /-- The reservation is the id of the live job. -/
  owner : ∀ u, u ≠ "" → ∀ id, s.unique u = some id ↔ s.LiveWith u id
  /-- Tearing down a finished job releases nothing. -/
  teardown : ∀ id h st, s.job id = some h → h.state = some st → st.terminal → (deleteJob s id).unique = s.unique

/-- A store that refines a line with sound reservations has them. -/
theorem Refines.reserved {named : Prop} {s : Store} {A : Line} (hs : A.Sound) (hr : Refines named s A) :
    s.Reserved := by
  have hlive : ∀ u id, s.LiveWith u id ↔ ∃ i, A.jobs id = some i ∧ ¬ i.state.terminal ∧ i.unique = u := by
    intro u id
    rcases hr.cases id with ⟨hj, hg⟩ | ⟨i, h, hj, hjob, hhas, _⟩
    · have hnone : s.job id = none := hg.hash
      simp [Store.LiveWith, hj, hnone]
    · constructor
      · rintro ⟨h', st, hjob', hu', hst, hl⟩
        rw [hjob] at hjob'
        cases hjob'
        have hst' : i.state = st := Option.some.inj (hhas.state.symm.trans hst)
        exact ⟨i, hj, hst' ▸ hl, Option.some.inj (hhas.unique.symm.trans hu')⟩
      · rintro ⟨i', hj', hl, rfl⟩
        rw [hj] at hj'
        cases hj'
        exact ⟨h, i.state, hjob, hhas.unique, hhas.state, hl⟩
  refine ⟨fun u hu id id' h h' => ?_, fun u hu id => ?_, fun id h st hjob hst ht => ?_⟩
  · obtain ⟨i, hj, hl, hiu⟩ := (hlive u id).mp h
    obtain ⟨i', hj', hl', hiu'⟩ := (hlive u id').mp h'
    exact hs.live_unique hj hj' (hiu.trans hiu'.symm) (hiu ▸ hu) hl hl'
  · rw [hlive, hr.unique]
    exact hs.reserved u id hu
  · have hst' : (s.hash id).state = some st := by rw [Store.hash, hjob]; exact hst
    obtain ⟨i, hj, hi⟩ := hr.of_state hst'
    rw [deleteJob_unique, ← Store.cell_fields, (hr.known hj).fields.unique,
      dropUniqueIfOwner_release hr.unique, hs.release_of_done hj (hi ▸ ht), hr.unique]

/-- **A unique key is reserved by its one live job** in every run whose verdicts come from the current lease. -/
theorem reached_reserved (s : Store) (h : s.Reached (Op.Ok False)) : s.Reserved := by
  obtain ⟨A, hA, hr⟩ := reached_sound h
  exact hr.reserved hA

theorem mixedRun_reserved : (mixedRun.foldl Op.apply Store.empty).Reached (Op.Ok False) ∧
    (mixedRun.foldl Op.apply Store.empty).Reserved :=
  ⟨mixedRun_reached False, reached_reserved _ (mixedRun_reached False)⟩

end Eddyq.Redis
