import Eddyq.Lib.Rosters
import Eddyq.Redis.Frames
import Eddyq.Redis.Leases

/-!
# Lists of leases on Redis

`eddyq_heartbeat` and `eddyq_reclaim_in_flight` take a list of ids and look at `state`, not at `locked_by`. Only a claim
makes a job running or changes the owner of a running one (`Op.runsKept`), and no job is touched that is not listed or not
running (`registry_lawful`).
-/

namespace Eddyq.Redis

open Eddyq.Lib

/-! ## Only a claim makes a job running -/

section Kept

variable {s s' : Store}

/-- Every running job has been running, under the same owner. -/
def RunsKept (s s' : Store) : Prop :=
  ∀ id, s'.state id = some .running → s.state id = some .running ∧ s'.owner id = s.owner id

theorem RunsKept.of_kept (h : HashesKept s s') : RunsKept s s' := by
  intro i hr
  rcases h i with hi | hi
  · have hh : s'.hash i = s.hash i := by rw [Store.hash, Store.hash, hi]
    rw [Store.state, hh] at hr
    exact ⟨hr, by rw [Store.owner, Store.owner, hh]⟩
  · rw [Store.state, Store.hash, hi] at hr
    cases hr

theorem RunsKept.of_job (h : s'.job = s.job) : RunsKept s s' := .of_kept (.of_job h)

theorem RunsKept.trans {s₁ : Store} (h : RunsKept s s₁) (h' : RunsKept s₁ s') : RunsKept s s' := by
  intro i hr
  obtain ⟨hr₁, ho₁⟩ := h' i hr
  obtain ⟨hr₀, ho₀⟩ := h i hr₁
  exact ⟨hr₀, ho₁.trans ho₀⟩

/-- A write to one HASH that does not set `running`, or leaves the state and the owner alone. -/
theorem RunsKept.hset (id : JobId) {f : JobHash → JobHash}
    (hf : ∀ h, (f h).state = some .running → h.state = some .running ∧ (f h).lockedBy = h.lockedBy) :
    RunsKept s (s.hset id f) := by
  intro i hr
  rw [Store.state, hash_hset] at hr
  rw [Store.owner, Store.owner, Store.state, hash_hset]
  split at hr
  · next hi =>
    subst hi
    rw [if_pos rfl]
    exact hf _ hr
  · next hi =>
    rw [if_neg hi]
    exact ⟨hr, rfl⟩

theorem SameJobs.runsKept (h : SameJobs s s') : RunsKept s s' :=
  .of_job (funext fun i => congrArg JobCell.hash (congrFun h.1 i))

theorem insertJob_runsKept (s : Store) (a : EnqueueArgs) (id : JobId) (now : ℤ) : RunsKept s (insertJob s a id now) := by
  have hset : RunsKept s (s.hset id (a.toHash id now)) := by
    refine .hset id fun h hr => ?_
    simp only [EnqueueArgs.toHash] at hr
    split at hr <;> cases hr
  refine hset.trans (.of_job (funext fun i => ?_))
  have hcell := congrArg JobCell.hash (congrFun (cell_insertJob s id a now) i)
  have hcell' := congrArg JobCell.hash (congrFun (Store.cell_hset s id (a.toHash id now)) i)
  rw [Store.cell_hash] at hcell hcell'
  rw [hcell, hcell']
  by_cases hi : i = id
  · subst hi
    rw [Function.update_self, Function.update_self]
    unfold JobCell.inserted
    dsimp only
    split <;> rfl
  · rw [Function.update_of_ne hi, Function.update_of_ne hi]

theorem fnEnqueue_runsKept (s : Store) (a : EnqueueArgs) (now : ℤ) : RunsKept s (fnEnqueue s a now).1 := by
  unfold fnEnqueue
  split
  · exact .of_job rfl
  · refine RunsKept.trans (.of_job ?_) (insertJob_runsKept _ a (s.idgen + 1) now)
    split <;> rfl

theorem fnEnqueueMany_runsKept (now : ℤ) : ∀ (as : List EnqueueArgs) (s : Store), RunsKept s (fnEnqueueMany s as now).1
  | [], _ => .of_job rfl
  | a :: as, s => (fnEnqueue_runsKept s a now).trans (fnEnqueueMany_runsKept now as _)

theorem fnScheduleFire_runsKept (s : Store) (a : FireArgs) : RunsKept s (fnScheduleFire s a).1 := by
  rcases fnScheduleFire_cases s a with hsame | hs
  · rw [hsame]
    exact .of_job rfl
  · have hins : RunsKept s (insertJob { s with idgen := s.idgen + 1 } a.toEnqueue (s.idgen + 1) a.now) :=
      insertJob_runsKept { s with idgen := s.idgen + 1 } a.toEnqueue (s.idgen + 1) a.now
    exact hins.trans hs.runsKept

theorem Command.runsKept {stamps : Prop} (h : Command stamps s s') : RunsKept s s' := by
  cases h with
  | hset id f _ runs => exact .hset id runs
  | delJob id => exact .of_kept (delJob_hashesKept id s)
  | _ => exact .of_job rfl

theorem Commands.runsKept {stamps : Prop} (h : Commands stamps s s') : RunsKept s s' := by
  induction h with
  | refl => exact .of_job rfl
  | tail _ hc ih => exact ih.trans hc.runsKept

/-- **Only a claim makes a job running**, or changes who owns a running one. -/
theorem Op.runsKept (op : Op) (hc : ∀ a, op ≠ .claim a) : RunsKept s (op.apply s) := by
  cases op with
  | enqueue a now => exact fnEnqueue_runsKept s a now
  | enqueueMany as now => exact fnEnqueueMany_runsKept now as s
  | claim a => exact absurd rfl (hc a)
  | heartbeat | complete | fail | sweepStale | promoteDelayed | reclaimInFlight | cancel | cleanup =>
    exact (Op.apply_commands True s _ rfl fun _ _ _ => trivial).runsKept
  | scheduleFire a => exact fnScheduleFire_runsKept s a
  | _ => exact (Op.apply_sameJobs s _ rfl).runsKept

end Kept

/-! ## The registry -/

/-- What a process does with a list of ids. -/
inductive Touch
  | heartbeat (now : ℤ)
  | reclaim (now : ℤ)

def Touch.toOp (ids : List JobId) : Touch → Op
  | .heartbeat now => .heartbeat now ids
  | .reclaim now => .reclaimInFlight now ids

/-- The job is running, and its HASH records this owner. -/
def Store.leaseOf (s : Store) (id : JobId) (o : Option WorkerId) : Prop := s.state id = some .running ∧ s.owner id = o

instance (s : Store) (id : JobId) (o : Option WorkerId) : Decidable (s.leaseOf id o) :=
  inferInstanceAs (Decidable (_ ∧ _))

/-- The keys of the job are as they were. -/
def Store.sameCell (s s' : Store) (id : JobId) : Prop := s'.cell id = s.cell id

/-- The backend as a registry. -/
def registry : Registry Store Op Touch JobId WorkerId where
  call s op := op.apply s
  grants s op := op.grants s
  touch s t ids := (t.toOp ids).apply s
  leased := Store.leaseOf
  same := Store.sameCell

section Laws

variable {s s' : Store} {id : JobId} {o : Option WorkerId} {w : WorkerId}

theorem RunsKept.leaseOf (h : RunsKept s s') (hl : s'.leaseOf id o) : s.leaseOf id o := by
  obtain ⟨hr, ho⟩ := h id hl.1
  exact ⟨hr, ho ▸ hl.2⟩

/-- A lease after a call was granted by it or has been there. -/
theorem Op.leases_kept (op : Op) (hl : (op.apply s).leaseOf id o) :
    (∃ w, o = some w ∧ (id, w) ∈ op.grants s) ∨ (s.leaseOf id o ∧ ∀ w, (id, w) ∉ op.grants s) := by
  by_cases hop : ∃ a, op = .claim a
  · obtain ⟨a, rfl⟩ := hop
    have hc := fnClaim_claimed s a
    by_cases hid : id ∈ (fnClaim s a).2.map (·.id)
    · obtain ⟨j, hj, rfl⟩ := List.mem_map.mp hid
      refine Or.inl ⟨j.workerId, ?_, List.mem_map_of_mem (f := fun j : ClaimedJob => (j.id, j.workerId)) hj⟩
      rw [hc.workers j hj, ← (hc.started j hj).1]
      exact hl.2.symm
    · have hh : (fnClaim s a).1.hash id = s.hash id := hc.rest id hid
      have hl : (fnClaim s a).1.leaseOf id o := hl
      unfold Store.leaseOf Store.state Store.owner at hl
      rw [hh] at hl
      refine Or.inr ⟨hl, fun w hg => hid ?_⟩
      obtain ⟨j, hj, he⟩ := List.mem_map.mp hg
      exact List.mem_map.mpr ⟨j, hj, (Prod.mk.inj he).1⟩
  · refine Or.inr ⟨(Op.runsKept op fun a he => hop ⟨a, he⟩).leaseOf hl, fun w hg => ?_⟩
    cases op with
    | claim a => exact hop ⟨a, rfl⟩
    | _ => exact absurd hg List.not_mem_nil

/-- A claim grants to its own worker. -/
theorem Op.grants_one (op : Op) {w' : WorkerId} (h : (id, w) ∈ op.grants s) (h' : (id, w') ∈ op.grants s) : w = w' := by
  cases op with
  | claim a =>
    have hc := fnClaim_claimed s a
    obtain ⟨j, hj, he⟩ := List.mem_map.mp h
    obtain ⟨j', hj', he'⟩ := List.mem_map.mp h'
    rw [← (Prod.mk.inj he).2, ← (Prod.mk.inj he').2, hc.workers j hj, hc.workers j' hj']
  | _ => exact absurd h List.not_mem_nil

/-- A loop over jobs that leaves every job alone but a running one of its list. -/
theorem sameCell_loop {f : Store → JobId → Store × Bool} (hidle : ∀ x i, isRunning x i = false → (f x i).1 = x)
    (hother : ∀ x i j, j ≠ i → (f x i).1.cell j = x.cell j) {ids : List JobId} (h : id ∈ ids → ∀ o, ¬ s.leaseOf id o) :
    s.sameCell (forEach f ids s).1 id := by
  refine forEach_inv (P := fun x => s.sameCell x id) rfl (fun x i hi hx => ?_)
  have hx : x.cell id = s.cell id := hx
  by_cases hid : id = i
  · subst hid
    have hno : isRunning x id = false := by
      have hh : x.hash id = s.hash id := congrArg JobCell.fields hx
      rw [isRunning, hh, decide_eq_false_iff_not]
      exact fun hr => h hi _ ⟨hr, rfl⟩
    rw [hidle x id hno]
    exact hx
  · exact (hother x i id hid).trans hx

theorem Touch.frame (t : Touch) {ids : List JobId} (h : id ∈ ids → ∀ o, ¬ s.leaseOf id o) :
    s.sameCell ((t.toOp ids).apply s) id := by
  cases t with
  | heartbeat now =>
    show s.sameCell (fnHeartbeat s now ids).1 id
    rw [fnHeartbeat, forEachCount_fst]
    refine sameCell_loop (fun x i hno => ?_) (fun x i j hne => ?_) h
    · rw [heartbeatOne, hno]
      rfl
    · unfold heartbeatOne
      split
      · simp [hne]
      · rfl
  | reclaim now =>
    show s.sameCell (fnReclaimInFlight s now ids).1 id
    rw [fnReclaimInFlight, forEachCount_fst]
    refine sameCell_loop (fun x i hno => ?_) (fun x i j hne => ?_) h
    · rw [reclaimOne, hno]
      rfl
    · unfold reclaimOne
      split
      · exact cell_recoverOne now reclaimError x i hne
      · rfl

/-- A heartbeat dates the HASH of every running job of its list. -/
theorem heartbeat_lockedAt (now : ℤ) : ∀ (ids : List JobId) {s : Store}, s.state id = some .running →
    id ∈ ids ∨ (s.hash id).lockedAt = some now → ((forEach (heartbeatOne now) ids s).1.hash id).lockedAt = some now
  | [], _, _, h => h.resolve_left List.not_mem_nil
  | i :: ids, s, hr, h => by
    have hh : (heartbeatOne now s i).2 = true := by
      unfold heartbeatOne
      split <;> rfl
    rw [forEach, if_pos hh]
    have hone : (heartbeatOne now s i).1.state id = some .running ∧
        (id = i ∨ (s.hash id).lockedAt = some now → ((heartbeatOne now s i).1.hash id).lockedAt = some now) := by
      by_cases hid : id = i
      · subst hid
        have hrun : isRunning s id = true := decide_eq_true hr
        rw [heartbeatOne, if_pos hrun, Store.state, zadd_hash, hash_hset, if_pos rfl]
        exact ⟨hr, fun _ => rfl⟩
      · have hkeep : (heartbeatOne now s i).1.hash id = s.hash id := by
          unfold heartbeatOne
          split
          · rw [zadd_hash, hash_hset, if_neg hid]
          · rfl
        rw [Store.state, hkeep]
        exact ⟨hr, fun h => h.resolve_left hid⟩
    refine heartbeat_lockedAt now ids hone.1 ?_
    rcases h with h | h
    · rcases List.mem_cons.mp h with h | h
      · exact Or.inr (hone.2 (Or.inl h))
      · exact Or.inl h
    · exact Or.inr (hone.2 (Or.inr h))

theorem Touch.stirs {ids : List JobId} (hid : id ∈ ids) (hl : s.leaseOf id o) :
    ∃ t : Touch, ¬ s.sameCell ((t.toOp ids).apply s) id := by
  obtain ⟨now, hnow⟩ : ∃ now : ℤ, (s.hash id).lockedAt ≠ some now := by
    cases hh : (s.hash id).lockedAt with
    | none => exact ⟨0, nofun⟩
    | some t => exact ⟨t + 1, fun he => absurd (Option.some.inj he) (by omega)⟩
  refine ⟨.heartbeat now, fun hsame => hnow ?_⟩
  have hsame : (fnHeartbeat s now ids).1.cell id = s.cell id := hsame
  rw [fnHeartbeat, forEachCount_fst] at hsame
  have hh : (forEach (heartbeatOne now) ids s).1.hash id = s.hash id := congrArg JobCell.fields hsame
  rw [← hh]
  exact heartbeat_lockedAt now ids hl.1 (Or.inl hid)

/-- **Redis is a lawful registry.** -/
theorem registry_lawful : registry.Lawful where
  granted := by
    intro s op id w hg
    obtain ⟨hr, ho⟩ := Op.granted hg
    exact ⟨hr, ho⟩
  kept hl := Op.leases_kept _ hl
  one h h' := Op.grants_one _ h h'
  touched := by
    intro s t ids id o hl
    refine (Op.runsKept (t.toOp ids) fun a => ?_).leaseOf hl
    cases t <;> rintro ⟨⟩
  frame h := Touch.frame _ h
  stirs h hl := Touch.stirs h hl

end Laws

end Eddyq.Redis
