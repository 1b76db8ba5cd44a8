import Eddyq.Pg.Frames
import Mathlib.Data.List.Dedup

/-!
# The concurrency counters

`Counted db`: every group and queue row counts its running jobs, and every running job with a group key has a group row.
A statement that adds rows keeps this (`Counted.grow`), so does moving jobs into `running` with the upserts of a claim
(`Counted.commitClaim`) and out of it with the decrements (`Counted.release`). What a claim picks is pending
(`Counted.picked_pending`), so it keeps the counters as well (`Counted.claimBatch`).
-/

namespace Eddyq.Pg

open Eddyq.Lib

/-! ## The invariant -/

/-- The counters are exact. -/
structure Counted (db : Db) : Prop where
  ids : (db.jobs.map (·.id)).Nodup
  fresh : ∀ j ∈ db.jobs, j.id < db.nextJob
  unfinished : ∀ j ∈ db.jobs, ¬ j.state.terminal → j.finalizedAt = none
  groups : ∀ g ∈ db.groups, g.runningCount = db.jobs.countP (·.runsIn g.key)
  queues : ∀ q ∈ db.queues, q.runningCount = db.jobs.countP (·.runsOn q.name)
  covered : ∀ j ∈ db.jobs, j.running → ∀ k, j.groupKey = some k → ∃ g ∈ db.groups, g.key = k

section Statements

variable {db db' : Db}

/-- Only four tables and a sequence matter. -/
theorem Counted.congr (h : Counted db) (hj : db'.jobs = db.jobs) (hg : db'.groups = db.groups)
    (hq : db'.queues = db.queues) (hn : db'.nextJob = db.nextJob) : Counted db' := by
  obtain ⟨h1, h2, h3, h4, h5, h6⟩ := h
  refine ⟨?_, ?_, ?_, ?_, ?_, ?_⟩ <;> simp only [hj, hg, hq, hn] <;> assumption

/-- A new job is pending. -/
theorem Counted.addJob (h : Counted db) (r : DynEnqueue) (now : ℤ) :
    Counted { db with jobs := db.jobs ++ [newJob r db.nextJob now], nextJob := db.nextJob + 1 } := by
  have hin : ∀ key, JobRow.runsIn key (newJob r db.nextJob now) = false := fun _ => rfl
  have hon : ∀ name, JobRow.runsOn name (newJob r db.nextJob now) = false := fun _ => rfl
  refine ⟨?_, fun j hj => ?_, fun j hj hl => ?_, fun g hg => ?_, fun q hq => ?_, fun j hj hr k hk => ?_⟩
  · rw [List.map_append, List.map_singleton, List.nodup_append']
    refine ⟨h.ids, List.nodup_singleton _, ?_⟩
    intro i hi hi'
    obtain ⟨j, hj, rfl⟩ := List.mem_map.mp hi
    have heq : j.id = db.nextJob := List.mem_singleton.mp hi'
    exact absurd (h.fresh j hj) (heq ▸ Nat.lt_irrefl _)
  · rcases List.mem_append.mp hj with hj | hj
    · exact Nat.lt_succ_of_lt (h.fresh j hj)
    · rw [List.mem_singleton.mp hj]
      exact Nat.lt_succ_self _
  · rcases List.mem_append.mp hj with hj | hj
    · exact h.unfinished j hj hl
    · rw [List.mem_singleton.mp hj]
      rfl
  · rw [h.groups g hg, List.countP_append, List.countP_singleton, hin]
    simp
  · rw [h.queues q hq, List.countP_append, List.countP_singleton, hon]
    simp
  · rcases List.mem_append.mp hj with hj | hj
    · exact h.covered j hj hr k hk
    · rw [List.mem_singleton.mp hj] at hr
      cases hr

/-- A new group row has no running jobs: they would have a row already. -/
theorem Counted.countP_new (h : Counted db) {key : String} (hnew : ∀ g ∈ db.groups, g.key ≠ key) :
    db.jobs.countP (·.runsIn key) = 0 := by
  rw [List.countP_eq_zero]
  intro j hj hr
  simp only [JobRow.runsIn, Bool.and_eq_true, decide_eq_true_eq] at hr
  obtain ⟨g, hg, hk⟩ := h.covered j hj hr.1 key hr.2
  exact hnew g hg hk

theorem Counted.addGroup (h : Counted db) (g : GroupRow) (hc : g.runningCount = 0)
    (hnew : ∀ g' ∈ db.groups, g'.key ≠ g.key) : Counted { db with groups := db.groups ++ [g] } := by
  refine ⟨h.ids, h.fresh, h.unfinished, fun g' hg' => ?_, h.queues, fun j hj hr k hk => ?_⟩
  · rcases List.mem_append.mp hg' with hg' | hg'
    · exact h.groups g' hg'
    · rw [List.mem_singleton.mp hg', hc, h.countP_new hnew]
      rfl
  · obtain ⟨g', hg', hk'⟩ := h.covered j hj hr k hk
    exact ⟨g', List.mem_append_left _ hg', hk'⟩

theorem Counted.grow (h : Counted db) (hs : Grow db db') : Counted db' := by
  cases hs with
  | insert hi =>
    cases hi with
    | row => exact h.addJob _ _
    | skip =>
      exact ⟨h.ids, fun j hj => Nat.lt_succ_of_lt (h.fresh j hj), h.unfinished, h.groups, h.queues, h.covered⟩
  | materialize hm =>
    cases hm with
    | same => exact h
    | row g hkey count new => exact h.addGroup g count (by rwa [hkey])
  | batches => exact h.congr rfl rfl rfl rfl

theorem Counted.grows (h : Counted db) (hs : Grows db db') : Counted db' := by
  induction hs with
  | refl => exact h
  | tail _ hstep ih => exact ih.grow hstep

/-- An update of group rows that keeps key and counter. -/
theorem Counted.editGroups (h : Counted db) {p : GroupRow → Bool} {f : GroupRow → GroupRow}
    (hf : ∀ g, (f g).key = g.key ∧ (f g).runningCount = g.runningCount) :
    Counted { db with groups := updateWhere p f db.groups } := by
  refine ⟨h.ids, h.fresh, h.unfinished, fun g hg => ?_, h.queues, fun j hj hr k hk => ?_⟩
  · obtain ⟨g₀, hg₀, rfl⟩ := mem_updateWhere.mp hg
    have h₀ := h.groups g₀ hg₀
    split
    · rw [(hf g₀).1, (hf g₀).2]; exact h₀
    · exact h₀
  · obtain ⟨g, hg, hgk⟩ := h.covered j hj hr k hk
    refine ⟨_, mem_updateWhere_of_mem hg, ?_⟩
    split
    · rw [(hf g).1]; exact hgk
    · exact hgk

/-- An update of queue rows that keeps name and counter. -/
theorem Counted.editQueues (h : Counted db) {p : QueueRow → Bool} {f : QueueRow → QueueRow}
    (hf : ∀ q, (f q).name = q.name ∧ (f q).runningCount = q.runningCount) :
    Counted { db with queues := updateWhere p f db.queues } := by
  refine ⟨h.ids, h.fresh, h.unfinished, h.groups, fun q hq => ?_, h.covered⟩
  obtain ⟨q₀, hq₀, rfl⟩ := mem_updateWhere.mp hq
  have h₀ := h.queues q₀ hq₀
  split
  · rw [(hf q₀).1, (hf q₀).2]; exact h₀
  · exact h₀

/-- An upsert that creates a group row from zero or sets other columns of it. -/
theorem Counted.upsertGroup (h : Counted db) {new : GroupRow} (hc : new.runningCount = 0) {f : GroupRow → GroupRow}
    (hf : ∀ g, (f g).key = g.key ∧ (f g).runningCount = g.runningCount) : Counted (upsertGroup db new f) := by
  unfold Pg.upsertGroup
  split
  · exact h.editGroups hf
  · next hnew => exact h.addGroup new hc (by simpa using hnew)

/-- An upsert that creates a queue row from the live count or sets other columns of it. -/
theorem Counted.upsertQueue (h : Counted db) {new : QueueRow} (hc : new.runningCount = db.runningOn new.name)
    {f : QueueRow → QueueRow} (hf : ∀ q, (f q).name = q.name ∧ (f q).runningCount = q.runningCount) :
    Counted (upsertQueue db new f) := by
  unfold Pg.upsertQueue
  split
  · exact h.editQueues hf
  · refine ⟨h.ids, h.fresh, h.unfinished, h.groups, fun q hq => ?_, h.covered⟩
    rcases List.mem_append.mp hq with hq | hq
    · exact h.queues q hq
    · rw [List.mem_singleton.mp hq]
      exact hc

/-- An update of jobs that keeps id, state, group, queue and finalization. -/
theorem Counted.editJobs (h : Counted db) {p : JobRow → Bool} {f : JobRow → JobRow}
    (hf : ∀ j, (f j).id = j.id ∧ (f j).state = j.state ∧ (f j).groupKey = j.groupKey ∧ (f j).queue = j.queue ∧
      (f j).finalizedAt = j.finalizedAt) : Counted { db with jobs := updateWhere p f db.jobs } := by
  have hin : ∀ key j, JobRow.runsIn key (if p j then f j else j) = JobRow.runsIn key j := by
    intro key j
    split <;> simp [JobRow.runsIn, JobRow.running, hf j]
  have hon : ∀ name j, JobRow.runsOn name (if p j then f j else j) = JobRow.runsOn name j := by
    intro name j
    split <;> simp [JobRow.runsOn, JobRow.running, hf j]
  have hcount : ∀ q : JobRow → Bool, (∀ j, q (if p j then f j else j) = q j) →
      (updateWhere p f db.jobs).countP q = db.jobs.countP q := by
    intro q hq
    rw [updateWhere, List.countP_map]
    exact List.countP_congr (fun j _ => by rw [Function.comp_apply, hq])
  refine ⟨?_, fun j hj => ?_, fun j hj hl => ?_, fun g hg => ?_, fun q hq => ?_, fun j hj hr k hk => ?_⟩
  · rw [map_updateWhere (fun j => (hf j).1)]; exact h.ids
  · obtain ⟨j₀, hj₀, rfl⟩ := mem_updateWhere.mp hj
    have := h.fresh j₀ hj₀
    split
    · rw [(hf j₀).1]; exact this
    · exact this
  · obtain ⟨j₀, hj₀, rfl⟩ := mem_updateWhere.mp hj
    have hu := h.unfinished j₀ hj₀
    by_cases hp : p j₀
    · simp only [hp, if_true] at hl ⊢
      rw [(hf j₀).2.2.2.2]
      exact hu (by rwa [(hf j₀).2.1] at hl)
    · simp only [hp, Bool.false_eq_true, if_false] at hl ⊢
      exact hu hl
  · rw [hcount _ (hin g.key)]; exact h.groups g hg
  · rw [hcount _ (hon q.name)]; exact h.queues q hq
  · obtain ⟨j₀, hj₀, rfl⟩ := mem_updateWhere.mp hj
    refine h.covered j₀ hj₀ ?_ k ?_
    · split at hr
      · rwa [JobRow.running, (hf j₀).2.1] at hr
      · exact hr
    · split at hk
      · rwa [(hf j₀).2.2.1] at hk
      · exact hk

/-- Deleting rows that do not run. -/
theorem Counted.deleteJobs (h : Counted db) {p : JobRow → Bool} (hp : ∀ j ∈ db.jobs, ¬ p j → ¬ j.running) :
    Counted { db with jobs := db.jobs.filter p } := by
  have hcount : ∀ q : JobRow → Bool, (∀ j, q j → j.running) → (db.jobs.filter p).countP q = db.jobs.countP q := by
    intro q hq
    rw [List.countP_filter]
    refine List.countP_congr (fun j hj => ?_)
    simp only [Bool.and_eq_true]
    refine ⟨fun hh => hh.1, fun hh => ⟨hh, ?_⟩⟩
    by_contra hn
    exact hp j hj hn (hq j hh)
  have hmem : ∀ j ∈ db.jobs.filter p, j ∈ db.jobs := fun j hj => (List.mem_filter.mp hj).1
  refine ⟨h.ids.sublist (List.Sublist.map _ List.filter_sublist), fun j hj => h.fresh j (hmem j hj),
    fun j hj => h.unfinished j (hmem j hj), fun g hg => ?_, fun q hq => ?_, fun j hj => h.covered j (hmem j hj)⟩
  · rw [hcount _ (fun j hj => by simp only [JobRow.runsIn, Bool.and_eq_true] at hj; exact hj.1)]
    exact h.groups g hg
  · rw [hcount _ (fun j hj => by simp only [JobRow.runsOn, Bool.and_eq_true] at hj; exact hj.1)]
    exact h.queues q hq

end Statements

/-! ## Moving jobs out of `running` -/

section Release

variable {db : Db} {p : JobRow → Bool} {f : JobRow → JobRow}

/-- What an update may do to the rows it moves. -/
structure Moves (f : JobRow → JobRow) : Prop where
  id : ∀ j, (f j).id = j.id
  groupKey : ∀ j, (f j).groupKey = j.groupKey
  queue : ∀ j, (f j).queue = j.queue
  unfinished : ∀ j, j.finalizedAt = none → ¬ (f j).state.terminal → (f j).finalizedAt = none

/-- How many of the moved rows are in a group. -/
def movedIn (db : Db) (p : JobRow → Bool) (key : String) : Nat := db.jobs.countP (fun j => p j && j.groupKey = some key)

/-- How many of the moved rows are on a queue. -/
def movedOn (db : Db) (p : JobRow → Bool) (name : String) : Nat := db.jobs.countP (fun j => p j && j.queue = name)

theorem countP_release (hp : ∀ j, p j → j.running) (hf : ∀ j, (f j).running = false) {q q' : JobRow → Bool}
    (hq : ∀ j, q j = (j.running && q' j)) :
    (updateWhere p f db.jobs).countP q + db.jobs.countP (fun j => p j && q' j) = db.jobs.countP q := by
  have h := countP_updateWhere p q f db.jobs
  have h1 : db.jobs.countP (fun j => p j && q j) = db.jobs.countP (fun j => p j && q' j) := by
    refine List.countP_congr (fun j _ => ?_)
    rw [hq]
    by_cases hj : p j
    · simp [hj, hp j hj]
    · simp [hj]
  have h2 : db.jobs.countP (fun j => p j && q (f j)) = 0 := by
    rw [List.countP_eq_zero]
    intro j _
    simp [hq, hf]
  rw [h1, h2] at h
  omega

theorem runsIn_release (db : Db) (hp : ∀ j, p j → j.running) (hf : ∀ j, (f j).running = false) (key : String) :
    (updateWhere p f db.jobs).countP (·.runsIn key) + movedIn db p key = db.jobs.countP (·.runsIn key) :=
  countP_release hp hf (fun _ => rfl)

theorem runsOn_release (db : Db) (hp : ∀ j, p j → j.running) (hf : ∀ j, (f j).running = false) (name : String) :
    (updateWhere p f db.jobs).countP (·.runsOn name) + movedOn db p name = db.jobs.countP (·.runsOn name) :=
  countP_release hp hf (fun _ => rfl)

/-- **A decrement finds the slots it gives back**: the floor does not bind. -/
theorem Counted.movedIn_le (h : Counted db) (hp : ∀ j, p j → j.running) {g : GroupRow} (hg : g ∈ db.groups) :
    (movedIn db p g.key : ℤ) ≤ g.runningCount := by
  rw [h.groups g hg]
  refine Int.ofNat_le.mpr (List.countP_mono_left (fun j _ hj => ?_))
  simp only [Bool.and_eq_true] at hj
  simp only [JobRow.runsIn, Bool.and_eq_true]
  exact ⟨hp j hj.1, hj.2⟩

theorem Counted.movedOn_le (h : Counted db) (hp : ∀ j, p j → j.running) {q : QueueRow} (hq : q ∈ db.queues) :
    (movedOn db p q.name : ℤ) ≤ q.runningCount := by
  rw [h.queues q hq]
  refine Int.ofNat_le.mpr (List.countP_mono_left (fun j _ hj => ?_))
  simp only [Bool.and_eq_true] at hj
  simp only [JobRow.runsOn, Bool.and_eq_true]
  exact ⟨hp j hj.1, hj.2⟩

/-- The group rows after the decrements. -/
def GroupsDropped (db : Db) (p : JobRow → Bool) (groups : List GroupRow) : Prop :=
  (∀ g ∈ groups, ∃ g₀ ∈ db.groups, g.key = g₀.key ∧ g.runningCount = max (g₀.runningCount - movedIn db p g₀.key) 0) ∧
    ∀ g₀ ∈ db.groups, ∃ g ∈ groups, g.key = g₀.key

/-- The queue rows after the decrements. -/
def QueuesDropped (db : Db) (p : JobRow → Bool) (queues : List QueueRow) : Prop :=
  ∀ q ∈ queues, ∃ q₀ ∈ db.queues, q.name = q₀.name ∧ q.runningCount = max (q₀.runningCount - movedOn db p q₀.name) 0

/-- **Jobs leave `running` and their slots are given back.** -/
theorem Counted.release (h : Counted db) (hm : Moves f) (hp : ∀ j, p j → j.running) (hf : ∀ j, (f j).running = false)
    {groups : List GroupRow} {queues : List QueueRow} (hg : GroupsDropped db p groups)
    (hq : QueuesDropped db p queues) :
    Counted { db with jobs := updateWhere p f db.jobs, groups := groups, queues := queues } := by
  refine ⟨?_, fun j hj => ?_, fun j hj hl => ?_, fun g hgm => ?_, fun q hqm => ?_, fun j hj hr k hk => ?_⟩
  · rw [map_updateWhere hm.id]; exact h.ids
  · obtain ⟨j₀, hj₀, rfl⟩ := mem_updateWhere.mp hj
    split
    · rw [hm.id]; exact h.fresh j₀ hj₀
    · exact h.fresh j₀ hj₀
  · obtain ⟨j₀, hj₀, rfl⟩ := mem_updateWhere.mp hj
    by_cases hpj : p j₀
    · simp only [hpj, if_true] at hl ⊢
      have hrun : j₀.state = .running := of_decide_eq_true (hp j₀ hpj)
      exact hm.unfinished j₀ (h.unfinished j₀ hj₀ (by rw [hrun]; nofun)) hl
    · simp only [hpj, Bool.false_eq_true, if_false] at hl ⊢
      exact h.unfinished j₀ hj₀ hl
  · obtain ⟨g₀, hg₀, hk, hc⟩ := hg.1 g hgm
    have hle := h.movedIn_le hp hg₀
    have hrel := runsIn_release db hp hf g₀.key
    rw [hc, hk]
    rw [h.groups g₀ hg₀] at hle ⊢
    simp only at hrel ⊢
    omega
  · obtain ⟨q₀, hq₀, hk, hc⟩ := hq q hqm
    have hle := h.movedOn_le hp hq₀
    have hrel := runsOn_release db hp hf q₀.name
    rw [hc, hk]
    rw [h.queues q₀ hq₀] at hle ⊢
    simp only at hrel ⊢
    omega
  · obtain ⟨j₀, hj₀, rfl⟩ := mem_updateWhere.mp hj
    by_cases hpj : p j₀
    · simp only [hpj, if_true, hf j₀, Bool.false_eq_true] at hr
    · simp only [hpj, Bool.false_eq_true, if_false] at hr hk
      obtain ⟨g₀, hg₀, hgk⟩ := h.covered j₀ hj₀ hr k hk
      obtain ⟨g, hg', hgg⟩ := hg.2 g₀ hg₀
      exact ⟨g, hg', hgg.trans hgk⟩

/-- The aggregated decrements of a sweep. -/
theorem groupsDropped_sweep (h : Counted db) (hm : Moves f) :
    GroupsDropped db p (dropGroups ((db.jobs.filter p).map f) db.groups) := by
  have hcount : ∀ k, ((db.jobs.filter p).map f).countP (·.groupKey = some k) = movedIn db p k := by
    intro k
    rw [List.countP_map, countP_filter_eq, movedIn]
    exact List.countP_congr (fun j _ => by simp [hm.groupKey])
  have hnone : ∀ k, ((db.jobs.filter p).map f).any (·.groupKey = some k) = false → movedIn db p k = 0 := by
    intro k hk
    rw [← hcount]
    exact List.countP_eq_zero.mpr (List.any_eq_false.mp hk)
  refine ⟨fun g hg => ?_, fun g₀ hg₀ => ⟨_, mem_updateWhere_of_mem hg₀, by split <;> rfl⟩⟩
  obtain ⟨g₀, hg₀, rfl⟩ := mem_updateWhere.mp hg
  refine ⟨g₀, hg₀, by split <;> rfl, ?_⟩
  by_cases hany : ((db.jobs.filter p).map f).any (·.groupKey = some g₀.key)
  · rw [if_pos hany, hcount]
  · have h0 := h.groups g₀ hg₀
    rw [if_neg hany, hnone g₀.key (by simpa using hany)]
    omega

theorem queuesDropped_sweep (h : Counted db) (hm : Moves f) :
    QueuesDropped db p (dropQueues ((db.jobs.filter p).map f) db.queues) := by
  have hcount : ∀ k, ((db.jobs.filter p).map f).countP (·.queue = k) = movedOn db p k := by
    intro k
    rw [List.countP_map, countP_filter_eq, movedOn]
    exact List.countP_congr (fun j _ => by simp [hm.queue])
  have hnone : ∀ k, ((db.jobs.filter p).map f).any (·.queue = k) = false → movedOn db p k = 0 := by
    intro k hk
    rw [← hcount]
    exact List.countP_eq_zero.mpr (List.any_eq_false.mp hk)
  intro q hq
  obtain ⟨q₀, hq₀, rfl⟩ := mem_updateWhere.mp hq
  refine ⟨q₀, hq₀, by split <;> rfl, ?_⟩
  by_cases hany : ((db.jobs.filter p).map f).any (·.queue = q₀.name)
  · rw [if_pos hany, hcount]
  · have h0 := h.queues q₀ hq₀
    rw [if_neg hany, hnone q₀.name (by simpa using hany)]
    omega

/-- The decrements of a verdict, for the one row it moved. -/
theorem Counted.dropSlots (h : Counted db) (hm : Moves f) (hp : ∀ j, p j → j.running)
    (hf : ∀ j, (f j).running = false) {id : JobId} (hid : ∀ j, p j → j.id = id) {j : JobRow}
    (hj : db.jobs.find? p = some j) :
    Counted (dropSlots { db with jobs := updateWhere p f db.jobs } j.groupKey j.queue) := by
  have hin : ∀ k, movedIn db p k = if j.groupKey = some k then 1 else 0 := by
    intro k
    rw [movedIn, countP_of_find hid h.ids hj]
    simp
  have hon : ∀ k, movedOn db p k = if j.queue = k then 1 else 0 := by
    intro k
    rw [movedOn, countP_of_find hid h.ids hj]
    simp
  have hgroups : GroupsDropped db p (j.groupKey.elim db.groups fun k =>
      updateWhere (·.key = k) (fun g => { g with runningCount := max (g.runningCount - 1) 0 }) db.groups) := by
    cases hk : j.groupKey with
    | none =>
      refine ⟨fun g hg => ⟨g, hg, rfl, ?_⟩, fun g hg => ⟨g, hg, rfl⟩⟩
      have h0 := h.groups g hg
      rw [hin, hk]
      simp only [reduceCtorEq, if_false]
      omega
    | some k =>
      refine ⟨fun g hg => ?_, fun g₀ hg₀ => ⟨_, mem_updateWhere_of_mem hg₀, by split <;> rfl⟩⟩
      obtain ⟨g₀, hg₀, rfl⟩ := mem_updateWhere.mp hg
      refine ⟨g₀, hg₀, by split <;> rfl, ?_⟩
      have h0 := h.groups g₀ hg₀
      rw [hin, hk]
      by_cases hgk : g₀.key = k
      · simp [hgk]
      · have hgk' : k ≠ g₀.key := fun e => hgk e.symm
        simp only [hgk, decide_false, Bool.false_eq_true, if_false, Option.some.injEq, hgk']
        omega
  have hqueues : QueuesDropped db p (updateWhere (·.name = j.queue) (fun q => { q with
      runningCount := max (q.runningCount - 1) 0 }) db.queues) := by
    intro q hq
    obtain ⟨q₀, hq₀, rfl⟩ := mem_updateWhere.mp hq
    refine ⟨q₀, hq₀, by split <;> rfl, ?_⟩
    have h0 := h.queues q₀ hq₀
    rw [hon]
    by_cases hqk : q₀.name = j.queue
    · simp [hqk]
    · have hqk' : j.queue ≠ q₀.name := fun e => hqk e.symm
      simp only [hqk, decide_false, Bool.false_eq_true, if_false, hqk']
      omega
  refine (h.release hm hp hf hgroups hqueues).congr ?_ ?_ ?_ ?_ <;>
    · unfold Pg.dropSlots dropQueue dropGroup
      cases j.groupKey <;> rfl

end Release

/-! ## Moving jobs into `running` -/

section Claim

variable {db : Db}

/-- The upsert of a counter adds to the row or makes it. -/
theorem upsertGroup_counts {c : String → ℤ} (hc : ∀ g ∈ db.groups, g.runningCount = c g.key) {new : GroupRow}
    (hnew : (∀ g ∈ db.groups, g.key ≠ new.key) → c new.key = 0) {f : GroupRow → GroupRow}
    (hf : ∀ g, (f g).key = g.key ∧ (f g).runningCount = g.runningCount + new.runningCount) :
    (∀ g ∈ (upsertGroup db new f).groups,
      g.runningCount = Function.update c new.key (c new.key + new.runningCount) g.key) ∧
    (∀ k, (∃ g ∈ db.groups, g.key = k) ∨ k = new.key → ∃ g ∈ (upsertGroup db new f).groups, g.key = k) := by
  unfold upsertGroup
  split
  · next hany =>
    refine ⟨fun g hg => ?_, fun k hk => ?_⟩
    · obtain ⟨g₀, hg₀, rfl⟩ := mem_updateWhere.mp hg
      by_cases hk : g₀.key = new.key
      · simp only [hk, decide_true, if_true, (hf g₀).1, (hf g₀).2, Function.update_self, hc g₀ hg₀]
      · simp only [hk, decide_false, Bool.false_eq_true, if_false, Function.update_of_ne hk, hc g₀ hg₀]
    · have hrow : ∃ g ∈ db.groups, g.key = k := by
        rcases hk with hk | rfl
        · exact hk
        · simpa using hany
      obtain ⟨g, hg, hgk⟩ := hrow
      refine ⟨_, mem_updateWhere_of_mem hg, ?_⟩
      split
      · rw [(hf g).1]; exact hgk
      · exact hgk
  · next hany =>
    have hne : ∀ g ∈ db.groups, g.key ≠ new.key := by simpa using hany
    refine ⟨fun g hg => ?_, fun k hk => ?_⟩
    · rcases List.mem_append.mp hg with hg | hg
      · rw [Function.update_of_ne (hne g hg)]
        exact hc g hg
      · rw [List.mem_singleton.mp hg, Function.update_self, hnew hne, zero_add]
    · rcases hk with ⟨g, hg, hk⟩ | rfl
      · exact ⟨g, List.mem_append_left _ hg, hk⟩
      · exact ⟨new, List.mem_append_right _ (List.mem_singleton_self _), rfl⟩

theorem upsertGroup_frame (db : Db) (new : GroupRow) (f : GroupRow → GroupRow) :
    (upsertGroup db new f).jobs = db.jobs ∧ (upsertGroup db new f).queues = db.queues ∧
      (upsertGroup db new f).nextJob = db.nextJob := by
  unfold upsertGroup
  split <;> exact ⟨rfl, rfl, rfl⟩

/-- The loop over the groups of a claim. -/
theorem bumpGroups_spec (slots : List (String × GroupState)) (rows : List JobRow) (clock : ℤ) :
    ∀ (keys : List String) (db : Db) (c : String → ℤ), keys.Nodup → (∀ g ∈ db.groups, g.runningCount = c g.key) →
      (∀ k ∈ keys, (∀ g ∈ db.groups, g.key ≠ k) → c k = 0) →
      (∀ g ∈ (keys.foldl (bumpGroup slots rows clock) db).groups,
        g.runningCount = c g.key + if g.key ∈ keys then groupDelta rows g.key else 0) ∧
      (∀ k, (∃ g ∈ db.groups, g.key = k) ∨ k ∈ keys →
        ∃ g ∈ (keys.foldl (bumpGroup slots rows clock) db).groups, g.key = k) ∧
      (keys.foldl (bumpGroup slots rows clock) db).jobs = db.jobs ∧
      (keys.foldl (bumpGroup slots rows clock) db).queues = db.queues ∧
      (keys.foldl (bumpGroup slots rows clock) db).nextJob = db.nextJob
  | [], db, c, _, hc, _ => by
    refine ⟨fun g hg => ?_, fun k hk => ?_, rfl, rfl, rfl⟩
    · simpa using hc g hg
    · simpa using hk
  | key :: keys, db, c, hnd, hc, hnew => by
    rw [List.nodup_cons] at hnd
    obtain ⟨new, f, heq, hkey, hcount, hf⟩ := bumpGroup_eq slots rows clock db key
    have hnewkey : (∀ g ∈ db.groups, g.key ≠ new.key) → c new.key = 0 := by
      rw [hkey]
      exact hnew key List.mem_cons_self
    obtain ⟨h1, h2⟩ := upsertGroup_counts hc hnewkey (hcount ▸ hf)
    obtain ⟨f1, f2, f3⟩ := upsertGroup_frame db new f
    rw [hkey, hcount] at h1
    rw [hkey] at h2
    rw [List.foldl_cons, heq]
    obtain ⟨i1, i2, i3, i4, i5⟩ := bumpGroups_spec slots rows clock keys (upsertGroup db new f) _ hnd.2 h1
      (fun k hk hno => by
        have hkk : k ≠ key := fun e => hnd.1 (e ▸ hk)
        rw [Function.update_of_ne hkk]
        refine hnew k (List.mem_cons_of_mem _ hk) (fun g hg e => ?_)
        obtain ⟨g', hg', hgk⟩ := h2 k (Or.inl ⟨g, hg, e⟩)
        exact hno g' hg' hgk)
    refine ⟨fun g hg => ?_, fun k hk => ?_, i3.trans f1, i4.trans f2, i5.trans f3⟩
    · rw [i1 g hg]
      by_cases hgk : g.key = key
      · simp [hgk, hnd.1]
      · simp [hgk]
    · refine i2 k ?_
      rcases hk with hk | hk
      · exact Or.inl (h2 k (Or.inl hk))
      · rcases List.mem_cons.mp hk with rfl | hk
        · exact Or.inl (h2 k (Or.inr rfl))
        · exact Or.inr hk

/-- The loop over the queues of a claim. -/
theorem bumpQueues_spec (rows : List JobRow) : ∀ (names : List String) (db : Db) (c : String → ℤ), names.Nodup →
    (∀ q ∈ db.queues, q.runningCount = c q.name) →
      (∀ q ∈ (names.foldl (bumpQueue rows) db).queues,
        q.runningCount = c q.name + if q.name ∈ names then queueDelta rows q.name else 0) ∧
      (names.foldl (bumpQueue rows) db).jobs = db.jobs ∧ (names.foldl (bumpQueue rows) db).groups = db.groups ∧
      (names.foldl (bumpQueue rows) db).nextJob = db.nextJob
  | [], db, c, _, hc => ⟨fun q hq => by simpa using hc q hq, rfl, rfl, rfl⟩
  | name :: names, db, c, hnd, hc => by
    rw [List.nodup_cons] at hnd
    have h1 : ∀ q ∈ (bumpQueue rows db name).queues,
        q.runningCount = Function.update c name (c name + queueDelta rows name) q.name := by
      intro q hq
      obtain ⟨q₀, hq₀, rfl⟩ := mem_updateWhere.mp hq
      by_cases hk : q₀.name = name
      · simp [hk, hc q₀ hq₀]
      · simp [hk, hc q₀ hq₀]
    obtain ⟨i1, i2, i3, i4⟩ := bumpQueues_spec rows names (bumpQueue rows db name) _ hnd.2 h1
    rw [List.foldl_cons]
    refine ⟨fun q hq => ?_, i2, i3, i4⟩
    rw [i1 q hq]
    by_cases hqk : q.name = name
    · simp [hqk, hnd.1]
    · simp [hqk]

theorem countP_start {p : JobRow → Bool} {f : JobRow → JobRow} (hp : ∀ j ∈ db.jobs, p j → j.running = false)
    (hf : ∀ j, (f j).running = true) {q q' : JobRow → Bool} (hq : ∀ j, q j = (j.running && q' j))
    (hq' : ∀ j, q' (f j) = q' j) :
    (updateWhere p f db.jobs).countP q = db.jobs.countP q + db.jobs.countP (fun j => p j && q' j) := by
  have h := countP_updateWhere p q f db.jobs
  have h1 : db.jobs.countP (fun j => p j && q j) = 0 := by
    rw [List.countP_eq_zero]
    intro j hj
    by_cases hpj : p j
    · simp [hq, hp j hj hpj]
    · simp [hpj]
  have h2 : db.jobs.countP (fun j => p j && q (f j)) = db.jobs.countP (fun j => p j && q' j) :=
    List.countP_congr (fun j _ => by simp [hq, hf, hq'])
  rw [h1, h2] at h
  omega

/-- What the loops of a claim add is the number of its rows. -/
theorem groupDelta_rows (ids : List JobId) (w : WorkerId) (now : ℤ) (k : String) : groupDelta (claimedRows db ids w now) k =
    db.jobs.countP (fun j => decide (j.id ∈ ids) && j.groupKey = some k) := by
  rw [groupDelta, claimedRows, List.countP_map, countP_filter_eq]
  rfl

theorem queueDelta_rows (ids : List JobId) (w : WorkerId) (now : ℤ) (n : String) : queueDelta (claimedRows db ids w now) n =
    db.jobs.countP (fun j => decide (j.id ∈ ids) && j.queue = n) := by
  rw [queueDelta, claimedRows, List.countP_map, countP_filter_eq]
  rfl

/-- A key of the loop is that of a claimed row; the other keys gain nothing. -/
theorem groupDelta_of_notMem {rows : List JobRow} {k : String} (h : k ∉ (rows.filterMap (·.groupKey)).dedup) :
    groupDelta rows k = 0 := by
  rw [List.mem_dedup, List.mem_filterMap] at h
  refine Int.ofNat_eq_zero.mpr (List.countP_eq_zero.mpr (fun j hj hjk => h ⟨j, hj, ?_⟩))
  exact of_decide_eq_true hjk

theorem queueDelta_of_notMem {rows : List JobRow} {n : String} (h : n ∉ (rows.map (·.queue)).dedup) :
    queueDelta rows n = 0 := by
  rw [List.mem_dedup, List.mem_map] at h
  refine Int.ofNat_eq_zero.mpr (List.countP_eq_zero.mpr (fun j hj hjk => h ⟨j, hj, ?_⟩))
  exact of_decide_eq_true hjk

/-- **Pending jobs start and their slots are taken.** -/
theorem Counted.commitClaim (h : Counted db) (a : ClaimArgs) (slots : List (String × GroupState)) {ids : List JobId}
    (hids : ∀ j ∈ db.jobs, j.id ∈ ids → j.state = .pending) (now clock : ℤ) :
    Counted (commitClaim db a slots ids now clock) := by
  have hp : ∀ j ∈ db.jobs, decide (j.id ∈ ids) = true → j.running = false := by
    intro j hj hid
    rw [JobRow.running, hids j hj (of_decide_eq_true hid)]
    rfl
  have hin : ∀ k, ((updateWhere (fun j => decide (j.id ∈ ids)) (·.start a.worker now) db.jobs).countP (·.runsIn k) : ℤ) =
      db.jobs.countP (·.runsIn k) + groupDelta (claimedRows db ids a.worker now) k := by
    intro k
    rw [groupDelta_rows, ← Nat.cast_add]
    exact congrArg Nat.cast (countP_start hp (fun _ => rfl) (fun _ => rfl) (fun _ => rfl))
  have hon : ∀ k, ((updateWhere (fun j => decide (j.id ∈ ids)) (·.start a.worker now) db.jobs).countP (·.runsOn k) : ℤ) =
      db.jobs.countP (·.runsOn k) + queueDelta (claimedRows db ids a.worker now) k := by
    intro k
    rw [queueDelta_rows, ← Nat.cast_add]
    exact congrArg Nat.cast (countP_start hp (fun _ => rfl) (fun _ => rfl) (fun _ => rfl))
  unfold Pg.commitClaim
  dsimp only
  -- first the groups, then the queues, from the table whose jobs have started
  obtain ⟨g1, g2, g3, g4, g5⟩ := bumpGroups_spec slots (claimedRows db ids a.worker now) clock
    ((claimedRows db ids a.worker now).filterMap (·.groupKey)).dedup
    { db with jobs := updateWhere (fun j => decide (j.id ∈ ids)) (·.start a.worker now) db.jobs }
    (fun k => db.jobs.countP (·.runsIn k)) (List.nodup_dedup _) h.groups
    (fun k _ hk => Int.ofNat_eq_zero.mpr (h.countP_new hk))
  generalize (((claimedRows db ids a.worker now).filterMap (·.groupKey)).dedup.foldl
    (bumpGroup slots (claimedRows db ids a.worker now) clock) { db with
      jobs := updateWhere (fun j => decide (j.id ∈ ids)) (·.start a.worker now) db.jobs }) = db₂ at *
  obtain ⟨q1, q2, q3, q4⟩ := bumpQueues_spec (claimedRows db ids a.worker now)
    ((claimedRows db ids a.worker now).map (·.queue)).dedup db₂ (fun k => db.jobs.countP (·.runsOn k))
    (List.nodup_dedup _) (by rw [g4]; exact h.queues)
  have hmap : (updateWhere (fun j => decide (j.id ∈ ids)) (·.start a.worker now) db.jobs).map (·.id) =
      db.jobs.map (·.id) := map_updateWhere (fun j => show (j.start a.worker now).id = j.id from rfl) _
  refine ⟨?_, fun j hj => ?_, fun j hj hl => ?_, fun g hg => ?_, fun q hq => ?_, fun j hj hr k hk => ?_⟩
  · rw [q2, g3, hmap]; exact h.ids
  · rw [q2, g3] at hj
    rw [q4, g5]
    obtain ⟨j₀, hj₀, rfl⟩ := mem_updateWhere.mp hj
    split
    · exact h.fresh j₀ hj₀
    · exact h.fresh j₀ hj₀
  · rw [q2, g3] at hj
    obtain ⟨j₀, hj₀, rfl⟩ := mem_updateWhere.mp hj
    by_cases hid : j₀.id ∈ ids
    · simp only [hid, decide_true, if_true]
      exact h.unfinished j₀ hj₀ (by rw [hids j₀ hj₀ hid]; nofun)
    · simp only [hid, decide_false, Bool.false_eq_true, if_false] at hl ⊢
      exact h.unfinished j₀ hj₀ hl
  · rw [q3] at hg
    rw [q2, g3, g1 g hg, hin]
    split
    · ring
    · next hk => rw [groupDelta_of_notMem hk, add_zero]
  · rw [q2, g3, q1 q hq, hon]
    split
    · ring
    · next hk => rw [queueDelta_of_notMem hk, add_zero]
  · rw [q2, g3] at hj
    rw [q3]
    obtain ⟨j₀, hj₀, rfl⟩ := mem_updateWhere.mp hj
    by_cases hid : j₀.id ∈ ids
    · simp only [hid, decide_true, if_true] at hk
      refine g2 k (Or.inr (List.mem_dedup.mpr (List.mem_filterMap.mpr ⟨j₀.start a.worker now, ?_, hk⟩)))
      exact List.mem_map_of_mem (List.mem_filter.mpr ⟨hj₀, decide_eq_true hid⟩)
    · simp only [hid, decide_false, Bool.false_eq_true, if_false] at hr hk
      exact g2 k (Or.inl (h.covered j₀ hj₀ hr k hk))

/-! ### The picks are pending -/

/-- Every pick so far is a pending job. -/
def Claiming.Pending (db : Db) (c : Claiming) : Prop :=
  ∀ x ∈ c.accepted, ∃ j ∈ db.jobs, j.id = x.id ∧ j.state = .pending

theorem mem_pick {free : JobId → Bool} {p : JobRow → Bool} {n : Nat} {j : JobRow} (h : j ∈ pick db free p n) :
    j ∈ db.jobs ∧ p j ∧ free j.id := by
  have hm := mem_orderBy.mp (List.mem_of_mem_take h)
  rw [List.mem_filter, Bool.and_eq_true] at hm
  exact ⟨hm.1, hm.2.1, hm.2.2⟩

theorem length_pick (free : JobId → Bool) (p : JobRow → Bool) (n : Nat) : (pick db free p n).length ≤ n := by
  rw [pick, List.length_take]
  exact Nat.min_le_left _ _

theorem JobRow.due_pending {now : ℤ} {kinds : List String} {j : JobRow} (h : j.due now kinds) : j.state = .pending := by
  simp only [JobRow.due, Bool.and_eq_true, decide_eq_true_eq] at h
  exact h.1.1

/-- What holds of all picks and of the new ones holds of all after them. -/
theorem claimUngrouped_forall {free : JobId → Bool} {a : ClaimArgs} {now : ℤ} {Q : Accepted → Prop} {c : Claiming}
    (h : ∀ y ∈ c.accepted, Q y) {q : String}
    (hq : ∀ j ∈ pick db free (ungroupedOn a now q) (ungroupedLimit a c q), Q { id := j.id, group := none, queue := q }) :
    ∀ y ∈ (claimUngrouped db free a now c q).accepted, Q y := by
  unfold claimUngrouped
  split
  · exact h
  · intro y hy
    rcases List.mem_append.mp hy with hy | hy
    · exact h y hy
    · obtain ⟨j, hj, rfl⟩ := List.mem_map.mp hy
      exact hq j hj

theorem acceptGrouped_forall {Q : Accepted → Prop} (a : ClaimArgs) (key : String) : ∀ (js : List JobRow) (slots : ℤ)
    (c : Claiming), (∀ y ∈ c.accepted, Q y) → (∀ j ∈ js, Q { id := j.id, group := some key, queue := j.queue }) →
      ∀ y ∈ (acceptGrouped a key js slots c).accepted, Q y
  | [], _, _, h, _ => h
  | j :: js, slots, c, h, hjs => by
    have hrest : ∀ i ∈ js, Q { id := i.id, group := some key, queue := i.queue } :=
      fun i hi => hjs i (List.mem_cons_of_mem _ hi)
    unfold acceptGrouped
    split
    · exact h
    split
    · exact acceptGrouped_forall a key js slots c h hrest
    · refine acceptGrouped_forall a key js _ _ (fun y hy => ?_) hrest
      rcases List.mem_append.mp hy with hy | hy
      · exact h y hy
      · rw [List.mem_singleton.mp hy]
        exact hjs j List.mem_cons_self

theorem claimUngrouped_pending {free : JobId → Bool} {a : ClaimArgs} {now : ℤ} {c : Claiming} (h : c.Pending db)
    (q : String) : (claimUngrouped db free a now c q).Pending db := by
  refine claimUngrouped_forall h (fun j hj => ?_)
  obtain ⟨hj, hp, _⟩ := mem_pick hj
  simp only [ungroupedOn, Bool.and_eq_true] at hp
  exact ⟨j, hj, rfl, JobRow.due_pending hp.1.1⟩

theorem claimGrouped_pending {free : JobId → Bool} {a : ClaimArgs} {now : ℤ} {qs : List String} {c : Claiming}
    (h : c.Pending db) (g : String × GroupState) : (claimGrouped db free a now qs c g).Pending db := by
  unfold claimGrouped
  split
  · exact h
  · refine acceptGrouped_forall a g.1 _ _ c h (fun j hj => ?_)
    obtain ⟨hj, hp, _⟩ := mem_pick hj
    simp only [groupedIn, Bool.and_eq_true] at hp
    exact ⟨j, hj, rfl, JobRow.due_pending hp.1.1⟩

theorem claimPicks_pending (db : Db) (a : ClaimArgs) (now clock : ℤ) (order : MapOrder) :
    (claimPicks db a now clock order).1.Pending db := by
  refine List.foldlRecOn _ _ (motive := fun c => Claiming.Pending db c) ?_ (fun c h g _ => claimGrouped_pending h g)
  refine List.foldlRecOn _ _ (motive := fun c => Claiming.Pending db c) ?_ (fun c h q _ => claimUngrouped_pending h q)
  exact nofun

/-- The rows with the ids of the picks are pending. -/
theorem Counted.picked_pending (h : Counted db) {a : ClaimArgs} {now clock : ℤ} {order : MapOrder} {j : JobRow}
    (hj : j ∈ db.jobs) (hid : j.id ∈ (claimPicks db a now clock order).1.accepted.map (·.id)) : j.state = .pending := by
  obtain ⟨x, hx, hxid⟩ := List.mem_map.mp hid
  obtain ⟨j', hj', hid', hst⟩ := claimPicks_pending db a now clock order x hx
  have heq : j' = j := List.inj_on_of_nodup_map h.ids hj' hj (hid'.trans hxid)
  exact heq ▸ hst

theorem Counted.claimBatch (h : Counted db) (a : ClaimArgs) (now clock : ℤ) (order : MapOrder) :
    Counted (claimBatch db a now clock order).1 := by
  rcases claimBatch_inv db a now clock order with heq | heq
  · rw [heq]
    exact h
  · rw [heq]
    exact h.commitClaim a _ (fun j hj hid => h.picked_pending hj hid) now clock

end Claim

end Eddyq.Pg
