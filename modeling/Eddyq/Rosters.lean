import Eddyq.Pg.Rosters
import Eddyq.Redis.Rosters

/-!
# Heartbeats and reclaims on both backends

A process sends heartbeats for the ids it has `in_flight`, and a shutdown gives back those of a snapshot taken before its
grace period. Neither call says whose leases it means. `lists_touch_own` is the rule: they touch only the leases of their
caller as long as no job is claimed while another process still has its id, and once that happens they can touch the lease
of the other (`swept_job_touched`).
-/

namespace Eddyq

open Eddyq.Lib

/-- **Heartbeats and reclaims touch only own leases**, on both backends, in every run in which no job is claimed while
another process has its id; after every other claim there is a continuation in which they do not. -/
theorem lists_touch_own (cron : Cron) :
    (∀ db₀ z, (Pg.registry cron).Reached (Pg.registry cron).Careful db₀ z → (Pg.registry cron).TouchesOwn z) ∧
    (∀ s₀ z, Redis.registry.Reached Redis.registry.Careful s₀ z → Redis.registry.TouchesOwn z) ∧
    (∀ z op, ¬ (Pg.registry cron).Careful z op →
      ∃ z', Reach (Guarded (FleetAct.Ok fun _ _ => False) (Pg.registry cron).act) ((Pg.registry cron).act z (.call op)) z' ∧
        ¬ (Pg.registry cron).TouchesOwn z') ∧
    (∀ z op, ¬ Redis.registry.Careful z op →
      ∃ z', Reach (Guarded (FleetAct.Ok fun _ _ => False) Redis.registry.act) (Redis.registry.act z (.call op)) z' ∧
        ¬ Redis.registry.TouchesOwn z') :=
  ⟨fun _ _ h => (Pg.registry_lawful cron).touchesOwn h, fun _ _ h => Redis.registry_lawful.touchesOwn h,
    fun _ _ h => (Pg.registry_lawful cron).overreaches h, fun _ _ h => Redis.registry_lawful.overreaches h⟩

/-- Process `a` claims a job, works on it and takes a list. -/
def pgListed : List (FleetAct Pg.Op Pg.Touch JobId WorkerId) :=
  [.call (.enqueue { kind := "mail", payload := .null } 1000),
   .call (.claim { worker := "a", batchSize := 4, kinds := ["mail"], queues := ["default"] } 2000 2000
     { list := fun l => l, perm := Pg.MapOrder.asRead }),
   .enter "a" 1, .take "a"]

def redisListed : List (FleetAct Redis.Op Redis.Touch JobId WorkerId) :=
  [.call (.enqueue { kind := "mail", queue := "default" } 1000),
   .call (.claim { batchSize := 4, worker := "a", now := 2000, queues := ["default"], kinds := ["mail"] }),
   .enter "a" 1, .take "a"]

/-- The fleets after these acts. -/
def pgFleet (xs : List (FleetAct Pg.Op Pg.Touch JobId WorkerId)) : Fleet Pg.Db JobId WorkerId :=
  xs.foldl (Pg.registry Pg.noCron).act { store := Pg.Db.empty }

def redisFleet (xs : List (FleetAct Redis.Op Redis.Touch JobId WorkerId)) : Fleet Redis.Store JobId WorkerId :=
  xs.foldl Redis.registry.act { store := Redis.Store.empty }

/-- The claim has reached `a`. -/
theorem listed_arrived : 1 ∈ ((pgFleet (pgListed.take 2)).roster "a").arriving ∧
    1 ∈ ((redisFleet (redisListed.take 2)).roster "a").arriving := by decide

theorem listed_touches_own :
    (Pg.registry Pg.noCron).Reached (Pg.registry Pg.noCron).Careful Pg.Db.empty (pgFleet pgListed) ∧
    Redis.registry.Reached Redis.registry.Careful Redis.Store.empty (redisFleet redisListed) ∧
    ((pgFleet pgListed).roster "a").taken = [[1]] ∧ ((redisFleet redisListed).roster "a").taken = [[1]] ∧
    (Pg.registry Pg.noCron).TouchesOwn (pgFleet pgListed) ∧ Redis.registry.TouchesOwn (redisFleet redisListed) := by
  have hempty : ∀ j : JobId, ¬ ({} : Roster JobId).Holds j := by
    rintro j (h | h | ⟨l, h, _⟩) <;> exact absurd h List.not_mem_nil
  have hpg : (Pg.registry Pg.noCron).Reached (Pg.registry Pg.noCron).Careful Pg.Db.empty (pgFleet pgListed) := by
    refine run_of_guards pgListed (Reach.refl _) ⟨fun g hg => absurd hg List.not_mem_nil, fun g _ w hw => ?_,
      listed_arrived.1, trivial, trivial⟩
    exact hempty _
  have hredis : Redis.registry.Reached Redis.registry.Careful Redis.Store.empty (redisFleet redisListed) := by
    refine run_of_guards redisListed (Reach.refl _) ⟨fun g hg => absurd hg List.not_mem_nil, fun g _ w hw => ?_,
      listed_arrived.2, trivial, trivial⟩
    exact hempty _
  obtain ⟨hown, hown', _⟩ := lists_touch_own Pg.noCron
  exact ⟨hpg, hredis, by decide, by decide, hown _ _ hpg, hown' _ _ hredis⟩

/-- The job is swept, and `b` claims it. -/
def pgStolen : List (FleetAct Pg.Op Pg.Touch JobId WorkerId) :=
  pgListed ++ [.call (.sweepStale 60 90000),
    .call (.claim { worker := "b", batchSize := 4, kinds := ["mail"], queues := ["default"] } 91000 91000
      { list := fun l => l, perm := Pg.MapOrder.asRead })]

def redisStolen : List (FleetAct Redis.Op Redis.Touch JobId WorkerId) :=
  redisListed ++ [.call (.sweepStale 30000 100),
    .call (.claim { batchSize := 4, worker := "b", now := 91000, queues := ["default"], kinds := ["mail"] })]

/-- **The list of a process touches the lease of another**: `b` runs the job, a heartbeat of `a` keeps it alive, and a
reclaim of `a` takes it away. -/
theorem swept_job_touched :
    (Pg.registry Pg.noCron).Reached (fun _ _ => True) Pg.Db.empty (pgFleet pgStolen) ∧
    (pgFleet pgStolen).store.leaseOf 1 (some "b") ∧ ((pgFleet pgStolen).roster "a").taken = [[1]] ∧
    ((Pg.registry Pg.noCron).touch (pgFleet pgStolen).store (.heartbeat 120000) [1]).jobs.map (·.heartbeatAt) =
      [some 120000] ∧
    ¬ ((Pg.registry Pg.noCron).touch (pgFleet pgStolen).store (.reclaim 92000) [1]).leaseOf 1 (some "b") ∧
    ¬ (Pg.registry Pg.noCron).TouchesOwn (pgFleet pgStolen) ∧
    Redis.registry.Reached (fun _ _ => True) Redis.Store.empty (redisFleet redisStolen) ∧
    (redisFleet redisStolen).store.leaseOf 1 (some "b") ∧ ((redisFleet redisStolen).roster "a").taken = [[1]] ∧
    ((Redis.registry.touch (redisFleet redisStolen).store (.heartbeat 120000) [1]).hash 1).lockedAt = some 120000 ∧
    ¬ (Redis.registry.touch (redisFleet redisStolen).store (.reclaim 92000) [1]).leaseOf 1 (some "b") ∧
    ¬ Redis.registry.TouchesOwn (redisFleet redisStolen) := by
  have hpg : ¬ ((Pg.registry Pg.noCron).touch (pgFleet pgStolen).store (.reclaim 92000) [1]).leaseOf 1 (some "b") := by
    decide
  have hredis : ¬ (Redis.registry.touch (redisFleet redisStolen).store (.reclaim 92000) [1]).leaseOf 1 (some "b") := by
    decide
  have hlease : (redisFleet redisStolen).store.leaseOf 1 (some "b") := by decide
  refine ⟨?_, by decide, by decide, by decide, hpg, fun h => ?_, ?_, hlease, by decide, by decide, hredis, fun h => ?_⟩
  · exact run_of_guards pgStolen (Reach.refl _) ⟨trivial, trivial, listed_arrived.1, trivial, trivial, trivial, trivial⟩
  · have hnot : ¬ (pgFleet pgStolen).store.leaseOf 1 (some "a") := by decide
    have hsame : (pgFleet pgStolen).store.sameRow
      ((Pg.registry Pg.noCron).touch (pgFleet pgStolen).store (.reclaim 92000) [1]) 1 :=
      h "a" [1] (by decide) (.reclaim 92000) 1 hnot
    obtain ⟨j, hj, hid, hr, hw⟩ : (pgFleet pgStolen).store.leaseOf 1 (some "b") := by decide
    exact hpg ⟨j, hsame j hj hid, hid, hr, hw⟩
  · exact run_of_guards redisStolen (Reach.refl _) ⟨trivial, trivial, listed_arrived.2, trivial, trivial, trivial, trivial⟩
  · have hnot : ¬ (redisFleet redisStolen).store.leaseOf 1 (some "a") := by decide
    have hsame : (Redis.registry.touch (redisFleet redisStolen).store (.reclaim 92000) [1]).cell 1 =
      (redisFleet redisStolen).store.cell 1 := h "a" [1] (by decide) (.reclaim 92000) 1 hnot
    have hh : (Redis.registry.touch (redisFleet redisStolen).store (.reclaim 92000) [1]).hash 1 =
      (redisFleet redisStolen).store.hash 1 := congrArg Redis.JobCell.fields hsame
    refine hredis ?_
    unfold Redis.Store.leaseOf Redis.Store.state Redis.Store.owner
    rw [hh]
    exact hlease

end Eddyq
