import Eddyq.Pg.Leases
import Eddyq.Redis.Leases

/-!
# Fencing on both backends

The only token of a lease is the worker id, one for the life of a process. A process that claims a job again while its
own earlier execution of it is still under way holds two executions that the backends cannot tell apart, and the earlier
one ends the later claim (`reclaimed_unfenced`). `claims_fenced` is the rule: where this does not happen, and on Redis no
job is failed by a recovery while its execution is under way, every run is fenced.
-/

namespace Eddyq

open Eddyq.Lib

/-- **Every run of careful calls is fenced**, on both backends. -/
theorem claims_fenced (cron : Cron) :
    (∀ z, Reach ((Pg.lessor cron).Step ((Pg.lessor cron).Careful Pg.Op.notVerdict (fun _ _ _ _ => True)))
      { store := Pg.Db.empty } z → (Pg.lessor cron).Fenced z) ∧
    (∀ z, Reach (Redis.lessor.Step (Redis.lessor.Careful Redis.Op.notVerdict Redis.Op.Spares))
      { store := Redis.Store.empty } z → Redis.lessor.Fenced z) :=
  ⟨fun _ h => (Pg.fence cron).fenced Pg.Counted.empty h,
    fun _ h => Redis.fence.fenced ⟨{}, Redis.empty_refines⟩ h⟩

/-- A job that process `a` has stalled on is swept and claimed by `w`. -/
def pgHandover (w : WorkerId) : List (Act Pg.Op Pg.Verdict) :=
  [.call (.enqueue { kind := "mail", payload := .null } 1000),
   .call (.claim { worker := "a", batchSize := 4, kinds := ["mail"], queues := ["default"] } 2000 2000
     { list := fun l => l, perm := Pg.MapOrder.asRead }),
   .call (.sweepStale 60 90000),
   .call (.claim { worker := w, batchSize := 4, kinds := ["mail"], queues := ["default"] } 91000 91000
     { list := fun l => l, perm := Pg.MapOrder.asRead })]

def redisHandover (w : WorkerId) : List (Act Redis.Op Redis.Verdict) :=
  [.call (.enqueue { kind := "mail", queue := "default" } 1000),
   .call (.claim { batchSize := 4, worker := "a", now := 2000, queues := ["default"], kinds := ["mail"] }),
   .call (.sweepStale 30000 100),
   .call (.claim { batchSize := 4, worker := w, now := 91000, queues := ["default"], kinds := ["mail"] })]

/-- The backends after it. -/
def pgHandedOver (w : WorkerId) : Leased Pg.Db JobId WorkerId :=
  (pgHandover w).foldl (Pg.lessor Pg.noCron).act { store := Pg.Db.empty }

def redisHandedOver (w : WorkerId) : Leased Redis.Store JobId WorkerId :=
  (redisHandover w).foldl Redis.lessor.act { store := Redis.Store.empty }

/-- Between two processes the calls are careful. -/
theorem handover_fenced :
    (Pg.lessor Pg.noCron).Acts ((Pg.lessor Pg.noCron).Careful Pg.Op.notVerdict (fun _ _ _ _ => True))
      { store := Pg.Db.empty } (pgHandover "b") ∧
    Redis.lessor.Acts (Redis.lessor.Careful Redis.Op.notVerdict Redis.Op.Spares)
      { store := Redis.Store.empty } (redisHandover "b") ∧
    (pgHandedOver "b").execs = [⟨1, "a", 0⟩, ⟨1, "b", 1⟩] ∧ (redisHandedOver "b").execs = [⟨1, "a", 0⟩, ⟨1, "b", 1⟩] ∧
    (Pg.lessor Pg.noCron).Fenced (pgHandedOver "b") ∧ Redis.lessor.Fenced (redisHandedOver "b") := by
  have hpg : (Pg.lessor Pg.noCron).Acts ((Pg.lessor Pg.noCron).Careful Pg.Op.notVerdict (fun _ _ _ _ => True))
      { store := Pg.Db.empty } (pgHandover "b") :=
    ⟨⟨trivial, by decide⟩, ⟨trivial, by decide⟩, ⟨trivial, by decide⟩, ⟨trivial, by decide⟩, trivial⟩
  have hredis : Redis.lessor.Acts (Redis.lessor.Careful Redis.Op.notVerdict Redis.Op.Spares)
      { store := Redis.Store.empty } (redisHandover "b") := by
    have hone : ∀ x ∈ ((redisHandover "b").take 2 |>.foldl Redis.lessor.act { store := Redis.Store.empty }).execs,
        x = ⟨1, "a", 0⟩ := by decide
    have hone' : ∀ x ∈ ((redisHandover "b").take 3 |>.foldl Redis.lessor.act { store := Redis.Store.empty }).execs,
        x = ⟨1, "a", 0⟩ := by decide
    refine ⟨⟨trivial, fun _ hx => absurd hx List.not_mem_nil⟩, ⟨trivial, fun _ hx => absurd hx List.not_mem_nil⟩,
      ⟨trivial, fun x hx => ?_⟩, ⟨trivial, fun x hx => ?_⟩, trivial⟩
    · rw [hone x hx]
      refine ⟨by decide, by decide, fun _ => ?_⟩
      show ¬ (_ ∧ _)
      decide
    · rw [hone' x hx]
      exact ⟨by decide, by decide, fun _ => id⟩
  refine ⟨hpg, hredis, by decide, by decide, ?_, ?_⟩
  · exact (claims_fenced Pg.noCron).1 _ (Lessor.reach_of_acts _ _ (Reach.refl _) hpg)
  · exact (claims_fenced Pg.noCron).2 _ (Lessor.reach_of_acts _ _ (Reach.refl _) hredis)

/-- A job with no stall budget is swept. -/
def deadLetteredRun : List (Act Redis.Op Redis.Verdict) :=
  [.call (.enqueue { kind := "mail", queue := "default", maxStalledCount := 0 } 1000),
   .call (.claim { batchSize := 4, worker := "a", now := 2000, queues := ["default"], kinds := ["mail"] }),
   .call (.sweepStale 30000 100)]

/-- **An execution that has lost its claim ends the next one**, when that is of the same process; on Redis it also
completes the job that the sweep has failed. -/
theorem reclaimed_unfenced :
    Reach ((Pg.lessor Pg.noCron).Step (fun _ op => op.notVerdict)) { store := Pg.Db.empty } (pgHandedOver "a") ∧
    ¬ (Pg.lessor Pg.noCron).Fenced (pgHandedOver "a") ∧
    Reach (Redis.lessor.Step (fun _ op => op.notVerdict)) { store := Redis.Store.empty } (redisHandedOver "a") ∧
    ¬ Redis.lessor.Fenced (redisHandedOver "a") ∧
    Reach (Redis.lessor.Step (fun _ op => op.notVerdict)) { store := Redis.Store.empty }
      (deadLetteredRun.foldl Redis.lessor.act { store := Redis.Store.empty }) ∧
    ¬ Redis.lessor.Fenced (deadLetteredRun.foldl Redis.lessor.act { store := Redis.Store.empty }) := by
  refine ⟨?_, fun h => ?_, ?_, fun h => ?_, ?_, fun h => ?_⟩
  · exact Lessor.reach_of_acts _ _ (Reach.refl _) ⟨trivial, trivial, trivial, trivial, trivial⟩
  · have hsame := h.stale ⟨1, "a", 0⟩ (by decide) (by decide) (.completed none 92000)
    have hruns : (Pg.lessor Pg.noCron).running ((Pg.lessor Pg.noCron).judge (pgHandedOver "a").store 1 "a"
      (.completed none 92000)) 1 ≠ (Pg.lessor Pg.noCron).running (pgHandedOver "a").store 1 := by decide
    exact hruns (by rw [hsame])
  · exact Lessor.reach_of_acts _ _ (Reach.refl _) ⟨trivial, trivial, trivial, trivial, trivial⟩
  · have hsame := h.stale ⟨1, "a", 0⟩ (by decide) (by decide) (.complete 92000 "null")
    have hruns : Redis.lessor.running (Redis.lessor.judge (redisHandedOver "a").store 1 "a" (.complete 92000 "null")) 1 ≠
        Redis.lessor.running (redisHandedOver "a").store 1 := by decide
    exact hruns (by rw [hsame])
  · exact Lessor.reach_of_acts _ _ (Reach.refl _) ⟨trivial, trivial, trivial, trivial⟩
  · have hsame := h.stale ⟨1, "a", 0⟩ (by decide) (by decide) (.complete 92000 "null")
    have hstate : (Redis.lessor.judge (deadLetteredRun.foldl Redis.lessor.act { store := Redis.Store.empty }).store 1 "a"
      (.complete 92000 "null")).state 1 ≠
        (deadLetteredRun.foldl Redis.lessor.act { store := Redis.Store.empty }).store.state 1 := by decide
    exact hstate (by rw [hsame])

end Eddyq
