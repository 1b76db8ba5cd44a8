import Eddyq.Pg.Lives
import Eddyq.Redis.Lives

/-!
# How often a job is claimed

A claim raises `attempt`; a recovery lowers it again and raises `stalled_count`. The runtime decides on a retry from the
attempt and the budget that the claim told it, the backends decide on the stalls. `claims_bounded` is what this adds up
to in every run of either backend.
-/

namespace Eddyq

open Eddyq.Lib

/-- **A job that has not ended was claimed `attempt + stalled_count` times, and no job is claimed more often than
`max(max_attempts, 1) + max(max_stalled_count, 0)` times**, on both backends. -/
theorem claims_bounded (cron : Cron) :
    (∀ z, Reach ((Pg.desk cron).Step Pg.Op.notVerdict (fun x v => v.From x)) { store := Pg.Db.empty } z →
      (Pg.desk cron).Bounded z) ∧
    (∀ z, Reach (Redis.desk.Step Redis.Op.notVerdict (fun x v => v.From x)) { store := Redis.Store.empty } z →
      Redis.desk.Bounded z) :=
  ⟨fun _ h => (Pg.desk_lawful cron).bounded Pg.Counted.empty (fun _ => rfl) h,
    fun _ h => Redis.desk_lawful.bounded ⟨{}, Redis.empty_refines⟩ (fun _ => rfl) h⟩

/-- A job with two attempts and one stall is swept once and fails twice. -/
def pgSpent : List (Pg.Op ⊕ Lease JobId WorkerId × Pg.Verdict) :=
  let claim (now : ℤ) : Pg.Op := .claim { worker := "w", batchSize := 4, kinds := ["mail"], queues := ["default"] } now now
    { list := fun l => l, perm := Pg.MapOrder.asRead }
  [.inl (.enqueue { kind := "mail", payload := .null, maxAttempts := 2 } 1000),
   .inl (claim 2000),
   .inl (.sweepStale 60 90000),
   .inl (claim 91000),
   .inr (⟨1, "w", 1, 2⟩, .failed .null (some 93000) 92000),
   .inl (claim 94000),
   .inr (⟨1, "w", 2, 2⟩, .failed .null none 95000)]

def redisSpent : List (Redis.Op ⊕ Lease JobId WorkerId × Redis.Verdict) :=
  let claim (now : ℤ) : Redis.Op := .claim { batchSize := 4, worker := "w", now := now, queues := ["default"], kinds := ["mail"] }
  [.inl (.enqueue { kind := "mail", queue := "default", maxAttempts := 2 } 1000),
   .inl (claim 2000),
   .inl (.sweepStale 30000 100),
   .inl (claim 91000),
   .inr (⟨1, "w", 1, 2⟩, .fail 92000 "null" 92000),
   .inl (claim 94000),
   .inr (⟨1, "w", 2, 2⟩, .fail 95000 "null" (-1))]

/-- The books after it. -/
def pgBooks : Books Pg.Db JobId WorkerId := pgSpent.foldl (Pg.desk Pg.noCron).act { store := Pg.Db.empty }

def redisBooks : Books Redis.Store JobId WorkerId := redisSpent.foldl Redis.desk.act { store := Redis.Store.empty }

/-- It has been claimed three times, which is the most there can be. -/
theorem spent_bounded :
    (Pg.desk Pg.noCron).Bounded pgBooks ∧ pgBooks.claims 1 = 3 ∧ (pgBooks.last 1).map (·.limit) = some 3 ∧
    Redis.desk.Bounded redisBooks ∧ redisBooks.claims 1 = 3 ∧ (redisBooks.last 1).map (·.limit) = some 3 := by
  have hpg : (Pg.desk Pg.noCron).Acts Pg.Op.notVerdict (fun x v => v.From x) { store := Pg.Db.empty } pgSpent :=
    ⟨trivial, trivial, trivial, trivial, ⟨by decide, by decide, Or.inr ⟨93000, by decide⟩⟩, trivial,
      ⟨by decide, by decide, Or.inr ⟨0, by decide⟩⟩, trivial⟩
  have hredis : Redis.desk.Acts Redis.Op.notVerdict (fun x v => v.From x) { store := Redis.Store.empty } redisSpent :=
    ⟨trivial, trivial, trivial, trivial, ⟨by decide, by decide, Or.inr ⟨92000, by decide⟩⟩, trivial,
      ⟨by decide, by decide, Or.inr ⟨0, by decide⟩⟩, trivial⟩
  exact ⟨(claims_bounded Pg.noCron).1 _ (Desk.reach_of_acts _ _ (Reach.refl _) hpg), by decide, by decide,
    (claims_bounded Pg.noCron).2 _ (Desk.reach_of_acts _ _ (Reach.refl _) hredis), by decide, by decide⟩

end Eddyq
