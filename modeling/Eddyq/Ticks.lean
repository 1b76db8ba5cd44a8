import Eddyq.Pg.Ticks
import Eddyq.Redis.Ticks

/-!
# Ticks of both backends

On neither backend is a schedule that has no occurrence left apart from the others: on Postgres it takes the whole tick
back, on Redis it ends the loop (`tick_starved`). `tick_fires_iff` says for both when a tick fires every due schedule
that still has an occurrence.
-/

namespace Eddyq

open Eddyq.Lib

/-- The first moment of 2027. -/
def newYear : ℤ := 1798761600000

/-- Two expressions of the cron crate: once at the new year of 2027, and at the start of every minute. -/
def calendar : Cron := fun expr =>
  if expr = "0 0 0 1 1 * 2027" then .ok (fun t => if t < newYear then some newYear else none)
  else if expr = "0 * * * * *" then .ok (fun t => some ((t / 60000 + 1) * 60000))
  else .error "Invalid expression"

theorem calendar_later : calendar.Later := by
  intro expr next h t t' ht
  unfold calendar at h
  split at h
  · cases h
    dsimp only at ht
    split at ht
    · next hlt =>
      cases ht
      exact hlt
    · cases ht
  split at h
  · cases h
    cases ht
    omega
  · cases h

/-- A schedule for the new year and one for every minute, both accepted half a minute before it. -/
def pgSchedules : List Pg.Op :=
  [.upsertSchedule { name := "new-year", kind := "party", payload := .null, priority := 0, maxAttempts := 3
                     queue := "default" } "0 0 0 1 1 * 2027" (newYear - 30000),
   .upsertSchedule { name := "per-minute", kind := "ping", payload := .null, priority := 0, maxAttempts := 3
                     queue := "default" } "0 * * * * *" (newYear - 30000)]

/-- The same schedules on Redis. -/
def redisSchedules : Except Error Redis.Store := do
  let s ← Redis.upsertScheduleRaw calendar .empty { name := "new-year", kind := "party", cron := "0 0 0 1 1 * 2027" }
    (newYear - 30000)
  Redis.upsertScheduleRaw calendar s { name := "per-minute", kind := "ping", cron := "0 * * * * *" } (newYear - 30000)

/-- The tables and the store that hold them. -/
def pgStarved : Pg.Db := pgSchedules.foldl (Pg.Op.apply calendar) Pg.Db.empty

def redisStarved : Redis.Store := redisSchedules.toOption.getD .empty

theorem pgStarved_reached : pgStarved.Reached calendar (fun _ _ => True) :=
  run_of_guards pgSchedules (Reach.refl _) (by simp [pgSchedules, Guards])

/-- The minute's schedule alone. -/
def pgMinutely : Pg.Db := (pgSchedules.drop 1).foldl (Pg.Op.apply calendar) Pg.Db.empty

def redisMinutely : Redis.Store :=
  Redis.fnScheduleUpsert .empty { name := "per-minute", kind := "ping", cron := "0 * * * * *", nextRun := newYear }

end Eddyq
