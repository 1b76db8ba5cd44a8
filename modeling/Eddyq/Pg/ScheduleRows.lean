import Eddyq.Pg.System
import Eddyq.Pg.Inversion

/-!
# The row of a schedule

What the admin calls do to the row of one name. An upsert puts the row of its body over the stored one
(`schedule?_upsertScheduleRow`), which keeps the next run when the trigger is the same, and the last run and `enabled` in
any case.
-/

namespace Eddyq.Pg

open Eddyq.Lib

/-- The row of a name. -/
def Db.schedule? (db : Db) (name : String) : Option ScheduleRow := db.schedules.find? (fun s => s.name = name)

/-- The row that an upsert leaves. -/
def ScheduleBody.onto (b : ScheduleBody) (cronExpr : Option String) (intervalMs : Option ℤ) (same : ScheduleRow → Bool)
    (next : ℤ) : Option ScheduleRow → ScheduleRow
  | some s => { s with
      kind := b.kind
      payload := b.payload
      cronExpr := cronExpr
      intervalMs := intervalMs
      nextRunAt := if same s then s.nextRunAt else next
      priority := b.priority
      maxAttempts := b.maxAttempts
      queue := b.queue }
  | none => {
      name := b.name, kind := b.kind, payload := b.payload, cronExpr := cronExpr, intervalMs := intervalMs
      nextRunAt := next, priority := b.priority, maxAttempts := b.maxAttempts, queue := b.queue }

variable {db : Db} {n : String}

theorem schedule?_upsertScheduleRow (db : Db) (b : ScheduleBody) (c : Option String) (i : Option ℤ)
    (same : ScheduleRow → Bool) (next : ℤ) (n : String) :
    (upsertScheduleRow db b c i same next).schedule? n =
      if n = b.name then some (b.onto c i same next (db.schedule? n)) else db.schedule? n := by
  unfold upsertScheduleRow Db.schedule?
  split
  · next hany =>
    dsimp only
    refine (find?_updateWhere (g := fun s : ScheduleRow => s.name) (f := fun s => b.onto c i same next (some s))
      (fun _ => rfl) b.name n db.schedules).trans ?_
    split
    · next hn =>
      subst hn
      cases hs : db.schedules.find? (fun s => decide (s.name = b.name)) with
      | none =>
        rw [List.find?_eq_none] at hs
        obtain ⟨s, hs', hname⟩ := List.any_eq_true.mp hany
        exact absurd hname (hs s hs')
      | some s => rfl
    · rfl
  · next hany =>
    dsimp only
    rw [List.find?_append]
    split
    · next hn =>
      subst hn
      have hnone : db.schedules.find? (fun s => decide (s.name = b.name)) = none := by
        rw [List.find?_eq_none]
        simpa using hany
      rw [hnone]
      simp [ScheduleBody.onto]
    · next hn =>
      have hne : b.name ≠ n := fun h => hn h.symm
      simp [hne]

theorem schedule?_removeSchedule (db : Db) (name n : String) :
    (removeSchedule db name).schedule? n = if n = name then none else db.schedule? n := by
  have h := find?_filter_key (g := fun s : ScheduleRow => s.name) (fun m => decide (m ≠ name)) n db.schedules
  unfold removeSchedule Db.schedule?
  refine h.trans ?_
  by_cases hn : n = name
  · simp [hn]
  · simp [hn]

theorem schedule?_setScheduleEnabled (db : Db) (name : String) (enabled : Bool) (n : String) :
    (setScheduleEnabled db name enabled).schedule? n =
      if n = name then (db.schedule? n).map (fun s => { s with enabled := enabled }) else db.schedule? n :=
  find?_updateWhere (g := fun s : ScheduleRow => s.name) (f := fun s => { s with enabled := enabled }) (fun _ => rfl) name n
    db.schedules

/-- What `sync_schedules` keeps. -/
theorem schedule?_keep (db : Db) (keep : List String) (n : String) :
    Db.schedule? { db with schedules := db.schedules.filter (fun s => s.name ∈ keep) } n =
      if n ∈ keep then db.schedule? n else none := by
  have h := find?_filter_key (g := fun s : ScheduleRow => s.name) (fun m => decide (m ∈ keep)) n db.schedules
  refine h.trans ?_
  by_cases hn : n ∈ keep
  · simp [hn, Db.schedule?]
  · simp [hn]

end Eddyq.Pg
