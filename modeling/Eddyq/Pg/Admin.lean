import Eddyq.Pg.Tables

/-!
# Limits on groups and queues

`group.rs` and `named_queue.rs`: each call is one upsert. A new queue row starts from the number of jobs running on the
queue; a new group row starts from zero, since the first claim of a group has already made its row.
-/

namespace Eddyq.Pg

open Eddyq.Lib

/-! ## Groups -/

/-- `group::set_concurrency`. -/
def groupSetConcurrency (db : Db) (key : String) (cap : ℤ) : Db :=
  upsertGroup db { key := key, maxConcurrency := max cap 0 } (fun g => { g with maxConcurrency := max cap 0 })

/-- `group::set_paused`. -/
def groupSetPaused (db : Db) (key : String) (paused : Bool) : Db :=
  upsertGroup db { key := key, paused := paused } (fun g => { g with paused := paused })

/-- `i32::try_from(n).unwrap_or(i32::MAX)`. -/
def toI32 (n : Nat) : ℤ := min n unlimited

/-- `group::set_rate`; the period is in milliseconds. -/
def groupSetRate (db : Db) (key : String) (count periodMs : Nat) (now : ℤ) : Except Error Db :=
  let count := toI32 count
  let period := toI32 periodMs
  if count ≤ 0 ∨ period ≤ 0 then .error (.invalidArgument "rate count and period must both be positive")
  else .ok (upsertGroup db
    { key := key, rateCount := some count, ratePeriodMs := some period, tokens := count, tokensRefilledAt := some now }
    (fun g => { g with
      rateCount := some count, ratePeriodMs := some period, tokens := count, tokensRefilledAt := some now }))

/-- `group::clear_rate`. -/
def groupClearRate (db : Db) (key : String) : Db :=
  { db with groups := updateWhere (·.key = key) (fun g => { g with
      rateCount := none, ratePeriodMs := none, tokens := 0, tokensRefilledAt := none }) db.groups }

/-- `GroupRule`; the period is in milliseconds. -/
structure GroupRule where
  maxConcurrency : Option ℤ
  rateCount : Option Nat
  ratePeriodMs : Option Nat
  priority : ℤ

/-- The row of a rule. -/
def GroupRule.toRow (r : GroupRule) (pattern : String) : RuleRow where
  pattern := pattern
  maxConcurrency := r.maxConcurrency
  rateCount := r.rateCount.map toI32
  ratePeriodMs := r.ratePeriodMs.map toI32
  priority := r.priority

/-- `eddyq_group_rules_rate_check`. -/
def RuleRow.rateOk (r : RuleRow) : Bool :=
  match r.rateCount, r.ratePeriodMs with
  | none, none => true
  | some c, some p => 0 < c && 0 < p
  | _, _ => false

/-- `group::set_rule`. -/
def groupSetRule (db : Db) (pattern : String) (rule : GroupRule) : Except Error Db :=
  if rule.maxConcurrency.isNone ∧ rule.rateCount.isNone then
    .error (.invalidArgument "GroupRule must specify at least one of max_concurrency or rate")
  else if ¬ (rule.toRow pattern).rateOk then
    .error (.database
      "new row for relation \"eddyq_group_rules\" violates check constraint \"eddyq_group_rules_rate_check\"")
  else if db.rules.any (·.pattern = pattern) then
    .ok { db with rules := updateWhere (·.pattern = pattern) (fun _ => rule.toRow pattern) db.rules }
  else .ok { db with rules := db.rules ++ [rule.toRow pattern] }

/-- `group::remove_rule`. -/
def groupRemoveRule (db : Db) (pattern : String) : Db :=
  { db with rules := db.rules.filter (·.pattern ≠ pattern) }

/-! ## Queues -/

/-- `SELECT COUNT(*) FROM eddyq_jobs WHERE queue = $1 AND state = 'running'`. -/
def Db.runningOn (db : Db) (name : String) : ℤ := db.jobs.countP (·.runsOn name)

/-- `named_queue::set_concurrency`. -/
def queueSetConcurrency (db : Db) (name : String) (cap : ℤ) : Db :=
  upsertQueue db { name := name, maxConcurrency := max cap 0, runningCount := db.runningOn name }
    (fun q => { q with maxConcurrency := max cap 0 })

/-- `named_queue::set_paused`. -/
def queueSetPaused (db : Db) (name : String) (paused : Bool) : Db :=
  upsertQueue db { name := name, paused := paused, runningCount := db.runningOn name }
    (fun q => { q with paused := paused })

/-- `named_queue::set_timeout`, in milliseconds. -/
def queueSetTimeout (db : Db) (name : String) (timeoutMs : Option Nat) : Db :=
  let ms := (timeoutMs.map toI32).filter (0 < ·)
  upsertQueue db { name := name, defaultTimeoutMs := ms, runningCount := db.runningOn name }
    (fun q => { q with defaultTimeoutMs := ms })

end Eddyq.Pg
