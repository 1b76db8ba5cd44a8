import Eddyq.Lib.ZSet
import Eddyq.Lib.Runs
import Eddyq.Job
import Mathlib.Data.Finset.Basic
import Mathlib.Data.Rat.Defs

/-!
# The Redis store of one line

The keys of `library.lua` by type: the job HASHes and error lists, the sorted sets that hold job ids (`ZKey`, one
constructor for each key builder), the id sets (`SKey`), the unique-key reservations, the metadata of groups and
named queues, the group rules and the schedules. A key that Redis would drop because it became empty is the empty
value here. Published wakeups are not keys and are left out.

A function of the library moves one job at a time by commands on that job's keys. What a store says about one job
is its *cell* (`Store.cell`): the HASH, the scores, the set memberships and the error list. Every command on one id
rewrites the cell of that id and no other (`cell_hset`, `cell_zadd`, `cell_zrem`, ...).
-/

namespace Eddyq.Redis

open Eddyq.Lib

/-! ## Keys -/

/-- The sorted sets that hold job ids. -/
inductive ZKey
  | wait (q : String)
  | delayed
  | active
  | completed
  | failed
  | cancelled
  | grouprun (g : String)
  | nqrun (q : String)
  | nqcompleted (q : String)
  | nqfailed (q : String)
  | nqscheduled (q : String)
  | nqcancelled (q : String)
  deriving DecidableEq

/-- The sets that hold job ids. -/
inductive SKey
  | queueset (q : String)
  | kindset (k : String)
  | tagset (t : String)
  deriving DecidableEq

/-! ## Values -/

/-- A job HASH. Every field is optional: `HSET` on a missing key makes a HASH of just the fields it sets. The
retention rules are absent both for a missing field and for the empty text. -/
structure JobHash where
  id : Option JobId := none
  kind : Option String := none
  payload : Option String := none
  priority : Option ℤ := none
  maxAttempts : Option ℤ := none
  attempt : Option ℤ := none
  stalledCount : Option ℤ := none
  maxStalledCount : Option ℤ := none
  state : Option JobState := none
  queue : Option String := none
  groupKey : Option String := none
  uniqueKey : Option String := none
  tags : Option (List String) := none
  metadata : Option String := none
  removeOnComplete : Option RetentionRule := none
  removeOnFail : Option RetentionRule := none
  scheduledAt : Option ℤ := none
  createdAt : Option ℤ := none
  lockedAt : Option ℤ := none
  lockedBy : Option String := none
  completedAt : Option ℤ := none
  failedAt : Option ℤ := none
  cancelledAt : Option ℤ := none
  result : Option String := none
  deriving DecidableEq

/-- `group:<g>:meta`; tokens are exact. -/
structure GroupMeta where
  maxConcurrency : Option ℤ := none
  paused : Option ℤ := none
  rateCount : Option ℤ := none
  ratePeriodMs : Option ℤ := none
  tokens : Option ℚ := none
  tokensRefilledAtMs : Option ℤ := none
  deriving DecidableEq

/-- `nq:<q>:meta`. -/
structure NqMeta where
  maxConcurrency : Option ℤ := none
  paused : Option ℤ := none
  defaultTimeoutMs : Option ℤ := none
  deriving DecidableEq

/-- An entry of `group_rules`; a JSON `null` is an absent field. -/
structure GroupRule where
  maxConcurrency : Option ℤ := none
  rateCount : Option ℤ := none
  ratePeriodMs : Option ℤ := none
  priority : Option ℤ := none
  deriving DecidableEq

/-- An entry of `schedules`. -/
structure ScheduleEntry where
  cron : String
  kind : String
  payload : String
  priority : ℤ
  maxAttempts : ℤ
  queue : String
  enabled : ℤ
  lastRunAtMs : ℤ
  nextRunAtMs : ℤ
  intervalMs : ℤ
  deriving DecidableEq

/-- All keys of one line. -/
structure Store where
  idgen : Nat := 0
  job : JobId → Option JobHash := fun _ => none
  errors : JobId → List String := fun _ => []
  zsets : ZKey → ZSet JobId := fun _ => .empty
  sets : SKey → Finset JobId := fun _ => ∅
  unique : String → Option JobId := fun _ => none
  groupMeta : String → GroupMeta := fun _ => {}
  groups : List String := []
  groupRules : List (String × GroupRule) := []
  queuesSeen : List String := []
  nqMeta : String → NqMeta := fun _ => {}
  nqs : List String := []
  schedules : List (String × ScheduleEntry) := []
  schedulesIdx : List String := []
  schedulesNext : ZSet String := .empty

/-- The store of a line that nobody has used. -/
def Store.empty : Store := {}

namespace Store

/-! ## Commands -/

/-- What `HGET` and `HMGET` on a job see; a missing HASH has no field. -/
def hash (s : Store) (id : JobId) : JobHash := (s.job id).getD {}

/-- `HSET` on a job HASH. -/
def hset (s : Store) (id : JobId) (f : JobHash → JobHash) : Store :=
  { s with job := Function.update s.job id (some (f (s.hash id))) }

/-- `DEL` of a job HASH. -/
def delJob (s : Store) (id : JobId) : Store := { s with job := Function.update s.job id none }

/-- `RPUSH` and `LTRIM` on an error list (`MAX_ERROR_ENTRIES = 10`). -/
def pushError (s : Store) (id : JobId) (e : String) : Store :=
  { s with errors := Function.update s.errors id ((s.errors id ++ [e]).drop ((s.errors id).length + 1 - 10)) }

/-- `DEL` of an error list. -/
def delErrors (s : Store) (id : JobId) : Store := { s with errors := Function.update s.errors id [] }

/-- `ZADD`. -/
def zadd (s : Store) (k : ZKey) (score : ℤ) (id : JobId) : Store :=
  { s with zsets := Function.update s.zsets k ((s.zsets k).add score id) }

/-- `ZREM`. -/
def zrem (s : Store) (k : ZKey) (id : JobId) : Store :=
  { s with zsets := Function.update s.zsets k ((s.zsets k).rem id) }

/-- `SADD`. -/
def sadd (s : Store) (k : SKey) (id : JobId) : Store :=
  { s with sets := Function.update s.sets k (insert id (s.sets k)) }

/-- `SREM`. -/
def srem (s : Store) (k : SKey) (id : JobId) : Store :=
  { s with sets := Function.update s.sets k ((s.sets k).erase id) }

/-- `SET unique:<u> <id>`. -/
def setUnique (s : Store) (u : String) (id : JobId) : Store :=
  { s with unique := Function.update s.unique u (some id) }

/-- `DEL unique:<u>`. -/
def delUnique (s : Store) (u : String) : Store := { s with unique := Function.update s.unique u none }

/-- The score of a job in a sorted set. -/
def zscore (s : Store) (k : ZKey) (id : JobId) : Option ℤ := (s.zsets k).score? id

end Store

/-! ## Cells -/

/-- What the store says about one job. -/
@[ext]
structure JobCell where
  hash : Option JobHash
  score : ZKey → Option ℤ
  member : SKey → Prop
  errors : List String

namespace JobCell

/-- The cell of an id no key mentions. -/
def empty : JobCell := ⟨none, fun _ => none, fun _ => False, []⟩

/-- What `HGET` sees. -/
def fields (c : JobCell) : JobHash := c.hash.getD {}

def hset (c : JobCell) (f : JobHash → JobHash) : JobCell := { c with hash := some (f c.fields) }
def delJob (c : JobCell) : JobCell := { c with hash := none }
def zadd (c : JobCell) (k : ZKey) (sc : ℤ) : JobCell := { c with score := Function.update c.score k (some sc) }
def zrem (c : JobCell) (k : ZKey) : JobCell := { c with score := Function.update c.score k none }
def sadd (c : JobCell) (k : SKey) : JobCell := { c with member := Function.update c.member k True }
def srem (c : JobCell) (k : SKey) : JobCell := { c with member := Function.update c.member k False }

def pushError (c : JobCell) (e : String) : JobCell :=
  { c with errors := (c.errors ++ [e]).drop (c.errors.length + 1 - 10) }

def delErrors (c : JobCell) : JobCell := { c with errors := [] }

end JobCell

/-- The cell of one job. -/
def Store.cell (s : Store) (id : JobId) : JobCell where
  hash := s.job id
  score k := s.zscore k id
  member k := id ∈ s.sets k
  errors := s.errors id

namespace Store

variable (s : Store) (id : JobId)

theorem cell_fields : (s.cell id).fields = s.hash id := rfl

theorem cell_hash : (s.cell id).hash = s.job id := rfl
theorem cell_score (k : ZKey) : (s.cell id).score k = s.zscore k id := rfl
theorem cell_member (k : SKey) : (s.cell id).member k = (id ∈ s.sets k) := rfl
theorem cell_errors : (s.cell id).errors = s.errors id := rfl

/-- Two stores agree on the cells when they agree on the four kinds of keys. -/
theorem cell_congr {s' : Store} {i : JobId} {c : JobCell} (hh : s'.job i = c.hash)
    (hz : ∀ k, s'.zscore k i = c.score k) (hm : ∀ k, i ∈ s'.sets k ↔ c.member k) (he : s'.errors i = c.errors) :
    s'.cell i = c := by
  ext1
  · exact hh
  · exact funext hz
  · exact funext fun k => propext (hm k)
  · exact he

@[simp]
theorem cell_hset (f : JobHash → JobHash) :
    (s.hset id f).cell = Function.update s.cell id ((s.cell id).hset f) := by
  funext i
  by_cases h : i = id
  · subst h; apply cell_congr <;> simp [cell_score, cell_member, cell_errors, hset, zscore, JobCell.hset, cell_fields]
  · apply cell_congr <;> simp [cell_hash, cell_score, cell_member, cell_errors, hset, zscore, h]

@[simp]
theorem cell_delJob : (s.delJob id).cell = Function.update s.cell id (s.cell id).delJob := by
  funext i
  by_cases h : i = id
  · subst h; apply cell_congr <;> simp [cell_score, cell_member, cell_errors, delJob, zscore, JobCell.delJob]
  · apply cell_congr <;> simp [cell_hash, cell_score, cell_member, cell_errors, delJob, zscore, h]

@[simp]
theorem cell_pushError (e : String) :
    (s.pushError id e).cell = Function.update s.cell id ((s.cell id).pushError e) := by
  funext i
  by_cases h : i = id
  · subst h; apply cell_congr <;> simp [cell_hash, cell_score, cell_member, cell_errors, pushError, zscore, JobCell.pushError]
  · apply cell_congr <;> simp [cell_hash, cell_score, cell_member, cell_errors, pushError, zscore, h]

@[simp]
theorem cell_delErrors : (s.delErrors id).cell = Function.update s.cell id (s.cell id).delErrors := by
  funext i
  by_cases h : i = id
  · subst h; apply cell_congr <;> simp [cell_hash, cell_score, cell_member, delErrors, zscore, JobCell.delErrors]
  · apply cell_congr <;> simp [cell_hash, cell_score, cell_member, cell_errors, delErrors, zscore, h]

theorem zscore_zadd (k k' : ZKey) (sc : ℤ) (i : JobId) :
    (s.zadd k sc id).zscore k' i = if k' = k ∧ i = id then some sc else s.zscore k' i := by
  by_cases hk : k' = k
  · subst hk; simp [zscore, zadd]
  · simp [zscore, zadd, hk]

theorem zscore_zrem (k k' : ZKey) (i : JobId) :
    (s.zrem k id).zscore k' i = if k' = k ∧ i = id then none else s.zscore k' i := by
  by_cases hk : k' = k
  · subst hk; simp [zscore, zrem]
  · simp [zscore, zrem, hk]

theorem mem_sadd (k k' : SKey) (i : JobId) :
    i ∈ (s.sadd k id).sets k' ↔ (k' = k ∧ i = id) ∨ i ∈ s.sets k' := by
  by_cases hk : k' = k
  · subst hk; simp [sadd]
  · simp [sadd, hk]

theorem mem_srem (k k' : SKey) (i : JobId) :
    i ∈ (s.srem k id).sets k' ↔ ¬(k' = k ∧ i = id) ∧ i ∈ s.sets k' := by
  by_cases hk : k' = k
  · subst hk; simp [srem]
  · simp [srem, hk]

@[simp]
theorem cell_zadd (k : ZKey) (sc : ℤ) :
    (s.zadd k sc id).cell = Function.update s.cell id ((s.cell id).zadd k sc) := by
  funext i
  by_cases h : i = id
  · subst h
    apply cell_congr
    case hz =>
      intro k'
      by_cases hk : k' = k <;> simp [cell_score, zscore_zadd, JobCell.zadd, hk]
    all_goals simp [cell_hash, cell_member, cell_errors, zadd, JobCell.zadd]
  · apply cell_congr
    case hz => simp [cell_score, zscore_zadd, h]
    all_goals simp [cell_hash, cell_member, cell_errors, zadd, h]

@[simp]
theorem cell_zrem (k : ZKey) : (s.zrem k id).cell = Function.update s.cell id ((s.cell id).zrem k) := by
  funext i
  by_cases h : i = id
  · subst h
    apply cell_congr
    case hz =>
      intro k'
      by_cases hk : k' = k <;> simp [cell_score, zscore_zrem, JobCell.zrem, hk]
    all_goals simp [cell_hash, cell_member, cell_errors, zrem, JobCell.zrem]
  · apply cell_congr
    case hz => simp [cell_score, zscore_zrem, h]
    all_goals simp [cell_hash, cell_member, cell_errors, zrem, h]

@[simp]
theorem cell_sadd (k : SKey) : (s.sadd k id).cell = Function.update s.cell id ((s.cell id).sadd k) := by
  funext i
  by_cases h : i = id
  · subst h
    apply cell_congr
    case hm =>
      intro k'
      by_cases hk : k' = k <;> simp [cell_member, mem_sadd, JobCell.sadd, hk]
    all_goals simp [cell_hash, cell_score, cell_errors, sadd, zscore, JobCell.sadd]
  · apply cell_congr
    case hm => simp [cell_member, mem_sadd, h]
    all_goals simp [cell_hash, cell_score, cell_errors, sadd, zscore, h]

@[simp]
theorem cell_srem (k : SKey) : (s.srem k id).cell = Function.update s.cell id ((s.cell id).srem k) := by
  funext i
  by_cases h : i = id
  · subst h
    apply cell_congr
    case hm =>
      intro k'
      by_cases hk : k' = k <;> simp [cell_member, mem_srem, JobCell.srem, hk]
    all_goals simp [cell_hash, cell_score, cell_errors, srem, zscore, JobCell.srem]
  · apply cell_congr
    case hm => simp [cell_member, mem_srem, h]
    all_goals simp [cell_hash, cell_score, cell_errors, srem, zscore, h]

/-! ### What the commands leave alone -/

section Frames

variable (f : JobHash → JobHash) (k : ZKey) (sk : SKey) (sc : ℤ) (e u : String)

@[simp] theorem hset_idgen : (s.hset id f).idgen = s.idgen := rfl
@[simp] theorem delJob_idgen : (s.delJob id).idgen = s.idgen := rfl
@[simp] theorem pushError_idgen : (s.pushError id e).idgen = s.idgen := rfl
@[simp] theorem delErrors_idgen : (s.delErrors id).idgen = s.idgen := rfl
@[simp] theorem zadd_idgen : (s.zadd k sc id).idgen = s.idgen := rfl
@[simp] theorem zrem_idgen : (s.zrem k id).idgen = s.idgen := rfl
@[simp] theorem sadd_idgen : (s.sadd sk id).idgen = s.idgen := rfl
@[simp] theorem srem_idgen : (s.srem sk id).idgen = s.idgen := rfl
@[simp] theorem setUnique_idgen : (s.setUnique u id).idgen = s.idgen := rfl
@[simp] theorem delUnique_idgen : (s.delUnique u).idgen = s.idgen := rfl

@[simp] theorem hset_unique : (s.hset id f).unique = s.unique := rfl
@[simp] theorem delJob_unique : (s.delJob id).unique = s.unique := rfl
@[simp] theorem pushError_unique : (s.pushError id e).unique = s.unique := rfl
@[simp] theorem delErrors_unique : (s.delErrors id).unique = s.unique := rfl
@[simp] theorem zadd_unique : (s.zadd k sc id).unique = s.unique := rfl
@[simp] theorem zrem_unique : (s.zrem k id).unique = s.unique := rfl
@[simp] theorem sadd_unique : (s.sadd sk id).unique = s.unique := rfl
@[simp] theorem srem_unique : (s.srem sk id).unique = s.unique := rfl

end Frames

@[simp]
theorem cell_setUnique (u : String) : (s.setUnique u id).cell = s.cell := rfl

@[simp]
theorem cell_delUnique (u : String) : (s.delUnique u).cell = s.cell := rfl

end Store

end Eddyq.Redis
