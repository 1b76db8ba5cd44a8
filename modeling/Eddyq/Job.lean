import Mathlib.Data.String.Basic

/-!
# What both backends share

Job ids, job states, JSON values, per-job retention rules, the dynamic enqueue request, the rule for queue names and the
cron crate, which is a parameter.
Times are milliseconds since the epoch.
-/

namespace Eddyq

/-- A job's id: a `BIGSERIAL` on Postgres, an `INCR` counter on Redis. -/
abbrev JobId := Nat

/-- A worker's UUID, as text. -/
abbrev WorkerId := String

/-- The six states of a job. -/
inductive JobState
  | pending | scheduled | running | completed | failed | cancelled
  deriving DecidableEq, Repr

/-- A finalized job never runs again. -/
def JobState.terminal : JobState → Bool
  | .completed | .failed | .cancelled => true
  | .pending | .scheduled | .running => false

/-- `serde_json::Value`, with the numbers the code itself writes. -/
inductive Json
  | null
  | bool (b : Bool)
  | num (n : ℤ)
  | str (s : String)
  | arr (vs : List Json)
  | obj (fields : List (String × Json))

/-- `removeOnComplete` / `removeOnFail`. -/
inductive RetentionRule
  | bool (b : Bool)
  | rule (age count : Option Nat)
  deriving DecidableEq

/-- The enqueue request of the bindings. -/
structure DynEnqueue where
  kind : String
  payload : Json
  maxAttempts : ℤ := 3
  maxStalledCount : ℤ := 1
  priority : ℤ := 0
  queue : String := "default"
  scheduledAt : Option ℤ := none
  uniqueKey : Option String := none
  groupKey : Option String := none
  tags : List String := []
  metadata : Json := .obj []
  batchId : Option Nat := none
  removeOnComplete : Option RetentionRule := none
  removeOnFail : Option RetentionRule := none

/-! ## Queue names -/

/-- The longest queue name, in bytes. -/
def maxQueueNameLen : Nat := 64

/-- ASCII letters, digits, `.`, `_`, `-`. -/
def queueNameChar (c : Char) : Bool := c.isAlphanum || c == '.' || c == '_' || c == '-'

/-- Why a request is refused. -/
inductive Error
  | invalidArgument (msg : String)
  | cron (msg : String)
  | database (msg : String)
  deriving DecidableEq, Repr

/-- `validate_queue_name`: not empty, not too long, no other character. -/
def validateQueueName (name : String) : Except Error Unit :=
  if name = "" then .error (.invalidArgument "queue name must not be empty")
  else if name.utf8ByteSize > maxQueueNameLen then
    .error (.invalidArgument s!"queue name {name.quote} exceeds {maxQueueNameLen} chars")
  else match name.toList.find? (fun c => !queueNameChar c) with
    | some c => .error (.invalidArgument
        s!"queue name {name.quote} contains invalid character {c.quote} (allowed: a-z A-Z 0-9 . _ -)")
    | none => .ok ()

/-! ## Retries -/

/-- `retry_schedule` of the runtime; `backoffUntil` is the time `backoff_until` gives. -/
def retrySchedule (attempt maxAttempts backoffUntil : ℤ) : Option ℤ :=
  if attempt ≥ maxAttempts then none else some backoffUntil

theorem retrySchedule_some {attempt maxAttempts t t' : ℤ} (h : retrySchedule attempt maxAttempts t = some t') :
    attempt < maxAttempts := by
  unfold retrySchedule at h
  split at h
  · cases h
  · next hlt => exact not_le.mp hlt

/-! ## Cron -/

/-- The cron crate: it parses an expression or explains why it cannot, and a parsed expression gives its next occurrence
after a time, or none. -/
def Cron : Type := String → Except String (ℤ → Option ℤ)

/-- The first occurrence after `clock`, or the error the code makes of it. -/
def Cron.nextRun (cron : Cron) (expr : String) (clock : ℤ) : Except Error ℤ :=
  match cron expr with
  | .error msg => .error (.cron msg)
  | .ok next => match next clock with
    | some t => .ok t
    | none => .error (.cron "cron never fires")

/-- An occurrence after a time is later than it. -/
def Cron.Later (cron : Cron) : Prop := ∀ expr next, cron expr = .ok next → ∀ t t', next t = some t' → t < t'

end Eddyq
