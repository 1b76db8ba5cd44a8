import Eddyq.Job
import Eddyq.Lib.Lives

/-!
# The life cycle both backends are meant to run

The table of all lives, and what each request does to it (`Ask.step`): an event happens to the jobs it is for
(`alter`). Nothing here knows how a backend stores a job. `Ask.Held` is the rule that verdicts are given by the current
lease holder, `Ask.Fits` what a request must be like for the backends to agree on it.
-/

namespace Eddyq

open Eddyq.Lib

/-- What is asked of a backend, with the jobs it is about. -/
inductive Ask
  | enqueue (r : DynEnqueue)
  | claim (ids : List JobId) (w : WorkerId)
  | complete (id : JobId) (w : WorkerId) (result : Option Json)
  | fail (id : JobId) (w : WorkerId) (error : Json) (retryAt : Option ℤ)
  | sweep (ids : List JobId)
  | reclaim (ids : List JobId)
  | cancel (id : JobId)
  | promote

/-- All lives, and the next id. -/
structure LifeCycle where
  next : JobId := 1
  lives : JobId → Option (Life WorkerId) := fun _ => none

/-- An event happens to the jobs it is for. -/
def alter (p : JobId → Life WorkerId → Bool) (e : Event WorkerId) (lives : JobId → Option (Life WorkerId)) (id : JobId) :
    Option (Life WorkerId) :=
  (lives id).map (fun l => if p id l then l.next e else l)

/-- The life is running. -/
def runs (l : Life WorkerId) : Bool :=
  match l.phase with
  | .running _ => true
  | _ => false

/-- The event of a failure. -/
def failure (retryAt : Option ℤ) : Event WorkerId :=
  match retryAt with
  | some _ => .retry
  | none => .fail

/-- What a request does. -/
def Ask.step (c : LifeCycle) : Ask → LifeCycle
  | .enqueue r =>
    { next := c.next + 1, lives := Function.update c.lives c.next (some (.born r.maxAttempts r.maxStalledCount)) }
  | .claim ids w => { c with lives := alter (fun i _ => i ∈ ids) (.claim w) c.lives }
  | .complete id _ _ => { c with lives := alter (fun i _ => i = id) .complete c.lives }
  | .fail id _ _ retryAt => { c with lives := alter (fun i _ => i = id) (failure retryAt) c.lives }
  | .sweep ids => { c with lives := alter (fun i _ => i ∈ ids) .recover c.lives }
  | .reclaim ids => { c with lives := alter (fun i l => i ∈ ids && runs l) .recover c.lives }
  | .cancel id => { c with lives := alter (fun i l => i = id && l.phase = .waiting) .cancel c.lives }
  | .promote => c

/-- The job runs under the worker. -/
def LeaseOf (lives : JobId → Option (Life WorkerId)) (id : JobId) (w : WorkerId) : Prop :=
  ∃ l, lives id = some l ∧ l.phase = .running (some w)

/-- Verdicts are given by the current lease holder. -/
def Ask.Held (lives : JobId → Option (Life WorkerId)) : Ask → Prop
  | .complete id w _ | .fail id w _ _ => LeaseOf lives id w
  | _ => True

/-- The jobs of the claim: no unique key and no retention rule of their own. -/
def Ask.Ordinary : Ask → Prop
  | .enqueue r => r.uniqueKey = none ∧ r.removeOnComplete = none ∧ r.removeOnFail = none
  | _ => True

/-- What the backends agree on: a queue name that `validate_queue_name` accepts, no batch, and no retry time before the
epoch. -/
def Ask.Fits : Ask → Prop
  | .enqueue r => validateQueueName r.queue = .ok () ∧ r.batchId = none
  | .fail _ _ _ retryAt => ∀ t, retryAt = some t → 0 ≤ t
  | _ => True

end Eddyq
