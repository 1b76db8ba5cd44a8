import Eddyq.Redis.Leases
import Eddyq.Runtime.Flight
import Eddyq.Shutdown

/-!
# Permits and flights

`permits_balanced` is the permit protocol between the fetcher and the workers of a process. `flights_covered` says that
every job between the channel and the end of its handler is in `in_flight`, in runs in which no claim returns a job that
the process still has. A job that was swept during its execution and claimed again by the same process is the other
case: the first execution that ends takes the id of both out of the set (`flight_uncovered`).
-/

namespace Eddyq

open Eddyq.Runtime

/-! ## The services of the backends -/

/-- Postgres, as the loops with this worker id see it. -/
def Pg.service (w : WorkerId) : Service Pg.Db where
  inv := Pg.Counted
  claim db n rows db' := ∃ (a : Pg.ClaimArgs) (now clock : ℤ) (order : Pg.MapOrder), a.worker = w ∧ a.batchSize = n ∧
    rows = (Pg.claimBatch db a now clock order).2.map (·.id) ∧ db' = (Pg.claimBatch db a now clock order).1
  verdict db id db' := (∃ result now, Pg.markCompleted db id w result now = .ok db') ∨
    ∃ error retryAt now, Pg.markFailed db id w error retryAt now = .ok db'
  other db db' := ∃ cron op, db' = Pg.Op.apply cron db op
  claim_inv := Pg.claimed_counted
  verdict_inv := Pg.reported_counted
  other_inv := by
    rintro db db' hc ⟨cron, op, rfl⟩
    exact hc.step cron op
  claim_rows := by
    rintro db n rows db' hc ⟨a, now, clock, order, rfl, rfl, rfl, rfl⟩
    obtain ⟨hlen, hnodup, _⟩ := Pg.claim_rows hc a now clock order
    exact ⟨hlen, hnodup⟩

/-- Redis, as the loops with this worker id see it. -/
def Redis.service (w : WorkerId) : Service Redis.Store where
  inv _ := True
  claim s n rows s' := ∃ a : Redis.ClaimArgs, a.worker = w ∧ a.batchSize = n ∧ rows = (Redis.fnClaim s a).2.map (·.id) ∧
    s' = (Redis.fnClaim s a).1
  verdict s id s' := ∃ v : Redis.Verdict, s' = (v.toOp id w).apply s
  other s s' := ∃ op : Redis.Op, s' = op.apply s
  claim_inv _ _ := trivial
  verdict_inv _ _ := trivial
  other_inv _ _ := trivial
  claim_rows := by
    rintro s n rows s' - ⟨a, rfl, rfl, rfl, rfl⟩
    rw [List.length_map]
    exact ⟨Redis.fnClaim_length s a, (Redis.fnClaim_replied s a).distinct⟩

/-! ## The results -/

/-- **The permit protocol**: until the token is cancelled, permits and outstanding jobs add up to the number of workers,
the `expect` never fires, a send never waits, and every job in the channel has a worker that waits for it. -/
theorem permits_balanced {σ : Type} (S : Service σ) (cfg : Config) (p : Loops σ) (h : p.Reached S cfg False)
    (live : p.cancelled = false) : p.Balanced cfg :=
  (h.inv.balance live).balanced

section Execution

variable {σ : Type} {S : Service σ} {careful : Prop} {s s₁ s₂ s₃ : σ}

/-- Two workers; the first has the job. -/
def firstExecution (s : σ) : Loops σ where
  store := s
  idle := 1
  workers := [.handling 1, .waiting]
  inFlight := [1]

theorem first_run (hc : S.claim s 1 [1] s₁) :
    Lib.Reach (fun p (_ : Unit) p' => Turn S ⟨2, 1⟩ careful p p') (Loops.start ⟨2, 1⟩ s) (firstExecution s₁) := by
  have h := (Lib.Reach.refl (R := fun p (_ : Unit) p' => Turn S ⟨2, 1⟩ careful p p') (Loops.start ⟨2, 1⟩ s))
  have h := h.step (a := ()) (.acquire rfl Nat.zero_lt_two)
  have h := h.step (a := ()) (.release rfl)
  have h := h.step (a := ()) (.read rfl)
  have h := h.step (a := ()) (.claimed rfl hc (fun _ _ _ => List.not_mem_nil))
  have h := h.step (a := ()) (.tryAcquire rfl Nat.zero_lt_two)
  have h := h.step (a := ()) (.forget rfl)
  have h := h.step (a := ()) (.enter rfl)
  have h := h.step (a := ()) (.send rfl rfl Nat.zero_lt_two)
  have h := h.step (a := ()) (.rest rfl)
  have h := h.step (a := ()) (.receive (show _ = [] ++ Work.waiting :: _ from rfl) rfl)
  exact h.step (a := ()) (.call (show _ = [] ++ Work.received 1 :: _ from rfl))

theorem first_reached (hs : S.inv s) (hc : S.claim s 1 [1] s₁) : (firstExecution s₁).Reached S ⟨2, 1⟩ careful :=
  ⟨s, hs, first_run hc⟩

/-- One job on Redis, and a claim of it. -/
def redisMail : Redis.Store := (Redis.Op.enqueue { kind := "mail", queue := "default" } 1000).apply Redis.Store.empty

def redisMailArgs (now : ℤ) : Redis.ClaimArgs where
  batchSize := 1
  worker := "a"
  now := now
  queues := ["default"]
  kinds := ["mail"]

theorem first_balanced : (firstExecution mailClaimed).Reached (Pg.service "a") ⟨2, 1⟩ False ∧
    (firstExecution mailClaimed).Balanced ⟨2, 1⟩ := by
  have h : (firstExecution mailClaimed).Reached (Pg.service "a") ⟨2, 1⟩ False :=
    first_reached (Pg.Counted.empty.step Pg.noCron _) ⟨mailArgs, 2000, 2000, mailOrder, rfl, rfl, by decide, rfl⟩
  exact ⟨h, permits_balanced _ _ _ h rfl⟩

/-- **Every executing job is in `in_flight`**, in runs in which no claim returns a job that the process still has. -/
theorem flights_covered {σ : Type} (S : Service σ) (cfg : Config) (p : Loops σ) (h : p.Reached S cfg True) :
    ∀ id ∈ p.channel ++ p.executing, id ∈ p.inFlight := by
  intro id hid
  refine h.once.flight id ?_
  rcases List.mem_append.mp hid with hid | hid
  · exact List.mem_append_left _ (List.mem_append_right _ hid)
  · exact List.mem_append_right _ (executing_inHand hid)

theorem first_covered : (firstExecution mailClaimed).Reached (Pg.service "a") ⟨2, 1⟩ True ∧
    (firstExecution mailClaimed).executing = [1] ∧ 1 ∈ (firstExecution mailClaimed).inFlight := by
  have h : (firstExecution mailClaimed).Reached (Pg.service "a") ⟨2, 1⟩ True :=
    first_reached (Pg.Counted.empty.step Pg.noCron _) ⟨mailArgs, 2000, 2000, mailOrder, rfl, rfl, by decide, rfl⟩
  exact ⟨h, rfl, flights_covered _ _ _ h 1 (by decide)⟩

/-- The job is given back during its execution and claimed again; then the first execution ends. -/
theorem second_uncovered (hs : S.inv s) (hc : S.claim s 1 [1] s₁) (ho : S.other s₁ s₂) (hc' : S.claim s₂ 1 [1] s₃) :
    ∃ p : Loops σ, p.Reached S ⟨2, 1⟩ False ∧ p.cancelled = false ∧ 1 ∈ p.executing ∧ 1 ∉ p.inFlight := by
  have h : (firstExecution s₁).Reached S ⟨2, 1⟩ False := first_reached hs hc
  have h := h.turn (.other ho)
  have h := h.turn (.acquire rfl Nat.one_pos)
  have h := h.turn (.release rfl)
  have h := h.turn (.read rfl)
  have h := h.turn (.claimed rfl hc' False.elim)
  have h := h.turn (.tryAcquire rfl Nat.one_pos)
  have h := h.turn (.forget rfl)
  have h := h.turn (.enter rfl)
  have h := h.turn (.send rfl rfl Nat.zero_lt_two)
  have h := h.turn (.receive (show _ = [.handling 1] ++ Work.waiting :: _ from rfl) rfl)
  have h := h.turn (.call (show _ = [.handling 1] ++ Work.received 1 :: _ from rfl))
  have h := h.turn (.ended (show _ = [] ++ Work.handling 1 :: _ from rfl))
  have h := h.turn (.remove (show _ = [] ++ Work.returned 1 :: _ from rfl))
  exact ⟨_, h, rfl, List.mem_cons_self, List.not_mem_nil⟩

end Execution

/-- **An executing job can be missing from `in_flight`**, on both backends: another process sweeps it, this one claims it
again. -/
theorem flight_uncovered :
    (∃ p : Loops Pg.Db, p.Reached (Pg.service "a") ⟨2, 1⟩ False ∧ p.cancelled = false ∧ 1 ∈ p.executing ∧
      1 ∉ p.inFlight) ∧
    ∃ p : Loops Redis.Store, p.Reached (Redis.service "a") ⟨2, 1⟩ False ∧ p.cancelled = false ∧ 1 ∈ p.executing ∧
      1 ∉ p.inFlight := by
  constructor
  · exact second_uncovered (s := mailDb) (Pg.Counted.empty.step Pg.noCron _)
      ⟨mailArgs, 2000, 2000, mailOrder, rfl, rfl, by decide, rfl⟩
      ⟨Pg.noCron, .sweepStale 60 90000, rfl⟩ ⟨mailArgs, 91000, 91000, mailOrder, rfl, rfl, by decide, rfl⟩
  · exact second_uncovered (s := redisMail) trivial ⟨redisMailArgs 2000, rfl, rfl, by decide, rfl⟩
      ⟨.sweepStale 30000 100, rfl⟩ ⟨redisMailArgs 91000, rfl, rfl, by decide, rfl⟩

end Eddyq
