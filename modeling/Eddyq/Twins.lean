import Eddyq.Pg.LifeCycle
import Eddyq.Redis.LifeCycle

/-!
# One life cycle, two backends

The same requests are made of Postgres and of Redis. Each backend simulates the life cycle of `Eddyq.LifeCycle`, so
after every request the jobs stand alike (`twins_alike`), as long as the requests fit both: only Postgres checks queue
names, and only Redis reads a retry time before the epoch as none (`twins_apart`).
-/

namespace Eddyq

open Eddyq.Lib

/-- Both backends. -/
structure Twins where
  pg : Pg.Db := .empty
  redis : Redis.Store := .empty

/-- The jobs stand alike on both, and a cancellation of any of them would be answered alike. -/
def Twins.Alike (z : Twins) : Prop :=
  z.pg.life = z.redis.life ∧
  ∀ id now now', ∃ b, (Pg.cancel z.pg id now).map Prod.snd = .ok b ∧ (Redis.fnCancel z.redis id now').2 = some b

/-- A request about ordinary jobs is made of both backends; the clocks may differ. -/
structure Asked (text : Json → String) (z : Twins) (a : Ask) (z' : Twins) : Prop where
  held : a.Held z.pg.life
  ordinary : a.Ordinary
  pg : Pg.Does z.pg a z'.pg
  redis : Redis.Does text z.redis a z'.redis

/-- Both backends show the same life cycle. -/
def Twins.Show (z : Twins) (c : LifeCycle) : Prop := Pg.Shows z.pg c ∧ Redis.Shows z.redis c

section Twins

variable {text : Json → String} {z z' : Twins} {c : LifeCycle} {a : Ask}

theorem Twins.Show.empty : Twins.Show {} {} := ⟨Pg.Shows.empty, Redis.Shows.empty⟩

/-- One request. -/
theorem Twins.Show.step (h : z.Show c) (hf : a.Fits) (ha : Asked text z a z') : z'.Show (a.step c) := by
  have hheld : a.Held c.lives := h.1.lives ▸ ha.held
  exact ⟨ha.pg.shows h.1 hheld ha.ordinary hf, ha.redis.shows h.2 hheld ha.ordinary hf⟩

/-- All requests of a run. -/
theorem Twins.Show.run {asks : List Ask} (h : Run (fun z a z' => a.Fits ∧ Asked text z a z') {} asks z) :
    z.Show (asks.foldl Ask.step {}) := by
  induction h with
  | nil => exact .empty
  | snoc a _ hs ih =>
    rw [List.foldl_append]
    exact ih.step hs.1 hs.2

theorem Twins.Show.alike (h : z.Show c) : z.Alike := by
  refine ⟨h.1.lives.trans h.2.lives.symm, fun id now now' => ?_⟩
  obtain ⟨db', hok, _⟩ := h.1.cancel id now
  refine ⟨_, ?_, (h.2.cancel id now').1⟩
  rw [hok]
  rfl

end Twins

/-- A fetcher of the default queue on Postgres. -/
def pgFetch : Pg.ClaimArgs := { worker := "w", batchSize := 4, kinds := ["mail"], queues := ["default"] }

/-- The same on Redis. -/
def redisFetch (now : ℤ) : Redis.ClaimArgs :=
  { batchSize := 4, worker := "w", now := now, queues := ["default"], kinds := ["mail"] }

def keepOrder : Pg.MapOrder := { list := fun l => l, perm := Pg.MapOrder.asRead }

/-- Every value as `null`. -/
def nullText : Json → String := fun _ => "null"

/-- The backends after both have heard the request at one time. -/
def Twins.hear (z : Twins) (a : Ask) (now : ℤ) : Twins :=
  match a with
  | .enqueue r => ⟨(Pg.enqueueDyn z.pg r now).1, (Redis.fnEnqueue z.redis (Redis.dynToArgv nullText r) now).1⟩
  | .claim _ _ => ⟨(Pg.claimBatch z.pg pgFetch now now keepOrder).1, (Redis.fnClaim z.redis (redisFetch now)).1⟩
  | .complete id w result => ⟨(Pg.commit z.pg (Pg.markCompleted z.pg id w result now)).1,
      (Redis.fnComplete z.redis id w now ((result.map nullText).getD "")).1⟩
  | .fail id w error retryAt => ⟨(Pg.commit z.pg (Pg.markFailed z.pg id w error retryAt now)).1,
      (Redis.fnFail z.redis id w now (nullText error) (Redis.retryAtMs retryAt)).1⟩
  | .sweep _ => ⟨(Pg.commitFst z.pg (Pg.sweepStale z.pg 60 now)).1, (Redis.fnSweepStale z.redis (now - 60000) 256).1⟩
  | .reclaim ids => ⟨(Pg.commitFst z.pg (Pg.reclaimInFlight z.pg ids now)).1, (Redis.fnReclaimInFlight z.redis now ids).1⟩
  | .cancel id => ⟨(Pg.commitFst z.pg (Pg.cancel z.pg id now)).1, (Redis.fnCancel z.redis id now).1⟩
  | .promote => ⟨z.pg, (Redis.fnPromoteDelayed z.redis now 256).1⟩

/-- A mail for the default queue. -/
def mail : DynEnqueue := { kind := "mail", payload := .null }

/-- A claimed mail. -/
def claimedMail : Twins := (Twins.hear {} (.enqueue mail) 1000).hear (.claim [1] "w") 2000

/-- It is given back by a reclaim, claimed again, fails with a retry, becomes due and is cancelled. -/
def bouncedMail : Twins :=
  ((((claimedMail.hear (.reclaim [1]) 3000).hear (.claim [1] "w") 3500).hear (.fail 1 "w" .null (some 5000)) 4000).hear
    .promote 6000).hear (.cancel 1) 7000

/-- One more request. -/
theorem Twins.hears {asks : List Ask} {z : Twins} (h : Run (fun z a z' => a.Fits ∧ Asked nullText z a z') {} asks z)
    (a : Ask) (now : ℤ) (hf : a.Fits) (hs : Asked nullText z a (z.hear a now)) :
    Run (fun z a z' => a.Fits ∧ Asked nullText z a z') {} (asks ++ [a]) (z.hear a now) := h.snoc a ⟨hf, hs⟩

/-- Both backends claim the one job. -/
theorem Asked.fetch {z : Twins} {now : ℤ} (hpg : (Pg.claimBatch z.pg pgFetch now now keepOrder).2.map (·.id) = [1])
    (hredis : (Redis.fnClaim z.redis (redisFetch now)).2.map (·.id) = [1]) :
    Asked nullText z (.claim [1] "w") (z.hear (.claim [1] "w") now) :=
  ⟨trivial, trivial, .claim pgFetch now now keepOrder (fun id => by rw [hpg]),
    .claim (redisFetch now) (fun id => by rw [hredis])⟩

/-- The mail is enqueued and claimed on both. -/
theorem claimedMail_run :
    Run (fun z a z' => a.Fits ∧ Asked nullText z a z') {} [.enqueue mail, .claim [1] "w"] claimedMail := by
  have h := Twins.hears .nil (.enqueue mail) 1000 ⟨by decide, rfl⟩
    ⟨trivial, ⟨rfl, rfl, rfl⟩, .enqueue mail 1000, .enqueue mail 1000⟩
  exact Twins.hears h (.claim [1] "w") 2000 trivial (.fetch (by decide) (by decide))

end Eddyq
