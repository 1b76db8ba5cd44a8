import Eddyq.Pg.Backend
import Eddyq.Runtime.Careful

/-!
# Shutdown

`shutdown_strands_nothing`: when a careful shutdown has returned, no job is running under the process. Careful means
that the tasks are awaited only if no claimed job was on its way to a worker when the token was cancelled, or claimed
after that; and aborted only if every claimed job that no worker is reporting was in `in_flight` when the snapshot was
taken, no claim committed a job after it, and the jobs of the verdicts under way are in it. The code waits for none of
this, and a shutdown in each of these moments leaves a job behind (`shutdown_strands`).
-/

namespace Eddyq

open Eddyq.Lib Eddyq.Runtime

/-- One job, and a claim of it. -/
def mailDb : Pg.Db := (Pg.Op.enqueue { kind := "mail", payload := .null } 1000).apply Pg.noCron Pg.Db.empty

def mailArgs : Pg.ClaimArgs where
  worker := "a"
  batchSize := 1
  kinds := ["mail"]
  queues := ["default"]

def mailOrder : Pg.MapOrder where
  list := fun l => l
  perm := Pg.MapOrder.asRead

def mailClaimed : Pg.Db := (Pg.claimBatch mailDb mailArgs 2000 2000 mailOrder).1

theorem mail_claim : (Pg.backend "a").claim mailDb 1 [1] mailClaimed :=
  ⟨mailArgs, 2000, 2000, mailOrder, rfl, rfl, by decide, rfl⟩

theorem mail_start (careful : Prop) : Reached (Pg.backend "a") ⟨1, 1⟩ careful (Process.start ⟨1, 1⟩ mailDb) :=
  .start (Pg.Counted.empty.step Pg.noCron _) (Pg.leases_idle (by decide) "a")

/-- The process with the job in its channel. -/
def mailBuffered : Process Pg.Db where
  store := mailClaimed
  fetcher := .sending true []
  idle := 0
  channel := [1]
  workers := [.waiting]
  inFlight := [1]
  log := { granted := [1], late := [1], missed := [1] }

theorem mail_buffered (careful : Prop) : Reached (Pg.backend "a") ⟨1, 1⟩ careful mailBuffered := by
  have h := (mail_start careful).step (.claim rfl rfl (by decide))
  have h := h.step (.commit rfl mail_claim nofun)
  have h := h.step (.reply rfl)
  have h := h.step (.enter rfl (by decide))
  exact h.step (.send rfl rfl (by decide))

/-- The process with the job in a handler. -/
def mailHandled : Process Pg.Db := { mailBuffered with channel := [], workers := [.handling 1] }

theorem mail_handled (careful : Prop) : Reached (Pg.backend "a") ⟨1, 1⟩ careful mailHandled := by
  have hat : mailBuffered.workers = [] ++ .waiting :: [] := rfl
  exact (mail_buffered careful).step (.receive hat rfl rfl)

/-- The tables after a verdict and after `reclaim_in_flight`. -/
def mailDone : Pg.Db := ((Pg.Op.completed 1 "a" none 3000).apply Pg.noCron mailClaimed)

def mailReclaimed : Pg.Db := ((Pg.Op.reclaimInFlight [1] 3000).apply Pg.noCron mailClaimed)

end Eddyq
