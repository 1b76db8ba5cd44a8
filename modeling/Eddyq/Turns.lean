import Eddyq.Redis.Timed
import Eddyq.Pg.Claim

/-!
# Redis serves a queue in the order of Postgres

`ORDER BY priority DESC, scheduled_at ASC, id ASC` is the order of the ranks (`claimLe_rank`). In runs in which every
waiting job has the score of its own due time, a claim on Redis takes what the claim on Postgres would take from the same
jobs (`served_in_order`). Promotions, sweeps and reclaims put a job in with another time, and members of one score are
compared as texts: `served_late` has a run for each.
-/

namespace Eddyq

open Eddyq.Lib

/-! ## The order of Postgres -/

/-- What the claim on Postgres orders a row by. -/
def rankOf (j : Pg.JobRow) : Redis.Rank := ⟨j.priority, j.scheduledAt, j.id⟩

theorem claimLe_rank (a b : Pg.JobRow) : Pg.claimLe a b = (rankOf a).le (rankOf b) := rfl

section Rank

variable {a b c : Redis.Rank}

theorem rank_le_iff : a.le b = true ↔ b.priority < a.priority ∨ a.priority = b.priority ∧
    (a.scheduledAt < b.scheduledAt ∨ a.scheduledAt = b.scheduledAt ∧ a.id ≤ b.id) := by
  simp only [Redis.Rank.le, Bool.or_eq_true, Bool.and_eq_true, decide_eq_true_eq, gt_iff_lt]

theorem rank_le_trans (h : a.le b = true) (h' : b.le c = true) : a.le c = true := by
  rw [rank_le_iff] at h h' ⊢
  grind

theorem rank_le_total (a b : Redis.Rank) : a.le b = true ∨ b.le a = true := by
  rw [rank_le_iff, rank_le_iff]
  grind

theorem rank_le_antisymm (h : a.le b = true) (h' : b.le a = true) : a = b := by
  rw [rank_le_iff] at h h'
  obtain ⟨p, d, i⟩ := a
  obtain ⟨p', d', i'⟩ := b
  dsimp only at h h'
  have hp : p = p' := by omega
  have hd : d = d' := by omega
  have hi : i = i' := by grind
  rw [hp, hd, hi]

end Rank

instance : Std.Total (fun a b : Redis.Rank => a.le b = true) := ⟨rank_le_total⟩
instance : IsTrans Redis.Rank (fun a b => a.le b = true) := ⟨fun _ _ _ => rank_le_trans⟩

/-- Rows of the same ranks come in the same order. -/
theorem orderBy_claimLe {rows : List Pg.JobRow} {l : List Redis.Rank} (hp : (rows.map rankOf).Perm l)
    (hl : l.Pairwise (fun a b => a.le b = true)) : (orderBy Pg.claimLe rows).map rankOf = l := by
  have hmap : (orderBy Pg.claimLe rows).map rankOf = orderBy Redis.Rank.le (rows.map rankOf) :=
    List.map_insertionSort _ _ rankOf rows (fun _ _ _ _ => Iff.rfl)
  rw [hmap]
  refine List.Perm.eq_of_pairwise (fun _ _ _ _ => rank_le_antisymm) ?_ hl ((perm_orderBy _ _).trans hp)
  exact List.pairwise_insertionSort _ _

/-! ## The order of Redis -/

section Serve

open Redis

variable {q : String} {z : Dated} {a : ClaimArgs}

/-- Nothing holds up a job of the wait set. -/
theorem ready_of_open (h : z.Timed q) (ho : z.Open q a) : ∀ id ∈ z.members q, z.store.Ready q a id := by
  intro id hid
  have hwaits : (z.store.zscore (.wait q) id).isSome := ZSet.mem_members.mp hid
  obtain ⟨A, hr⟩ := h.refines
  have hp := hr.wait_pending hwaits
  obtain ⟨x, hx⟩ := Option.isSome_iff_exists.mp (hash_of_state hp)
  have hhash : z.store.hash id = x := by rw [← Store.cell_fields, JobCell.fields, hx]; rfl
  refine ⟨hp, ho.kinds id hid, ?_, hwaits⟩
  rw [hhash]
  exact (h.timed id).free x hx

/-- The waiting jobs in order are the members of the wait set. -/
theorem waiting_eq (h : z.Timed q) (hc : z.Clear q) : z.waiting q = (z.members q).map z.rank :=
  orderBy_of_sorted (h.sorted hc)

theorem serves_of_timed (h : z.Timed q) (hc : z.Clear q) (ho : z.Open q a) : z.Serves q a := by
  obtain ⟨hreply, hrest⟩ := fnClaim_takes ho.queues ho.free (ready_of_open h ho)
  have hids : ∀ l : List JobId, (l.map z.rank).map (·.id) = l := by
    intro l
    rw [List.map_map]
    exact List.map_id l
  refine ⟨?_, ?_⟩
  · rw [hreply, waiting_eq h hc, ← List.map_take, hids]
    rfl
  · -- whoever stays has the rank it had
    have hkeep : ((z.apply (.claim a)).members q).map (z.apply (.claim a)).rank = ((z.members q).drop a.batchSize).map z.rank := by
      have hmembers : (z.apply (.claim a)).members q = (z.members q).drop a.batchSize := hrest
      rw [hmembers]
      refine List.map_congr_left (fun id hid => ?_)
      have hout : id ∉ (fnClaim z.store a).2.map (·.id) := by
        rw [hreply]
        intro hin
        have hnd : (z.members q).Nodup := (z.store.zsets (.wait q)).nodup
        rw [← List.take_append_drop a.batchSize (z.members q), List.nodup_append'] at hnd
        exact hnd.2.2 hin hid
      have hhash := (fnClaim_replied z.store a).rest id hout
      show Rank.mk (((fnClaim z.store a).1.hash id).priority.getD 0) _ _ = _
      rw [hhash]
      rfl
    have hsorted := (h.sorted hc).drop (i := a.batchSize)
    rw [← List.map_drop, ← hkeep] at hsorted
    rw [waiting_eq h hc, ← List.map_drop, ← hkeep]
    exact orderBy_of_sorted hsorted

end Serve

/-- **Redis serves a queue in the order of Postgres** in every run whose calls are prompt: the claim takes the first jobs,
leaves the others in order, and takes what Postgres picks from rows with the same ranks. -/
theorem served_in_order (q : String) (z : Redis.Dated) (h : z.Reached q True) (a : Redis.ClaimArgs) (ho : z.Open q a)
    (hok : (Redis.Op.claim a).Prompt q z) : z.Serves q a ∧ ∀ rows : List Pg.JobRow,
      (rows.map rankOf).Perm ((z.members q).map z.rank) →
        (Redis.fnClaim z.store a).2.map (·.id) = ((orderBy Pg.claimLe rows).take a.batchSize).map (·.id) := by
  have ht := h.timed
  have hserves := serves_of_timed ht hok ho
  refine ⟨hserves, fun rows hrows => ?_⟩
  have hids : ((orderBy Pg.claimLe rows).take a.batchSize).map (·.id) =
      (((orderBy Pg.claimLe rows).map rankOf).take a.batchSize).map (·.id) := by
    rw [← List.map_take, List.map_map]
    rfl
  rw [hids, orderBy_claimLe hrows (ht.sorted hok), ← waiting_eq ht hok]
  exact hserves.reply

section Runs

open Redis

/-- What the calls lead to on a line that nobody has used. -/
def dated (ops : List Op) : Dated := ops.foldl Dated.apply ⟨.empty, fun _ => 0⟩

def mailAt (priority scheduledAt : ℤ) : EnqueueArgs :=
  { kind := "mail", queue := "default", priority := priority, scheduledAtMs := scheduledAt }

def claimMail (batchSize : Nat) (now : ℤ) : ClaimArgs :=
  { batchSize := batchSize, worker := "w", now := now, queues := ["default"], kinds := ["mail"] }

/-- Two jobs for now, the second more urgent, and one for later that is promoted when it is due. -/
def promptRun : List Op :=
  [.enqueue (mailAt 0 0) 1000, .enqueue (mailAt 5 0) 1000, .enqueue (mailAt 5 2000) 1000, .promoteDelayed 2000 10]

theorem promptRun_reached : (dated promptRun).Reached "default" True := by
  refine run_of_guards promptRun (Reach.refl _) ⟨⟨⟨rfl, rfl⟩, fun _ => ?_⟩, ⟨⟨rfl, rfl⟩, fun _ => ?_⟩,
    ⟨⟨rfl, rfl⟩, fun _ => ?_⟩, ⟨trivial, fun _ => ?_⟩, trivial⟩
  · exact ⟨by decide, by decide, by decide⟩
  · exact ⟨by decide, by decide, by decide⟩
  · exact ⟨by decide, by decide, by decide⟩
  · show ∀ id ∈ _, _ = _
    decide

theorem promptRun_served : (dated promptRun).Serves "default" (claimMail 2 2000) ∧
    (fnClaim (dated promptRun).store (claimMail 2 2000)).2.map (·.id) = [2, 3] := by
  have ho : (dated promptRun).Open "default" (claimMail 2 2000) :=
    ⟨rfl, by decide, nofun⟩
  have hc : (dated promptRun).Clear "default" := by unfold Dated.Clear; decide
  exact ⟨(served_in_order "default" _ promptRun_reached _ ho hc).1, by decide⟩

/-- A run on the queue after which a claim takes other jobs than it should. -/
def Missed (ops : List Op) (a : ClaimArgs) : Prop :=
  (dated ops).Reached "default" False ∧ (dated ops).Open "default" a ∧ ¬ (dated ops).Serves "default" a

theorem plain_guards {q : String} : ∀ (ops : List Op) (z : Dated), (∀ op ∈ ops, op.Plain q) →
    Guards (fun z op => op.Plain q ∧ (False → op.Prompt q z)) Dated.apply z ops
  | [], _, _ => trivial
  | op :: ops, z, h =>
    ⟨⟨h op List.mem_cons_self, False.elim⟩, plain_guards ops (z.apply op) (fun x hx => h x (List.mem_cons_of_mem _ hx))⟩

theorem missed_of_reply {ops : List Op} {n : Nat} {now : ℤ} (hp : ∀ op ∈ ops, op.Plain "default")
    (hk : ∀ id ∈ (dated ops).members "default", ((dated ops).store.hash id).kind = some "mail")
    (hfree : readNqMeta (dated ops).store "default" = none)
    (hr : (fnClaim (dated ops).store (claimMail n now)).2.map (·.id) ≠ (((dated ops).waiting "default").take n).map (·.id)) :
    Missed ops (claimMail n now) := by
  refine ⟨run_of_guards ops (Reach.refl _) (plain_guards ops _ hp), ⟨rfl, fun id hid => ?_, fun m hm => ?_⟩, fun hs => hr hs.reply⟩
  · exact ⟨"mail", List.mem_cons_self, hk id hid⟩
  · rw [hfree] at hm
    cases hm

/-- **Redis does not keep the order of Postgres**: a promotion, a sweep and a reclaim put a job behind one that is due
later, `10` comes before `9`, the scores of high priorities are rounded, and a late verdict leaves a job in the wait set
that no claim takes. -/
theorem served_late :
    Missed [.enqueue (mailAt 0 2000) 1000, .enqueue (mailAt 0 1500) 1000, .promoteDelayed 3000 10] (claimMail 1 3000) ∧
    Missed [.enqueue (mailAt 0 0) 1000, .claim (claimMail 1 1000), .enqueue (mailAt 0 0) 2000, .sweepStale 5000 10]
      (claimMail 1 6000) ∧
    Missed [.enqueue (mailAt 0 0) 1000, .claim (claimMail 1 1000), .enqueue (mailAt 0 0) 2000, .reclaimInFlight 5000 [1]]
      (claimMail 1 6000) ∧
    Missed (List.replicate 10 (.enqueue (mailAt 0 0) 1000)) (claimMail 2 1000) ∧
    Missed [.enqueue (mailAt 1000 1001) 2000, .enqueue (mailAt 1000 1000) 2000] (claimMail 1 2000) ∧
    Missed [.enqueue (mailAt 0 0) 1000, .claim (claimMail 1 1000), .fail 1 "w" 2000 "timeout" 2000, .complete 1 "w" 2000 ""]
      (claimMail 1 3000) := by
  refine ⟨?_, ?_, ?_, ?_, ?_, ?_⟩
  · exact missed_of_reply (by simp [Op.Plain, mailAt]) (by decide) rfl (by decide)
  · exact missed_of_reply (by simp [Op.Plain, mailAt]) (by decide) rfl (by decide)
  · exact missed_of_reply (by simp [Op.Plain, mailAt]) (by decide) rfl (by decide)
  · exact missed_of_reply (by simp [Op.Plain, mailAt]) (by decide) rfl (by decide)
  · exact missed_of_reply (by simp [Op.Plain, mailAt]) (by decide) rfl (by decide)
  · exact missed_of_reply (by simp [Op.Plain, mailAt]) (by decide) rfl (by decide)

end Runs

end Eddyq
