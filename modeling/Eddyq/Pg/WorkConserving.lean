import Eddyq.Pg.Rates
import Eddyq.Pg.Walks

/-!
# Is a claim work-conserving?

A claim that returns fewer jobs than it was asked for should leave no job behind that it could have taken. Each statement
of `claim_batch` takes what its `LIMIT` allows; `Straight` says of every visit to a queue or a group that what the `LIMIT`
cuts off could not be taken anyway, and then the claim is work-conserving (`claim_workConserving`).

A visit to a group can fail this: the candidates of all open queues share one `LIMIT`, and are dropped afterwards for want
of queue budget. `slowVisit_iff` says exactly when such a visit leaves a job behind.
-/

namespace Eddyq.Pg

open Eddyq.Lib

/-! ## The statement -/

/-- The queue has a row without slots: it is paused or full. -/
def Db.QueueFull (db : Db) (n : String) : Prop := ∃ q ∈ db.queues, q.name = n ∧ q.slots ≤ 0

/-- The group has a row without slots: it is paused or full, or there is no whole token. -/
def Db.GroupFull (db : Db) (clock : ℤ) (k : String) : Prop := ∃ g ∈ db.groups, g.key = k ∧ (g.toState clock).slots ≤ 0

/-- **Work-conserving**: after a claim that returns fewer jobs than asked for, every due job of the subscriptions waits
for a queue or a group that has no slots. -/
def WorkConserving (db : Db) (a : ClaimArgs) (now clock : ℤ) (order : MapOrder) : Prop :=
  let r := claimBatch db a now clock order
  r.2.length < a.batchSize → ∀ j ∈ r.1.jobs, j.due now a.kinds → j.queue ∈ a.queues →
    r.1.QueueFull j.queue ∨ ∃ k, j.groupKey = some k ∧ r.1.GroupFull clock k

/-- What the keys, checks and column types of the tables promise. -/
structure Stored (db : Db) : Prop extends Keyed db where
  counts : ∀ g ∈ db.groups, 0 ≤ g.runningCount
  caps : ∀ g ∈ db.groups, g.maxConcurrency ≤ unlimited

/-! ## The visits of a claim -/

/-- Before the first queue. -/
def claimStart (db : Db) (a : ClaimArgs) : Claiming where
  budget := queueBudgets (readQueues db a.queues) (readQueues db (bindingNames (readQueues db a.queues)))

/-- After the visits to some queues. -/
def afterQueues (db : Db) (a : ClaimArgs) (now : ℤ) (visited : List String) : Claiming :=
  visited.foldl (claimUngrouped db (fun _ => true) a now) (claimStart db a)

/-- After all queues, and then the visits to some groups. -/
def afterGroups (db : Db) (a : ClaimArgs) (now : ℤ) (visited : List (String × GroupState)) : Claiming :=
  visited.foldl (claimGrouped db (fun _ => true) a now (openQueues a (afterQueues db a now a.queues)))
    (afterQueues db a now a.queues)

/-- The groups in the order of their visits. -/
def groupVisits (db : Db) (a : ClaimArgs) (now clock : ℤ) (order : MapOrder) : List (String × GroupState) :=
  order.list (claimPicks db a now clock order).2

/-- All rows of a pick, before its `LIMIT`. -/
def candidates (db : Db) (p : JobRow → Bool) : List JobRow := orderBy claimLe (db.jobs.filter p)

/-- How many of them are on a queue. -/
def onQueue (js : List JobRow) (n : String) : ℤ := js.countP (·.queue = n)

/-- A visit to a queue fetches no job a second time, and the `i32::MAX` slots of a queue without a row cut nothing off. -/
structure FastVisit (db : Db) (a : ClaimArgs) (now : ℤ) (c : Claiming) (q : String) : Prop where
  once : ∀ j ∈ (candidates db (ungroupedOn a now q)).take (ungroupedLimit a c q), j.id ∉ c.ids
  rowless : c.budget q = none → (candidates db (ungroupedOn a now q)).length ≤ ungroupedLimit a c q ∨
    a.batchSize - c.accepted.length ≤ ungroupedLimit a c q

/-- A visit to a group fetches no more jobs of a queue than it has budget for, or what the `LIMIT` cuts off is on queues
whose budget is used up. -/
def SlowVisit (db : Db) (a : ClaimArgs) (now : ℤ) (qs : List String) (c : Claiming) (e : String × GroupState) : Prop :=
  let js := candidates db (groupedIn a now qs e.1)
  let n := groupedLimit a c e.2
  (∀ q b, c.budget q = some b → onQueue (js.take n) q ≤ b) ∨
    ∀ j ∈ js.drop n, ∃ b, c.budget j.queue = some b ∧ b ≤ onQueue (js.take n) j.queue

/-- All visits are such. -/
structure Straight (db : Db) (a : ClaimArgs) (now clock : ℤ) (order : MapOrder) : Prop where
  fast : ∀ pre q post, a.queues = pre ++ q :: post → FastVisit db a now (afterQueues db a now pre) q
  slow : ∀ pre e post, groupVisits db a now clock order = pre ++ e :: post →
    SlowVisit db a now (openQueues a (afterQueues db a now a.queues)) (afterGroups db a now pre) e

/-! ## Candidates -/

section Candidates

variable {db : Db} {p : JobRow → Bool} {j : JobRow}

theorem pick_eq (db : Db) (p : JobRow → Bool) (n : Nat) : pick db (fun _ => true) p n = (candidates db p).take n := by
  simp [pick, candidates]

theorem mem_candidates : j ∈ candidates db p ↔ j ∈ db.jobs ∧ p j = true := by
  rw [candidates, mem_orderBy, List.mem_filter]

/-- No two candidates are the same job. -/
theorem Keyed.candidates (h : Keyed db) (p : JobRow → Bool) : ((candidates db p).map (·.id)).Nodup := by
  have hperm := (perm_orderBy claimLe (db.jobs.filter p)).map (·.id)
  exact hperm.nodup_iff.mpr (h.ids.sublist (List.Sublist.map _ List.filter_sublist))

end Candidates

/-! ## What a visit leaves -/

/-- The queue has a row, and its budget is used up. -/
def Claiming.Shut (c : Claiming) (q : String) : Prop := ∃ b, c.budget q = some b ∧ b ≤ 0

theorem shut_iff {c : Claiming} {q : String} : c.Shut q ↔ c.budgetFor q ≤ 0 := by
  unfold Claiming.Shut Claiming.budgetFor
  cases c.budget q with
  | none => simp [unlimited]
  | some b => simp

/-- No budget is below zero. -/
def Claiming.NonNeg (c : Claiming) : Prop := ∀ q b, c.budget q = some b → 0 ≤ b

/-- Picks are kept, a queue that is shut stays shut, and a queue without a row gets no budget. -/
structure Claiming.Grows (c c' : Claiming) : Prop where
  taken : ∃ l, c'.accepted = c.accepted ++ l
  shut : ∀ q, c.Shut q → c'.Shut q
  rowless : ∀ q, c.budget q = none → c'.budget q = none
  nonNeg : c.NonNeg → c'.NonNeg

theorem Claiming.Grows.refl (c : Claiming) : c.Grows c := ⟨⟨[], by simp⟩, fun _ h => h, fun _ h => h, fun h => h⟩

theorem Claiming.Grows.trans {c c₁ c₂ : Claiming} (h : c.Grows c₁) (h' : c₁.Grows c₂) : c.Grows c₂ := by
  obtain ⟨l, hl⟩ := h.taken
  obtain ⟨l', hl'⟩ := h'.taken
  refine ⟨⟨l ++ l', ?_⟩, fun q hq => h'.shut q (h.shut q hq), fun q hq => h'.rowless q (h.rowless q hq),
    fun hn => h'.nonNeg (h.nonNeg hn)⟩
  rw [hl', hl, List.append_assoc]

theorem Claiming.Grows.mem {c c' : Claiming} (h : c.Grows c') {id : JobId} (hid : id ∈ c.ids) : id ∈ c'.ids := by
  obtain ⟨l, hl⟩ := h.taken
  rw [Claiming.ids, hl, List.map_append]
  exact List.mem_append_left _ hid

theorem Claiming.Grows.length_le {c c' : Claiming} (h : c.Grows c') : c.accepted.length ≤ c'.accepted.length := by
  obtain ⟨l, hl⟩ := h.taken
  rw [hl, List.length_append]
  omega

theorem Claiming.Grows.count_le {c c' : Claiming} (h : c.Grows c') (r : Row) : c.count r ≤ c'.count r := by
  obtain ⟨l, hl⟩ := h.taken
  simp only [Claiming.count, hl, List.countP_append]
  omega

/-- Spending the budget of a queue. -/
theorem Claiming.grows_spend (c : Claiming) (q : String) {n : ℤ} (hn : 0 ≤ n) (l : List Accepted) :
    c.Grows { budget := spend c.budget q n, accepted := c.accepted ++ l } := by
  refine ⟨⟨l, rfl⟩, ?_, ?_, ?_⟩
  · rintro x ⟨b, hb, hle⟩
    by_cases hx : x = q
    · subst hx
      exact ⟨max (b - n) 0, spend_self hb n, by omega⟩
    · exact ⟨b, (spend_of_ne hx n).trans hb, hle⟩
  · intro x hx
    by_cases hq : x = q
    · subst hq
      simp [spend, hx]
    · exact (spend_of_ne hq n).trans hx
  · intro h x b hb
    by_cases hq : x = q
    · subst hq
      cases hc : c.budget x with
      | none => simp [spend, hc] at hb
      | some b' =>
        have hspent := (spend_self hc n).symm.trans hb
        cases hspent
        omega
    · exact h x b ((spend_of_ne hq n).symm.trans hb)

section Visits

variable {db : Db} {a : ClaimArgs} {now : ℤ}

theorem claimUngrouped_grows (c : Claiming) (q : String) : c.Grows (claimUngrouped db (fun _ => true) a now c q) := by
  unfold claimUngrouped
  split
  · exact .refl c
  · exact c.grows_spend q (Int.natCast_nonneg _) _

theorem acceptGrouped_grows (a : ClaimArgs) (key : String) : ∀ (js : List JobRow) (slots : ℤ) (c : Claiming),
    c.Grows (acceptGrouped a key js slots c)
  | [], _, c => .refl c
  | j :: js, slots, c => by
    unfold acceptGrouped
    split
    · exact .refl c
    split
    · exact acceptGrouped_grows a key js slots c
    · exact (c.grows_spend j.queue (by decide) _).trans (acceptGrouped_grows a key js (slots - 1) _)

theorem claimGrouped_grows (qs : List String) (c : Claiming) (e : String × GroupState) :
    c.Grows (claimGrouped db (fun _ => true) a now qs c e) := by
  unfold claimGrouped
  split
  · exact .refl c
  · exact acceptGrouped_grows a e.1 _ _ c

/-! ### A visit to a queue -/

/-- After a visit to a queue, each of its candidates is picked, or the queue is shut, or the batch is full. -/
theorem FastVisit.serves {c : Claiming} {q : String} (h : FastVisit db a now c q) {j : JobRow}
    (hj : j ∈ candidates db (ungroupedOn a now q)) :
    j.id ∈ (claimUngrouped db (fun _ => true) a now c q).ids ∨ (claimUngrouped db (fun _ => true) a now c q).Shut q ∨
      a.batchSize ≤ (claimUngrouped db (fun _ => true) a now c q).accepted.length := by
  have hgrows := @claimUngrouped_grows db a now c q
  by_cases hskip : c.accepted.length ≥ a.batchSize ∨ c.budgetFor q ≤ 0
  · rcases hskip with hfull | hshut
    · exact Or.inr (Or.inr (hfull.le.trans hgrows.length_le))
    · exact Or.inr (Or.inl (hgrows.shut q (shut_iff.mpr hshut)))
  · have hlim : ungroupedLimit a c q = (min (c.budgetFor q) ((a.batchSize - c.accepted.length : Nat) : ℤ)).toNat :=
      if_neg hskip
    have hrowless := h.rowless
    have hstep : claimUngrouped db (fun _ => true) a now c q =
        acceptUngrouped c q ((candidates db (ungroupedOn a now q)).take (ungroupedLimit a c q)) := by
      unfold claimUngrouped
      rw [if_neg (by omega), pick_eq]
    rw [hstep]
    generalize ungroupedLimit a c q = n at hlim hrowless
    rw [← List.take_append_drop n (candidates db (ungroupedOn a now q))] at hj
    rcases List.mem_append.mp hj with hj | hj
    · left
      rw [Claiming.ids, acceptUngrouped, List.map_append, List.map_map]
      exact List.mem_append_right _ (List.mem_map_of_mem (f := fun j : JobRow => j.id) hj)
    · -- the `LIMIT` was reached
      right
      have hcut := List.length_pos_of_mem hj
      rw [List.length_drop] at hcut
      have hlen : ((candidates db (ungroupedOn a now q)).take n).length = n := by
        rw [List.length_take]
        omega
      cases hb : c.budget q with
      | none =>
        right
        simp only [acceptUngrouped, List.length_append, List.length_map, hlen]
        rcases hrowless hb with hall | hall <;> omega
      | some b =>
        have hfor : c.budgetFor q = b := by rw [Claiming.budgetFor, hb]; rfl
        rw [hfor] at hlim hskip
        by_cases hmin : b ≤ ((a.batchSize - c.accepted.length : Nat) : ℤ)
        · left
          refine ⟨max (b - n) 0, ?_, by omega⟩
          simp only [acceptUngrouped, hlen]
          exact spend_self hb n
        · right
          simp only [acceptUngrouped, List.length_append, List.length_map, hlen]
          omega

/-- It picks each of them once. -/
theorem FastVisit.nodup {c : Claiming} {q : String} (h : FastVisit db a now c q) (hk : Keyed db) (hn : c.ids.Nodup) :
    (claimUngrouped db (fun _ => true) a now c q).ids.Nodup := by
  unfold claimUngrouped
  split
  · exact hn
  · rw [pick_eq, Claiming.ids, acceptUngrouped, List.map_append, List.map_map]
    have hnew : ((candidates db (ungroupedOn a now q)).take (ungroupedLimit a c q)).map (·.id) |>.Nodup :=
      (hk.candidates _).sublist (List.Sublist.map _ (List.take_sublist _ _))
    refine List.nodup_append'.mpr ⟨hn, hnew, fun id hid hid' => ?_⟩
    obtain ⟨j, hj, rfl⟩ := List.mem_map.mp hid'
    exact h.once j hj hid

/-! ### A visit to a group -/

/-- What is accepted are some of the rows. -/
theorem acceptGrouped_sublist (a : ClaimArgs) (key : String) : ∀ (js : List JobRow) (slots : ℤ) (c : Claiming),
    ∃ l : List JobRow, l.Sublist js ∧ (acceptGrouped a key js slots c).accepted =
      c.accepted ++ l.map (fun j => { id := j.id, group := some key, queue := j.queue })
  | [], _, c => ⟨[], .slnil, by simp [acceptGrouped]⟩
  | j :: js, slots, c => by
    unfold acceptGrouped
    split
    · exact ⟨[], List.nil_sublist _, by simp⟩
    split
    · obtain ⟨l, hl, heq⟩ := acceptGrouped_sublist a key js slots c
      exact ⟨l, hl.cons j, heq⟩
    · obtain ⟨l, hl, heq⟩ := acceptGrouped_sublist a key js (slots - 1) { budget := spend c.budget j.queue 1, accepted := c.accepted ++ [{ id := j.id, group := some key, queue := j.queue }] }
      exact ⟨j :: l, hl.cons_cons j, by rw [heq]; simp⟩

theorem onQueue_cons (j : JobRow) (js : List JobRow) (q : String) :
    onQueue (j :: js) q = onQueue js q + if j.queue = q then 1 else 0 := by
  simp only [onQueue, List.countP_cons, decide_eq_true_eq]
  push_cast
  split <;> simp

/-- While batch and slots allow, a row that is not accepted is on a queue that is shut. -/
theorem acceptGrouped_serves (a : ClaimArgs) (key : String) (js : List JobRow) (slots : ℤ) (c : Claiming)
    (hbatch : c.accepted.length + js.length ≤ a.batchSize) (hslots : (js.length : ℤ) ≤ slots) {j : JobRow} (hj : j ∈ js) :
    j.id ∈ (acceptGrouped a key js slots c).ids ∨ (acceptGrouped a key js slots c).Shut j.queue := by
  induction js generalizing slots c with
  | nil => exact absurd hj List.not_mem_nil
  | cons i js ih =>
    rw [List.length_cons] at hbatch hslots
    have hgo : ¬ (c.accepted.length ≥ a.batchSize ∨ slots ≤ 0) := by omega
    unfold acceptGrouped
    rw [if_neg hgo]
    split
    · next hshut =>
      rcases List.mem_cons.mp hj with rfl | hj
      · exact Or.inr ((acceptGrouped_grows a key js slots c).shut _ (shut_iff.mpr hshut))
      · exact ih slots c (by omega) (by omega) hj
    · rcases List.mem_cons.mp hj with rfl | hj
      · left
        refine (acceptGrouped_grows a key js (slots - 1) _).mem ?_
        simp [Claiming.ids]
      · refine ih (slots - 1) _ ?_ (by omega) hj
        rw [List.length_append, List.length_singleton]
        omega

/-- The budget of a queue after the rows of a group. -/
theorem acceptGrouped_budget (a : ClaimArgs) (key : String) {q : String} : ∀ (js : List JobRow) (slots : ℤ) {c : Claiming}
    {b : ℤ}, c.budget q = some b → 0 ≤ b → c.accepted.length + js.length ≤ a.batchSize → (js.length : ℤ) ≤ slots →
      (acceptGrouped a key js slots c).budget q = some (max (b - onQueue js q) 0)
  | [], _, c, b, hb, h0, _, _ => by simpa [acceptGrouped, onQueue, h0] using hb
  | j :: js, slots, c, b, hb, h0, hbatch, hslots => by
    rw [List.length_cons] at hbatch hslots
    have hgo : ¬ (c.accepted.length ≥ a.batchSize ∨ slots ≤ 0) := by omega
    have hon : 0 ≤ onQueue js q := Int.natCast_nonneg _
    have hlen : (c.accepted ++ [{ id := j.id, group := some key, queue := j.queue : Accepted }]).length + js.length ≤
        a.batchSize := by
      rw [List.length_append, List.length_singleton]
      omega
    unfold acceptGrouped
    rw [if_neg hgo, onQueue_cons]
    by_cases hq : j.queue = q
    · have hfor : c.budgetFor j.queue = b := by rw [Claiming.budgetFor, hq, hb]; rfl
      rw [if_pos hq, hfor]
      split
      · rw [acceptGrouped_budget a key js slots hb h0 (by omega) (by omega)]
        congr 1
        omega
      · have hb' : spend c.budget j.queue 1 q = some (max (b - 1) 0) := by
          rw [hq]
          exact spend_self hb 1
        rw [acceptGrouped_budget a key js (slots - 1) hb' (by omega) hlen (by omega)]
        congr 1
        omega
    · rw [if_neg hq, add_zero]
      split
      · exact acceptGrouped_budget a key js slots hb h0 (by omega) (by omega)
      · refine acceptGrouped_budget a key js (slots - 1) ?_ h0 hlen (by omega)
        exact (spend_of_ne (Ne.symm hq) 1).trans hb

/-- When no queue has more of the rows than budget, all are accepted. -/
theorem acceptGrouped_all (a : ClaimArgs) (key : String) : ∀ (js : List JobRow) (slots : ℤ) {c : Claiming},
    (∀ q b, c.budget q = some b → onQueue js q ≤ b) → c.accepted.length + js.length ≤ a.batchSize →
      (js.length : ℤ) ≤ slots → (acceptGrouped a key js slots c).accepted =
        c.accepted ++ js.map (fun j => { id := j.id, group := some key, queue := j.queue })
  | [], _, c, _, _, _ => by simp [acceptGrouped]
  | j :: js, slots, c, hfit, hbatch, hslots => by
    rw [List.length_cons] at hbatch hslots
    have hgo : ¬ (c.accepted.length ≥ a.batchSize ∨ slots ≤ 0) := by omega
    have hon : 0 ≤ onQueue js j.queue := Int.natCast_nonneg _
    have hopen : ¬ c.budgetFor j.queue ≤ 0 := by
      rw [← shut_iff]
      rintro ⟨b, hb, hle⟩
      have := hfit _ b hb
      rw [onQueue_cons, if_pos rfl] at this
      omega
    unfold acceptGrouped
    rw [if_neg hgo, if_neg hopen, acceptGrouped_all a key js (slots - 1)]
    · simp
    · intro q b hb
      by_cases hq : q = j.queue
      · subst hq
        cases hc : c.budget j.queue with
        | none => simp [spend, hc] at hb
        | some b' =>
          have hfit' := hfit _ b' hc
          rw [onQueue_cons, if_pos rfl] at hfit'
          have hspent := hb
          dsimp only at hspent
          rw [spend_self hc 1] at hspent
          cases hspent
          omega
      · have hfit' := hfit q b ((spend_of_ne hq 1).symm.trans hb)
        rwa [onQueue_cons, if_neg (Ne.symm hq), add_zero] at hfit'
    · rw [List.length_append, List.length_singleton]
      omega
    · omega

/-- The job is picked, or its queue is shut, or the batch is full, or the slots of the group are used up. -/
def Claiming.Serves (a : ClaimArgs) (e : String × GroupState) (c : Claiming) (j : JobRow) : Prop :=
  j.id ∈ c.ids ∨ c.Shut j.queue ∨ a.batchSize ≤ c.accepted.length ∨ e.2.slots ≤ c.count (.group e.1)

theorem Claiming.Serves.mono {e : String × GroupState} {c c' : Claiming} {j : JobRow} (h : c.Serves a e j) (hg : c.Grows c') :
    c'.Serves a e j := by
  rcases h with h | h | h | h
  · exact Or.inl (hg.mem h)
  · exact Or.inr (Or.inl (hg.shut _ h))
  · exact Or.inr (Or.inr (Or.inl (h.trans hg.length_le)))
  · exact Or.inr (Or.inr (Or.inr (h.trans (hg.count_le _))))

/-- A visit that is not skipped fetches what batch and slots allow. -/
theorem claimGrouped_go {qs : List String} {c : Claiming} {e : String × GroupState}
    (hgo : ¬ (c.accepted.length ≥ a.batchSize ∨ e.2.slots ≤ 0)) :
    (groupedLimit a c e.2 : ℤ) = min e.2.slots ((a.batchSize - c.accepted.length : Nat) : ℤ) ∧
      claimGrouped db (fun _ => true) a now qs c e =
        acceptGrouped a e.1 ((candidates db (groupedIn a now qs e.1)).take (groupedLimit a c e.2)) e.2.slots c := by
  have hlim : groupedLimit a c e.2 = (min e.2.slots ((a.batchSize - c.accepted.length : Nat) : ℤ)).toNat := if_neg hgo
  refine ⟨by omega, ?_⟩
  unfold claimGrouped
  rw [if_neg (by omega), pick_eq]

/-- The picks of a group. -/
theorem count_group_map (k : String) (l : List JobRow) :
    (l.map (fun j => ({ id := j.id, group := some k, queue := j.queue } : Accepted))).countP
      (fun y => (Row.group k).takes y) = l.length := by
  rw [List.countP_map]
  exact List.countP_eq_length.mpr (fun j _ => by simp [Row.takes])

/-- After such a visit to a group, each of its candidates is served. -/
theorem SlowVisit.serves {qs : List String} {c : Claiming} {e : String × GroupState} (h : SlowVisit db a now qs c e)
    (h0 : c.NonNeg) {j : JobRow} (hj : j ∈ candidates db (groupedIn a now qs e.1)) :
    (claimGrouped db (fun _ => true) a now qs c e).Serves a e j := by
  by_cases hgo : c.accepted.length ≥ a.batchSize ∨ e.2.slots ≤ 0
  · have hgrows := @claimGrouped_grows db a now qs c e
    rcases hgo with hfull | hslots
    · exact Or.inr (Or.inr (Or.inl (hfull.le.trans hgrows.length_le)))
    · exact Or.inr (Or.inr (Or.inr (hslots.trans (Int.natCast_nonneg _))))
  · obtain ⟨hlim, hstep⟩ := @claimGrouped_go db a now qs c e hgo
    unfold SlowVisit at h
    dsimp only at h
    rw [hstep]
    generalize groupedLimit a c e.2 = n at hlim h
    have hlen : ((candidates db (groupedIn a now qs e.1)).take n).length ≤ n := List.length_take_le _ _
    rw [← List.take_append_drop n (candidates db (groupedIn a now qs e.1))] at hj
    rcases List.mem_append.mp hj with hj | hj
    · rcases acceptGrouped_serves a e.1 _ e.2.slots c (by omega) (by omega) hj with hin | hshut
      · exact Or.inl hin
      · exact Or.inr (Or.inl hshut)
    · have hcut := List.length_pos_of_mem hj
      rw [List.length_drop] at hcut
      have hfull : ((candidates db (groupedIn a now qs e.1)).take n).length = n := by
        rw [List.length_take]
        omega
      rcases h with hfit | hout
      · -- all are accepted, so batch or slots are used up
        have hall := acceptGrouped_all a e.1 ((candidates db (groupedIn a now qs e.1)).take n) e.2.slots hfit (by omega)
          (by omega)
        right
        right
        by_cases hmin : e.2.slots ≤ ((a.batchSize - c.accepted.length : Nat) : ℤ)
        · right
          have hcount := count_group_map e.1 ((candidates db (groupedIn a now qs e.1)).take n)
          rw [Claiming.count, hall, List.countP_append, hcount, hfull]
          omega
        · left
          rw [hall, List.length_append, List.length_map, hfull]
          omega
      · obtain ⟨b, hb, hle⟩ := hout j hj
        right
        left
        exact ⟨_, acceptGrouped_budget a e.1 _ e.2.slots hb (h0 _ b hb) (by omega) (by omega), by omega⟩

/-- A visit that fetches more rows of a queue than its budget allows drops one of them. -/
theorem acceptGrouped_drops {js l : List JobRow} {key q : String} {slots b : ℤ} {c : Claiming} (hb : c.budget q = some b)
    (hb0 : 0 ≤ b) (hover : b < onQueue js q) (hl : l.Sublist js) (hacc : (acceptGrouped a key js slots c).accepted =
      c.accepted ++ l.map (fun j => { id := j.id, group := some key, queue := j.queue })) : l.length < js.length := by
  refine lt_of_le_of_ne hl.length_le fun heq => ?_
  have hsame := hl.eq_of_length heq
  subst hsame
  have hcons : c.Conserves q (c.count (.queue q) + b) := ⟨b, hb, hb0, rfl⟩
  obtain ⟨b', _, hb', hsum⟩ := acceptGrouped_conserves a key l slots hcons
  rw [Claiming.count, hacc, List.countP_append, List.countP_map] at hsum
  have hon : (l.countP ((fun y => (Row.queue q).takes y) ∘
      fun j => { id := j.id, group := some key, queue := j.queue }) : ℤ) = onQueue l q := rfl
  simp only [Claiming.count] at hsum
  omega

/-- **Exactly such visits serve all candidates of the group.** -/
theorem slowVisit_iff {qs : List String} {c : Claiming} {e : String × GroupState} (hk : Keyed db)
    (h0 : c.NonNeg) (hnew : ∀ j ∈ candidates db (groupedIn a now qs e.1), j.id ∉ c.ids)
    (hcount : c.count (.group e.1) = 0) : SlowVisit db a now qs c e ↔
      ∀ j ∈ candidates db (groupedIn a now qs e.1), (claimGrouped db (fun _ => true) a now qs c e).Serves a e j := by
  refine ⟨fun h j hj => h.serves h0 hj, fun hall => ?_⟩
  by_contra hno
  unfold SlowVisit at hno
  dsimp only at hno
  rw [not_or] at hno
  obtain ⟨hover, hcut⟩ := hno
  push Not at hover hcut
  obtain ⟨q, b, hb, hover⟩ := hover
  obtain ⟨j, hj, hcut⟩ := hcut
  have hb0 := h0 q b hb
  -- the visit is not skipped, since it fetches something
  have hgo : ¬ (c.accepted.length ≥ a.batchSize ∨ e.2.slots ≤ 0) := by
    intro hskip
    have hlim : groupedLimit a c e.2 = 0 := if_pos hskip
    rw [hlim, List.take_zero] at hover
    simp only [onQueue, List.countP_nil, Nat.cast_zero] at hover
    omega
  obtain ⟨hlim, hstep⟩ := @claimGrouped_go db a now qs c e hgo
  have hserves := hall j (List.mem_of_mem_drop hj)
  rw [hstep] at hserves
  have hnodup := hk.candidates (groupedIn a now qs e.1)
  generalize groupedLimit a c e.2 = n at hlim hover hcut hj hserves
  rw [← List.take_append_drop n (candidates db (groupedIn a now qs e.1)), List.map_append] at hnodup
  have hlen : ((candidates db (groupedIn a now qs e.1)).take n).length ≤ n := List.length_take_le _ _
  obtain ⟨l, hl, hacc⟩ := acceptGrouped_sublist a e.1 ((candidates db (groupedIn a now qs e.1)).take n) e.2.slots c
  have hless := acceptGrouped_drops hb hb0 hover hl hacc
  rcases hserves with hin | ⟨b', hb', hle⟩ | hfull | hslots
  · rw [Claiming.ids, hacc, List.map_append, List.map_map] at hin
    rcases List.mem_append.mp hin with hin | hin
    · exact hnew j (List.mem_of_mem_drop hj) hin
    · exact (List.nodup_append'.mp hnodup).2.2 ((hl.map _).subset hin) (List.mem_map_of_mem hj)
  · cases hj' : c.budget j.queue with
    | none => rw [(acceptGrouped_grows a e.1 _ e.2.slots c).rowless _ hj'] at hb'; cases hb'
    | some x =>
      rw [acceptGrouped_budget a e.1 _ e.2.slots hj' (h0 _ x hj') (by omega) (by omega)] at hb'
      cases hb'
      have := hcut x hj'
      omega
  · rw [hacc, List.length_append, List.length_map] at hfull
    omega
  · have hgroup := count_group_map e.1 l
    rw [Claiming.count, hacc, List.countP_append, hgroup] at hslots
    simp only [Claiming.count] at hcount
    omega

end Visits

/-! ## The lanes -/

section Lanes

variable {db : Db} {a : ClaimArgs} {now clock : ℤ} {order : MapOrder}

/-! ### The budgets at the start -/

/-- A queue with a row has the slots of the row. -/
theorem claimStart_row (hk : Keyed db) {x : QueueRow} (hx : x ∈ db.queues) (hq : x.name ∈ a.queues) :
    (claimStart db a).budget x.name = some x.slots := by
  have hread : x ∈ readQueues db a.queues := List.mem_filter.mpr ⟨hx, decide_eq_true hq⟩
  have hbind := mem_bindingNames (hk.readQueues a.queues) hread
  unfold claimStart queueBudgets
  dsimp only
  split
  · exact setBudgets_of_mem _ (hk.readQueues _) hread
  · by_cases hneeds : queueRowNeedsLock x = true
    · have hlocked : x ∈ readQueues db (bindingNames (readQueues db a.queues)) :=
        List.mem_filter.mpr ⟨hx, decide_eq_true (hbind.mpr hneeds)⟩
      exact setBudgets_of_mem _ (hk.readQueues _) hlocked
    · have hnot : ∀ q ∈ readQueues db (bindingNames (readQueues db a.queues)), q.name ≠ x.name := by
        intro q hq he
        exact hneeds (hbind.mp (he ▸ of_decide_eq_true (List.mem_filter.mp hq).2))
      rw [setBudgets_of_notMem _ hnot, zeroBudgets_apply, if_neg (fun h => hneeds (hbind.mp h)),
        setBudgets_of_mem _ (hk.readQueues _) hread]

/-- A queue of which no row is read has no budget. -/
theorem claimStart_rowless {n : String} (h : ∀ x ∈ readQueues db a.queues, x.name ≠ n) : (claimStart db a).budget n = none := by
  have hbind : n ∉ bindingNames (readQueues db a.queues) := by
    intro hn
    obtain ⟨x, hx, hxn⟩ := List.mem_map.mp hn
    exact h x (List.mem_of_mem_filter hx) hxn
  have hlocked : ∀ x ∈ readQueues db (bindingNames (readQueues db a.queues)), x.name ≠ n := by
    intro x hx he
    exact hbind (he ▸ of_decide_eq_true (List.mem_filter.mp hx).2)
  unfold claimStart queueBudgets
  dsimp only
  split
  · rw [setBudgets_of_notMem _ h]
  · rw [setBudgets_of_notMem _ hlocked, zeroBudgets_apply, if_neg hbind, setBudgets_of_notMem _ h]

/-- A budget is that of a row. -/
theorem claimStart_some (hk : Keyed db) {n : String} (h : (claimStart db a).budget n ≠ none) :
    ∃ x ∈ db.queues, x.name = n ∧ (claimStart db a).budget n = some x.slots := by
  have hrow : ∃ x ∈ readQueues db a.queues, x.name = n := by
    by_contra hno
    exact h (claimStart_rowless (fun x hx he => hno ⟨x, hx, he⟩))
  obtain ⟨x, hx, rfl⟩ := hrow
  obtain ⟨hmem, hq⟩ := List.mem_filter.mp hx
  exact ⟨x, hmem, rfl, claimStart_row hk hmem (of_decide_eq_true hq)⟩

theorem claimStart_nonNeg (hk : Keyed db) : (claimStart db a).NonNeg := by
  intro n b hb
  obtain ⟨x, _, _, hx⟩ := @claimStart_some db a hk n (by simp [hb])
  rw [hb] at hx
  cases hx
  exact slots_nonneg x

/-! ### The fast lane -/

theorem afterQueues_grows (visited : List String) : (claimStart db a).Grows (afterQueues db a now visited) :=
  List.foldlRecOn _ _ (motive := fun c => (claimStart db a).Grows c) (.refl _)
    (fun c h q _ => h.trans (claimUngrouped_grows c q))

/-- After the fast lane no job is picked twice, and each ungrouped job is picked, or on a shut queue, or the batch is
full. -/
theorem Straight.fastLane (hk : Keyed db) (h : Straight db a now clock order) :
    (afterQueues db a now a.queues).ids.Nodup ∧ ∀ q ∈ a.queues, ∀ j ∈ candidates db (ungroupedOn a now q),
      j.id ∈ (afterQueues db a now a.queues).ids ∨ (afterQueues db a now a.queues).Shut q ∨
        a.batchSize ≤ (afterQueues db a now a.queues).accepted.length := by
  refine foldl_turns (claimUngrouped db (fun _ => true) a now) (claimStart db a) a.queues
    (P := fun visited c => c.ids.Nodup ∧ ∀ q ∈ visited, ∀ j ∈ candidates db (ungroupedOn a now q),
      j.id ∈ c.ids ∨ c.Shut q ∨ a.batchSize ≤ c.accepted.length) ⟨List.nodup_nil, nofun⟩ ?_
  rintro pre q post heq ⟨hnodup, hserved⟩
  have hvisit := h.fast pre q post heq
  have hgrows := @claimUngrouped_grows db a now (afterQueues db a now pre) q
  refine ⟨hvisit.nodup hk hnodup, fun x hx j hj => ?_⟩
  rcases List.mem_append.mp hx with hx | hx
  · rcases hserved x hx j hj with hin | hshut | hfull
    · exact Or.inl (hgrows.mem hin)
    · exact Or.inr (Or.inl (hgrows.shut _ hshut))
    · exact Or.inr (Or.inr (hfull.trans hgrows.length_le))
  · rw [List.mem_singleton.mp hx] at hj ⊢
    exact hvisit.serves hj

/-! ### The groups to visit -/

/-- Every group has at most one visit. -/
theorem groupVisits_nodup (hk : Keyed db) : ((groupVisits db a now clock order).map Prod.fst).Nodup := by
  have hperm := (order.perm (claimPicks db a now clock order).2).map Prod.fst
  refine hperm.nodup_iff.mpr ?_
  unfold claimPicks groupSlots
  dsimp only
  generalize hkeys : activeGroupKeys db a now _ = keys
  have hnodup : keys.Nodup := by
    rw [← hkeys, activeGroupKeys]
    split
    · exact List.nodup_nil
    split
    · exact (groupWalkByQueue_keys ..).1
    · exact (groupWalk_keys ..).1
  rw [List.map_append, List.map_map, List.map_map]
  refine List.nodup_append'.mpr ⟨hk.lockGroups _ keys, ?_, ?_⟩
  · have hid : (Prod.fst ∘ fun k : String => (k, ({ slots := unlimited } : GroupState))) = id := rfl
    rw [hid, List.map_id]
    exact hnodup.filter _
  · intro k hk hk'
    obtain ⟨g, hg, rfl⟩ := List.mem_map.mp hk
    obtain ⟨k', hk', he⟩ := List.mem_map.mp hk'
    obtain ⟨hg, hin⟩ := List.mem_filter.mp hg
    rw [Bool.and_true] at hin
    refine of_decide_eq_true (List.mem_filter.mp hk').2 ?_
    rw [show k' = g.key from he]
    exact List.mem_map_of_mem (List.mem_filter.mpr ⟨hg, hin⟩)

/-- The slots of a group at the start: those of its row, or `i32::MAX`. -/
def slotsOf (db : Db) (clock : ℤ) (k : String) (n : ℤ) : Prop :=
  (∃ g ∈ db.groups, g.key = k ∧ (g.toState clock).slots = n) ∨ (∀ g ∈ db.groups, g.key ≠ k) ∧ n = unlimited

/-- A group with a due job on an open queue has a visit, unless the batch is full. -/
theorem exists_visit {j : JobRow} (hj : j ∈ db.jobs) (hdue : j.due now a.kinds = true) {k : String}
    (hkey : j.groupKey = some k) (hopen : j.queue ∈ openQueues a (afterQueues db a now a.queues))
    (hroom : (afterQueues db a now a.queues).accepted.length < a.batchSize) :
    ∃ e ∈ groupVisits db a now clock order, e.1 = k ∧ slotsOf db clock k e.2.slots := by
  have hwalk : k ∈ activeGroupKeys db a now (afterQueues db a now a.queues) := by
    have hmem : k ∈ groupKeys db now a.kinds (openQueues a (afterQueues db a now a.queues)) :=
      List.mem_filterMap.mpr ⟨j, List.mem_filter.mpr ⟨hj, by simp [hdue, hopen]⟩, hkey⟩
    have hgo : ¬ (a.batchSize - (afterQueues db a now a.queues).accepted.length = 0 ∨
        openQueues a (afterQueues db a now a.queues) = []) := by
      rw [not_or]
      exact ⟨by omega, List.ne_nil_of_mem hopen⟩
    unfold activeGroupKeys
    dsimp only
    rw [if_neg hgo]
    split
    · exact ((groupWalkByQueue_keys ..).2 k).mpr hmem
    · exact ((groupWalk_keys ..).2 k).mpr hmem
  have hslots : (claimPicks db a now clock order).2 =
      groupSlots (lockGroups db (fun _ => true) (activeGroupKeys db a now (afterQueues db a now a.queues)))
        (activeGroupKeys db a now (afterQueues db a now a.queues))
        (existingKeys db (activeGroupKeys db a now (afterQueues db a now a.queues))) clock := rfl
  generalize activeGroupKeys db a now (afterQueues db a now a.queues) = keys at hwalk hslots
  by_cases hrow : ∃ g ∈ db.groups, g.key = k
  · obtain ⟨g, hg, rfl⟩ := hrow
    refine ⟨(g.key, g.toState clock), (order.perm _).mem_iff.mpr ?_, rfl, Or.inl ⟨g, hg, rfl, rfl⟩⟩
    rw [hslots]
    exact List.mem_append_left _ (List.mem_map_of_mem (f := fun g : GroupRow => (g.key, g.toState clock))
      (List.mem_filter.mpr ⟨hg, by simp [hwalk]⟩))
  · refine ⟨(k, { slots := unlimited }), (order.perm _).mem_iff.mpr ?_, rfl,
      Or.inr ⟨fun g hg he => hrow ⟨g, hg, he⟩, rfl⟩⟩
    rw [hslots]
    refine List.mem_append_right _ (List.mem_map_of_mem (f := fun k : String => (k, ({ slots := unlimited } : GroupState)))
      (List.mem_filter.mpr ⟨hwalk, decide_eq_true (fun hin => ?_)⟩))
    obtain ⟨g, hg, he⟩ := List.mem_map.mp hin
    exact hrow ⟨g, List.mem_of_mem_filter hg, he⟩

/-! ### The slow lane -/

theorem afterGroups_grows (visited : List (String × GroupState)) :
    (afterQueues db a now a.queues).Grows (afterGroups db a now visited) :=
  List.foldlRecOn _ _ (motive := fun c => (afterQueues db a now a.queues).Grows c) (.refl _)
    (fun c h e _ => h.trans (claimGrouped_grows _ c e))

theorem afterGroups_picked (visited : List (String × GroupState)) :
    AllPicked db (db.jobs.map (fun j => .job j.id)) a.queues (afterGroups db a now visited) :=
  slowLane_picked db now (fun _ hq => List.mem_of_mem_filter hq) _
    (fastLane_picked db now (List.Subset.refl _) (fun _ hy => absurd hy List.not_mem_nil))

/-- A visit to a group picks jobs of the group. -/
theorem claimGrouped_sublist (qs : List String) (c : Claiming) (e : String × GroupState) :
    ∃ l : List JobRow, l.Sublist (candidates db (groupedIn a now qs e.1)) ∧
      (claimGrouped db (fun _ => true) a now qs c e).accepted =
        c.accepted ++ l.map (fun j => { id := j.id, group := some e.1, queue := j.queue }) := by
  unfold claimGrouped
  split
  · exact ⟨[], List.nil_sublist _, by simp⟩
  · obtain ⟨l, hl, heq⟩ := acceptGrouped_sublist a e.1 (pick db (fun _ => true) (groupedIn a now qs e.1) (groupedLimit a c e.2))
      e.2.slots c
    rw [pick_eq] at hl
    exact ⟨l, hl.trans (List.take_sublist _ _), heq⟩

/-- After the slow lane no job is picked twice, and every candidate of a visited group is served. -/
theorem Straight.slowLane (hk : Keyed db) (h : Straight db a now clock order) :
    (claimPicks db a now clock order).1.ids.Nodup ∧ ∀ e ∈ groupVisits db a now clock order,
      ∀ j ∈ candidates db (groupedIn a now (openQueues a (afterQueues db a now a.queues)) e.1),
        (claimPicks db a now clock order).1.Serves a e j := by
  have hstart := (@afterQueues_grows db a now a.queues).nonNeg (claimStart_nonNeg hk)
  have hungrouped : (afterQueues db a now a.queues).Ungrouped :=
    fastLane_ungrouped db a now a.queues (fun _ hy => absurd hy List.not_mem_nil)
  -- the picks so far are ungrouped or of the groups visited so far
  have hrun := foldl_turns (claimGrouped db (fun _ => true) a now (openQueues a (afterQueues db a now a.queues)))
    (afterQueues db a now a.queues) (groupVisits db a now clock order)
    (P := fun visited c => (c.ids.Nodup ∧ ∀ y ∈ c.accepted, ∀ k, y.group = some k → k ∈ visited.map Prod.fst) ∧
      ∀ e ∈ visited, ∀ j ∈ candidates db (groupedIn a now (openQueues a (afterQueues db a now a.queues)) e.1),
        c.Serves a e j) ?_ ?_
  · exact ⟨hrun.1.1, hrun.2⟩
  · refine ⟨⟨(h.fastLane hk).1, fun y hy k hyk => ?_⟩, nofun⟩
    rw [hungrouped y hy] at hyk
    cases hyk
  · rintro pre e post heq ⟨⟨hnodup, hgroups⟩, hserved⟩
    have hvisit := h.slow pre e post heq
    have hgrows := @claimGrouped_grows db a now (openQueues a (afterQueues db a now a.queues)) (afterGroups db a now pre) e
    obtain ⟨l, hl, hacc⟩ := @claimGrouped_sublist db a now (openQueues a (afterQueues db a now a.queues))
      (afterGroups db a now pre) e
    have honce : e.1 ∉ pre.map Prod.fst := by
      have hvisits := @groupVisits_nodup db a now clock order hk
      rw [heq, List.map_append, List.map_cons] at hvisits
      intro hin
      exact (List.nodup_append'.mp hvisits).2.2 hin List.mem_cons_self
    refine ⟨⟨?_, fun y hy k hyk => ?_⟩, fun x hx j hj => ?_⟩
    · show (claimGrouped db (fun _ => true) a now _ (afterGroups db a now pre) e).ids.Nodup
      rw [Claiming.ids, hacc, List.map_append, List.map_map]
      refine List.nodup_append'.mpr ⟨hnodup, (hk.candidates _).sublist (hl.map _), fun id hid hid' => ?_⟩
      obtain ⟨y, hy, rfl⟩ := List.mem_map.mp hid
      obtain ⟨j, hj, hjid⟩ := List.mem_map.mp hid'
      obtain ⟨hmem, hp⟩ := mem_candidates.mp (hl.subset hj)
      obtain ⟨j', hj', hid', _, _, hgroup⟩ := (afterGroups_picked pre y hy).row
      have hsame : j' = j := List.inj_on_of_nodup_map hk.ids hj' hmem (hid'.trans hjid.symm)
      simp only [groupedIn, Bool.and_eq_true, decide_eq_true_eq] at hp
      exact honce (hgroups y hy e.1 (by rw [← hgroup, hsame, hp.1.2]))
    · rw [List.map_append, List.mem_append]
      have hy : y ∈ (afterGroups db a now pre).accepted ++ l.map _ := hacc ▸ hy
      rcases List.mem_append.mp hy with hy | hy
      · exact Or.inl (hgroups y hy k hyk)
      · obtain ⟨j, _, rfl⟩ := List.mem_map.mp hy
        cases hyk
        simp
    · rcases List.mem_append.mp hx with hx | hx
      · exact (hserved x hx j hj).mono hgrows
      · rw [List.mem_singleton.mp hx] at hj ⊢
        exact hvisit.serves ((afterGroups_grows pre).nonNeg hstart) hj

end Lanes

/-! ## The tables afterwards -/

section Commit

variable {db : Db} {a : ClaimArgs} {now clock : ℤ} {c : Claiming}

/-- A claim that picks no job twice starts as many jobs of a row as it has picked. -/
theorem startedOf_eq (hk : Keyed db) {held : List Row} {queues : List String} (hp : AllPicked db held queues c)
    (hn : c.ids.Nodup) (r : Row) : (startedOf db c.ids r : ℤ) = c.count r := by
  refine le_antisymm (startedOf_le hk hp r) ?_
  have hnodup : ((c.accepted.filter (fun y => r.takes y)).map (·.id)).Nodup :=
    hn.sublist (List.Sublist.map _ List.filter_sublist)
  have hsub : (c.accepted.filter (fun y => r.takes y)).map (·.id) ⊆
      (db.jobs.filter (fun j => decide (j.id ∈ c.ids) && r.has j)).map (·.id) := by
    intro id hid
    obtain ⟨y, hy, rfl⟩ := List.mem_map.mp hid
    obtain ⟨hy, htakes⟩ := List.mem_filter.mp hy
    obtain ⟨j, hj, hjid, _, hqueue, hgroup⟩ := (hp y hy).row
    have hhas : r.has j = true := by
      cases r with
      | job i => simpa [Row.takes, Row.has, hjid] using htakes
      | group k => simpa [Row.takes, Row.has, hgroup] using htakes
      | queue n => simpa [Row.takes, Row.has, hqueue] using htakes
    have hin : j.id ∈ c.ids := hjid ▸ List.mem_map_of_mem hy
    exact List.mem_map.mpr ⟨j, List.mem_filter.mpr ⟨hj, by simp [hin, hhas]⟩, hjid⟩
  have hle := (List.subperm_of_subset hnodup hsub).length_le
  rw [List.length_map, List.length_map, ← List.countP_eq_length_filter, ← List.countP_eq_length_filter] at hle
  exact Int.ofNat_le.mpr hle

/-- And returns as many rows as it has picked. -/
theorem length_claimedRows (hk : Keyed db) {held : List Row} {queues : List String} (hp : AllPicked db held queues c)
    (hn : c.ids.Nodup) (w : WorkerId) : (claimedRows db c.ids w now).length = c.accepted.length := by
  have hperm : ((db.jobs.filter (fun j => j.id ∈ c.ids)).map (·.id)).Perm c.ids := by
    refine (List.perm_ext_iff_of_nodup (hk.ids.sublist (List.Sublist.map _ List.filter_sublist)) hn).mpr fun id => ?_
    constructor
    · intro hid
      obtain ⟨j, hj, rfl⟩ := List.mem_map.mp hid
      exact of_decide_eq_true (List.mem_filter.mp hj).2
    · intro hid
      obtain ⟨y, hy, rfl⟩ := List.mem_map.mp hid
      obtain ⟨j, hj, hjid, _⟩ := (hp y hy).row
      exact List.mem_map.mpr ⟨j, List.mem_filter.mpr ⟨hj, decide_eq_true (hjid ▸ hid)⟩, hjid⟩
  have hlen := hperm.length_eq
  rw [List.length_map, Claiming.ids, List.length_map] at hlen
  rw [claimedRows, List.length_map]
  exact hlen

/-- What the upsert of a group's counter makes of its row. -/
def bumped (st : Option GroupState) (clock d : ℤ) (g : GroupRow) : GroupRow :=
  match st with
  | some st =>
    if st.rateLimited then { g with
      runningCount := g.runningCount + d, tokens := max (st.refilledTokens - d) 0, tokensRefilledAt := some clock }
    else { g with runningCount := g.runningCount + d }
  | none => { g with runningCount := g.runningCount + d }

/-- The state that a claim keeps about a group. -/
def stateOf (slots : List (String × GroupState)) (k : String) : Option GroupState :=
  (slots.find? (fun s => s.1 = k)).map Prod.snd

theorem bumpGroup_upsert (slots : List (String × GroupState)) (rows : List JobRow) (clock : ℤ) (db : Db) (key : String) :
    bumpGroup slots rows clock db key = upsertGroup db (bumped (stateOf slots key) clock (groupDelta rows key) { key := key })
      (bumped (stateOf slots key) clock (groupDelta rows key)) := by
  unfold bumpGroup bumped stateOf
  dsimp only
  cases (slots.find? (fun s => s.1 = key)).map Prod.snd with
  | none => simp
  | some st =>
    cases hlim : st.rateLimited with
    | true => simp [hlim]
    | false => simp [hlim]

theorem bumped_key (st : Option GroupState) (clock d : ℤ) (g : GroupRow) : (bumped st clock d g).key = g.key := by
  unfold bumped
  split
  · split <;> rfl
  · rfl

/-- The row of a group, or the one that an upsert makes. -/
def Db.groupRow (db : Db) (k : String) (g : GroupRow) : Prop :=
  g ∈ db.groups ∧ g.key = k ∨ (∀ g' ∈ db.groups, g'.key ≠ k) ∧ g = { key := k }

theorem Db.groupRow.bump_ne {db : Db} {k key : String} {g : GroupRow} (h : db.groupRow k g) (hne : k ≠ key)
    (slots : List (String × GroupState)) (rows : List JobRow) (clock : ℤ) :
    (bumpGroup slots rows clock db key).groupRow k g := by
  obtain ⟨new, f, heq, hkey, _, hf⟩ := bumpGroup_eq slots rows clock db key
  rcases h with ⟨hg, rfl⟩ | ⟨hno, rfl⟩
  · obtain ⟨g', hg', _, _, _, hsame⟩ := bumpGroup_row slots rows clock key hg
    exact Or.inl ⟨hsame hne ▸ hg', rfl⟩
  · refine Or.inr ⟨fun g' hg' he => ?_, rfl⟩
    rw [heq, upsertGroup] at hg'
    split at hg'
    · obtain ⟨g, hg, rfl⟩ := mem_updateWhere.mp hg'
      refine hno g hg ?_
      split at he
      · rw [← (hf g).1, he]
      · exact he
    · rcases List.mem_append.mp hg' with hg' | hg'
      · exact hno g' hg' he
      · rw [List.mem_singleton.mp hg', hkey] at he
        exact hne he.symm

theorem Db.groupRow.bump {db : Db} {k : String} {g : GroupRow} (h : db.groupRow k g) (slots : List (String × GroupState))
    (rows : List JobRow) (clock : ℤ) :
    (bumpGroup slots rows clock db k).groupRow k (bumped (stateOf slots k) clock (groupDelta rows k) g) := by
  have hnew := bumped_key (stateOf slots k) clock (groupDelta rows k) { key := k }
  rw [bumpGroup_upsert]
  left
  rcases h with ⟨hg, rfl⟩ | ⟨hno, rfl⟩
  · have hat : decide (g.key = (bumped (stateOf slots g.key) clock (groupDelta rows g.key) { key := g.key }).key) = true :=
      decide_eq_true hnew.symm
    have hrow := mem_updateWhere_of_mem (p := fun x : GroupRow => x.key =
      (bumped (stateOf slots g.key) clock (groupDelta rows g.key) { key := g.key }).key)
      (f := bumped (stateOf slots g.key) clock (groupDelta rows g.key)) hg
    rw [if_pos hat] at hrow
    refine ⟨?_, bumped_key ..⟩
    rw [upsertGroup, if_pos (List.any_eq_true.mpr ⟨g, hg, hat⟩)]
    exact hrow
  · have hany : ¬ db.groups.any (·.key = (bumped (stateOf slots k) clock (groupDelta rows k) { key := k }).key) = true := by
      intro hany
      obtain ⟨g, hg, he⟩ := List.any_eq_true.mp hany
      exact hno g hg ((of_decide_eq_true he).trans hnew)
    refine ⟨?_, hnew⟩
    rw [upsertGroup, if_neg hany]
    exact List.mem_append_right _ (List.mem_singleton_self _)

/-- The loop over the groups of a claim. -/
theorem Db.groupRow.bumps {k : String} (slots : List (String × GroupState)) (rows : List JobRow) (clock : ℤ) :
    ∀ (keys : List String) {db : Db} {g : GroupRow}, keys.Nodup → db.groupRow k g →
      (keys.foldl (bumpGroup slots rows clock) db).groupRow k
        (if k ∈ keys then bumped (stateOf slots k) clock (groupDelta rows k) g else g)
  | [], _, _, _, h => by simpa using h
  | key :: keys, db, g, hnd, h => by
    rw [List.nodup_cons] at hnd
    rw [List.foldl_cons]
    by_cases hk : k = key
    · subst hk
      have hrest := bumps slots rows clock keys hnd.2 (h.bump slots rows clock)
      rw [if_neg hnd.1] at hrest
      rwa [if_pos List.mem_cons_self]
    · have hrest := bumps slots rows clock keys hnd.2 (h.bump_ne hk slots rows clock)
      simpa [hk] using hrest

/-- **The group rows after a claim.** -/
theorem commitClaim_groupRow (a : ClaimArgs) (slots : List (String × GroupState)) (ids : List JobId) (now clock : ℤ)
    {k : String} {g : GroupRow} (h : db.groupRow k g) : (commitClaim db a slots ids now clock).groupRow k
      (if 0 < startedOf db ids (.group k) then bumped (stateOf slots k) clock (startedOf db ids (.group k)) g else g) := by
  have hjobs : ({ db with jobs := updateWhere (fun j => j.id ∈ ids) (·.start a.worker now) db.jobs } : Db).groupRow k g := h
  have hloop := hjobs.bumps slots (claimedRows db ids a.worker now) clock
    ((claimedRows db ids a.worker now).filterMap (·.groupKey)).dedup (List.nodup_dedup _)
  rw [commitClaim_tables, bumpQueues_eq _ _ _ (List.nodup_dedup _)]
  simp only [mem_groupKeys, groupDelta_claimed, Int.natCast_pos] at hloop
  exact hloop

/-! ### Rows without slots -/

/-- The tokens right after they were written. -/
theorem refilled_now (g : GroupRow) (rc rp clock : ℤ) (t : ℚ) :
    refilled { g with tokens := t, tokensRefilledAt := some clock } rc rp clock = max (min t rc) 0 := by
  simp [refilled]

/-- Taking all slots of a row leaves none. -/
theorem slots_bumped {g : GroupRow} (h0 : 0 ≤ g.runningCount) (hcap : g.maxConcurrency ≤ unlimited) {d : ℤ}
    (hd : (g.toState clock).slots ≤ d) : ((bumped (some (g.toState clock)) clock d g).toState clock).slots ≤ 0 := by
  have hconc : ∀ x : ℤ, min (if g.paused then 0 else max (g.maxConcurrency - g.runningCount) 0) x ≤ d →
      unlimited ≤ x ∨ d < x → (if g.paused then 0 else max (g.maxConcurrency - (g.runningCount + d)) 0 : ℤ) ≤ 0 := by
    intro x hx hlarge
    cases hp : g.paused with
    | true => simp
    | false =>
      simp only [hp, Bool.false_eq_true, if_false] at hx ⊢
      omega
  cases hc : g.rateCount with
  | none =>
    simp only [GroupRow.toState, hc] at hd ⊢
    simp only [bumped, Bool.false_eq_true, if_false, hc]
    exact (min_le_left _ _).trans (hconc _ hd (Or.inl le_rfl))
  | some rc =>
    cases hp : g.ratePeriodMs with
    | none =>
      simp only [GroupRow.toState, hc, hp] at hd ⊢
      simp only [bumped, Bool.false_eq_true, if_false, hc, hp]
      exact (min_le_left _ _).trans (hconc _ hd (Or.inl le_rfl))
    | some rp =>
      by_cases hpos : 0 < rc ∧ 0 < rp
      · simp only [GroupRow.toState, hc, hp, if_pos hpos] at hd ⊢
        simp only [bumped, if_true, hc, hp, if_pos hpos]
        generalize refilled g rc rp clock = t at hd ⊢
        by_cases hfew : max ⌊t⌋ 0 ≤ d
        · -- no whole token is left
          refine (min_le_right _ _).trans ((min_le_left _ _).trans ?_)
          have hless : t - d < 1 := by
            have hfloor := Int.lt_floor_add_one t
            have hle : (⌊t⌋ : ℚ) ≤ d := by exact_mod_cast (le_max_left _ _).trans hfew
            linarith
          have htokens : refilled { g with
              runningCount := g.runningCount + d, rateCount := some rc, ratePeriodMs := some rp, tokens := max (t - d) 0,
              tokensRefilledAt := some clock } rc rp clock < 1 := by
            have hnow := refilled_now { g with
              runningCount := g.runningCount + d, rateCount := some rc, ratePeriodMs := some rp } rc rp clock (max (t - d) 0)
            rw [hnow]
            exact max_lt (lt_of_le_of_lt (min_le_left _ _) (max_lt hless one_pos)) one_pos
          exact max_le (Int.lt_add_one_iff.mp (Int.floor_lt.mpr (by simpa using htokens))) le_rfl
        · exact (min_le_left _ _).trans (hconc _ hd (by omega))
      · simp only [GroupRow.toState, hc, hp, if_neg hpos] at hd ⊢
        simp only [bumped, Bool.false_eq_true, if_false, hc, hp, if_neg hpos]
        exact (min_le_left _ _).trans (hconc _ hd (Or.inl le_rfl))

/-- Taking `i32::MAX` jobs of a group without a row fills the new row. -/
theorem slots_bumped_new (st : Option GroupState) (k : String) {d : ℤ} (hd : unlimited ≤ d) :
    ((bumped st clock d { key := k }).toState clock).slots ≤ 0 := by
  have hrow : ∀ (t : ℚ) (at' : Option ℤ), (({ key := k, runningCount := 0 + d, tokens := t, tokensRefilledAt := at' } :
      GroupRow).toState clock).slots ≤ 0 := by
    intro t at'
    simp only [GroupRow.toState, Bool.false_eq_true, if_false]
    omega
  unfold bumped
  split
  · split
    · exact hrow _ _
    · exact hrow _ _
  · exact hrow _ _

end Commit

/-! ## The claim -/

section Claim

variable {db : Db} {a : ClaimArgs} {now clock : ℤ} {order : MapOrder}

/-- **Every due job** of the subscriptions is picked, or on a shut queue, or in a group whose slots are used up, or the
batch is full. -/
theorem Straight.claimPicks (hk : Keyed db) (h : Straight db a now clock order) {j : JobRow} (hj : j ∈ db.jobs)
    (hdue : j.due now a.kinds = true) (hq : j.queue ∈ a.queues) :
    j.id ∈ (claimPicks db a now clock order).1.ids ∨ (Pg.claimPicks db a now clock order).1.Shut j.queue ∨
      a.batchSize ≤ (Pg.claimPicks db a now clock order).1.accepted.length ∨
      ∃ k n, j.groupKey = some k ∧ slotsOf db clock k n ∧ n ≤ (Pg.claimPicks db a now clock order).1.count (.group k) := by
  have hgrows : (afterQueues db a now a.queues).Grows (Pg.claimPicks db a now clock order).1 := afterGroups_grows _
  have hshut : (afterQueues db a now a.queues).Shut j.queue → (Pg.claimPicks db a now clock order).1.Shut j.queue :=
    hgrows.shut _
  have hfull : a.batchSize ≤ (afterQueues db a now a.queues).accepted.length →
      a.batchSize ≤ (Pg.claimPicks db a now clock order).1.accepted.length := fun hle => hle.trans hgrows.length_le
  cases hkey : j.groupKey with
  | none =>
    have hcand : j ∈ candidates db (ungroupedOn a now j.queue) := mem_candidates.mpr ⟨hj, by simp [ungroupedOn, hdue, hkey]⟩
    rcases (h.fastLane hk).2 j.queue hq j hcand with hin | hs | hf
    · exact Or.inl (hgrows.mem hin)
    · exact Or.inr (Or.inl (hshut hs))
    · exact Or.inr (Or.inr (Or.inl (hfull hf)))
  | some k =>
    by_cases hs : (afterQueues db a now a.queues).Shut j.queue
    · exact Or.inr (Or.inl (hshut hs))
    by_cases hf : a.batchSize ≤ (afterQueues db a now a.queues).accepted.length
    · exact Or.inr (Or.inr (Or.inl (hfull hf)))
    have hopen : j.queue ∈ openQueues a (afterQueues db a now a.queues) :=
      List.mem_filter.mpr ⟨hq, decide_eq_true (not_le.mp (fun hle => hs (shut_iff.mpr hle)))⟩
    obtain ⟨e, he, rfl, hslots⟩ := @exists_visit db a now clock order j hj hdue k hkey hopen (not_le.mp hf)
    have hcand : j ∈ candidates db (groupedIn a now (openQueues a (afterQueues db a now a.queues)) e.1) :=
      mem_candidates.mpr ⟨hj, by simp [groupedIn, hdue, hkey, hopen]⟩
    rcases (h.slowLane hk).2 e he j hcand with hin | hs | hf | hn
    · exact Or.inl hin
    · exact Or.inr (Or.inl hs)
    · exact Or.inr (Or.inr (Or.inl hf))
    · exact Or.inr (Or.inr (Or.inr ⟨e.1, e.2.slots, rfl, hslots, hn⟩))

/-- What is taken of a queue and its budget add up to the slots of its row. -/
theorem claimPicks_conserves (hk : Keyed db) {x : QueueRow} (hx : x ∈ db.queues) (hq : x.name ∈ a.queues) :
    (claimPicks db a now clock order).1.Conserves x.name x.slots := by
  refine List.foldlRecOn _ _ (motive := fun c => Claiming.Conserves x.name x.slots c) ?_ (fun c h e _ => ?_)
  · refine List.foldlRecOn _ _ (motive := fun c => Claiming.Conserves x.name x.slots c) ?_
      (fun c h q _ => claimUngrouped_conserves h q)
    exact ⟨x.slots, claimStart_row hk hx hq, slots_nonneg x, by simp [Claiming.count]⟩
  · unfold claimGrouped
    split
    · exact h
    · exact acceptGrouped_conserves a e.1 _ _ h

/-- A shut queue is full afterwards. -/
theorem queueFull_of_shut (hk : Keyed db) {ids : List JobId} {n : String} (hq : n ∈ a.queues)
    (hcount : (startedOf db ids (.queue n) : ℤ) = (claimPicks db a now clock order).1.count (.queue n))
    (h : (claimPicks db a now clock order).1.Shut n) (slots : List (String × GroupState)) :
    (commitClaim db a slots ids now clock).QueueFull n := by
  have hgrows : (claimStart db a).Grows (claimPicks db a now clock order).1 :=
    (afterQueues_grows _).trans (afterGroups_grows _)
  obtain ⟨b, hb, hle⟩ := h
  have hrow : ∃ x ∈ db.queues, x.name = n := by
    obtain ⟨x, hx, hname, _⟩ := @claimStart_some db a hk n (fun hnone => by rw [hgrows.rowless n hnone] at hb; cases hb)
    exact ⟨x, hx, hname⟩
  obtain ⟨x, hx, rfl⟩ := hrow
  obtain ⟨b', hb', hb0, hsum⟩ := @claimPicks_conserves db a now clock order hk x hx hq
  rw [hb] at hb'
  cases hb'
  refine ⟨_, commitClaim_queue a slots ids now clock hx, rfl, ?_⟩
  rw [hcount]
  simp only [QueueRow.slots] at hsum ⊢
  split
  · exact le_rfl
  · next hp =>
    rw [if_neg hp] at hsum
    omega

/-- A group whose slots are used up is full afterwards. -/
theorem groupFull_of_count (hs : Stored db) {k : String} {n : ℤ} (hslots : slotsOf db clock k n)
    (hcount : (startedOf db (claimPicks db a now clock order).1.ids (.group k) : ℤ) =
      (claimPicks db a now clock order).1.count (.group k))
    (hn : n ≤ (claimPicks db a now clock order).1.count (.group k)) :
    (commitClaim db a (claimPicks db a now clock order).2 (claimPicks db a now clock order).1.ids now clock).GroupFull clock
      k := by
  have hfull : ∀ {g : GroupRow}, (commitClaim db a (claimPicks db a now clock order).2
      (claimPicks db a now clock order).1.ids now clock).groupRow k g → (g.toState clock).slots ≤ 0 →
      (commitClaim db a (claimPicks db a now clock order).2 (claimPicks db a now clock order).1.ids now clock).GroupFull
        clock k := by
    rintro g (⟨hg, hkey⟩ | ⟨-, rfl⟩) hle
    · exact ⟨g, hg, hkey, hle⟩
    · simp [GroupRow.toState, unlimited] at hle
  rcases hslots with ⟨g, hg, rfl, rfl⟩ | ⟨hno, rfl⟩
  · have hrow := commitClaim_groupRow a (claimPicks db a now clock order).2 (claimPicks db a now clock order).1.ids now clock
      (Or.inl ⟨hg, rfl⟩ : db.groupRow g.key g)
    refine hfull hrow ?_
    split
    · next hpos =>
      have hst : stateOf (claimPicks db a now clock order).2 g.key = some (g.toState clock) :=
        claimPicks_find hs.toKeyed hg (by omega)
      rw [hst, hcount]
      exact slots_bumped (hs.counts g hg) (hs.caps g hg) hn
    · omega
  · have hrow := commitClaim_groupRow a (claimPicks db a now clock order).2 (claimPicks db a now clock order).1.ids now clock
      (Or.inr ⟨hno, rfl⟩ : db.groupRow k { key := k })
    have hpos : 0 < startedOf db (claimPicks db a now clock order).1.ids (.group k) := by
      unfold unlimited at hn
      omega
    rw [if_pos hpos, hcount] at hrow
    exact hfull hrow (slots_bumped_new _ k hn)

/-- A claim without picks writes nothing. -/
theorem commitClaim_nil (db : Db) (a : ClaimArgs) (slots : List (String × GroupState)) (now clock : ℤ) :
    commitClaim db a slots [] now clock = db := by
  simp [commitClaim, claimedRows, updateWhere]

/-- A claim that is not ended early commits its picks. -/
theorem claimBatch_commit (hgo : ¬ (a.batchSize = 0 ∨ a.kinds = [] ∨ a.queues = []))
    (hopen : ¬ a.queues.all (fun q => (claimStart db a).budgetFor q ≤ 0) = true) :
    claimBatch db a now clock order =
      (commitClaim db a (claimPicks db a now clock order).2 (claimPicks db a now clock order).1.ids now clock,
        (claimedRows db (claimPicks db a now clock order).1.ids a.worker now).map
          (fun j => j.toClaimed a.worker (queueTimeout (readQueues db a.queues) j.queue))) := by
  unfold claimBatch
  rw [if_neg hgo]
  refine (if_neg hopen).trans ?_
  dsimp only
  split
  · next hnil =>
    have hids : (claimPicks db a now clock order).1.ids = [] := by rw [Claiming.ids, hnil]; rfl
    rw [hids, commitClaim_nil]
    simp [claimedRows]
  · rfl

end Claim

/-- **A claim all of whose visits are straight is work-conserving.** -/
theorem claim_workConserving (db : Db) (a : ClaimArgs) (now clock : ℤ) (order : MapOrder) (hs : Stored db)
    (h : Straight db a now clock order) : WorkConserving db a now clock order := by
  intro hlen j hj hdue hq
  have hk := hs.toKeyed
  have hgo : ¬ (a.batchSize = 0 ∨ a.kinds = [] ∨ a.queues = []) := by
    rintro (hb | hkinds | hqueues)
    · omega
    · simp [JobRow.due, hkinds] at hdue
    · simp [hqueues] at hq
  by_cases hopen : a.queues.all (fun q => (claimStart db a).budgetFor q ≤ 0) = true
  · -- every subscribed queue is full or paused
    have hnone : claimBatch db a now clock order = (db, []) := by
      unfold claimBatch
      rw [if_neg hgo]
      exact if_pos hopen
    obtain ⟨b, hb, hle⟩ := shut_iff.mpr (of_decide_eq_true (List.all_eq_true.mp hopen _ hq))
    obtain ⟨x, hx, hname, hslots⟩ := @claimStart_some db a hk j.queue (by simp [hb])
    rw [hb] at hslots
    cases hslots
    rw [hnone]
    exact Or.inl ⟨x, hx, hname, hle⟩
  · have hpicked := claimPicks_picked db a now clock order
    have hnodup := (h.slowLane hk).1
    have hcount := fun r => startedOf_eq hk hpicked hnodup r
    simp only [claimBatch_commit hgo hopen] at hlen hj ⊢
    rw [List.length_map, length_claimedRows hk hpicked hnodup] at hlen
    -- a job that was picked is running
    obtain ⟨gs, qs, heq⟩ := commitClaim_eq db a (claimPicks db a now clock order).2 (claimPicks db a now clock order).1.ids
      now clock
    have hj' := hj
    rw [heq] at hj'
    obtain ⟨i, hi, rfl⟩ := mem_updateWhere.mp hj'
    by_cases hin : i.id ∈ (claimPicks db a now clock order).1.ids
    · rw [if_pos (decide_eq_true hin)] at hdue
      simp [JobRow.due, JobRow.start] at hdue
    · rw [if_neg (fun hd => hin (of_decide_eq_true hd))] at hdue hq ⊢
      rcases h.claimPicks hk hi hdue hq with hin' | hshut | hfull | ⟨k, n, hkey, hslots, hn⟩
      · exact absurd hin' hin
      · exact Or.inl (queueFull_of_shut hk hq (hcount _) hshut _)
      · omega
      · exact Or.inr ⟨k, hkey, groupFull_of_count hs hslots (hcount _) hn⟩

/-- A queue with room for one job, and a group with two jobs on it and a third on another queue. -/
def crossDb : Db where
  jobs := [newJob { kind := "mail", payload := .null, queue := "a", groupKey := some "g" } 1 0,
    newJob { kind := "mail", payload := .null, queue := "a", groupKey := some "g" } 2 0,
    newJob { kind := "mail", payload := .null, queue := "b", groupKey := some "g" } 3 0]
  queues := [{ name := "a", maxConcurrency := 1 }]
  nextJob := 4

/-- A claim of `n` jobs from both queues. -/
def crossArgs (n : Nat) : ClaimArgs := { worker := "w", batchSize := n, kinds := ["mail"], queues := ["a", "b"] }

theorem crossDb_conserving : WorkConserving crossDb (crossArgs 4) 10 10 rateOrder := by
  have hstored : Stored crossDb := ⟨⟨by decide, by decide, by decide, by decide⟩,
    fun _ hg => absurd hg List.not_mem_nil, fun _ hg => absurd hg List.not_mem_nil⟩
  have hfast : ∀ q ∈ ["a", "b"], candidates crossDb (ungroupedOn (crossArgs 4) 10 q) = [] := by
    intro q hq
    rcases List.mem_cons.mp hq with rfl | hq
    · rfl
    · rw [List.mem_singleton.mp hq]
      rfl
  refine claim_workConserving crossDb (crossArgs 4) 10 10 rateOrder hstored ⟨fun pre q post heq => ?_, fun pre e post heq => ?_⟩
  · have hq : q ∈ (crossArgs 4).queues := by
      rw [heq]
      simp
    refine ⟨fun j hj => ?_, fun _ => Or.inl ?_⟩
    · rw [hfast q hq] at hj
      cases List.mem_of_mem_take hj
    · rw [hfast q hq]
      exact Nat.zero_le _
  · -- the only visit fetches all three jobs
    have hvisits : groupVisits crossDb (crossArgs 4) 10 10 rateOrder = [("g", { slots := unlimited })] := rfl
    rw [hvisits] at heq
    obtain ⟨rfl, rfl, rfl⟩ : pre = [] ∧ e = ("g", { slots := unlimited }) ∧ post = [] := by
      cases pre with
      | nil =>
        cases heq
        exact ⟨rfl, rfl, rfl⟩
      | cons x pre => simp at heq
    right
    intro j hj
    have hnone : (candidates crossDb (groupedIn (crossArgs 4) 10 (openQueues (crossArgs 4)
        (afterQueues crossDb (crossArgs 4) 10 (crossArgs 4).queues)) "g")).drop
        (groupedLimit (crossArgs 4) (afterGroups crossDb (crossArgs 4) 10 []) { slots := unlimited }) = [] := rfl
    rw [hnone] at hj
    cases hj

/-- Two old jobs of the group fill the `LIMIT`, one of them is dropped, and the third job is left behind on an open queue. -/
theorem crossDb_starves : ¬ WorkConserving crossDb (crossArgs 2) 10 10 rateOrder := by
  intro h
  have hthird : newJob { kind := "mail", payload := .null, queue := "b", groupKey := some "g" } 3 0 ∈
      (claimBatch crossDb (crossArgs 2) 10 10 rateOrder).1.jobs := List.mem_of_getElem? (i := 2) rfl
  rcases h (by decide) _ hthird (by decide) (by decide) with ⟨q, hq, hname, _⟩ | ⟨k, _, g, hg, _, hslots⟩
  · have hqueues : ∀ q ∈ (claimBatch crossDb (crossArgs 2) 10 10 rateOrder).1.queues, q.name ≠ "b" := by decide
    exact hqueues q hq hname
  · have hgroups : ∀ g ∈ (claimBatch crossDb (crossArgs 2) 10 10 rateOrder).1.groups, ¬ (g.toState 10).slots ≤ 0 := by decide
    exact hgroups g hg hslots

end Eddyq.Pg
