import Eddyq.Redis.Lives
import Eddyq.Redis.ClaimSafety
import Eddyq.Lib.Rows

/-!
# The order in which Redis serves a queue

A run keeps, beside the store, the due time of every job (`Dated`): the time it was enqueued for, or that of its last
retry. `Dated.waiting` are the waiting jobs in the order `priority DESC, scheduled_at ASC, id ASC`.

* A claim that nothing holds up takes the first entries of the wait set (`fnClaim_takes`).
* Scores that fit are in the order of the priorities and the due times (`Fits.of_lt`, `Fits.of_eq`).
* `Op.Prompt` is what the calls of a run are asked so that the wait set keeps the order of the ranks.
-/

namespace Eddyq.Redis

open Eddyq.Lib

/-! ## Ranks -/

/-- What Postgres orders the jobs by. -/
structure Rank where
  priority : ℤ
  scheduledAt : ℤ
  id : JobId
  deriving DecidableEq

/-- `priority DESC, scheduled_at ASC, id ASC`. -/
def Rank.le (a b : Rank) : Bool :=
  a.priority > b.priority || (a.priority = b.priority &&
    (a.scheduledAt < b.scheduledAt || (a.scheduledAt = b.scheduledAt && a.id ≤ b.id)))

/-- A store, and when each job is due. -/
structure Dated where
  store : Store
  due : JobId → ℤ

namespace Dated

/-- The rank of a job. -/
def rank (z : Dated) (id : JobId) : Rank := ⟨(z.store.hash id).priority.getD 0, z.due id, id⟩

/-- The members of the wait set. -/
def members (z : Dated) (q : String) : List JobId := (z.store.zsets (.wait q)).members

/-- The waiting jobs in the order of Postgres. -/
def waiting (z : Dated) (q : String) : List Rank := orderBy Rank.le ((z.members q).map z.rank)

end Dated

/-! ## Runs -/

/-- When the jobs of an `eddyq_enqueue_many` are due. -/
def dueMany : Store → List EnqueueArgs → ℤ → (JobId → ℤ) → JobId → ℤ
  | _, [], _, due => due
  | s, a :: as, now, due =>
    dueMany (fnEnqueue s a now).1 as now (Function.update due (s.idgen + 1) (a.effectiveScheduled now))

/-- When the jobs are due after a call: a new job at the time it is scheduled for, a retried one at that of the retry. -/
def Op.due (s : Store) (due : JobId → ℤ) : Op → JobId → ℤ
  | .enqueue a now => Function.update due (s.idgen + 1) (a.effectiveScheduled now)
  | .enqueueMany as now => dueMany s as now due
  | .scheduleFire a => Function.update due (s.idgen + 1) a.now
  | .fail id w _ _ retryAt => if s.owner id = some w ∧ 0 ≤ retryAt then Function.update due id retryAt else due
  | _ => due

/-- One call. -/
def Dated.apply (z : Dated) (op : Op) : Dated := ⟨op.apply z.store, op.due z.store z.due⟩

/-- The jobs are on one queue and in no group. -/
def Op.Plain (q : String) : Op → Prop
  | .enqueue a _ => a.queue = q ∧ a.groupKey = ""
  | .enqueueMany as _ => ∀ a ∈ as, a.queue = q ∧ a.groupKey = ""
  | .scheduleFire a => a.queue = q
  | _ => True

/-- The score is exact, and the time stays below the digits of the priority. -/
structure Fits (priority due : ℤ) : Prop where
  nonneg : 0 ≤ due
  below : due < 10 ^ 13
  precise : (-priority * 10 ^ 13 + due).natAbs ≤ 2 ^ 53

/-- Waiting jobs of one priority and one due time have ids with equally many digits. -/
def Dated.Clear (z : Dated) (q : String) : Prop :=
  ∀ i ∈ z.members q, ∀ j ∈ z.members q, (z.rank i).priority = (z.rank j).priority → z.due i = z.due j →
    i.repr.length = j.repr.length

/-- What the calls are asked: times and priorities fit, verdicts come from the current lease, whoever is promoted, swept
or reclaimed is so at the very time it is due, and a claim does not have to tell ids of different lengths apart. -/
def Op.Prompt (q : String) (z : Dated) : Op → Prop
  | .enqueue a now => Fits a.priority (a.effectiveScheduled now)
  | .enqueueMany as now => ∀ a ∈ as, Fits a.priority (a.effectiveScheduled now)
  | .scheduleFire a => Fits a.priority a.now
  | .complete id w _ _ => z.store.VerdictOk id w
  | .fail id w _ _ retryAt =>
    z.store.VerdictOk id w ∧ (0 ≤ retryAt → Fits ((z.store.hash id).priority.getD 0) retryAt)
  | .sweepStale t n => ∀ id ∈ z.store.staleIds t n, ¬ (z.store.hash id).stalledOut → z.due id = t
  | .reclaimInFlight now ids =>
    ∀ id ∈ ids, z.store.state id = some .running → ¬ (z.store.hash id).stalledOut → z.due id = now
  | .promoteDelayed now n => ∀ id ∈ z.store.dueIds now n, z.due id = now
  | .claim _ => z.Clear q
  | _ => True

/-- The states that such calls reach from the empty store. -/
def Dated.Reached (q : String) (careful : Prop) (z : Dated) : Prop :=
  Reach (Guarded (fun z op => op.Plain q ∧ (careful → op.Prompt q z)) Dated.apply) ⟨.empty, fun _ => 0⟩ z

/-- A claim on the queue that lists every kind that waits, and the queue has no limit. -/
structure Dated.Open (z : Dated) (q : String) (a : ClaimArgs) : Prop where
  queues : a.queues = [q]
  kinds : ∀ id ∈ z.members q, ∃ k ∈ a.kinds, (z.store.hash id).kind = some k
  free : ∀ m, readNqMeta z.store q = some m → ¬ nqHasLimits m

/-- The claim takes the first jobs, in order, and leaves the others. -/
structure Dated.Serves (z : Dated) (q : String) (a : ClaimArgs) : Prop where
  reply : (fnClaim z.store a).2.map (·.id) = ((z.waiting q).take a.batchSize).map (·.id)
  rest : (z.apply (.claim a)).waiting q = (z.waiting q).drop a.batchSize

/-! ## What a claim takes -/

section Claim

variable {s : Store} {a : ClaimArgs} {q : String} {t : Option ℤ} {c : ClaimState} {id : JobId}

/-- Nothing holds the job up: it waits, in no group, and its kind is listed. -/
structure Store.Ready (s : Store) (q : String) (a : ClaimArgs) (id : JobId) : Prop where
  pending : s.state id = some .pending
  kind : ∃ k ∈ a.kinds, (s.hash id).kind = some k
  free : given (s.hash id).groupKey = none
  waits : (s.zscore (.wait q) id).isSome

theorem readGroupMeta_ungrouped (s : Store) {g : Option String} (h : given g = none) :
    readGroupMeta s (g.getD "") = none := by
  cases g with
  | none => rfl
  | some x =>
    by_cases hx : x = ""
    · rw [hx]
      rfl
    · rw [given_some hx] at h
      cases h

theorem startJob_waitSet (s : Store) (a : ClaimArgs) (q : String) (id : JobId) (n : ℤ) (g : Option String) :
    (startJob s a q id n g).zsets (.wait q) = (s.zsets (.wait q)).rem id := by
  unfold startJob
  cases g <;> simp [Store.zadd, Store.zrem, Store.hset]

/-- A candidate that is ready is started. -/
theorem claimEntry_ready (hsize : c.taken < a.batchSize) (hopen : c.isOpen = true) (hroom : c.room = none)
    (h : c.store.Ready q a id) : ∃ n kind, claimEntry a q t c id =
      ({ c with
        scanned := c.scanned + 1
        store := startJob c.store a q id n none
        out := c.out ++ [claimReply (c.store.hash id) a id kind t] }, true) := by
  obtain ⟨kind, hlisted, hkind⟩ := h.kind
  have hgo : ¬ (c.taken ≥ a.batchSize ∨ ¬ c.isOpen) := by simp [hsize, hopen]
  have hgate : groupGate c.store ((c.store.hash id).groupKey.getD "") a.now = (c.store, true) := by
    rw [groupGate, readGroupMeta_ungrouped _ h.free]
  have hpending : (c.store.hash id).state = some .pending := h.pending
  have hwaits : ¬ (c.store.zscore (.wait q) id).isNone = true := by simpa [Option.isSome_iff_ne_none] using h.waits
  refine ⟨(c.store.hash id).attempt.getD 0 + 1, kind, ?_⟩
  unfold claimEntry
  rw [if_neg hgo]
  simp only [hkind, hlisted, hpending, h.free, hgate, hwaits, hroom, hopen]
  simp

theorem Store.Ready.congr {s' : Store} (h : s.Ready q a id) (hc : s'.cell id = s.cell id) : s'.Ready q a id := by
  have hhash : s'.hash id = s.hash id := congrArg JobCell.fields hc
  have hscore : s'.zscore (.wait q) id = s.zscore (.wait q) id := congrArg (fun x => x.score (.wait q)) hc
  obtain ⟨hpending, hkind, hfree, hwaits⟩ := h
  rw [Store.state] at hpending
  exact ⟨by rw [Store.state, hhash]; exact hpending, hhash ▸ hkind, hhash ▸ hfree, hscore ▸ hwaits⟩

/-- A page of ready jobs is taken from its beginning until the batch is full. -/
theorem claimSlice_ready : ∀ (l : List JobId) {c : ClaimState}, l.Nodup → (∀ id ∈ l, c.store.Ready q a id) →
    c.isOpen = true → c.room = none → (claimSlice a q t l c).out.map (·.id) = c.out.map (·.id) ++ l.take (a.batchSize - c.taken) ∧
      ((claimSlice a q t l c).store.zsets (.wait q)).members =
        (c.store.zsets (.wait q)).members.filter (· ∉ l.take (a.batchSize - c.taken))
  | [], c, _, _, _, _ => by simp [claimSlice, forEach]
  | id :: l, c, hnd, hready, hopen, hroom => by
    by_cases hsize : c.taken < a.batchSize
    · obtain ⟨n, kind, he⟩ := claimEntry_ready (t := t) hsize hopen hroom (hready id List.mem_cons_self)
      rw [List.nodup_cons] at hnd
      have hrest : ∀ j ∈ l, (startJob c.store a q id n none).Ready q a j := by
        intro j hj
        have hne : j ≠ id := fun e => hnd.1 (e ▸ hj)
        exact (hready j (List.mem_cons_of_mem _ hj)).congr (startJob_cell_ne c.store a q id n none hne)
      obtain ⟨hout, hstore⟩ := @claimSlice_ready l (claimEntry a q t c id).1 hnd.2 (by rw [he]; exact hrest)
        (by rw [he]; exact hopen) (by rw [he]; exact hroom)
      have hslice : claimSlice a q t (id :: l) c = claimSlice a q t l (claimEntry a q t c id).1 := by
        unfold claimSlice
        rw [forEach, if_pos (by rw [he])]
      have htaken : (claimEntry a q t c id).1.taken = c.taken + 1 := by
        rw [he]
        simp [ClaimState.taken]
      have htake : (id :: l).take (a.batchSize - c.taken) = id :: l.take (a.batchSize - (c.taken + 1)) := by
        rw [show a.batchSize - c.taken = a.batchSize - (c.taken + 1) + 1 by omega, List.take_succ_cons]
      rw [htaken] at hout hstore
      rw [hslice, htake]
      constructor
      · rw [hout, he]
        simp [claimReply]
      · rw [hstore, he]
        dsimp only
        rw [startJob_waitSet, ZSet.members_rem, List.filter_filter]
        refine List.filter_congr (fun x _ => ?_)
        simp [Bool.and_comm]
    · -- the batch is full
      have hstop : claimEntry a q t c id = (c, false) := by
        unfold claimEntry
        rw [if_pos (Or.inl (not_lt.mp hsize))]
      have hslice : claimSlice a q t (id :: l) c = c := by
        unfold claimSlice
        rw [forEach, hstop]
        rfl
      have hzero : a.batchSize - c.taken = 0 := by omega
      rw [hslice, hzero]
      simp

/-- One page is enough for the batch, or is the whole wait set. -/
theorem claimPages_ready {fuel : Nat} (hfuel : 0 < fuel) (hsize : c.taken < a.batchSize) (hscan : c.scanned < claimScanLimit)
    (hready : ∀ id ∈ (c.store.zsets (.wait q)).members, c.store.Ready q a id) (hopen : c.isOpen = true)
    (hroom : c.room = none) : claimPages a q t fuel 0 c =
      claimSlice a q t ((c.store.zsets (.wait q)).range 0 (a.batchSize * 4)) c := by
  obtain ⟨fuel, rfl⟩ := Nat.exists_eq_succ_of_ne_zero hfuel.ne'
  have hgo : c.isOpen = true ∧ c.taken < a.batchSize ∧ c.scanned < claimScanLimit := ⟨hopen, hsize, hscan⟩
  unfold claimPages
  rw [if_pos hgo]
  dsimp only
  split
  · next hnil =>
    rw [hnil]
    rfl
  · split
    · rfl
    · next hfull =>
      -- a full page has more jobs than the batch
      have hslice := (claimSlice_ready (t := t) _ (ZSet.nodup_range _ 0 (a.batchSize * 4))
        (fun id hid => hready id (ZSet.mem_members.mpr (ZSet.mem_of_mem_range hid))) hopen hroom).1
      have hlen := congrArg List.length hslice
      rw [List.length_append, List.length_map, List.length_map, List.length_take] at hlen
      have hdone : ¬ (claimSlice a q t ((c.store.zsets (.wait q)).range 0 (a.batchSize * 4)) c).taken < a.batchSize := by
        unfold ClaimState.taken at hsize ⊢ hlen
        omega
      cases fuel with
      | zero => rfl
      | succ fuel =>
        unfold claimPages
        rw [if_neg (fun h => hdone h.2.1)]

/-- **A claim that nothing holds up** takes the first entries of the wait set, and leaves the others in it. -/
theorem fnClaim_takes (hq : a.queues = [q]) (hfree : ∀ m, readNqMeta s q = some m → ¬ nqHasLimits m)
    (hready : ∀ id ∈ (s.zsets (.wait q)).members, s.Ready q a id) :
    (fnClaim s a).2.map (·.id) = (s.zsets (.wait q)).members.take a.batchSize ∧
      ((fnClaim s a).1.zsets (.wait q)).members = (s.zsets (.wait q)).members.drop a.batchSize := by
  have hgate : queueGate s q = (true, none) := by
    unfold queueGate
    cases hm : readNqMeta s q with
    | none => rfl
    | some m =>
      dsimp only
      rw [if_pos (hfree m hm)]
  unfold fnClaim
  rw [hq, claimQueues]
  split
  · next hzero =>
    have hb : a.batchSize = 0 := Nat.le_zero.mp hzero
    simp [hb]
  · next hsize =>
    have hpos : 0 < a.batchSize := not_le.mp hsize
    have hfuel : 0 < claimScanLimit := by decide
    have hpages := @claimPages_ready a q (queueTimeout s q) { store := s } _ hfuel hpos hfuel hready rfl rfl
    rw [hgate]
    dsimp only [claimQueues]
    rw [hpages]
    obtain ⟨hout, hstore⟩ := claimSlice_ready (t := queueTimeout s q) (c := { store := s }) _
      (ZSet.nodup_range _ 0 (a.batchSize * 4))
      (fun id hid => hready id (ZSet.mem_members.mpr (ZSet.mem_of_mem_range hid))) rfl rfl
    have htake : ((s.zsets (.wait q)).range 0 (a.batchSize * 4)).take (a.batchSize - ClaimState.taken { store := s }) =
        (s.zsets (.wait q)).members.take a.batchSize := by
      rw [ZSet.range, List.drop_zero, List.take_take]
      congr 1
      show min (a.batchSize - 0) (a.batchSize * 4) = a.batchSize
      omega
    rw [htake] at hout hstore
    refine ⟨by simpa using hout, hstore.trans ?_⟩
    exact ZSet.members_drop _ _

end Claim

/-! ## Scores -/

section Scores

variable {p p' d d' : ℤ}

theorem Fits.score (h : Fits p d) : waitScore p d = -p * 10 ^ 13 + d := by
  unfold waitScore toDouble
  exact if_pos h.precise

/-- Scores that fit order by priority, then by time. -/
theorem Fits.of_lt (h : Fits p d) (h' : Fits p' d') (hlt : waitScore p d < waitScore p' d') :
    p' < p ∨ p = p' ∧ d < d' := by
  rw [h.score, h'.score] at hlt
  have h1 := h.nonneg
  have h2 := h.below
  have h3 := h'.nonneg
  have h4 := h'.below
  omega

theorem Fits.of_eq (h : Fits p d) (h' : Fits p' d') (heq : waitScore p d = waitScore p' d') : p = p' ∧ d = d' := by
  rw [h.score, h'.score] at heq
  have h1 := h.nonneg
  have h2 := h.below
  have h3 := h'.nonneg
  have h4 := h'.below
  omega

end Scores

end Eddyq.Redis
