import Eddyq.Lib.ZSet
import Eddyq.Pg.CounterRuns

/-!
# Batch fan-in

`FanIn k late db`: every batch row counts the terminal jobs of its batch, up to the `k` that the running transaction has
not counted yet, its total is the number of its jobs, and it has been fired exactly when no job is open, unless its
firing is still to come in this transaction (`late`). Between transactions nothing is owed and nothing is late
(`Db.FansIn`). Making jobs terminal owes their number (`FanIn.move`), the counter bump pays it (`FanIn.pay`) and
`try_claim_and_fire` is never late (`FanIn.fire`). `reached_fanIn` puts it together.
-/

namespace Eddyq.Pg

open Eddyq.Lib

/-! ## The jobs of a batch -/

/-- A job of a batch that is finished. -/
def JobRow.doneIn (b : BatchId) (j : JobRow) : Bool := j.batchId = some b && j.state.terminal

/-- A job of a batch that is not finished. -/
def JobRow.openIn (b : BatchId) (j : JobRow) : Bool := j.batchId = some b && !j.state.terminal

/-- A job with the kind and the key of a batch's callback. -/
def JobRow.callbackOf (spec : DynEnqueue) (b : BatchId) (j : JobRow) : Bool :=
  j.kind = spec.kind && j.uniqueKey = some (callbackKey b)

theorem callbackKey_inj {a b : BatchId} (h : callbackKey a = callbackKey b) : a = b := by
  unfold callbackKey at h
  rw [String.append_left_inj, String.append_right_inj] at h
  exact repr_injective h

/-! ## The invariant -/

/-- What a batch row says about its jobs, when `k` terminal ones are not counted yet. -/
structure RowFansIn (k : Nat) (late : Prop) (jobs : List JobRow) (b : BatchRow) : Prop where
  counts : b.completed + b.failed + b.cancelled + k = jobs.countP (·.doneIn b.id)
  total : b.total = jobs.countP (·.doneIn b.id) + jobs.countP (·.openIn b.id)
  complete : b.complete = b.callbackEnqueuedAt.isSome
  fired : b.callbackEnqueuedAt.isSome ↔ ¬ late ∧ jobs.countP (·.openIn b.id) = 0
  callback : ∀ spec, b.onComplete = some spec → spec.batchId = none ∧
    jobs.countP (·.callbackOf spec b.id) = if b.callbackEnqueuedAt.isSome then 1 else 0

/-- Every batch row is right about its jobs. -/
structure FanIn (k : BatchId → Nat) (late : BatchId → Prop) (db : Db) : Prop where
  ids : (db.batches.map (·.id)).Nodup
  fresh : ∀ b ∈ db.batches, b.id < db.nextBatch
  known : ∀ j ∈ db.jobs, ∀ n, j.batchId = some n → n < db.nextBatch
  rows : ∀ b ∈ db.batches, RowFansIn (k b.id) (late b.id) db.jobs b

/-- Between transactions. -/
abbrev Db.FansIn (db : Db) : Prop := FanIn (fun _ => 0) (fun _ => False) db

section Statements

variable {db db' : Db} {k : BatchId → Nat} {late : BatchId → Prop} {now : ℤ}

/-- Only two tables and a sequence matter. -/
theorem FanIn.congr (h : FanIn k late db) (hj : db'.jobs = db.jobs) (hb : db'.batches = db.batches)
    (hn : db'.nextBatch = db.nextBatch) : FanIn k late db' := by
  obtain ⟨h1, h2, h3, h4⟩ := h
  refine ⟨?_, ?_, ?_, ?_⟩ <;> simp only [hj, hb, hn] <;> assumption

/-- What is owed and late matters only for the batches there are. -/
theorem FanIn.weaken (h : FanIn k late db) {k' : BatchId → Nat} {late' : BatchId → Prop}
    (hk : ∀ b ∈ db.batches, k b.id = k' b.id) (hl : ∀ b ∈ db.batches, late b.id ↔ late' b.id) :
    FanIn k' late' db := by
  refine ⟨h.ids, h.fresh, h.known, fun b hb => ?_⟩
  obtain ⟨h1, h2, h3, h4, h5⟩ := h.rows b hb
  rw [hk b hb] at h1
  rw [hl b hb] at h4
  exact ⟨h1, h2, h3, h4, h5⟩

/-- New jobs outside every batch that are no callback. -/
theorem FanIn.append (h : FanIn k late db) (rows : List JobRow) (hb : ∀ j ∈ rows, j.batchId = none)
    (hc : ∀ j ∈ rows, ∀ b ∈ db.batches, ∀ spec, b.onComplete = some spec → ¬ j.callbackOf spec b.id) :
    FanIn k late { db with jobs := db.jobs ++ rows } := by
  have hout : ∀ q : JobRow → Bool, (∀ j ∈ rows, ¬ q j) → (db.jobs ++ rows).countP q = db.jobs.countP q := by
    intro q hq
    rw [List.countP_append, List.countP_eq_zero.mpr hq, Nat.add_zero]
  refine ⟨h.ids, h.fresh, fun j hj n hn => ?_, fun b hbm => ?_⟩
  · rcases List.mem_append.mp hj with hj | hj
    · exact h.known j hj n hn
    · rw [hb j hj] at hn
      cases hn
  · have hd := hout (·.doneIn b.id) (fun j hj => by simp [JobRow.doneIn, hb j hj])
    have ho := hout (·.openIn b.id) (fun j hj => by simp [JobRow.openIn, hb j hj])
    obtain ⟨h1, h2, h3, h4, h5⟩ := h.rows b hbm
    refine ⟨by rw [hd]; exact h1, by rw [hd, ho]; exact h2, h3, by rw [ho]; exact h4, fun spec hs => ?_⟩
    refine ⟨(h5 spec hs).1, ?_⟩
    rw [hout _ (fun j hj => hc j hj b hbm spec hs)]
    exact (h5 spec hs).2

/-- How many jobs of a batch an update makes terminal. -/
def finished (db : Db) (p : JobRow → Bool) (f : JobRow → JobRow) (b : BatchId) : Nat :=
  db.jobs.countP (fun j => p j && (f j).doneIn b)

/-- What the updates of jobs leave alone. -/
structure Keeps (f : JobRow → JobRow) : Prop where
  kind : ∀ j, (f j).kind = j.kind
  uniqueKey : ∀ j, (f j).uniqueKey = j.uniqueKey
  batchId : ∀ j, (f j).batchId = j.batchId

/-- **Jobs that were open change state**: those that become terminal are owed to their batches. -/
theorem FanIn.move (h : db.FansIn) {p : JobRow → Bool} {f : JobRow → JobRow} (hf : Keeps f)
    (hp : ∀ j ∈ db.jobs, p j → ¬ j.state.terminal) :
    FanIn (finished db p f) (fun b => finished db p f b ≠ 0) { db with jobs := updateWhere p f db.jobs } := by
  have hdone : ∀ b, (updateWhere p f db.jobs).countP (·.doneIn b) = db.jobs.countP (·.doneIn b) + finished db p f b := by
    intro b
    have hu := countP_updateWhere p (·.doneIn b) f db.jobs
    have h0 : db.jobs.countP (fun j => p j && j.doneIn b) = 0 := by
      rw [List.countP_eq_zero]
      intro j hj hh
      simp only [JobRow.doneIn, Bool.and_eq_true] at hh
      exact hp j hj hh.1 hh.2.2
    rw [h0] at hu
    exact hu
  -- a job that leaves the open ones is a job that becomes terminal
  have hopen : ∀ b, (updateWhere p f db.jobs).countP (·.openIn b) + finished db p f b = db.jobs.countP (·.openIn b) := by
    intro b
    have hu := countP_updateWhere p (·.openIn b) f db.jobs
    have hsplit : db.jobs.countP (fun j => p j && j.openIn b) =
        finished db p f b + db.jobs.countP (fun j => p j && (f j).openIn b) := by
      refine countP_eq_add (fun j hj => ?_) (fun j _ => ?_)
      · by_cases hpj : p j
        · have hst := hp j hj hpj
          simp only [hpj, JobRow.openIn, JobRow.doneIn, hf.batchId, Bool.true_and, hst]
          cases (f j).state.terminal <;> simp
        · simp [hpj]
      · simp only [JobRow.openIn, JobRow.doneIn, Bool.and_eq_true, Bool.not_eq_true']
        rintro ⟨_, _, ht⟩ ⟨_, _, ht'⟩
        rw [ht] at ht'
        cases ht'
    omega
  refine ⟨h.ids, h.fresh, fun j hj n hn => ?_, fun b hb => ?_⟩
  · obtain ⟨j₀, hj₀, rfl⟩ := mem_updateWhere.mp hj
    refine h.known j₀ hj₀ n ?_
    split at hn
    · rwa [hf.batchId] at hn
    · exact hn
  · obtain ⟨h1, h2, h3, h4, h5⟩ := h.rows b hb
    have hd := hdone b.id
    have ho := hopen b.id
    refine ⟨?_, ?_, h3, ?_, fun spec hs => ⟨(h5 spec hs).1, ?_⟩⟩
    · rw [hd]
      push_cast
      omega
    · rw [hd, h2]
      push_cast
      omega
    · rw [h4]
      dsimp only
      constructor
      · rintro ⟨_, h0⟩
        exact ⟨by omega, by omega⟩
      · rintro ⟨hk, h0⟩
        exact ⟨id, by omega⟩
    · rw [← (h5 spec hs).2, updateWhere, List.countP_map]
      refine List.countP_congr (fun j _ => ?_)
      simp only [Function.comp_apply]
      split
      · simp only [JobRow.callbackOf, hf.kind, hf.uniqueKey]
      · rfl

/-- An update after which no job is newly terminal. -/
theorem FanIn.moveOpen (h : db.FansIn) {p : JobRow → Bool} {f : JobRow → JobRow} (hf : Keeps f)
    (hp : ∀ j ∈ db.jobs, p j → ¬ j.state.terminal) (hn : ∀ j, p j → ¬ (f j).state.terminal) :
    Db.FansIn { db with jobs := updateWhere p f db.jobs } := by
  have h0 : ∀ b, finished db p f b = 0 := by
    intro b
    refine List.countP_eq_zero.mpr (fun j _ hj => ?_)
    simp only [JobRow.doneIn, Bool.and_eq_true] at hj
    exact hn j hj.1 hj.2.2
  exact (h.move hf hp).weaken (fun b _ => h0 b.id) (fun b _ => by simp [h0])

theorem BatchRow.bump_id (b : BatchRow) (o : TerminalOutcome) (n : ℤ) : (b.bump o n).id = b.id := by cases o <;> rfl

/-- **The counters are bumped** by what was owed. -/
theorem FanIn.pay (h : FanIn k late db) {p : BatchRow → Bool} (o : TerminalOutcome)
    (hp : ∀ b ∈ db.batches, ¬ p b → k b.id = 0) :
    FanIn (fun _ => 0) late { db with batches := updateWhere p (fun b => b.bump o (k b.id)) db.batches } := by
  have hid : ∀ b : BatchRow, (b.bump o (k b.id)).id = b.id := fun b => b.bump_id o _
  refine ⟨?_, fun b hb => ?_, h.known, fun b hb => ?_⟩
  · rw [map_updateWhere hid]; exact h.ids
  · obtain ⟨b₀, hb₀, rfl⟩ := mem_updateWhere.mp hb
    split
    · rw [hid]; exact h.fresh b₀ hb₀
    · exact h.fresh b₀ hb₀
  · obtain ⟨b₀, hb₀, rfl⟩ := mem_updateWhere.mp hb
    obtain ⟨h1, h2, h3, h4, h5⟩ := h.rows b₀ hb₀
    by_cases hpb : p b₀
    · rw [if_pos hpb, hid]
      cases o with
      | completed => exact ⟨by rw [hid]; simp only [BatchRow.bump]; omega, by rw [hid]; exact h2, h3, h4, h5⟩
      | failed => exact ⟨by rw [hid]; simp only [BatchRow.bump]; omega, by rw [hid]; exact h2, h3, h4, h5⟩
      | cancelled => exact ⟨by rw [hid]; simp only [BatchRow.bump]; omega, by rw [hid]; exact h2, h3, h4, h5⟩
    · rw [if_neg hpb]
      have h0 := hp b₀ hb₀ hpb
      exact ⟨by rw [h0] at h1; exact h1, h2, h3, h4, h5⟩

/-- **A batch is fired**: one row is claimed and its callback, if it has one, is inserted. -/
theorem FanIn.fire (h : FanIn (fun _ => 0) late db) (now : ℤ) (rows : List JobRow) {b : BatchRow}
    (hb : b ∈ db.batches) (hnone : b.callbackEnqueuedAt = none) (hopen : db.jobs.countP (·.openIn b.id) = 0)
    {p : BatchRow → Bool} (hp : ∀ x ∈ db.batches, p x ↔ x.id = b.id)
    (hrows : ∀ spec, b.onComplete = some spec → ∃ j, rows = [j] ∧ j.batchId = none ∧ j.callbackOf spec b.id)
    (hnil : b.onComplete = none → rows = []) :
    FanIn (fun _ => 0) (fun x => late x ∧ x ≠ b.id)
      { db with batches := updateWhere p (·.claim now) db.batches, jobs := db.jobs ++ rows } := by
  have hout : ∀ j ∈ rows, j.batchId = none ∧ j.uniqueKey = some (callbackKey b.id) := by
    intro j hj
    cases hs : b.onComplete with
    | none => rw [hnil hs] at hj; cases hj
    | some spec =>
      obtain ⟨j', rfl, hbj, hc⟩ := hrows spec hs
      rw [List.mem_singleton.mp hj]
      simp only [JobRow.callbackOf, Bool.and_eq_true, decide_eq_true_eq] at hc
      exact ⟨hbj, hc.2⟩
  have hcount : ∀ q : JobRow → Bool, (∀ j ∈ rows, ¬ q j) → (db.jobs ++ rows).countP q = db.jobs.countP q := by
    intro q hq
    rw [List.countP_append, List.countP_eq_zero.mpr hq, Nat.add_zero]
  have hd : ∀ x, (db.jobs ++ rows).countP (·.doneIn x) = db.jobs.countP (·.doneIn x) :=
    fun x => hcount _ (fun j hj => by simp [JobRow.doneIn, (hout j hj).1])
  have ho : ∀ x, (db.jobs ++ rows).countP (·.openIn x) = db.jobs.countP (·.openIn x) :=
    fun x => hcount _ (fun j hj => by simp [JobRow.openIn, (hout j hj).1])
  have hmap : (updateWhere p (·.claim now) db.batches).map (·.id) = db.batches.map (·.id) :=
    map_updateWhere (fun x => show (x.claim now).id = x.id from rfl) _
  refine ⟨by rw [hmap]; exact h.ids, fun x hx => ?_, fun j hj n hn => ?_, fun x hx => ?_⟩
  · obtain ⟨x₀, hx₀, rfl⟩ := mem_updateWhere.mp hx
    split <;> exact h.fresh x₀ hx₀
  · rcases List.mem_append.mp hj with hj | hj
    · exact h.known j hj n hn
    · rw [(hout j hj).1] at hn
      cases hn
  · obtain ⟨x₀, hx₀, rfl⟩ := mem_updateWhere.mp hx
    obtain ⟨h1, h2, h3, h4, h5⟩ := h.rows x₀ hx₀
    by_cases hpx : p x₀
    · -- the row that fires
      have heq : x₀ = b := List.inj_on_of_nodup_map h.ids hx₀ hb ((hp x₀ hx₀).mp hpx)
      subst heq
      rw [if_pos hpx]
      refine ⟨by rw [← hd] at h1; exact h1, by rw [← hd, ← ho] at h2; exact h2, rfl, ?_, fun spec hs => ?_⟩
      · simp only [BatchRow.claim, Option.isSome_some, true_iff]
        exact ⟨fun hh => hh.2 rfl, by rw [ho]; exact hopen⟩
      · obtain ⟨j, rfl, _, hc⟩ := hrows spec hs
        have h0 := (h5 spec hs).2
        rw [hnone] at h0
        refine ⟨(h5 spec hs).1, ?_⟩
        simp only [List.countP_append, List.countP_singleton, BatchRow.claim, Option.isSome_some, if_true, hc]
        simpa using h0
    · have hne : x₀.id ≠ b.id := fun e => hpx ((hp x₀ hx₀).mpr e)
      rw [if_neg hpx]
      refine ⟨by rw [← hd] at h1; exact h1, by rw [← hd, ← ho] at h2; exact h2, h3, ?_, fun spec hs => ?_⟩
      · rw [h4, ho]
        simp [hne]
      · refine ⟨(h5 spec hs).1, ?_⟩
        rw [hcount _ (fun j hj hh => ?_)]
        · exact (h5 spec hs).2
        · simp only [JobRow.callbackOf, Bool.and_eq_true, decide_eq_true_eq] at hh
          rw [(hout j hj).2, Option.some.injEq] at hh
          exact hne (callbackKey_inj hh.2).symm

/-- The callback of a batch that has none yet is no duplicate. -/
theorem insertDyn_callback {spec : DynEnqueue} {id : BatchId} {sum : BatchSettleSummary} {i : Option JobId}
    (hb : spec.batchId = none) (h0 : db.jobs.countP (·.callbackOf spec id) = 0)
    (he : insertDyn db (buildCallbackDyn spec id sum) now = .ok (db', i)) :
    ∃ j gs n, db' = { db with jobs := db.jobs ++ [j], groups := gs, nextJob := n } ∧ j.batchId = none ∧
      j.callbackOf spec id := by
  obtain ⟨db₁, _, hi, hm⟩ := insertDyn_ok he
  cases hi with
  | row =>
    refine ⟨newJob (buildCallbackDyn spec id sum) db.nextJob now, ?_⟩
    have hj : (newJob (buildCallbackDyn spec id sum) db.nextJob now).callbackOf spec id := by
      simp [JobRow.callbackOf, newJob, buildCallbackDyn]
    rcases hm with rfl | ⟨key, _, hm⟩
    · exact ⟨db.groups, db.nextJob + 1, rfl, hb, hj⟩
    · obtain ⟨gs, rfl⟩ := hm.tables
      exact ⟨gs, db.nextJob + 1, rfl, hb, hj⟩
  | skip key mem holds =>
    exfalso
    refine List.countP_eq_zero.mp h0 _ mem ?_
    cases key
    simp only [JobRow.holds, Bool.and_eq_true, decide_eq_true_eq] at holds
    simp only [JobRow.callbackOf, Bool.and_eq_true, decide_eq_true_eq]
    exact ⟨holds.1.2, holds.2⟩

/-- The claim of a row and the insert of its callback. -/
theorem FanIn.fireRow (h : FanIn (fun _ => 0) late db) (now : ℤ) (sum : BatchSettleSummary) {b : BatchRow}
    (hb : b ∈ db.batches) (hnone : b.callbackEnqueuedAt = none) (hopen : db.jobs.countP (·.openIn b.id) = 0)
    {p : BatchRow → Bool} (hp : ∀ x ∈ db.batches, p x ↔ x.id = b.id)
    (he : (match b.onComplete with
      | none => .ok { db with batches := updateWhere p (·.claim now) db.batches }
      | some spec => (insertDyn { db with batches := updateWhere p (·.claim now) db.batches }
          (buildCallbackDyn spec b.id sum) now).map Prod.fst) = Except.ok db') :
    FanIn (fun _ => 0) (fun x => late x ∧ x ≠ b.id) db' := by
  cases hs : b.onComplete with
  | none =>
    rw [hs] at he
    cases he
    refine (h.fire now [] hb hnone hopen hp (fun spec hs' => ?_) (fun _ => rfl)).congr ?_ rfl rfl
    · rw [hs] at hs'
      cases hs'
    · exact (List.append_nil _).symm
  | some spec =>
    rw [hs] at he
    obtain ⟨⟨db₁, i⟩, hi, rfl⟩ := map_eq_ok he
    obtain ⟨hbn, hc⟩ := (h.rows b hb).callback spec hs
    rw [hnone] at hc
    obtain ⟨j, gs, n, rfl, hj, hjc⟩ := insertDyn_callback hbn (by simpa using hc) hi
    refine (h.fire now [j] hb hnone hopen hp (fun spec' hs' => ?_) (fun hn => ?_)).congr rfl rfl rfl
    · rw [hs] at hs'
      cases hs'
      exact ⟨j, rfl, hj, hjc⟩
    · rw [hs] at hn
      cases hn

/-- A row whose counters are right is done when none of its jobs is open. -/
theorem RowFansIn.done_iff {l : Prop} {jobs : List JobRow} {b : BatchRow} (h : RowFansIn 0 l jobs b) :
    b.done ↔ jobs.countP (·.openIn b.id) = 0 := by
  have h1 := h.counts
  have h2 := h.total
  simp only [BatchRow.done, decide_eq_true_eq]
  omega

theorem FanIn.tryClaimAndFire (h : FanIn (fun _ => 0) late db) {id : BatchId}
    (he : tryClaimAndFire db id now = .ok db') : FanIn (fun _ => 0) (fun x => late x ∧ x ≠ id) db' := by
  unfold Pg.tryClaimAndFire at he
  split at he
  · next hfind =>
    cases he
    refine ⟨h.ids, h.fresh, h.known, fun b hb => ?_⟩
    have hr := h.rows b hb
    have hn := List.find?_eq_none.mp hfind b hb
    refine ⟨hr.counts, hr.total, hr.complete, ?_, hr.callback⟩
    rw [hr.fired]
    by_cases hid : b.id = id
    · -- not claimable: fired already, or some job is open
      have hcl : b.callbackEnqueuedAt.isSome ∨ ¬ b.done := by
        simp only [BatchRow.claimable, hid, decide_true, Bool.true_and, Bool.and_eq_true, not_and_or] at hn
        rcases hn with hn | hn
        · exact Or.inl (by cases hc : b.callbackEnqueuedAt <;> simp_all)
        · exact Or.inr hn
      rw [hr.done_iff, hr.fired] at hcl
      rcases hcl with hcl | hcl
      · simp [hcl]
      · simp [hcl]
    · simp [hid]
  · next b hfind =>
    have hb := List.mem_of_find?_eq_some hfind
    have hcl := List.find?_some hfind
    simp only [BatchRow.claimable, Bool.and_eq_true, decide_eq_true_eq, Option.isNone_iff_eq_none] at hcl
    obtain ⟨⟨hid, hnone⟩, hdone⟩ := hcl
    subst hid
    refine h.fireRow now { total := b.total, completed := b.completed, failed := b.failed, cancelled := b.cancelled
                           durationMs := now - b.createdAt }
      hb hnone ((h.rows b hb).done_iff.mp hdone) (p := fun x => x.claimable b.id) (fun x hx => ?_) ?_
    · constructor
      · intro hc
        simp only [BatchRow.claimable, Bool.and_eq_true, decide_eq_true_eq] at hc
        exact hc.1.1
      · intro hx'
        have heq : x = b := List.inj_on_of_nodup_map h.ids hx hb hx'
        rw [heq]
        simp [BatchRow.claimable, hnone, hdone]
    · cases hs : b.onComplete with
      | none => rw [hs] at he; exact he
      | some spec =>
        rw [hs] at he
        obtain ⟨r, hr, he⟩ := bind_eq_ok he
        cases he
        exact congrArg (Except.map Prod.fst) hr

/-- `settle_terminal` is the bump and the attempt to fire; it only saves the attempt when it cannot succeed. -/
theorem settleTerminal_ok (hids : (db.batches.map (·.id)).Nodup) {id : BatchId} {o : TerminalOutcome}
    (he : settleTerminal db id o now = .ok db') :
    ∃ db₁, updateBatches db (·.id = id) (·.bump o 1) = .ok db₁ ∧ tryClaimAndFire db₁ id now = .ok db' := by
  unfold settleTerminal at he
  obtain ⟨db₁, hu, he⟩ := bind_eq_ok he
  refine ⟨db₁, hu, ?_⟩
  have hids₁ : (db₁.batches.map (·.id)).Nodup := by
    rw [(updateBatches_ok hu).1]
    exact (map_updateWhere (fun b => b.bump_id o 1) db.batches).symm ▸ hids
  have hskip : (∀ b ∈ db₁.batches, b.id = id → b.callbackEnqueuedAt.isSome ∨ ¬ b.done) →
      tryClaimAndFire db₁ id now = .ok db₁ := by
    intro hno
    have hnone : db₁.batches.find? (·.claimable id) = none := by
      refine List.find?_eq_none.mpr (fun b hb hc => ?_)
      simp only [BatchRow.claimable, Bool.and_eq_true, decide_eq_true_eq] at hc
      rcases hno b hb hc.1.1 with hs | hd
      · rw [Option.isNone_iff_eq_none.mp hc.1.2] at hs
        cases hs
      · exact hd hc.2
    unfold Pg.tryClaimAndFire
    rw [hnone]
  split at he
  · next hfind =>
    cases he
    refine hskip (fun b hb hid => ?_)
    exact absurd (decide_eq_true hid) (List.find?_eq_none.mp hfind b hb)
  · next b hfind =>
    split at he
    · next hc =>
      cases he
      refine hskip (fun x hx hid => ?_)
      have hb : b.id = id := by simpa using List.find?_some hfind
      have heq : x = b := List.inj_on_of_nodup_map hids₁ hx (List.mem_of_find?_eq_some hfind) (hid.trans hb.symm)
      rw [heq]
      simpa using hc
    · exact he

/-- **One terminal job is settled.** -/
theorem FanIn.settleBatch {batch : Option BatchId}
    (h : FanIn (fun x => if batch = some x then 1 else 0) (fun x => batch = some x) db) {o : TerminalOutcome}
    (he : settleBatch db batch o now = .ok db') : db'.FansIn := by
  cases batch with
  | none =>
    cases he
    exact h.weaken (fun b _ => by simp) (fun b _ => by simp)
  | some id =>
    obtain ⟨db₁, hu, hf⟩ := settleTerminal_ok h.ids he
    have hpay := h.pay (p := fun b => b.id = id) o (fun b _ hb => by
      have hne : id ≠ b.id := fun e => hb (decide_eq_true e.symm)
      simp [hne])
    rw [updateWhere_congr (g := fun b => b.bump o 1) (fun b _ hb => by
      rw [if_pos (congrArg some (of_decide_eq_true hb).symm)]
      rfl), ← (updateBatches_ok hu).1] at hpay
    refine (hpay.tryClaimAndFire hf).weaken (fun _ _ => rfl) (fun b _ => ?_)
    simp only [Option.some.injEq, iff_false, not_and, not_not]
    exact fun e => e.symm

theorem FanIn.fireAll : ∀ {bs : List BatchId} {db db' : Db} {late : BatchId → Prop}, FanIn (fun _ => 0) late db →
    fireAll db bs now = .ok db' → FanIn (fun _ => 0) (fun x => late x ∧ x ∉ bs) db'
  | [], _, _, _, h, he => by
    cases he
    exact h.weaken (fun _ _ => rfl) (fun _ _ => by simp)
  | b :: bs, _, _, _, h, he => by
    obtain ⟨db₁, hf, he⟩ := bind_eq_ok he
    refine (FanIn.fireAll (h.tryClaimAndFire hf) he).weaken (fun _ _ => rfl) (fun x _ => ?_)
    simp only [List.mem_cons, not_or]
    tauto

end Statements

end Eddyq.Pg
