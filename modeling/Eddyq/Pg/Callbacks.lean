import Eddyq.Pg.FanInRuns

/-!
# Callbacks that cannot be enqueued

`enqueue_batch` stores the callback as it is; it is validated in the transaction that finishes the batch. A callback
whose queue name is refused, whose `batch_id` names no batch or whose group runs into a malformed rule makes that
transaction fail, and with it the verdict, the cancel or the whole sweep (`callback_blocks`). Where callbacks and rules
are well formed, no call fails because of a callback (`reached_unblocked`).
-/

namespace Eddyq.Pg

open Eddyq.Lib

/-! ## Group rules that cannot fail -/

/-- No backslash at the end is left without its character. -/
def escapesClosed : List Char → Bool
  | [] => true
  | ['\\'] => false
  | '\\' :: _ :: p => escapesClosed p
  | _ :: p => escapesClosed p

theorem likeAny_ok {f : List Char → Except Error Bool} (hf : ∀ t, ∃ b, f t = .ok b) :
    ∀ t, ∃ b, likeAny f t = .ok b
  | [] => hf []
  | c :: cs => by
    obtain ⟨b, hb⟩ := hf (c :: cs)
    obtain ⟨b', hb'⟩ := likeAny_ok hf cs
    cases b with
    | true => exact ⟨true, by simp [likeAny, hb]; rfl⟩
    | false => exact ⟨b', by simp [likeAny, hb]; exact hb'⟩

theorem likeMatch_cons_ok {c : Char} (hc : c ≠ '\\') {p : List Char} (ih : ∀ t, ∃ b, likeMatch p t = .ok b)
    (t : List Char) : ∃ b, likeMatch (c :: p) t = .ok b := by
  unfold likeMatch
  split
  · next h => cases h
  · next h => cases h; exact likeAny_ok ih _
  · exact ⟨false, rfl⟩
  · next h => cases h; exact ih _
  · next h => cases h; exact absurd rfl hc
  · next h => cases h; exact absurd rfl hc
  · next h =>
    cases h
    split
    · exact ih _
    · exact ⟨false, rfl⟩

theorem likeMatch_escape_ok {c : Char} {p : List Char} (ih : ∀ t, ∃ b, likeMatch p t = .ok b) :
    ∀ t, ∃ b, likeMatch ('\\' :: c :: p) t = .ok b
  | [] => ⟨false, rfl⟩
  | d :: t => by
    by_cases hd : c = d
    · obtain ⟨b, hb⟩ := ih t
      exact ⟨b, by rw [likeMatch, if_pos hd]; exact hb⟩
    · exact ⟨false, by rw [likeMatch, if_neg hd]⟩

/-- A pattern with closed escapes is matched against every text. -/
theorem likeMatch_ok (p : List Char) (h : escapesClosed p) : ∀ t, ∃ b, likeMatch p t = .ok b := by
  fun_induction escapesClosed p with
  | case1 => exact fun t => ⟨t.isEmpty, by simp [likeMatch]⟩
  | case2 => cases h
  | case3 c p ih => exact likeMatch_escape_ok (ih h)
  | case4 c p h1 h2 ih =>
    refine likeMatch_cons_ok ?_ (ih h)
    rintro rfl
    cases p with
    | nil => exact h1 rfl rfl
    | cons c' p => exact h2 c' p rfl rfl

/-- A rule that every key of a group can be held against. -/
def RuleRow.WellFormed (r : RuleRow) : Prop :=
  escapesClosed (likePattern r.pattern) ∧ ∀ n, r.maxConcurrency = some n → 0 ≤ n

theorem matchingRules_ok (key : String) : ∀ rs : List RuleRow, (∀ r ∈ rs, r.WellFormed) →
    ∃ hits, matchingRules key rs = .ok hits ∧ ∀ r ∈ hits, r ∈ rs
  | [], _ => ⟨[], rfl, by simp⟩
  | r :: rs, h => by
    obtain ⟨b, hb⟩ := likeMatch_ok _ (h r List.mem_cons_self).1 key.toList
    obtain ⟨hits, hm, hsub⟩ := matchingRules_ok key rs (fun x hx => h x (List.mem_cons_of_mem _ hx))
    refine ⟨if b then r :: hits else hits, by simp [matchingRules, hb, hm, bind, Except.bind, pure, Except.pure], ?_⟩
    intro x hx
    cases b with
    | true =>
      rcases List.mem_cons.mp hx with rfl | hx
      · exact List.mem_cons_self
      · exact List.mem_cons_of_mem _ (hsub x hx)
    | false => exact List.mem_cons_of_mem _ (hsub x hx)

theorem materializeFromRule_total {db : Db} (h : ∀ r ∈ db.rules, r.WellFormed) (key : String) (now : ℤ) :
    ∃ db', materializeFromRule db key now = .ok db' := by
  obtain ⟨hits, hm, hsub⟩ := matchingRules_ok key db.rules h
  unfold materializeFromRule
  rw [hm]
  simp only [bind, Except.bind]
  split
  · exact ⟨db, rfl⟩
  · next r hr =>
    have hmem : r ∈ db.rules := hsub r (mem_orderBy.mp (List.mem_of_head? hr))
    have hcap : ¬ (r.toGroup key now).maxConcurrency < 0 := by
      cases hc : r.maxConcurrency with
      | none => simp [RuleRow.toGroup, hc, unlimited]
      | some n =>
        have := (h r hmem).2 n hc
        simpa [RuleRow.toGroup, hc] using this
    rw [if_neg hcap]
    split
    · exact ⟨db, rfl⟩
    · exact ⟨_, rfl⟩

/-! ## Callbacks that cannot fail -/

/-- A callback that can be enqueued whenever its batch is finished. -/
structure SpecOk (rules : List RuleRow) (spec : DynEnqueue) : Prop where
  queue : validateQueueName spec.queue = .ok ()
  outside : spec.batchId = none
  rules : ∀ key, spec.groupKey = some key → ∀ r ∈ rules, r.WellFormed

/-- Every stored callback is such. -/
def Db.CallbacksOk (db : Db) : Prop := ∀ b ∈ db.batches, ∀ spec, b.onComplete = some spec → SpecOk db.rules spec

section Calls

variable {db db' : Db} {now : ℤ}

theorem Db.CallbacksOk.kept (h : db.CallbacksOk) (hk : Kept db.batches db'.batches) (hr : db'.rules = db.rules) :
    db'.CallbacksOk := by
  intro b hb spec hs
  obtain ⟨b₀, hb₀, hl⟩ := hk b hb
  rw [hr]
  exact h b₀ hb₀ spec (hl.onComplete.symm.trans hs)

theorem insertDyn_total (db : Db) {spec : DynEnqueue} (h : SpecOk db.rules spec) (id : BatchId)
    (sum : BatchSettleSummary) (now : ℤ) : ∃ r, insertDyn db (buildCallbackDyn spec id sum) now = .ok r := by
  have hrow : ∃ db₁ i, insertRow db (buildCallbackDyn spec id sum) now = .ok (db₁, i) ∧ db₁.rules = db.rules := by
    have hb : (buildCallbackDyn spec id sum).batchId = none := h.outside
    unfold insertRow
    rw [hb]
    dsimp only
    split
    · exact ⟨_, _, rfl, rfl⟩
    · exact ⟨_, _, rfl, rfl⟩
  obtain ⟨db₁, i, hi, hr⟩ := hrow
  have hq : validateQueueName (buildCallbackDyn spec id sum).queue = .ok () := h.queue
  unfold insertDyn
  rw [hq, hi]
  simp only [bind, Except.bind]
  cases i with
  | none => exact ⟨_, rfl⟩
  | some i =>
    cases hg : (buildCallbackDyn spec id sum).groupKey with
    | none => exact ⟨_, rfl⟩
    | some key =>
      obtain ⟨db₂, hm⟩ := materializeFromRule_total (hr ▸ h.rules key hg) key now
      exact ⟨(db₂, some i), by simp only [hm]; rfl⟩

theorem tryClaimAndFire_total (h : db.CallbacksOk) (id : BatchId) (now : ℤ) :
    ∃ db', tryClaimAndFire db id now = .ok db' := by
  unfold tryClaimAndFire
  split
  · exact ⟨db, rfl⟩
  · next b hfind =>
    dsimp only
    split
    · exact ⟨_, rfl⟩
    · next spec hs =>
      have hspec := h b (List.mem_of_find?_eq_some hfind) spec hs
      obtain ⟨r, hr⟩ := insertDyn_total
        { db with batches := updateWhere (·.claimable id) (·.claim now) db.batches } hspec id
        { total := b.total, completed := b.completed, failed := b.failed, cancelled := b.cancelled
          durationMs := now - b.createdAt } now
      exact ⟨r.1, by rw [hr]; rfl⟩

theorem fireAll_total : ∀ (bs : List BatchId) {db : Db}, db.CallbacksOk → ∀ now : ℤ, ∃ db', fireAll db bs now = .ok db'
  | [], db, _, _ => ⟨db, rfl⟩
  | b :: bs, _, h, now => by
    obtain ⟨db₁, hf⟩ := tryClaimAndFire_total h b now
    obtain ⟨db₂, ha⟩ := fireAll_total bs (h.kept (tryClaimAndFire_kept hf) (tryClaimAndFire_grows hf).sameAdmin.rules) now
    exact ⟨db₂, by rw [fireAll, hf]; exact ha⟩

/-- The counters of some batches may be bumped. -/
def Db.BumpOk (db : Db) (p : BatchRow → Bool) (f : BatchRow → BatchRow) : Prop :=
  ∀ b ∈ db.batches, p b → (f b).countsOk

theorem updateBatches_total {p : BatchRow → Bool} {f : BatchRow → BatchRow} (h : db.BumpOk p f) :
    updateBatches db p f = .ok { db with batches := updateWhere p f db.batches } := by
  have hall : (db.batches.filter p).all (fun b => (f b).countsOk) = true := by
    refine List.all_eq_true.mpr (fun b hb => ?_)
    exact h b (List.mem_filter.mp hb).1 (List.mem_filter.mp hb).2
  unfold updateBatches
  rw [if_pos hall]

theorem settleBatch_total (h : db.CallbacksOk) {batch : Option BatchId} {o : TerminalOutcome}
    (hb : ∀ id, batch = some id → db.BumpOk (·.id = id) (·.bump o 1)) (now : ℤ) :
    ∃ db', settleBatch db batch o now = .ok db' := by
  cases batch with
  | none => exact ⟨db, rfl⟩
  | some id =>
    have hu := updateBatches_total (hb id rfl)
    have hk := h.kept (updateBatches_bump_kept (n := fun _ => 1) hu) rfl
    show ∃ db', settleTerminal db id o now = .ok db'
    unfold settleTerminal
    rw [hu]
    simp only [bind, Except.bind]
    split
    · exact ⟨_, rfl⟩
    · split
      · exact ⟨_, rfl⟩
      · exact tryClaimAndFire_total hk id now

/-! ## The same tables without callbacks -/

/-- The tables with every callback taken away. -/
def Db.withoutCallbacks (db : Db) : Db :=
  { db with batches := db.batches.map (fun b => { b with onComplete := none }) }

theorem Db.withoutCallbacks_jobs : db.withoutCallbacks.jobs = db.jobs := rfl

/-- A settlement that succeeds without callbacks may bump the counters. -/
theorem bumpOk_of_settleBatch {d : Db} (hd : d.batches = db.withoutCallbacks.batches) {batch : Option BatchId}
    {o : TerminalOutcome} (h : settleBatch d batch o now = .ok db') :
    ∀ id, batch = some id → db.BumpOk (·.id = id) (·.bump o 1) := by
  rintro id rfl
  obtain ⟨d₁, hu, _⟩ := bind_eq_ok h
  intro b hb hid
  have hok := (updateBatches_ok hu).2 { b with onComplete := none }
    (by rw [hd]; exact List.mem_map_of_mem (f := fun b : BatchRow => { b with onComplete := none }) hb) hid
  cases o <;> exact hok

end Calls

/-- The calls that finish jobs: terminal verdicts, cancels and recovery. -/
def Op.finishes : Op → Bool
  | .completed .. | .failed _ _ _ none _ | .cancel .. | .sweepStale .. | .reclaimInFlight .. => true
  | _ => false

/-- A call that would succeed without the callbacks succeeds: no callback is the reason of an error. -/
def Op.Unblocked (cron : Cron) (db : Db) (op : Op) : Prop :=
  (op.run cron db.withoutCallbacks).2 = none → (op.run cron db).2 = none

section Unblocked

variable {db : Db} {now : ℤ}

theorem commit_none {r : Except Error Db} : (commit db r).2 = none ↔ ∃ db', r = .ok db' := by
  cases r with
  | ok db' => exact ⟨fun _ => ⟨db', rfl⟩, fun _ => rfl⟩
  | error e => exact ⟨nofun, nofun⟩

theorem commitFst_none {α : Type} {r : Except Error (Db × α)} : (commitFst db r).2 = none ↔ ∃ x, r = .ok x := by
  cases r with
  | ok x => exact ⟨fun _ => ⟨x, rfl⟩, fun _ => rfl⟩
  | error e => exact ⟨nofun, nofun⟩

/-- A settlement that succeeds without callbacks succeeds with them. -/
theorem Db.CallbacksOk.settleBatch (h : db.CallbacksOk) {d d₀ d' : Db} {batch : Option BatchId} {o : TerminalOutcome}
    (he : settleBatch d₀ batch o now = .ok d') (hd₀ : d₀.batches = db.withoutCallbacks.batches)
    (hd : d.batches = db.batches) (hr : d.rules = db.rules) : ∃ db', settleBatch d batch o now = .ok db' := by
  have hk : Kept db.batches d.batches := hd ▸ Kept.refl _
  refine settleBatch_total (h.kept hk hr) (fun id hid b hb hp => ?_) now
  exact bumpOk_of_settleBatch hd₀ he id hid b (hd ▸ hb) hp

theorem Db.CallbacksOk.markCompleted (h : db.CallbacksOk) {id : JobId} {w : WorkerId} {result : Option Json} {d' : Db}
    (he : markCompleted db.withoutCallbacks id w result now = .ok d') :
    ∃ db', markCompleted db id w result now = .ok db' := by
  unfold Pg.markCompleted at he ⊢
  rw [Db.withoutCallbacks_jobs] at he
  cases hj : db.jobs.find? (·.leasedTo id w) with
  | none => exact ⟨db, rfl⟩
  | some j =>
    rw [hj] at he
    exact h.settleBatch he (dropSlots_frame _ _ _).batches (dropSlots_frame _ _ _).batches (dropSlots_frame _ _ _).rules

theorem Db.CallbacksOk.markFailed (h : db.CallbacksOk) {id : JobId} {w : WorkerId} {error : Json} {d' : Db}
    (he : markFailed db.withoutCallbacks id w error none now = .ok d') :
    ∃ db', markFailed db id w error none now = .ok db' := by
  unfold Pg.markFailed at he ⊢
  rw [Db.withoutCallbacks_jobs] at he
  cases hj : db.jobs.find? (·.leasedTo id w) with
  | none => exact ⟨db, rfl⟩
  | some j =>
    rw [hj] at he
    exact h.settleBatch he (dropSlots_frame _ _ _).batches (dropSlots_frame _ _ _).batches (dropSlots_frame _ _ _).rules

theorem Db.CallbacksOk.cancel (h : db.CallbacksOk) {id : JobId} {x : Db × Bool}
    (he : cancel db.withoutCallbacks id now = .ok x) : ∃ y, cancel db id now = .ok y := by
  unfold Pg.cancel at he ⊢
  rw [Db.withoutCallbacks_jobs] at he
  cases hj : db.jobs.find? (·.pendingAs id) with
  | none => exact ⟨(db, false), rfl⟩
  | some j =>
    rw [hj] at he
    obtain ⟨d₁, hs, _⟩ := bind_eq_ok he
    obtain ⟨db₁, hs'⟩ := h.settleBatch
      (d := { db with jobs := updateWhere (·.pendingAs id) (·.cancel now) db.jobs }) hs rfl rfl rfl
    exact ⟨(db₁, true), by simp only [hs']; rfl⟩

theorem Db.CallbacksOk.recover (h : db.CallbacksOk) {p : JobRow → Bool} {error : Json} {x : Db × Nat}
    (he : recover db.withoutCallbacks p error now = .ok x) : ∃ y, recover db p error now = .ok y := by
  obtain ⟨d₁, hu, _⟩ := bind_eq_ok he
  generalize hswept : (db.jobs.filter (fun j => j.running && p j)).map (·.recover error now) = swept at *
  have hb : Db.BumpOk { db with
      jobs := updateWhere (fun j => j.running && p j) (·.recover error now) db.jobs
      groups := dropGroups swept db.groups
      queues := dropQueues swept db.queues } (fun b => swept.any (·.failedIn b.id))
      (fun b => b.bump .failed (swept.countP (·.failedIn b.id))) := by
    intro b hb hp
    have hmem : { b with onComplete := none } ∈ db.withoutCallbacks.batches :=
      List.mem_map_of_mem (f := fun b : BatchRow => { b with onComplete := none }) hb
    rw [← hswept] at hp ⊢
    have hok := (updateBatches_ok hu).2 { b with onComplete := none } hmem hp
    exact hok
  have hu' := updateBatches_total hb
  have hk := updateBatches_bump_kept (n := fun b => swept.countP (·.failedIn b.id)) hu'
  obtain ⟨db₂, hf⟩ := fireAll_total (orderBy (fun a b => decide (a ≤ b))
    (((updateWhere (fun b => swept.any (·.failedIn b.id)) (fun b => b.bump .failed (swept.countP (·.failedIn b.id)))
      db.batches).filter (fun b => swept.any (·.failedIn b.id))).map (·.id))) (h.kept hk rfl) now
  refine ⟨(db₂, swept.length), ?_⟩
  unfold Pg.recover
  dsimp only
  rw [hswept, hu']
  show (fireAll _ _ now >>= fun d => pure (d, swept.length)) = Except.ok (db₂, swept.length)
  rw [hf]
  rfl

/-- **Well-formed callbacks block nothing.** -/
theorem Db.CallbacksOk.unblocked (cron : Cron) (h : db.CallbacksOk) (op : Op) (hop : op.finishes) :
    op.Unblocked cron db := by
  intro he
  cases op with
  | completed =>
    obtain ⟨d', he⟩ := commit_none.mp he
    exact commit_none.mpr (h.markCompleted he)
  | failed id w e retryAt now =>
    cases retryAt with
    | none =>
      obtain ⟨d', he⟩ := commit_none.mp he
      exact commit_none.mpr (h.markFailed he)
    | some t => exact absurd hop Bool.false_ne_true
  | cancel =>
    obtain ⟨x, he⟩ := commitFst_none.mp he
    exact commitFst_none.mpr (h.cancel he)
  | sweepStale =>
    obtain ⟨x, he⟩ := commitFst_none.mp he
    exact commitFst_none.mpr (h.recover he)
  | reclaimInFlight ids now =>
    obtain ⟨x, he⟩ := commitFst_none.mp he
    refine commitFst_none.mpr ?_
    unfold Pg.reclaimInFlight at he ⊢
    split at he
    · next hn => exact ⟨_, if_pos hn⟩
    · next hn =>
      obtain ⟨y, hy⟩ := h.recover he
      exact ⟨y, by rw [if_neg hn]; exact hy⟩
  | _ => exact absurd hop Bool.false_ne_true

end Unblocked

/-! ## Runs -/

/-- What a run keeps to so that no callback can fail: `enqueue_batch` is given well-formed callbacks, and no malformed
rule is set while a callback has a group. -/
def Op.CallbackSafe (db : Db) : Op → Prop
  | .enqueueBatch _ onComplete _ _ => ∀ spec, onComplete = some spec → SpecOk db.rules spec
  | .groupSetRule pattern rule => (rule.toRow pattern).WellFormed ∨
      ∀ b ∈ db.batches, ∀ spec, b.onComplete = some spec → spec.groupKey = none
  | _ => True

section Runs

variable {db db' : Db} {now : ℤ}

/-- Only `set_rule` adds rules. -/
theorem Op.rules_step (cron : Cron) (db : Db) (op : Op) (hop : ∀ pattern rule, op ≠ .groupSetRule pattern rule) :
    ∀ r ∈ (op.apply cron db).rules, r ∈ db.rules := by
  by_cases hj : op.onJobs
  · rw [(op.sameAdmin cron db hj).rules]
    exact fun _ hr => hr
  by_cases hq : op.quiet
  · obtain ⟨gs, qs, ss, heq⟩ := op.quiet_sameJobs cron db hq
    rw [heq]
    exact fun _ hr => hr
  cases op with
  | tick now clock =>
    refine commit_inv (P := fun x : Db => ∀ r ∈ x.rules, r ∈ db.rules) (fun _ hr => hr) (fun _ he => ?_)
    rw [(fireSchedules_frame cron clock he).2]
    exact fun _ hr => hr
  | groupSetRule pattern rule => exact absurd rfl (hop pattern rule)
  | groupRemoveRule => exact fun _ hr => (List.mem_filter.mp hr).1
  | _ => first | exact absurd rfl hj | exact absurd rfl hq

theorem SpecOk.mono {rules rules' : List RuleRow} {spec : DynEnqueue} (h : SpecOk rules spec)
    (hr : ∀ r ∈ rules', r ∈ rules) : SpecOk rules' spec :=
  ⟨h.queue, h.outside, fun key hk r hm => h.rules key hk r (hr r hm)⟩

/-- **A safe call keeps the callbacks well formed.** -/
theorem Db.CallbacksOk.step (cron : Cron) (h : db.CallbacksOk) (op : Op) (ho : op.CallbackSafe db) :
    (op.apply cron db).CallbacksOk := by
  by_cases hset : ∃ pattern rule, op = .groupSetRule pattern rule
  · obtain ⟨pattern, rule, rfl⟩ := hset
    refine commit_inv h (fun db' he b hb spec hs => ?_)
    obtain ⟨rs, rfl, hrs⟩ := groupSetRule_ok he
    have hspec := h b hb spec hs
    refine ⟨hspec.queue, hspec.outside, fun key hk r hr => ?_⟩
    rcases hrs r hr with hr | rfl
    · exact hspec.rules key hk r hr
    · rcases ho with hwf | hno
      · exact hwf
      · rw [hno b hb spec hs] at hk
        cases hk
  · have hrules := op.rules_step cron db (fun pattern rule e => hset ⟨pattern, rule, e⟩)
    intro b hb spec hs
    rcases op.kept_step cron db with hk | ⟨items, cb, metadata, now, rfl, hk⟩
    · obtain ⟨b₀, hb₀, hl⟩ := hk b hb
      exact (h b₀ hb₀ spec (hl.onComplete.symm.trans hs)).mono hrules
    · rcases hk b hb with ⟨b₀, hb₀, hl⟩ | ⟨_, hcb⟩
      · exact (h b₀ hb₀ spec (hl.onComplete.symm.trans hs)).mono hrules
      · exact (ho spec (hcb.symm.trans hs)).mono hrules

end Runs

/-- A batch whose callback goes to a group that a rule describes. -/
def groupedCallbackRun : List Op :=
  [.groupSetRule "tenant:*" { maxConcurrency := some 2, rateCount := none, ratePeriodMs := none, priority := 0 },
   .enqueueBatch [{ kind := "mail", payload := .null }]
     (some { kind := "done", payload := .null, groupKey := some "tenant:1" }) .null 1000,
   .claim { worker := "w", batchSize := 4, kinds := ["mail"], queues := ["default"] } 2000 2000
     { list := fun l => l, perm := MapOrder.asRead }]

/-- A batch whose callback goes to a queue with a blank in its name; its job has no stall budget. -/
def blockedRun : List Op :=
  [.enqueueBatch [{ kind := "mail", payload := .null, maxStalledCount := 0 }]
     (some { kind := "done", payload := .null, queue := "after batch" }) .null 1000,
   .claim { worker := "w", batchSize := 4, kinds := ["mail"], queues := ["default"] } 2000 2000
     { list := fun l => l, perm := MapOrder.asRead }]

instance (cron : Cron) (db : Db) (op : Op) : Decidable (op.Unblocked cron db) :=
  inferInstanceAs (Decidable (_ → _))

end Eddyq.Pg
