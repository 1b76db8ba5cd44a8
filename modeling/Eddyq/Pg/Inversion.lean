import Eddyq.Pg.System

/-!
# What a transaction that commits has done

One lemma for each statement and each transaction body that can fail: from its success, the tables it leaves.
Inserting a job appends a pending row or does nothing (`insertRow_ok`); materializing a group appends a row with no
running job or does nothing (`materializeFromRule_ok`). The longer bodies are chains of these; the verdicts are `Reported`.
-/

namespace Eddyq.Pg

open Eddyq.Lib

variable {db db' : Db} {now : ℤ}

/-! ## Statements -/

/-- A pending row more, or a live duplicate. -/
inductive Inserted (db : Db) (r : DynEnqueue) (now : ℤ) : Db → Option JobId → Prop
  | row (free : ∀ k, r.uniqueKey = some k → ∀ j ∈ db.jobs, ¬ j.holds r.kind k)
      (batch : ∀ b, r.batchId = some b → ∃ row ∈ db.batches, row.id = b) :
      Inserted db r now { db with jobs := db.jobs ++ [newJob r db.nextJob now], nextJob := db.nextJob + 1 }
        (some db.nextJob)
  | skip {k : String} {j : JobRow} (key : r.uniqueKey = some k) (mem : j ∈ db.jobs) (holds : j.holds r.kind k) :
      Inserted db r now { db with nextJob := db.nextJob + 1 } none

theorem insertRow_ok {r : DynEnqueue} {id : Option JobId} (h : insertRow db r now = .ok (db', id)) :
    Inserted db r now db' id := by
  unfold insertRow at h
  dsimp only at h
  split at h
  · next hdup =>
    cases h
    obtain ⟨k, hk, hj⟩ := (Option.any_eq_true _ _).mp hdup
    obtain ⟨j, hj, hh⟩ := List.any_eq_true.mp hj
    exact .skip hk hj hh
  · next hdup =>
    split at h
    · cases h
    · next hb =>
      cases h
      refine .row (fun k hk j hj hh => ?_) (fun b hb' => ?_)
      · exact hdup (by rw [hk]; simp only [Option.any_some]; exact List.any_eq_true.mpr ⟨j, hj, hh⟩)
      · rw [hb'] at hb
        simpa using hb

/-- A group row more, without running jobs, or nothing. -/
inductive Materialized (db : Db) (key : String) : Db → Prop
  | same : Materialized db key db
  | row (g : GroupRow) (hkey : g.key = key) (count : g.runningCount = 0) (new : ∀ g' ∈ db.groups, g'.key ≠ key) :
      Materialized db key { db with groups := db.groups ++ [g] }

theorem materializeFromRule_ok {key : String} (h : materializeFromRule db key now = .ok db') :
    Materialized db key db' := by
  unfold materializeFromRule at h
  obtain ⟨hits, _, h⟩ := bind_eq_ok h
  split at h
  · cases h; exact .same
  · split at h
    · cases h
    split at h
    · cases h; exact .same
    · next hnew =>
      cases h
      exact .row _ rfl rfl (by simpa using hnew)

theorem insertDyn_ok {r : DynEnqueue} {id : Option JobId} (h : insertDyn db r now = .ok (db', id)) :
    ∃ db₁, validateQueueName r.queue = .ok () ∧ Inserted db r now db₁ id ∧
      (db' = db₁ ∨ ∃ key, r.groupKey = some key ∧ Materialized db₁ key db') := by
  unfold insertDyn at h
  obtain ⟨⟨⟩, hv, h⟩ := bind_eq_ok h
  obtain ⟨⟨db₁, id₁⟩, hi, h⟩ := bind_eq_ok h
  dsimp only at h
  split at h
  · next key hkey =>
    obtain ⟨db₂, hm, h⟩ := bind_eq_ok h
    cases h
    exact ⟨db₁, hv, insertRow_ok hi, Or.inr ⟨key, hkey, materializeFromRule_ok hm⟩⟩
  · cases h
    exact ⟨db', hv, insertRow_ok hi, Or.inl rfl⟩

/-! ## Bodies that only add rows -/

/-- One statement that adds a job or a group, or touches batches only. -/
inductive Grow : Db → Db → Prop
  | insert {db db' : Db} {r : DynEnqueue} {now : ℤ} {id : Option JobId} (h : Inserted db r now db' id) : Grow db db'
  | materialize {db db' : Db} {key : String} (h : Materialized db key db') : Grow db db'
  | batches {db : Db} (bs : List BatchRow) (n : Nat) : Grow db { db with batches := bs, nextBatch := n }

/-- Any number of such statements. -/
def Grows : Db → Db → Prop := Relation.ReflTransGen Grow

theorem insertDyn_grows {r : DynEnqueue} {id : Option JobId} (h : insertDyn db r now = .ok (db', id)) :
    Grows db db' := by
  obtain ⟨db₁, _, hi, rfl | ⟨key, _, hm⟩⟩ := insertDyn_ok h
  · exact .single (.insert hi)
  · exact .head (.insert hi) (.single (.materialize hm))

theorem insertRows_grows : ∀ {rs : List DynEnqueue} {db db' : Db} {n : Nat},
    insertRows db rs now = .ok (db', n) → Grows db db'
  | [], _, _, _, h => by cases h; exact .refl
  | r :: rs, _, _, _, h => by
    obtain ⟨⟨db₁, id⟩, hi, h⟩ := bind_eq_ok h
    obtain ⟨⟨db₂, m⟩, hr, h⟩ := bind_eq_ok h
    cases h
    exact .head (.insert (insertRow_ok hi)) (insertRows_grows hr)

theorem materializeAll_grows : ∀ {keys : List String} {db db' : Db},
    materializeAll db keys now = .ok db' → Grows db db'
  | [], _, _, h => by cases h; exact .refl
  | key :: keys, _, _, h => by
    obtain ⟨db₁, hm, h⟩ := bind_eq_ok h
    exact .head (.materialize (materializeFromRule_ok hm)) (materializeAll_grows h)

theorem enqueueManyDyn_grows {rs : List DynEnqueue} {n : Nat} (h : enqueueManyDyn db rs now = .ok (db', n)) :
    Grows db db' := by
  unfold enqueueManyDyn at h
  split at h
  · cases h; exact .refl
  · obtain ⟨_, _, h⟩ := bind_eq_ok h
    obtain ⟨⟨db₁, m⟩, hr, h⟩ := bind_eq_ok h
    obtain ⟨db₂, hm, h⟩ := bind_eq_ok h
    cases h
    exact (insertRows_grows hr).trans (materializeAll_grows hm)

theorem updateBatches_ok {p : BatchRow → Bool} {f : BatchRow → BatchRow} (h : updateBatches db p f = .ok db') :
    db' = { db with batches := updateWhere p f db.batches } ∧ ∀ b ∈ db.batches, p b → (f b).countsOk := by
  unfold updateBatches at h
  split at h
  · next hok =>
    cases h
    refine ⟨rfl, fun b hb hp => ?_⟩
    exact List.all_eq_true.mp hok b (List.mem_filter.mpr ⟨hb, hp⟩)
  · cases h

theorem updateBatches_grows {p : BatchRow → Bool} {f : BatchRow → BatchRow} (h : updateBatches db p f = .ok db') :
    Grows db db' := by
  rw [(updateBatches_ok h).1]
  exact .single (.batches _ _)

theorem tryClaimAndFire_grows {b : BatchId} (h : tryClaimAndFire db b now = .ok db') : Grows db db' := by
  unfold tryClaimAndFire at h
  split at h
  · cases h; exact .refl
  · dsimp only at h
    split at h
    · cases h; exact .single (.batches _ _)
    · obtain ⟨⟨db₁, id⟩, hi, h⟩ := bind_eq_ok h
      cases h
      exact .head (.batches _ _) (insertDyn_grows hi)

theorem settleTerminal_grows {b : BatchId} {o : TerminalOutcome} (h : settleTerminal db b o now = .ok db') :
    Grows db db' := by
  unfold settleTerminal at h
  obtain ⟨db₁, hu, h⟩ := bind_eq_ok h
  refine (updateBatches_grows hu).trans ?_
  split at h
  · cases h; exact .refl
  · split at h
    · cases h; exact .refl
    · exact tryClaimAndFire_grows h

theorem settleBatch_grows {b : Option BatchId} {o : TerminalOutcome} (h : settleBatch db b o now = .ok db') :
    Grows db db' := by
  unfold settleBatch at h
  split at h
  · exact settleTerminal_grows h
  · cases h; exact .refl

theorem fireAll_grows : ∀ {bs : List BatchId} {db db' : Db}, fireAll db bs now = .ok db' → Grows db db'
  | [], _, _, h => by cases h; exact .refl
  | b :: bs, _, _, h => by
    obtain ⟨db₁, hf, h⟩ := bind_eq_ok h
    exact (tryClaimAndFire_grows hf).trans (fireAll_grows h)

/-- What `mark_failed` makes of the row. -/
def JobRow.failOr (error : Json) (retryAt : Option ℤ) (now : ℤ) (j : JobRow) : JobRow :=
  match retryAt with
  | some t => j.retry t error
  | none => j.fail error now

theorem JobRow.failOr_running (error : Json) (retryAt : Option ℤ) (now : ℤ) (j : JobRow) :
    (j.failOr error retryAt now).running = false := by
  cases retryAt <;> rfl

/-- A verdict: the gate finds no row, or the row is moved and gives its slots back, and then a terminal row settles its
batch. -/
inductive Reported (db : Db) (p : JobRow → Bool) (f : JobRow → JobRow) (now : ℤ) : Db → Prop
  | stale (gone : db.jobs.find? p = none) : Reported db p f now db
  | retried {j : JobRow} (found : db.jobs.find? p = some j) (live : ∀ x, ¬ (f x).state.terminal) :
      Reported db p f now (dropSlots { db with jobs := updateWhere p f db.jobs } j.groupKey j.queue)
  | ended {j : JobRow} {o : TerminalOutcome} {db' : Db} (found : db.jobs.find? p = some j) (final : ∀ x, (f x).state.terminal)
      (settled : settleBatch (dropSlots { db with jobs := updateWhere p f db.jobs } j.groupKey j.queue) j.batchId o now =
        .ok db') : Reported db p f now db'

theorem markCompleted_ok {id : JobId} {w : WorkerId} {result : Option Json}
    (h : markCompleted db id w result now = .ok db') :
    Reported db (·.leasedTo id w) (·.complete result now) now db' := by
  unfold markCompleted at h
  split at h
  · next gone =>
    cases h
    exact .stale gone
  · next j found => exact .ended found (fun _ => rfl) h

theorem markFailed_ok {id : JobId} {w : WorkerId} {error : Json} {retryAt : Option ℤ}
    (h : markFailed db id w error retryAt now = .ok db') :
    Reported db (·.leasedTo id w) (·.failOr error retryAt now) now db' := by
  unfold markFailed at h
  split at h
  · next gone =>
    cases h
    exact .stale gone
  · next j t found =>
    cases h
    exact .retried found fun _ => nofun
  · next j found => exact .ended found (fun _ => rfl) h

theorem cancel_ok {id : JobId} {b : Bool} (h : cancel db id now = .ok (db', b)) :
    (db.jobs.find? (·.pendingAs id) = none ∧ db' = db) ∨ ∃ j, db.jobs.find? (·.pendingAs id) = some j ∧
      settleBatch { db with jobs := updateWhere (·.pendingAs id) (·.cancel now) db.jobs } j.batchId .cancelled now = .ok db' := by
  unfold cancel at h
  split at h
  · next gone =>
    cases h
    exact Or.inl ⟨gone, rfl⟩
  · next j found =>
    obtain ⟨db₁, hs, h⟩ := bind_eq_ok h
    cases h
    exact Or.inr ⟨j, found, hs⟩

/-- After the row of a cancellation only rows are added. -/
theorem cancel_grows {id : JobId} {b : Bool} (h : cancel db id now = .ok (db', b)) :
    Grows { db with jobs := updateWhere (·.pendingAs id) (·.cancel now) db.jobs } db' := by
  rcases cancel_ok h with ⟨gone, rfl⟩ | ⟨j, _, hs⟩
  · rw [updateWhere_of_find_none _ gone]
    exact .refl
  · exact settleBatch_grows hs

theorem enqueueBatch_grows {items : List DynEnqueue} {cb : Option DynEnqueue} {metadata : Json} {r : BatchId × Nat}
    (h : enqueueBatch db items cb metadata now = .ok (db', r)) : Grows db db' := by
  unfold enqueueBatch at h
  obtain ⟨⟨db₁, n⟩, he, h⟩ := bind_eq_ok h
  obtain ⟨db₂, hu, h⟩ := bind_eq_ok h
  refine .head (.batches _ _) ((enqueueManyDyn_grows he).trans ((updateBatches_grows hu).trans ?_))
  split at h
  · split at h
    · cases h; exact .single (.batches _ _)
    · obtain ⟨⟨db₃, id⟩, hi, h⟩ := bind_eq_ok h
      cases h
      exact .head (.batches _ _) (insertDyn_grows hi)
  · cases h; exact .refl

theorem sqlEnqueue_grows {r : DynEnqueue} (h : sqlEnqueue db r now = .ok db') : Grows db db' := by
  unfold sqlEnqueue at h
  obtain ⟨⟨db₁, id⟩, hi, h⟩ := bind_eq_ok h
  refine .head (.insert (insertRow_ok hi)) ?_
  dsimp only at h
  split at h
  · exact .single (.materialize (materializeFromRule_ok h))
  · cases h; exact .refl

/-- The pool version keeps the row of a failed materialization. -/
theorem enqueueDyn_grows (db : Db) (r : DynEnqueue) (now : ℤ) : Grows db (enqueueDyn db r now).1 := by
  unfold enqueueDyn
  split
  · next h => exact insertDyn_grows h
  · split
    · next h => exact .single (.insert (insertRow_ok h))
    · exact .refl

/-! ## Transactions -/

/-- What held before a transaction and holds if it commits, holds after it. -/
theorem commit_inv {P : Db → Prop} (h : P db) {r : Except Error Db} (hr : ∀ db', r = .ok db' → P db') :
    P (commit db r).1 := by
  cases r with
  | ok db' => exact hr db' rfl
  | error e => exact h

theorem commitFst_inv {P : Db → Prop} (h : P db) {α : Type} {r : Except Error (Db × α)}
    (hr : ∀ db' x, r = .ok (db', x) → P db') : P (commitFst db r).1 := by
  refine commit_inv h (fun db' he => ?_)
  obtain ⟨⟨db₁, x⟩, hx, rfl⟩ := map_eq_ok he
  exact hr db₁ x hx

/-! ## The rows a request appends -/

/-- Job rows made from some of the requests are appended; groups may have been materialized. -/
structure Appends (rs : List DynEnqueue) (now : ℤ) (rows : List JobRow) (db db' : Db) : Prop where
  made : ∀ j ∈ rows, ∃ r ∈ rs, ∃ id, j = newJob r id now
  tables : ∃ gs n, db' = { db with jobs := db.jobs ++ rows, groups := gs, nextJob := n }

theorem Materialized.tables {key : String} (h : Materialized db key db') : ∃ gs, db' = { db with groups := gs } := by
  cases h with
  | same => exact ⟨db.groups, rfl⟩
  | row g => exact ⟨db.groups ++ [g], rfl⟩

theorem Appends.nil (rs : List DynEnqueue) (now : ℤ) (db : Db) : Appends rs now [] db db :=
  ⟨fun j hj => absurd hj List.not_mem_nil, db.groups, db.nextJob, by rw [List.append_nil]⟩

theorem Appends.materialize {rs : List DynEnqueue} {rows : List JobRow} {db₁ : Db} (h : Appends rs now rows db db₁)
    {key : String} (hm : Materialized db₁ key db') : Appends rs now rows db db' := by
  obtain ⟨gs, n, rfl⟩ := h.tables
  obtain ⟨gs', rfl⟩ := hm.tables
  exact ⟨h.made, gs', n, rfl⟩

theorem Inserted.appends {r : DynEnqueue} {id : Option JobId} (h : Inserted db r now db' id) :
    ∃ rows, Appends [r] now rows db db' ∧ rows.length = if id.isSome then 1 else 0 := by
  cases h with
  | row =>
    refine ⟨[newJob r db.nextJob now], ⟨fun j hj => ?_, db.groups, db.nextJob + 1, rfl⟩, rfl⟩
    exact ⟨r, List.mem_singleton_self r, db.nextJob, List.mem_singleton.mp hj⟩
  | skip => exact ⟨[], ⟨fun j hj => absurd hj List.not_mem_nil, db.groups, db.nextJob + 1, by rw [List.append_nil]⟩, rfl⟩

/-- Two requests after each other. -/
theorem Appends.trans {rs rs' : List DynEnqueue} {rows rows' : List JobRow} {db₁ : Db}
    (h : Appends rs now rows db db₁) (h' : Appends rs' now rows' db₁ db') :
    Appends (rs ++ rs') now (rows ++ rows') db db' := by
  obtain ⟨gs, n, rfl⟩ := h.tables
  obtain ⟨gs', n', rfl⟩ := h'.tables
  refine ⟨fun j hj => ?_, gs', n', by rw [List.append_assoc]⟩
  rcases List.mem_append.mp hj with hj | hj
  · obtain ⟨r, hr, hid⟩ := h.made j hj
    exact ⟨r, List.mem_append_left _ hr, hid⟩
  · obtain ⟨r, hr, hid⟩ := h'.made j hj
    exact ⟨r, List.mem_append_right _ hr, hid⟩

theorem insertDyn_appends {r : DynEnqueue} {id : Option JobId} (h : insertDyn db r now = .ok (db', id)) :
    ∃ rows, Appends [r] now rows db db' := by
  obtain ⟨db₁, _, hi, hm⟩ := insertDyn_ok h
  obtain ⟨rows, ha, _⟩ := hi.appends
  refine ⟨rows, ?_⟩
  rcases hm with rfl | ⟨key, _, hm⟩
  · exact ha
  · exact ha.materialize hm

theorem enqueueDyn_appends (db : Db) (r : DynEnqueue) (now : ℤ) :
    ∃ rows, Appends [r] now rows db (enqueueDyn db r now).1 := by
  unfold enqueueDyn
  split
  · next h => exact insertDyn_appends h
  · split
    · next h =>
      obtain ⟨rows, ha, _⟩ := (insertRow_ok h).appends
      exact ⟨rows, ha⟩
    · exact ⟨[], .nil _ _ _⟩

theorem insertRows_appends : ∀ {rs : List DynEnqueue} {db db' : Db} {n : Nat},
    insertRows db rs now = .ok (db', n) → ∃ rows, Appends rs now rows db db' ∧ rows.length = n
  | [], _, _, _, h => by cases h; exact ⟨[], .nil _ _ _, rfl⟩
  | r :: rs, _, _, _, h => by
    obtain ⟨⟨db₁, id⟩, hi, h⟩ := bind_eq_ok h
    obtain ⟨⟨db₂, m⟩, hr, h⟩ := bind_eq_ok h
    cases h
    obtain ⟨rows, ha, hn⟩ := (insertRow_ok hi).appends
    obtain ⟨rows', ha', hn'⟩ := insertRows_appends hr
    refine ⟨rows ++ rows', ha.trans ha', ?_⟩
    rw [List.length_append, hn, hn']
    split <;> omega

theorem materializeAll_appends {rs : List DynEnqueue} {rows : List JobRow} : ∀ {keys : List String} {db₁ : Db},
    Appends rs now rows db db₁ → materializeAll db₁ keys now = .ok db' → Appends rs now rows db db'
  | [], _, ha, h => by cases h; exact ha
  | key :: keys, _, ha, h => by
    obtain ⟨db₂, hm, h⟩ := bind_eq_ok h
    exact materializeAll_appends (ha.materialize (materializeFromRule_ok hm)) h

theorem enqueueManyDyn_appends {rs : List DynEnqueue} {n : Nat} (h : enqueueManyDyn db rs now = .ok (db', n)) :
    ∃ rows, Appends rs now rows db db' ∧ rows.length = n := by
  unfold enqueueManyDyn at h
  split at h
  · cases h; exact ⟨[], .nil _ _ _, rfl⟩
  · obtain ⟨_, _, h⟩ := bind_eq_ok h
    obtain ⟨⟨db₁, m⟩, hr, h⟩ := bind_eq_ok h
    obtain ⟨db₂, hm, h⟩ := bind_eq_ok h
    cases h
    obtain ⟨rows, ha, hn⟩ := insertRows_appends hr
    exact ⟨rows, materializeAll_appends ha hm, hn⟩

theorem sqlEnqueue_appends {r : DynEnqueue} (h : sqlEnqueue db r now = .ok db') :
    ∃ rows, Appends [{ r with batchId := none, maxStalledCount := 1 }] now rows db db' := by
  unfold sqlEnqueue at h
  obtain ⟨⟨db₁, id⟩, hi, h⟩ := bind_eq_ok h
  obtain ⟨rows, ha, _⟩ := (insertRow_ok hi).appends
  refine ⟨rows, ?_⟩
  dsimp only at h
  split at h
  · exact ha.materialize (materializeFromRule_ok h)
  · cases h; exact ha

end Eddyq.Pg
