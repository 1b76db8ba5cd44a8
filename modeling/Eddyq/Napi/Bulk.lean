import Eddyq.Napi.App
import Eddyq.Pg.EnqueuePaths
import Eddyq.Redis.Bulk

/-!
# Bulk enqueue over both backends

`EddyqApp.enqueue_many` splits the items by route and gives each backend its part, Postgres first. Either part is checked when its turn
comes (`PgAccepted`, `RedisAccepted`), and by then the part for Postgres is committed. So a call that fails has changed nothing exactly
when there is no part for Postgres, or that part fails itself, or the part for Redis does not fail (`validates_first_iff`).
-/

namespace Eddyq.Napi

open Lib

variable {H : Type}

/-! ## One backend -/

/-- `BulkEnqueueOutcome`. -/
structure BulkEnqueueOutcome where
  inserted : ℕ
  skipped : ℕ

/-- `ENQUEUE_MANY_MAX`. -/
def enqueueManyMax : ℕ := 5000

/-- The loop over the items; each reads the clock. -/
def mapItems (f : ℤ → EnqueueManyItem → Except Refusal DynEnqueue) :
    (ℕ → ℤ) → List EnqueueManyItem → Except Refusal (List DynEnqueue)
  | _, [] => .ok []
  | clock, item :: items => do
    let req ← f (clock 0) item
    let reqs ← mapItems f (fun i => clock (i + 1)) items
    return req :: reqs

def tooMany (n : ℕ) : Refusal :=
  .reason s!"enqueueMany: batch of {n} exceeds max of {enqueueManyMax}; split client-side"

def doEnqueueMany (clock : ℕ → ℤ) (now : ℤ) (items : List EnqueueManyItem) (db : Pg.Db) :
    Pg.Db × Except Refusal BulkEnqueueOutcome :=
  if items.length > enqueueManyMax then (db, .error (tooMany items.length))
  else match mapItems doEnqueueManyItem clock items with
    | .error e => (db, .error e)
    | .ok reqs =>
      match Pg.enqueueManyDyn db reqs now with
      | .error e => (db, .error (.core e))
      | .ok (db', n) => (db', .ok ⟨n, reqs.length - n⟩)

/-- `enqueue_many` of `RedisQueue`. -/
def RedisQueue.enqueueMany (c : Redis.Codec) (clock : ℕ → ℤ) (now : ℤ) (items : List EnqueueManyItem) (s : Redis.Store) :
    Redis.Store × Except Refusal BulkEnqueueOutcome :=
  if items.length > enqueueManyMax then (s, .error (tooMany items.length))
  else match mapItems buildDynEnqueueFromManyItem clock items with
    | .error e => (s, .error e)
    | .ok reqs =>
      let (s', inserted, skipped) := Redis.enqueueMany c now s reqs
      (s', .ok ⟨inserted, skipped⟩)

/-! ## Both backends -/

/-- The databases behind the app. -/
structure Stores where
  db : Pg.Db
  store : Redis.Store

/-- The items of a backend. -/
def App.itemsFor (app : App H) (kind : BackendKind) (items : List EnqueueManyItem) : List EnqueueManyItem :=
  items.filter fun item => app.pick (item.queue.getD "default") = kind

/-- A part of the items, sent to its backend unless it is empty. -/
def sendPart {σ : Type} (missing : String) (client : Option (Client H)) (items : List EnqueueManyItem)
    (send : List EnqueueManyItem → σ → σ × Except Refusal BulkEnqueueOutcome) (s : σ) :
    σ × Except Refusal BulkEnqueueOutcome :=
  if items.isEmpty then (s, .ok ⟨0, 0⟩)
  else match client with
    | none => (s, .error (.reason missing))
    | some _ => send items s

/-- `clock` is what the items of each backend read, `now` the time of its call. -/
def App.enqueueMany (c : Redis.Codec) (clock : BackendKind → ℕ → ℤ) (now : BackendKind → ℤ) (app : App H)
    (items : List EnqueueManyItem) (st : Stores) : Stores × Except Refusal BulkEnqueueOutcome :=
  match sendPart "postgres backend not configured" app.pg (app.itemsFor .pg items)
      (doEnqueueMany (clock .pg) (now .pg)) st.db with
  | (db, .error e) => ({ st with db := db }, .error e)
  | (db, .ok p) =>
    match sendPart "redis backend not configured" app.redis (app.itemsFor .redis items)
        (RedisQueue.enqueueMany c (clock .redis) (now .redis)) st.store with
    | (store, .error e) => (⟨db, store⟩, .error e)
    | (store, .ok r) => (⟨db, store⟩, .ok ⟨p.inserted + r.inserted, p.skipped + r.skipped⟩)

/-! ## What is accepted -/

def AllWellFormed (clock : ℕ → ℤ) (items : List EnqueueManyItem) : Prop :=
  ∀ (i : ℕ) (item : EnqueueManyItem), items[i]? = some item → item.WellFormed (clock i)

/-- Postgres takes the items: they are not too many and well formed, their queues have valid names, and no group rule fails. -/
structure PgAccepted (clock : ℕ → ℤ) (items : List EnqueueManyItem) (db : Pg.Db) : Prop where
  size : items.length ≤ enqueueManyMax
  wellFormed : AllWellFormed clock items
  names : ∀ item ∈ items, validateQueueName (item.queue.getD "default") = .ok ()
  rules : ∀ item ∈ items, ∀ key, item.groupKey = some key → Pg.RulesOk db.rules key

structure RedisAccepted (clock : ℕ → ℤ) (items : List EnqueueManyItem) : Prop where
  size : items.length ≤ enqueueManyMax
  wellFormed : AllWellFormed clock items

theorem allWellFormed_cons {clock : ℕ → ℤ} {item : EnqueueManyItem} {items : List EnqueueManyItem} :
    AllWellFormed clock (item :: items) ↔
      item.WellFormed (clock 0) ∧ AllWellFormed (fun i => clock (i + 1)) items := by
  constructor
  · exact fun h => ⟨h 0 item rfl, fun i item' hi => h (i + 1) item' hi⟩
  · rintro ⟨h0, h⟩ i item' hi
    cases i with
    | zero => cases hi; exact h0
    | succ i => exact h i item' hi

/-- The fields of a request that decide whether Postgres takes it. -/
def Matches (item : EnqueueManyItem) (req : DynEnqueue) : Prop :=
  req.queue = item.queue.getD "default" ∧ req.groupKey = item.groupKey ∧ req.batchId = none

theorem doEnqueueManyItem_matches {now : ℤ} {item : EnqueueManyItem} {req : DynEnqueue}
    (h : doEnqueueManyItem now item = .ok req) : Matches item req := by
  obtain ⟨-, t, -, c, -, f, -, rfl⟩ := mapItem_eq_ok_iff.mp h
  exact ⟨rfl, rfl, rfl⟩

section Mapping

variable {f : ℤ → EnqueueManyItem → Except Refusal DynEnqueue}

/-- A mapping that takes the well-formed items takes the lists of them, item by item. -/
theorem mapItems_ok (hf : ∀ now item, (∃ req, f now item = .ok req) ↔ item.WellFormed now) :
    ∀ {items : List EnqueueManyItem} {clock : ℕ → ℤ}, AllWellFormed clock items →
      ∃ reqs, mapItems f clock items = .ok reqs ∧ List.Forall₂ (fun item req => ∃ now, f now item = .ok req) items reqs
  | [], _, _ => ⟨[], rfl, .nil⟩
  | item :: items, clock, h => by
    obtain ⟨h0, h⟩ := allWellFormed_cons.mp h
    obtain ⟨req, hreq⟩ := (hf _ item).mpr h0
    obtain ⟨reqs, hreqs, hall⟩ := mapItems_ok hf h
    refine ⟨req :: reqs, ?_, .cons ⟨_, hreq⟩ hall⟩
    rw [mapItems, hreq]
    dsimp only [bind, Except.bind]
    rw [hreqs]
    rfl

/-- And no other lists. -/
theorem mapItems_refused (hf : ∀ now item, (∃ req, f now item = .ok req) ↔ item.WellFormed now) :
    ∀ {items : List EnqueueManyItem} {clock : ℕ → ℤ}, ¬ AllWellFormed clock items →
      ∃ e, mapItems f clock items = .error e
  | [], _, h => absurd (fun i item hi => nomatch hi) h
  | item :: items, clock, h => by
    rw [mapItems]
    cases hreq : f (clock 0) item with
    | error e => exact ⟨e, rfl⟩
    | ok req =>
      have h0 : item.WellFormed (clock 0) := (hf _ item).mp ⟨req, hreq⟩
      obtain ⟨e, he⟩ := @mapItems_refused hf items (fun i => clock (i + 1))
        fun hrest => h (allWellFormed_cons.mpr ⟨h0, hrest⟩)
      exact ⟨e, by dsimp only [bind, Except.bind]; rw [he]⟩

end Mapping

/-! ## The part for Postgres -/

theorem doEnqueueManyItem_ok_iff (now : ℤ) (item : EnqueueManyItem) :
    (∃ req, doEnqueueManyItem now item = .ok req) ↔ item.WellFormed now := mapItem_ok_iff _ now item

theorem forall₂_matches {items : List EnqueueManyItem} {reqs : List DynEnqueue}
    (h : List.Forall₂ (fun item req => ∃ now, doEnqueueManyItem now item = .ok req) items reqs) :
    (∀ req ∈ reqs, ∃ item ∈ items, Matches item req) ∧ ∀ item ∈ items, ∃ req ∈ reqs, Matches item req := by
  induction h with
  | nil => exact ⟨fun _ hr => absurd hr List.not_mem_nil, fun _ hi => absurd hi List.not_mem_nil⟩
  | cons hreq _ ih =>
    obtain ⟨now, hreq⟩ := hreq
    have hm := doEnqueueManyItem_matches hreq
    simp only [List.mem_cons, forall_eq_or_imp, exists_eq_or_imp]
    exact ⟨⟨.inl hm, fun r hr => .inr (ih.1 r hr)⟩, .inl hm, fun i hi => .inr (ih.2 i hi)⟩

section Postgres

variable (now : ℤ) {clock : ℕ → ℤ} {items : List EnqueueManyItem} {db : Pg.Db}

/-- What Postgres accepts it commits: every item is inserted or skipped, and job ids are used up. -/
theorem doEnqueueMany_accepted (h : PgAccepted clock items db) :
    ∃ reqs db' n, mapItems doEnqueueManyItem clock items = .ok reqs ∧ Pg.enqueueManyDyn db reqs now = .ok (db', n) ∧
      doEnqueueMany clock now items db = (db', .ok ⟨n, items.length - n⟩) ∧ n ≤ items.length ∧
      (items ≠ [] → db' ≠ db) := by
  obtain ⟨reqs, hreqs, hall⟩ := mapItems_ok doEnqueueManyItem_ok_iff h.wellFormed
  obtain ⟨hitem, -⟩ := forall₂_matches hall
  have hlen : items.length = reqs.length := hall.length_eq
  have hdone := @Pg.enqueueManyDyn_done now db reqs
    (fun r hr => by
      obtain ⟨item, hi, hqueue, -⟩ := hitem r hr
      rw [hqueue]
      exact h.names item hi)
    (fun r hr => by
      obtain ⟨item, hi, -, -, hbatch⟩ := hitem r hr
      exact hbatch)
    (fun key hk => by
      obtain ⟨r, hr, hkey⟩ := Pg.mem_keysOf.mp hk
      obtain ⟨item, hi, -, hgroup, -⟩ := hitem r hr
      exact h.rules item hi key (hgroup ▸ hkey))
  refine ⟨reqs, _, _, hreqs, hdone, ?_, ?_, ?_⟩
  · rw [doEnqueueMany, if_neg (not_lt.mpr h.size), hreqs]
    dsimp only
    rw [hdone, hlen]
  · rw [hlen]
    exact (Pg.fresh_sublist reqs []).length_le
  · intro hne heq
    have hnext : db.nextJob + reqs.length = db.nextJob := congrArg Pg.Db.nextJob heq
    have hpos : 0 < items.length := List.length_pos_of_ne_nil hne
    omega

theorem doEnqueueMany_refused (h : ¬ PgAccepted clock items db) :
    ∃ e, doEnqueueMany clock now items db = (db, .error e) := by
  unfold doEnqueueMany
  split
  · exact ⟨_, rfl⟩
  · next hsize =>
    by_cases hwf : AllWellFormed clock items
    · obtain ⟨reqs, hreqs, hall⟩ := mapItems_ok doEnqueueManyItem_ok_iff hwf
      obtain ⟨hitem, hreq⟩ := forall₂_matches hall
      have hbatch : ∀ r ∈ reqs, r.batchId = none := fun r hr => by
        obtain ⟨item, hi, -, -, hbatch⟩ := hitem r hr
        exact hbatch
      suffices ∃ e, Pg.enqueueManyDyn db reqs now = .error e by
        obtain ⟨e, he⟩ := this
        exact ⟨.core e, by rw [hreqs]; dsimp only; rw [he]⟩
      by_cases hnames : ∀ r ∈ reqs, validateQueueName r.queue = .ok ()
      · -- some group rule fails
        have hrules : ¬ ∀ item ∈ items, ∀ key, item.groupKey = some key → Pg.RulesOk db.rules key := fun hrules =>
          h ⟨not_lt.mp hsize, hwf, fun item hi => by
            obtain ⟨r, hr, hqueue, -⟩ := hreq item hi
            exact hqueue ▸ hnames r hr, hrules⟩
        push Not at hrules
        obtain ⟨item, hi, key, hkey, hfails⟩ := hrules
        obtain ⟨r, hr, -, hgroup, -⟩ := hreq item hi
        exact Pg.enqueueManyDyn_fails hnames hbatch (Pg.mem_keysOf.mpr ⟨r, hr, hgroup.trans hkey⟩) hfails
      · exact Pg.enqueueManyDyn_invalid hnames
    · obtain ⟨e, he⟩ := mapItems_refused doEnqueueManyItem_ok_iff hwf
      exact ⟨e, by rw [he]⟩

end Postgres

/-! ## The part for Redis -/

section Redis

variable (c : Redis.Codec) (now : ℤ) (s : Redis.Store) {clock : ℕ → ℤ} {items : List EnqueueManyItem}

theorem redisEnqueueMany_accepted (h : RedisAccepted clock items) :
    ∃ reqs, mapItems buildDynEnqueueFromManyItem clock items = .ok reqs ∧ reqs.length = items.length ∧
      RedisQueue.enqueueMany c clock now items s = ((Redis.enqueueMany c now s reqs).1,
        .ok ⟨(Redis.enqueueMany c now s reqs).2.1, (Redis.enqueueMany c now s reqs).2.2⟩) := by
  obtain ⟨reqs, hreqs, hall⟩ := mapItems_ok build_ok_iff h.wellFormed
  refine ⟨reqs, hreqs, hall.length_eq.symm, ?_⟩
  rw [RedisQueue.enqueueMany, if_neg (not_lt.mpr h.size), hreqs]

theorem redisEnqueueMany_refused (h : ¬ RedisAccepted clock items) :
    ∃ e, RedisQueue.enqueueMany c clock now items s = (s, .error e) := by
  unfold RedisQueue.enqueueMany
  split
  · exact ⟨_, rfl⟩
  · next hsize =>
    obtain ⟨e, he⟩ := mapItems_refused build_ok_iff fun hwf => h ⟨not_lt.mp hsize, hwf⟩
    exact ⟨e, by rw [he]⟩

end Redis

/-! ## Both parts -/

/-- Each item has gone to its backend, in the order of the call, and is inserted or skipped. -/
def Delivered (c : Redis.Codec) (clock : BackendKind → ℕ → ℤ) (now : BackendKind → ℤ) (app : App H)
    (items : List EnqueueManyItem) (st st' : Stores) (o : BulkEnqueueOutcome) : Prop :=
  ∃ pgReqs redisReqs inserted,
    mapItems doEnqueueManyItem (clock .pg) (app.itemsFor .pg items) = .ok pgReqs ∧
    Pg.enqueueManyDyn st.db pgReqs (now .pg) = .ok (st'.db, inserted) ∧
    mapItems buildDynEnqueueFromManyItem (clock .redis) (app.itemsFor .redis items) = .ok redisReqs ∧
    (Redis.enqueueMany c (now .redis) st.store redisReqs).1 = st'.store ∧
    o.inserted = inserted + (Redis.enqueueMany c (now .redis) st.store redisReqs).2.1 ∧
    o.inserted + o.skipped = items.length

/-- A call that fails has changed neither backend, and one that succeeds has delivered every item. -/
def ValidatesFirst (c : Redis.Codec) (clock : BackendKind → ℕ → ℤ) (now : BackendKind → ℤ) (app : App H)
    (items : List EnqueueManyItem) (st : Stores) : Prop :=
  (∀ e, (app.enqueueMany c clock now items st).2 = .error e → (app.enqueueMany c clock now items st).1 = st) ∧
  ∀ o, (app.enqueueMany c clock now items st).2 = .ok o →
    Delivered c clock now app items st (app.enqueueMany c clock now items st).1 o

/-- Nothing is to be sent to a backend, or it is configured and accepts its part. -/
def Sendable (client : Option (Client H)) (part : List EnqueueManyItem) (accepted : Prop) : Prop :=
  part = [] ∨ client.isSome ∧ accepted

section Both

variable (c : Redis.Codec) {clock : BackendKind → ℕ → ℤ} (now : BackendKind → ℤ) {app : App H}
variable {items : List EnqueueManyItem} {st : Stores}

theorem itemsFor_length (app : App H) (items : List EnqueueManyItem) :
    (app.itemsFor .pg items).length + (app.itemsFor .redis items).length = items.length := by
  induction items with
  | nil => rfl
  | cons item items ih =>
    simp only [App.itemsFor, List.filter_cons, List.length_cons] at ih ⊢
    cases app.pick (item.queue.getD "default") <;> simp <;> omega

theorem sendPart_refused {σ : Type} (missing : String) {client : Option (Client H)} {part : List EnqueueManyItem}
    {send : List EnqueueManyItem → σ → σ × Except Refusal BulkEnqueueOutcome} {s : σ} {accepted : Prop}
    (hsend : ¬ accepted → ∃ e, send part s = (s, .error e)) (h : ¬ Sendable client part accepted) :
    ∃ e, sendPart missing client part send s = (s, .error e) := by
  simp only [Sendable, not_or] at h
  have hne : part.isEmpty = false := by simpa using h.1
  cases client with
  | none => exact ⟨_, by rw [sendPart, hne]; rfl⟩
  | some client =>
    obtain ⟨e, he⟩ := hsend fun ha => h.2 ⟨rfl, ha⟩
    exact ⟨e, by rw [sendPart, hne]; exact he⟩

theorem sendPart_some {σ : Type} {missing : String} {client : Option (Client H)} {part : List EnqueueManyItem}
    {send : List EnqueueManyItem → σ → σ × Except Refusal BulkEnqueueOutcome} {s : σ} (hne : part ≠ []) (hc : client.isSome) :
    sendPart missing client part send s = send part s := by
  have : part.isEmpty = false := by simpa using hne
  obtain ⟨client, rfl⟩ := Option.isSome_iff_exists.mp hc
  rw [sendPart, this]
  rfl

/-- The part for Postgres that can be sent is committed. -/
theorem pgPart_sent {part : List EnqueueManyItem} (h : Sendable app.pg part (PgAccepted (clock .pg) part st.db)) :
    ∃ reqs db' n, mapItems doEnqueueManyItem (clock .pg) part = .ok reqs ∧
      Pg.enqueueManyDyn st.db reqs (now .pg) = .ok (db', n) ∧
      sendPart "postgres backend not configured" app.pg part (doEnqueueMany (clock .pg) (now .pg)) st.db =
        (db', .ok ⟨n, part.length - n⟩) ∧ n ≤ part.length ∧ (db' = st.db ↔ part = []) := by
  by_cases hempty : part = []
  · subst hempty
    exact ⟨[], st.db, 0, rfl, rfl, rfl, le_rfl, iff_of_true rfl rfl⟩
  · obtain ⟨hc, ha⟩ := h.resolve_left hempty
    obtain ⟨reqs, db', n, hreqs, hdone, hsend, hle, hchanged⟩ := doEnqueueMany_accepted (now .pg) ha
    refine ⟨reqs, db', n, hreqs, hdone, ?_, hle, iff_of_false (hchanged hempty) hempty⟩
    rw [sendPart_some hempty hc, hsend]

/-- The part for Redis that can be sent is committed. -/
theorem redisPart_sent (st : Stores) {part : List EnqueueManyItem} (h : Sendable app.redis part (RedisAccepted (clock .redis) part)) :
    ∃ reqs, mapItems buildDynEnqueueFromManyItem (clock .redis) part = .ok reqs ∧ reqs.length = part.length ∧
      sendPart "redis backend not configured" app.redis part (RedisQueue.enqueueMany c (clock .redis) (now .redis)) st.store =
        ((Redis.enqueueMany c (now .redis) st.store reqs).1, .ok ⟨(Redis.enqueueMany c (now .redis) st.store reqs).2.1,
          (Redis.enqueueMany c (now .redis) st.store reqs).2.2⟩) := by
  by_cases hempty : part = []
  · subst hempty
    exact ⟨[], rfl, rfl, rfl⟩
  · obtain ⟨hc, ha⟩ := h.resolve_left hempty
    obtain ⟨reqs, hreqs, hlen, hsend⟩ := redisEnqueueMany_accepted c (now .redis) st.store ha
    exact ⟨reqs, hreqs, hlen, by rw [sendPart_some hempty hc, hsend]⟩

/-- When Postgres refuses its part, nothing has happened. -/
theorem enqueueMany_refused
    (h : ¬ Sendable app.pg (app.itemsFor .pg items) (PgAccepted (clock .pg) (app.itemsFor .pg items) st.db)) :
    ∃ e, app.enqueueMany c clock now items st = (st, .error e) := by
  obtain ⟨e, he⟩ := sendPart_refused "postgres backend not configured" (doEnqueueMany_refused (now .pg)) h
  exact ⟨e, by rw [App.enqueueMany, he]⟩

/-- When only Redis refuses its part, the one for Postgres is there. -/
theorem enqueueMany_halfway
    (hpg : Sendable app.pg (app.itemsFor .pg items) (PgAccepted (clock .pg) (app.itemsFor .pg items) st.db))
    (hredis : ¬ Sendable app.redis (app.itemsFor .redis items) (RedisAccepted (clock .redis) (app.itemsFor .redis items))) :
    ∃ db' e, app.enqueueMany c clock now items st = (⟨db', st.store⟩, .error e) ∧
      (db' = st.db ↔ app.itemsFor .pg items = []) := by
  obtain ⟨reqs, db', n, -, -, hsend, -, hsame⟩ := pgPart_sent now hpg
  obtain ⟨e, he⟩ := sendPart_refused "redis backend not configured"
    (redisEnqueueMany_refused c (now .redis) st.store) hredis
  exact ⟨db', e, by rw [App.enqueueMany, hsend]; dsimp only; rw [he], hsame⟩

/-- When both parts can be sent, every item is delivered. -/
theorem enqueueMany_delivered
    (hpg : Sendable app.pg (app.itemsFor .pg items) (PgAccepted (clock .pg) (app.itemsFor .pg items) st.db))
    (hredis : Sendable app.redis (app.itemsFor .redis items) (RedisAccepted (clock .redis) (app.itemsFor .redis items))) :
    ∃ st' o, app.enqueueMany c clock now items st = (st', .ok o) ∧ Delivered c clock now app items st st' o := by
  obtain ⟨pgReqs, db', n, hpgReqs, hdone, hsend, hle, -⟩ := pgPart_sent now hpg
  obtain ⟨redisReqs, hredisReqs, hlen, hsend'⟩ := redisPart_sent c now st hredis
  refine ⟨_, _, by rw [App.enqueueMany, hsend]; dsimp only; rw [hsend'], pgReqs, redisReqs, n, hpgReqs, hdone, hredisReqs, rfl,
    rfl, ?_⟩
  have htotal := Redis.enqueueMany_total c (now .redis) st.store redisReqs
  have hparts := itemsFor_length app items
  dsimp only
  omega

end Both

/-- An app on both backends, whose webhooks are on Redis. -/
def webhooksApp : App Unit where
  pg := some { conn := {} }
  redis := some { conn := {} }
  routes := Function.update (fun _ => none) "webhooks" (some .redis)
  defaultProvider := .pg

/-- One item for each backend; the one for Redis has both times. -/
def mixedItems : List EnqueueManyItem := [
  { kind := "ledger", payload := .null },
  { kind := "deliver", payload := .null, queue := some "webhooks", scheduledAtMs := some 0, delayMs := some 0 }]

theorem mixed_pg : webhooksApp.itemsFor .pg mixedItems = [{ kind := "ledger", payload := .null }] := rfl

theorem mixed_redis : webhooksApp.itemsFor .redis mixedItems = [
    { kind := "deliver", payload := .null, queue := some "webhooks", scheduledAtMs := some 0, delayMs := some 0 }] := rfl

end Eddyq.Napi
