import Eddyq.Napi.Workers
import Mathlib.Data.List.Induction

/-!
# The app over both backends

`EddyqApp` routes each queue to Postgres or Redis, and hands every backend the queues that are its own. A call of `subscribe_to`
splits its list by route; the setter of the backend stores the part it is given in place of the list it had, unless the part is
empty. What a backend is subscribed to at the start is thus the last part that was not empty, of the declared queues or of a call
(`run_holds`), and a queue that was declared or named is among them exactly when it is in that part and its backend is
configured (`subscribed_iff`).
-/

namespace Eddyq.Napi

open Lib

variable {H : Type}

/-! ## Configuration -/

def parseProvider (s : String) : Except Refusal BackendKind :=
  match s with
  | "postgres" => .ok .pg
  | "pg" => .ok .pg
  | "redis" => .ok .redis
  | other => .error (.reason s!"unknown provider {other.quote} — expected 'postgres' or 'redis'")

/-- `EddyqAppQueueRoute`. -/
structure Route where
  name : String
  provider : String

/-- `EddyqAppConfig`; a backend is what its connection will know. -/
structure AppConfig where
  postgres : Option Connection
  redis : Option Connection
  queues : List Route
  defaultProvider : Option String

/-- A backend of the app, `Queue` or `RedisQueue`. -/
structure Client (H : Type) where
  conn : Connection
  worker : Worker H := {}

/-- `EddyqApp`. -/
structure App (H : Type) where
  pg : Option (Client H)
  redis : Option (Client H)
  routes : String → Option BackendKind
  defaultProvider : BackendKind

def App.client (app : App H) : BackendKind → Option (Client H)
  | .pg => app.pg
  | .redis => app.redis

def App.pick (app : App H) (queueName : String) : BackendKind := (app.routes queueName).getD app.defaultProvider

/-- The loop that builds the routing table. -/
def routesLoop (config : AppConfig) :
    List Route → (String → Option BackendKind) → Except Refusal (String → Option BackendKind)
  | [], routes => .ok routes
  | r :: rs, routes => do
    let kind ← parseProvider r.provider
    if kind = .pg ∧ config.postgres.isNone then
      .error (.reason s!"queue {r.name.quote} routes to 'postgres' but no postgres config provided")
    else if kind = .redis ∧ config.redis.isNone then
      .error (.reason s!"queue {r.name.quote} routes to 'redis' but no redis config provided")
    else routesLoop config rs (Function.update routes r.name (some kind))

def AppConfig.pickDefault (config : AppConfig) : Except Refusal BackendKind :=
  match config.defaultProvider with
  | some s => parseProvider s
  | none =>
    if config.postgres.isSome ∧ config.redis.isNone then .ok .pg
    else if config.redis.isSome ∧ config.postgres.isNone then .ok .redis
    else .error (.reason "EddyqApp.connect: both backends configured — set `defaultProvider`")

/-- A call on one backend, if it is there. -/
def Client.on (f : Client H → Worker H × Except Refusal Unit) : Option (Client H) → Option (Client H) × Except Refusal Unit
  | none => (none, .ok ())
  | some c => (some { c with worker := (f c).1 }, (f c).2)

/-- A call on both backends, Postgres first; an error ends it. -/
def App.both (f : BackendKind → Client H → Worker H × Except Refusal Unit) (app : App H) : App H × Except Refusal Unit :=
  match Client.on (f .pg) app.pg with
  | (pg, .error e) => ({ app with pg := pg }, .error e)
  | (pg, .ok ()) =>
    let (redis, result) := Client.on (f .redis) app.redis
    ({ app with pg := pg, redis := redis }, result)

/-- Each backend gets its part of a list of queues, unless that is empty. -/
def App.handOut (part : BackendKind → List String) (app : App H) : App H × Except Refusal Unit :=
  app.both fun kind c =>
    if (part kind).isEmpty then (c.worker, .ok ()) else c.worker.subscribeTo (messages kind) (part kind)

/-- The declared queues of a backend. -/
def AppConfig.declared (config : AppConfig) (kind : BackendKind) : List String :=
  (config.queues.filter fun r => match parseProvider r.provider with
    | .ok k => k == kind
    | .error _ => false).map (·.name)

/-- `connect`; `dial` is what becomes of the two connections. -/
def App.connect (dial : BackendKind → Except Refusal Unit) (config : AppConfig) : Except Refusal (App H) :=
  if config.postgres.isNone ∧ config.redis.isNone then
    .error (.reason "EddyqApp.connect: at least one of `postgres` or `redis` must be set")
  else do
    let routes ← routesLoop config config.queues fun _ => none
    let defaultProvider ← config.pickDefault
    let pg ← config.postgres.mapM fun conn => (dial .pg).map fun _ => { conn := conn }
    let redis ← config.redis.mapM fun conn => (dial .redis).map fun _ => { conn := conn }
    let app : App H := { pg := pg, redis := redis, routes := routes, defaultProvider := defaultProvider }
    match app.handOut config.declared with
    | (_, .error e) => .error e
    | (app, .ok ()) => .ok app

/-! ## Calls before the start -/

/-- The list is split by route. -/
def App.subscribeTo (queues : List String) (app : App H) : App H × Except Refusal Unit :=
  app.handOut fun kind => queues.filter (app.pick · = kind)

/-- A call on the app before it starts. -/
inductive AppCall (H : Type)
  | work (kind : String) (handler : H)
  | setWorkerConcurrency (n : ℕ)
  | subscribeTo (queues : List String)

def App.call (app : App H) : AppCall H → App H × Except Refusal Unit
  | .work kind handler => app.both fun b c => c.worker.registerHandlerArc (messages b) kind handler
  | .setWorkerConcurrency n => app.both fun b c => c.worker.setWorkerConcurrency (messages b) n
  | .subscribeTo queues => app.subscribeTo queues

def App.run (app : App H) (calls : List (AppCall H)) : App H := calls.foldl (fun a c => (a.call c).1) app

def App.start (options : Option StartOptions) (status : Except Error (List MigrationStatus)) (app : App H) :
    App H × Except Refusal Unit :=
  app.both fun b c => c.worker.call b c.conn (.start options status)

/-- The queues that a start of the worker subscribes to. -/
def Worker.subscriptions (w : Worker H) : List String :=
  match w.state with
  | .building _ _ qs => subscribed qs
  | _ => []

def App.subscriptions (app : App H) (kind : BackendKind) : List String :=
  (app.client kind).elim [] (·.worker.subscriptions)

/-! ## Calls on both backends -/

section Both

variable {app : App H} {f : BackendKind → Client H → Worker H × Except Refusal Unit}

theorem both_routes : (app.both f).1.routes = app.routes := by
  unfold App.both
  split <;> rfl

theorem both_pick (q : String) : (app.both f).1.pick q = app.pick q := by
  unfold App.both
  split <;> rfl

theorem on_isSome (g : Client H → Worker H × Except Refusal Unit) (client : Option (Client H)) :
    (Client.on g client).1.isSome = client.isSome := by
  cases client <;> rfl

/-- No call makes a backend come or go. -/
theorem both_isSome (kind : BackendKind) : ((app.both f).1.client kind).isSome = (app.client kind).isSome := by
  unfold App.both
  split
  · next pg e hpg =>
    cases kind with
    | pg => exact (congrArg (fun r => r.1.isSome) hpg).symm.trans (on_isSome (f .pg) app.pg)
    | redis => rfl
  · next pg hpg =>
    cases kind with
    | pg => exact (congrArg (fun r => r.1.isSome) hpg).symm.trans (on_isSome (f .pg) app.pg)
    | redis => exact on_isSome (f .redis) app.redis

theorem on_ok {g : Client H → Worker H × Except Refusal Unit} {client : Option (Client H)}
    (h : ∀ c, client = some c → (g c).2 = .ok ()) :
    Client.on g client = (client.map fun c => { c with worker := (g c).1 }, .ok ()) := by
  cases client with
  | none => rfl
  | some c => exact Prod.ext rfl (h c rfl)

/-- A call that no backend refuses is made on each that is there. -/
theorem both_ok (h : ∀ kind c, app.client kind = some c → (f kind c).2 = .ok ()) :
    (app.both f).2 = .ok () ∧
      ∀ kind, (app.both f).1.client kind = (app.client kind).map fun c => { c with worker := (f kind c).1 } := by
  have hpg := on_ok (h .pg)
  have hredis := on_ok (h .redis)
  dsimp only [App.client] at hpg hredis
  rw [App.both, hpg]
  dsimp only
  rw [hredis]
  refine ⟨rfl, fun kind => ?_⟩
  cases kind <;> rfl

/-- A call that succeeds was refused by no backend. -/
theorem both_eq_ok (h : (app.both f).2 = .ok ()) {kind : BackendKind} {c : Client H} (hc : app.client kind = some c) :
    (f kind c).2 = .ok () := by
  obtain ⟨pg, redis, routes, defaultProvider⟩ := app
  unfold App.both at h
  split at h
  · cases h
  · next hpg =>
    cases kind with
    | pg =>
      cases hc
      exact congrArg Prod.snd hpg
    | redis =>
      cases hc
      exact h

end Both

/-! ## What the backends are told -/

/-- What the setter of a backend holds after it was handed a part. -/
def latest (held : Option (List String)) (part : List String) : Option (List String) :=
  if part.isEmpty then held else some part

/-- After the parts in order: the last that is not empty. -/
def standing (parts : List (List String)) : Option (List String) := parts.foldl latest none

theorem standing_eq (parts : List (List String)) : standing parts = (parts.filter (!·.isEmpty)).getLast? := by
  induction parts using List.reverseRecOn with
  | nil => rfl
  | append_singleton parts part ih =>
    rw [standing, List.foldl_append, ← standing, ih]
    by_cases h : part.isEmpty <;> simp [latest, h]

theorem mem_standing {parts : List (List String)} {part : List String} (h : standing parts = some part) :
    part ∈ parts ∧ part ≠ [] := by
  rw [standing_eq] at h
  simpa using List.mem_filter.mp (List.mem_of_getLast? h)

/-- A queue in one of the parts leaves something standing. -/
theorem standing_isSome {parts : List (List String)} {part : List String} {q : String} (hp : part ∈ parts) (hq : q ∈ part) :
    ∃ p, standing parts = some p := by
  have hmem : part ∈ parts.filter (!·.isEmpty) := List.mem_filter.mpr ⟨hp, by simpa using List.ne_nil_of_mem hq⟩
  rw [standing_eq]
  exact Option.ne_none_iff_exists'.mp fun h => List.ne_nil_of_mem hmem (List.getLast?_eq_none_iff.mp h)

/-- The part of a call that goes to a backend. -/
def AppCall.part (pick : String → BackendKind) (kind : BackendKind) : AppCall H → List String
  | .subscribeTo queues => queues.filter (pick · = kind)
  | _ => []

/-- Every worker is still being built, and holds these queues. -/
def App.Holds (app : App H) (held : BackendKind → Option (List String)) : Prop :=
  ∀ kind c, app.client kind = some c → ∃ hs n, c.worker.state = .building hs n (held kind)

theorem registerHandlerArc_building (m : Messages) (kind : String) (handler : H) {w : Worker H} {hs : List (String × H)}
    {n : Option ℕ} {qs : Option (List String)} (hw : w.state = .building hs n qs) :
    (w.registerHandlerArc m kind handler).2 = .ok () ∧
      (w.registerHandlerArc m kind handler).1.state = .building (hs ++ [(kind, handler)]) n qs := by
  simp [Worker.registerHandlerArc, hw]

theorem setWorkerConcurrency_building (m : Messages) (k : ℕ) {w : Worker H} {hs : List (String × H)} {n : Option ℕ}
    {qs : Option (List String)} (hw : w.state = .building hs n qs) :
    (w.setWorkerConcurrency m k).2 = .ok () ∧
      (w.setWorkerConcurrency m k).1.state = .building hs (some (max k 1)) qs := by
  simp [Worker.setWorkerConcurrency, hw]

theorem subscribeTo_building (m : Messages) (queues : List String) {w : Worker H} {hs : List (String × H)} {n : Option ℕ}
    {qs : Option (List String)} (hw : w.state = .building hs n qs) :
    (w.subscribeTo m queues).2 = .ok () ∧ (w.subscribeTo m queues).1.state = .building hs n (some queues) := by
  simp [Worker.subscribeTo, hw]

section Holds

variable {app : App H} {held : BackendKind → Option (List String)}

/-- A call that every building worker takes, and after which it holds these queues. -/
theorem both_holds {f : BackendKind → Client H → Worker H × Except Refusal Unit} {held' : BackendKind → Option (List String)}
    (h : app.Holds held)
    (hf : ∀ kind c hs n, c.worker.state = .building hs n (held kind) →
      (f kind c).2 = .ok () ∧ ∃ hs' n', (f kind c).1.state = .building hs' n' (held' kind)) :
    (app.both f).2 = .ok () ∧ (app.both f).1.Holds held' := by
  obtain ⟨hok, hclient⟩ := both_ok (f := f) fun kind c hc => by
    obtain ⟨hs, n, hw⟩ := h kind c hc
    exact (hf kind c hs n hw).1
  refine ⟨hok, fun kind c' hc' => ?_⟩
  rw [hclient, Option.map_eq_some_iff] at hc'
  obtain ⟨c, hc, rfl⟩ := hc'
  obtain ⟨hs, n, hw⟩ := h kind c hc
  exact (hf kind c hs n hw).2

theorem handOut_holds (h : app.Holds held) (part : BackendKind → List String) :
    (app.handOut part).2 = .ok () ∧ (app.handOut part).1.Holds fun kind => latest (held kind) (part kind) := by
  refine both_holds h fun kind c hs n hw => ?_
  unfold latest
  split
  · exact ⟨rfl, hs, n, hw⟩
  · have := subscribeTo_building (messages kind) (part kind) hw
    exact ⟨this.1, hs, n, this.2⟩

/-- One call: each backend is told its part. -/
theorem call_holds (h : app.Holds held) (call : AppCall H) :
    (app.call call).1.Holds fun kind => latest (held kind) (call.part app.pick kind) := by
  cases call with
  | work kind handler =>
    refine (both_holds h fun b c hs n hw => ?_).2
    have := registerHandlerArc_building (messages b) kind handler hw
    exact ⟨this.1, _, _, this.2⟩
  | setWorkerConcurrency k =>
    refine (both_holds h fun b c hs n hw => ?_).2
    have := setWorkerConcurrency_building (messages b) k hw
    exact ⟨this.1, _, _, this.2⟩
  | subscribeTo queues => exact (handOut_holds h _).2

theorem call_pick (call : AppCall H) (q : String) : (app.call call).1.pick q = app.pick q := by
  cases call <;> exact both_pick q

theorem run_pick (calls : List (AppCall H)) (q : String) : (app.run calls).pick q = app.pick q := by
  induction calls using List.reverseRecOn with
  | nil => rfl
  | append_singleton calls call ih =>
    rw [App.run, List.foldl_append]
    exact (call_pick call q).trans ih

theorem run_isSome (calls : List (AppCall H)) (kind : BackendKind) :
    ((app.run calls).client kind).isSome = (app.client kind).isSome := by
  induction calls using List.reverseRecOn with
  | nil => rfl
  | append_singleton calls call ih =>
    rw [App.run, List.foldl_append, ← ih]
    cases call <;> exact both_isSome kind

/-- All calls: the parts that a backend is told come in order. -/
theorem run_holds (h : app.Holds held) (calls : List (AppCall H)) :
    (app.run calls).Holds fun kind => (calls.map (·.part app.pick kind)).foldl latest (held kind) := by
  induction calls using List.reverseRecOn with
  | nil => exact h
  | append_singleton calls call ih =>
    have hpick : (app.run calls).pick = app.pick := funext (run_pick calls)
    have hcall := call_holds ih call
    rw [hpick] at hcall
    simpa [App.run] using hcall

end Holds

/-! ## The app that `connect` makes -/

def AppConfig.connection (config : AppConfig) : BackendKind → Option Connection
  | .pg => config.postgres
  | .redis => config.redis

/-- A table routes a name that is not in the list as it did before. -/
theorem routesLoop_other {config : AppConfig} {q : String} : ∀ {rs : List Route} {routes routes' : String → Option BackendKind},
    routesLoop config rs routes = .ok routes' → q ∉ rs.map (·.name) → routes' q = routes q
  | [], _, _, h, _ => by rw [← Except.ok.inj h]
  | r :: rs, routes, routes', h, hq => by
    rw [routesLoop] at h
    obtain ⟨kind, -, h⟩ := bind_eq_ok h
    split at h
    · cases h
    · split at h
      · cases h
      · simp only [List.map_cons, List.mem_cons, not_or] at hq
        rw [routesLoop_other h hq.2, Function.update_of_ne hq.1]

/-- It routes a name in the list as one of its entries does. -/
theorem routesLoop_mem {config : AppConfig} {q : String} : ∀ {rs : List Route} {routes routes' : String → Option BackendKind},
    routesLoop config rs routes = .ok routes' → q ∈ rs.map (·.name) →
      ∃ r ∈ rs, r.name = q ∧ ∃ kind, parseProvider r.provider = .ok kind ∧ routes' q = some kind
  | [], _, _, _, hq => absurd hq List.not_mem_nil
  | r :: rs, routes, routes', h, hq => by
    rw [routesLoop] at h
    obtain ⟨kind, hkind, h⟩ := bind_eq_ok h
    split at h
    · cases h
    · split at h
      · cases h
      · by_cases hrest : q ∈ rs.map (·.name)
        · obtain ⟨r', hr', hentry⟩ := routesLoop_mem h hrest
          exact ⟨r', List.mem_cons_of_mem _ hr', hentry⟩
        · have hname : q = r.name := by simpa [hrest] using hq
          refine ⟨r, List.mem_cons_self, hname.symm, kind, hkind, ?_⟩
          rw [routesLoop_other h hrest, hname, Function.update_self]

/-- A backend is connected when it is configured, with a worker that has no handlers. -/
theorem dialed {dialed : Except Refusal Unit} {conn : Option Connection} {client : Option (Client H)}
    (h : conn.mapM (fun conn => dialed.map fun _ => { conn := conn }) = .ok client) :
    client.isSome = conn.isSome ∧ ∀ c, client = some c → c.worker = {} := by
  cases conn with
  | none =>
    cases Except.ok.inj h
    exact ⟨rfl, fun c hc => nomatch hc⟩
  | some conn =>
    cases dialed with
    | error e => cases h
    | ok u =>
      cases Except.ok.inj h
      exact ⟨rfl, fun c hc => by cases hc; rfl⟩

variable {dial : BackendKind → Except Refusal Unit} {config : AppConfig} {app : App H}

/-- What `connect` makes: the routes of the table, a client for each backend that is configured, told its declared queues. -/
theorem connect_spec (h : App.connect dial config = .ok app) :
    routesLoop config config.queues (fun _ => none) = .ok app.routes ∧
      (∀ kind, (app.client kind).isSome = (config.connection kind).isSome) ∧
      app.Holds fun kind => latest none (config.declared kind) := by
  unfold App.connect at h
  split at h
  · cases h
  · obtain ⟨routes, hroutes, h⟩ := bind_eq_ok h
    obtain ⟨defaultProvider, -, h⟩ := bind_eq_ok h
    obtain ⟨pg, hpg, h⟩ := bind_eq_ok h
    obtain ⟨redis, hredis, h⟩ := bind_eq_ok h
    dsimp only at h
    have hinit : App.Holds ⟨pg, redis, routes, defaultProvider⟩ (fun _ => (none : Option (List String))) := by
      intro kind c hc
      have hworker : c.worker = {} := by
        cases kind with
        | pg => exact (dialed hpg).2 c hc
        | redis => exact (dialed hredis).2 c hc
      exact ⟨[], none, by rw [hworker]⟩
    obtain ⟨hok, hholds⟩ := handOut_holds hinit config.declared
    have hsome : ∀ kind, ((App.handOut config.declared ⟨pg, redis, routes, defaultProvider⟩).1.client kind).isSome =
        (config.connection kind).isSome := by
      intro kind
      rw [App.handOut, both_isSome]
      cases kind with
      | pg => exact (dialed hpg).1
      | redis => exact (dialed hredis).1
    split at h
    · next heq =>
      rw [heq] at hok
      cases hok
    · next app' heq =>
      obtain rfl := Except.ok.inj h
      rw [heq] at hholds hsome
      refine ⟨?_, hsome, hholds⟩
      rw [hroutes, ← show _ = app'.routes from congrArg (fun r => r.1.routes) heq, App.handOut, both_routes]

/-! ## Which queues are subscribed to -/

/-- The queue was declared, or named in a call. -/
def Named (config : AppConfig) (calls : List (AppCall H)) (q : String) : Prop :=
  q ∈ config.queues.map (·.name) ∨ ∃ queues, AppCall.subscribeTo queues ∈ calls ∧ q ∈ queues

/-- The parts of a backend, in order: its declared queues, and what each call has for it. -/
def parts (config : AppConfig) (app : App H) (calls : List (AppCall H)) (kind : BackendKind) : List (List String) :=
  config.declared kind :: calls.map (·.part app.pick kind)

/-- A queue that was declared or named is in a part of the backend that it routes to. -/
theorem named_part (h : App.connect dial config = .ok app) {calls : List (AppCall H)} {q : String}
    (hq : Named config calls q) : ∃ part ∈ parts config app calls (app.pick q), q ∈ part := by
  rcases hq with hdeclared | ⟨queues, hcall, hq⟩
  · obtain ⟨r, hr, hname, kind, hkind, hroute⟩ := routesLoop_mem (connect_spec h).1 hdeclared
    refine ⟨_, List.mem_cons_self, ?_⟩
    have hpick : app.pick q = kind := by simp [App.pick, hroute]
    exact List.mem_map.mpr ⟨r, List.mem_filter.mpr ⟨hr, by simp [hkind, hpick]⟩, hname⟩
  · refine ⟨_, List.mem_cons_of_mem _ (List.mem_map_of_mem hcall), ?_⟩
    simpa [AppCall.part] using hq

/-- A queue that was declared or named is among the subscriptions of the backend it routes to exactly when that backend is configured
and the last part it was told, of those that are not empty, has the queue; and a start of the app subscribes to just these. -/
theorem subscribed_iff (h : App.connect dial config = .ok app) (calls : List (AppCall H)) {q : String}
    (hq : Named config calls q) :
    (q ∈ (app.run calls).subscriptions (app.pick q) ↔
      (config.connection (app.pick q)).isSome ∧
        ∃ part, ((parts config app calls (app.pick q)).filter (!·.isEmpty)).getLast? = some part ∧ q ∈ part) ∧
    ∀ options status, ((app.run calls).start options status).2 = .ok () →
      ∀ c, ((app.run calls).start options status).1.client (app.pick q) = some c →
        ∃ i core, c.worker.state = .running i ∧ c.worker.queues[i]? = some core ∧
          core.queues = (app.run calls).subscriptions (app.pick q) := by
  obtain ⟨-, hsome, hholds⟩ := connect_spec h
  have hrun : (app.run calls).Holds fun kind => standing (parts config app calls kind) := run_holds hholds calls
  obtain ⟨named, hnamed, hqnamed⟩ := named_part h hq
  obtain ⟨part, hpart⟩ := standing_isSome hnamed hqnamed
  have hlast : ((parts config app calls (app.pick q)).filter (!·.isEmpty)).getLast? = some part := by
    rw [← standing_eq, hpart]
  constructor
  · rw [← hsome, ← run_isSome calls, hlast]
    cases hc : (app.run calls).client (app.pick q) with
    | none => simp [App.subscriptions, hc]
    | some c =>
      obtain ⟨hs, n, hw⟩ := hrun _ c hc
      have hsub : (app.run calls).subscriptions (app.pick q) = part := by
        simp [App.subscriptions, hc, Worker.subscriptions, hw, hpart, subscribed, (mem_standing hpart).2]
      simp [hsub]
  · intro options status hok c' hc'
    have hclient := (both_ok fun kind c hc => both_eq_ok hok hc).2 (app.pick q)
    rw [App.start, hclient, Option.map_eq_some_iff] at hc'
    obtain ⟨c, hc, rfl⟩ := hc'
    obtain ⟨hs, n, hw⟩ := hrun _ c hc
    obtain ⟨i, core, hi, hcore, hqueues⟩ := start_subscribed hw (both_eq_ok hok hc)
    refine ⟨i, core, hi, hcore, hqueues.trans ?_⟩
    simp [App.subscriptions, hc, Worker.subscriptions, hw]

/-- Postgres alone, with one declared queue. -/
def invoicesConfig : AppConfig where
  postgres := some {}
  redis := none
  queues := [⟨"invoices", "postgres"⟩]
  defaultProvider := none

def invoicesApp : App Unit where
  pg := some { conn := {}, worker := { state := .building [] none (some ["invoices"]) } }
  redis := none
  routes := Function.update (fun _ => none) "invoices" (some .pg)
  defaultProvider := .pg

theorem invoicesApp_connected : App.connect (fun _ => .ok ()) invoicesConfig = .ok invoicesApp := rfl

theorem subscribed_later : "reports" ∈ (invoicesApp.run [.subscribeTo ["reports"]]).subscriptions .pg :=
  (subscribed_iff invoicesApp_connected [.subscribeTo ["reports"]] (.inr ⟨["reports"], by simp⟩)).1.mpr
    ⟨rfl, ["reports"], by decide, by simp⟩

/-- The later call takes the declared queue out. -/
theorem declared_replaced :
    ¬ ∀ (dial : BackendKind → Except Refusal Unit) (config : AppConfig) (app : App Unit) (calls : List (AppCall Unit)) (q : String),
      App.connect dial config = .ok app → Named config calls q → q ∈ (app.run calls).subscriptions (app.pick q) := by
  intro h
  have := h _ invoicesConfig invoicesApp [.subscribeTo ["reports"]] "invoices" invoicesApp_connected (.inl (by decide))
  exact absurd this (by decide)

end Eddyq.Napi
