import Eddyq.Lib.Rows
import Eddyq.Napi.App

/-!
# The bootstrap of the module over both backends

The bootstrap collects the queues that the application registered and the handlers of its processors, reconciles the schedules
with each backend, and tells the app which queues to take jobs from. It routes the schedules with a table of its own, built from
the same options as the one inside the app.

The two tables agree where the options are well formed (`routes_agree`), so that every declared schedule is reconciled, once and
in order, with the backend that its queue routes to; and where the options name no queues, that backend's worker takes the jobs
of each registered queue (`bootstrap_routed`).
-/

namespace Eddyq.Nest

open Lib Napi

/-! ## What is registered -/

/-- A declared schedule: its queue, and the rest of it. -/
structure ScheduleDeclaration (S : Type) where
  queue : Option String
  body : S

structure QueueRegistration (S : Type) where
  name : String
  schedules : List (ScheduleDeclaration S) := []
  subscribe : Option Bool := none

/-- A provider: its token, where that is a string, with what there is of its instance: a registration, a queue handle, or a processor
with the kinds of its methods. -/
structure InstanceWrapper (S H : Type) where
  name : Option String
  registration : Option (QueueRegistration S) := none
  instantiated : Bool := true
  isProcessor : Bool := false
  methods : List (Option String × H) := []

def getQueueRegistrationToken (name : String) : String := "EDDYQ_QUEUE_REGISTRATION:" ++ name

def getQueueToken (name : String) : String := "EDDYQ_QUEUE:" ++ name

section Discovery

variable {S H : Type}

/-- The registration that the aggregator sees in a provider. -/
def InstanceWrapper.registered (w : InstanceWrapper S H) : Option (QueueRegistration S) :=
  match w.name with
  | some token => if "EDDYQ_QUEUE_REGISTRATION:".toList.isPrefixOf token.toList then w.registration else none
  | none => none

/-- The loop of `collect`; `seen` are the names so far. -/
def collectLoop (providers : List (InstanceWrapper S H)) : List (InstanceWrapper S H) → List String →
    Except String (List (QueueRegistration S))
  | [], _ => .ok []
  | w :: ws, seen =>
    match w.registered with
    | none => collectLoop providers ws seen
    | some reg =>
      if reg.name ∈ seen then
        .error (s!"@eddyq/nestjs: duplicate registerQueue for \"{reg.name}\". " ++
          "Each queue name may be registered only once per app.")
      else if (providers.find? fun w => w.name = some (getQueueToken reg.name)).elim true (!·.instantiated) then
        .error (s!"@eddyq/nestjs: queue handle for \"{reg.name}\" was not instantiated. " ++
          "This is a bug — please report it.")
      else do
        let rest ← collectLoop providers ws (reg.name :: seen)
        .ok (reg :: rest)

/-- `EddyqQueueAggregator.collect`. -/
def collect (providers : List (InstanceWrapper S H)) : Except String (List (QueueRegistration S)) :=
  collectLoop providers providers []

/-- The methods of the processors, in order. -/
def processorMethods (providers : List (InstanceWrapper S H)) : List (Option String × H) :=
  (providers.filter fun w => w.instantiated && w.isProcessor).flatMap (·.methods)

/-- The loop of `discover`; a method without a kind is none of it. -/
def discoverLoop : List (Option String × H) → List String → Except String (List (String × H))
  | [], _ => .ok []
  | (kind, handler) :: methods, seen =>
    match kind.filter (· ≠ "") with
    | none => discoverLoop methods seen
    | some kind =>
      if kind ∈ seen then
        .error (s!"@eddyq/nestjs: duplicate @JobHandler for kind {kind.quote}" ++
          " — only one processor method may handle a given kind.")
      else do
        let rest ← discoverLoop methods (kind :: seen)
        .ok ((kind, handler) :: rest)

/-- `EddyqExplorer.discover`. -/
def discover (providers : List (InstanceWrapper S H)) : Except String (List (String × H)) :=
  discoverLoop (processorMethods providers) []

end Discovery

/-! ## The options -/

/-- `EddyqModuleOptions` with both backends; a backend is what its connection will know. -/
structure EddyqModuleOptions (S : Type) where
  postgres : Connection
  redis : Connection
  queues : List Route := []
  defaultProvider : Option String
  schedules : Option (List (ScheduleDeclaration S)) := none
  subscribeTo : Option (List String) := none
  workerConcurrency : Option ℕ := none

section Bootstrap

variable {S H : Type}

/-- What the instance provider connects the app with. -/
def EddyqModuleOptions.appConfig (options : EddyqModuleOptions S) : Except String AppConfig :=
  match options.defaultProvider.filter (· ≠ "") with
  | none =>
    .error ("@eddyq/nestjs: forRoot with both backends requires `defaultProvider` " ++ "('postgres' | 'redis')")
  | some provider =>
    .ok { postgres := some options.postgres, redis := some options.redis, queues := options.queues,
          defaultProvider := some provider }

/-! ## The bootstrap -/

/-- The schedules of the registered queues; one without a queue is for the queue it is registered with. -/
def perQueueSchedules (aggregated : List (QueueRegistration S)) : List (ScheduleDeclaration S) :=
  aggregated.flatMap fun r => r.schedules.map fun s => { s with queue := some (s.queue.getD r.name) }

/-- All declared schedules, or none if nothing is to be reconciled. -/
def combined (options : EddyqModuleOptions S) (aggregated : List (QueueRegistration S)) :
    Option (List (ScheduleDeclaration S)) :=
  if options.schedules.isSome ∨ 0 < (perQueueSchedules aggregated).length then
    some (options.schedules.getD [] ++ perQueueSchedules aggregated)
  else none

/-- The table of the bootstrap. -/
def routeMap (routes : List Route) : String → Option String :=
  routes.foldl (fun table r => Function.update table r.name (some r.provider)) fun _ => none

/-- The provider of a schedule. -/
def providerOf (options : EddyqModuleOptions S) (s : ScheduleDeclaration S) : Option String :=
  (routeMap options.queues (s.queue.getD "default")).or options.defaultProvider

/-- The two groups. There is no third: a push to one throws. -/
def groupLoop (options : EddyqModuleOptions S) : List (ScheduleDeclaration S) →
    (List (ScheduleDeclaration S) × List (ScheduleDeclaration S)) →
    Except String (List (ScheduleDeclaration S) × List (ScheduleDeclaration S))
  | [], groups => .ok groups
  | s :: rest, (postgres, redis) =>
    match providerOf options s with
    | some "postgres" => groupLoop options rest (postgres ++ [s], redis)
    | some "redis" => groupLoop options rest (postgres, redis ++ [s])
    | _ => .error "Cannot read properties of undefined (reading 'push')"

/-- What is reconciled, and with which backend. -/
def syncs (options : EddyqModuleOptions S) (aggregated : List (QueueRegistration S)) :
    Except String (List (BackendKind × List (ScheduleDeclaration S))) :=
  match combined options aggregated with
  | none => .ok []
  | some schedules => do
    let (postgres, redis) ← groupLoop options schedules ([], [])
    .ok ((if postgres.isEmpty then [] else [(.pg, postgres)]) ++ if redis.isEmpty then [] else [(.redis, redis)])

/-- The queues the app is told. -/
def subscribeTo (options : EddyqModuleOptions S) (aggregated : List (QueueRegistration S)) : Option (List String) :=
  match options.subscribeTo with
  | some queues => some queues
  | none =>
    if 0 < aggregated.length then some ((aggregated.filter (·.subscribe ≠ some false)).map (·.name)) else none

/-- What the bootstrap has done before it starts the worker: the reconciliations, and the calls on the app. -/
structure Boot (S H : Type) where
  synced : List (BackendKind × List (ScheduleDeclaration S))
  calls : List (AppCall H)

/-- `onApplicationBootstrap` up to the start. -/
def bootstrap (options : EddyqModuleOptions S) (providers : List (InstanceWrapper S H)) : Except String (Boot S H) := do
  let aggregated ← collect providers
  let synced ← syncs options aggregated
  let handlers ← discover providers
  .ok
    { synced := synced
      calls := handlers.map (fun h => .work h.1 h.2) ++ (options.workerConcurrency.map .setWorkerConcurrency).toList ++
        ((subscribeTo options aggregated).map .subscribeTo).toList }

/-! ## The two routing tables -/

/-- Where one table has a provider, the other has the backend that it stands for. -/
def Agree (table : String → Option String) (routes : String → Option BackendKind) : Prop :=
  ∀ q, (table q).map parseProvider = (routes q).map Except.ok

theorem Agree.update {table : String → Option String} {routes : String → Option BackendKind} (h : Agree table routes) {r : Route}
    {kind : BackendKind} (hkind : parseProvider r.provider = .ok kind) :
    Agree (Function.update table r.name (some r.provider)) (Function.update routes r.name (some kind)) := by
  intro q
  by_cases hq : q = r.name
  · subst hq
    rw [Function.update_self, Function.update_self]
    exact congrArg some hkind
  · rw [Function.update_of_ne hq, Function.update_of_ne hq]
    exact h q

/-- The table of the bootstrap has what the app has. -/
theorem routes_agree {config : AppConfig} : ∀ {rs : List Route} {table : String → Option String}
    {routes routes' : String → Option BackendKind}, Agree table routes → routesLoop config rs routes = .ok routes' →
      Agree (rs.foldl (fun table r => Function.update table r.name (some r.provider)) table) routes'
  | [], _, _, _, hagree, h => Except.ok.inj h ▸ hagree
  | r :: rs, table, routes, routes', hagree, h => by
    rw [routesLoop] at h
    obtain ⟨kind, hkind, h⟩ := bind_eq_ok h
    split at h
    · cases h
    · split at h
      · cases h
      · rw [List.foldl_cons]
        exact routes_agree (hagree.update hkind) h

theorem both_default {app : App H} {f : BackendKind → Client H → Worker H × Except Refusal Unit} :
    (app.both f).1.defaultProvider = app.defaultProvider := by
  unfold App.both
  split <;> rfl

variable {dial : BackendKind → Except Refusal Unit} {config : AppConfig} {app : App H}

theorem connect_default (h : App.connect dial config = .ok app) : config.pickDefault = .ok app.defaultProvider := by
  unfold App.connect at h
  split at h
  · cases h
  · obtain ⟨routes, -, h⟩ := bind_eq_ok h
    obtain ⟨defaultProvider, hdefault, h⟩ := bind_eq_ok h
    obtain ⟨pg, -, h⟩ := bind_eq_ok h
    obtain ⟨redis, -, h⟩ := bind_eq_ok h
    dsimp only at h
    split at h
    · cases h
    · next app' heq =>
      obtain rfl := Except.ok.inj h
      rw [hdefault, ← show _ = app'.defaultProvider from congrArg (fun r => r.1.defaultProvider) heq, App.handOut, both_default]

variable {options : EddyqModuleOptions S}

theorem appConfig_spec (h : options.appConfig = .ok config) :
    config.queues = options.queues ∧ config.defaultProvider = options.defaultProvider ∧ options.defaultProvider.isSome ∧
      ∀ kind, (config.connection kind).isSome := by
  unfold EddyqModuleOptions.appConfig at h
  split at h
  · cases h
  · next provider hprovider =>
    obtain ⟨hsome, -⟩ := Option.filter_eq_some_iff.mp hprovider
    obtain rfl := Except.ok.inj h
    refine ⟨rfl, hsome.symm, by rw [hsome]; rfl, fun kind => ?_⟩
    cases kind <;> rfl

/-- The bootstrap sends a schedule where the app sends the jobs of its queue. -/
theorem providerOf_pick (hconfig : options.appConfig = .ok config) (hconn : App.connect dial config = .ok app)
    {s : ScheduleDeclaration S} {provider : String} (h : providerOf options s = some provider) :
    parseProvider provider = .ok (app.pick (s.queue.getD "default")) := by
  obtain ⟨hqueues, hdefault, -, -⟩ := appConfig_spec hconfig
  have hagree : Agree (routeMap options.queues) app.routes := by
    rw [← hqueues]
    exact routes_agree (fun _ => rfl) (connect_spec hconn).1
  have hq := hagree (s.queue.getD "default")
  unfold providerOf at h
  unfold App.pick
  cases htable : routeMap options.queues (s.queue.getD "default") with
  | some p =>
    rw [htable, Option.some_or] at h
    cases h
    rw [htable] at hq
    cases hroutes : app.routes (s.queue.getD "default") with
    | none => simp [hroutes] at hq
    | some kind =>
      rw [hroutes] at hq
      exact Option.some.inj hq
  | none =>
    rw [htable, Option.none_or] at h
    rw [htable] at hq
    cases hroutes : app.routes (s.queue.getD "default") with
    | some kind => simp [hroutes] at hq
    | none =>
      have hpick := connect_default hconn
      unfold AppConfig.pickDefault at hpick
      rw [hdefault, h] at hpick
      exact hpick

/-! ## The reconciliations -/

/-- The schedules whose queue routes to a backend. -/
def routedTo (app : App H) (kind : BackendKind) (schedules : List (ScheduleDeclaration S)) : List (ScheduleDeclaration S) :=
  schedules.filter fun s => app.pick (s.queue.getD "default") = kind

theorem groupLoop_spec (hconfig : options.appConfig = .ok config) (hconn : App.connect dial config = .ok app) :
    ∀ {schedules : List (ScheduleDeclaration S)} {postgres redis : List (ScheduleDeclaration S)}
      {groups : List (ScheduleDeclaration S) × List (ScheduleDeclaration S)},
      groupLoop options schedules (postgres, redis) = .ok groups →
        groups = (postgres ++ routedTo app .pg schedules, redis ++ routedTo app .redis schedules)
  | [], postgres, redis, groups, h => by
    obtain rfl := Except.ok.inj h
    simp [routedTo]
  | s :: schedules, postgres, redis, groups, h => by
    rw [groupLoop] at h
    split at h
    · next hprovider =>
      have hpick := Except.ok.inj (providerOf_pick hconfig hconn hprovider)
      rw [groupLoop_spec hconfig hconn h]
      simp [routedTo, ← hpick]
    · next hprovider =>
      have hpick := Except.ok.inj (providerOf_pick hconfig hconn hprovider)
      rw [groupLoop_spec hconfig hconn h]
      simp [routedTo, ← hpick]
    · cases h

/-- Each backend that some schedule is for is reconciled once, with all of these. -/
theorem syncs_spec (hconfig : options.appConfig = .ok config) (hconn : App.connect dial config = .ok app)
    {aggregated : List (QueueRegistration S)} {synced : List (BackendKind × List (ScheduleDeclaration S))}
    (h : syncs options aggregated = .ok synced) :
    synced = ([.pg, .redis].map fun kind => (kind, routedTo app kind ((combined options aggregated).getD []))).filter
      fun part => !part.2.isEmpty := by
  unfold syncs at h
  split at h
  · next hnone =>
    obtain rfl := Except.ok.inj h
    rw [hnone]
    rfl
  · next schedules hsome =>
    obtain ⟨groups, hgroups, h⟩ := bind_eq_ok h
    rw [groupLoop_spec hconfig hconn hgroups] at h
    obtain rfl := Except.ok.inj h
    rw [hsome, Option.getD_some, List.nil_append, List.nil_append]
    cases hpg : (routedTo app .pg schedules).isEmpty <;> cases hredis : (routedTo app .redis schedules).isEmpty <;>
      simp [hpg, hredis]

/-! ## The queues that are collected, and the calls on the app -/

theorem collectLoop_nodup {providers : List (InstanceWrapper S H)} : ∀ {ws : List (InstanceWrapper S H)} {seen : List String}
    {aggregated : List (QueueRegistration S)}, collectLoop providers ws seen = .ok aggregated →
      (aggregated.map (·.name)).Nodup ∧ ∀ r ∈ aggregated, r.name ∉ seen
  | [], seen, aggregated, h => by
    obtain rfl := Except.ok.inj h
    exact ⟨List.nodup_nil, fun r hr => absurd hr List.not_mem_nil⟩
  | w :: ws, seen, aggregated, h => by
    rw [collectLoop] at h
    split at h
    · exact collectLoop_nodup h
    · next reg hreg =>
      split at h
      · cases h
      · next hseen =>
        split at h
        · cases h
        · obtain ⟨rest, hrest, h⟩ := bind_eq_ok h
          obtain rfl := Except.ok.inj h
          obtain ⟨hnodup, hnot⟩ := collectLoop_nodup hrest
          constructor
          · rw [List.map_cons, List.nodup_cons]
            refine ⟨fun hmem => ?_, hnodup⟩
            obtain ⟨r, hr, hname⟩ := List.mem_map.mp hmem
            exact hnot r hr (hname ▸ List.mem_cons_self)
          · intro r hr
            rcases List.mem_cons.mp hr with rfl | hr
            · exact hseen
            · exact fun hmem => hnot r hr (List.mem_cons_of_mem _ hmem)

/-- A call that names queues of a backend last leaves it with these. -/
theorem latest_last (parts : List (List String)) (held : Option (List String)) {part : List String} (h : part ≠ []) :
    (parts ++ [part]).foldl latest held = some part := by
  rw [List.foldl_append, List.foldl_cons, List.foldl_nil, latest, if_neg (by simpa using h)]

/-- The worker of a backend that is configured takes the queues named last. -/
theorem run_subscriptions (hconn : App.connect dial config = .ok app) (calls : List (AppCall H)) {queues : List String}
    {q : String} (hq : q ∈ queues) (hconfigured : (config.connection (app.pick q)).isSome) :
    q ∈ (app.run (calls ++ [.subscribeTo queues])).subscriptions (app.pick q) := by
  obtain ⟨-, hsome, hholds⟩ := connect_spec hconn
  have hmem : q ∈ queues.filter (app.pick · = app.pick q) := by simpa using hq
  have hrun := run_holds hholds (calls ++ [.subscribeTo queues]) (app.pick q)
  simp only [List.map_append, List.map_cons, List.map_nil] at hrun
  have hlast := latest_last (calls.map (·.part app.pick (app.pick q))) (latest none (config.declared (app.pick q)))
    (List.ne_nil_of_mem hmem)
  obtain ⟨c, hc⟩ : ∃ c, (app.run (calls ++ [.subscribeTo queues])).client (app.pick q) = some c := by
    rw [← Option.isSome_iff_exists, run_isSome, hsome]
    exact hconfigured
  obtain ⟨hs, n, hw⟩ := hrun c hc
  rw [show AppCall.part app.pick (app.pick q) (.subscribeTo queues : AppCall H) = queues.filter (app.pick · = app.pick q) from rfl,
    hlast] at hw
  have hne := List.ne_nil_of_mem hmem
  simp only [App.subscriptions, hc, Option.elim_some, Worker.subscriptions, hw]
  simpa [subscribed, hne] using hq

/-! ## What it gives -/

/-- The schedules and the queues of a bootstrap go where the app routes them. -/
structure Boot.Routed (options : EddyqModuleOptions S) (aggregated : List (QueueRegistration S)) (app : App H) (boot : Boot S H) :
    Prop where
  /-- Each backend is reconciled once with the schedules whose queue routes to it, and not at all if there are none. -/
  synced : boot.synced =
    ([.pg, .redis].map fun kind => (kind, routedTo app kind ((combined options aggregated).getD []))).filter fun part =>
      !part.2.isEmpty
  /-- A schedule that a queue is registered with is reconciled with the backend of that queue. -/
  registered : ∀ r ∈ aggregated, ∀ s ∈ r.schedules, s.queue = none →
    ∃ part, (app.pick r.name, part) ∈ boot.synced ∧ { s with queue := some r.name } ∈ part
  /-- And that backend's worker takes its jobs. -/
  subscribed : options.subscribeTo = none → ∀ r ∈ aggregated, r.subscribe ≠ some false →
    r.name ∈ (app.run boot.calls).subscriptions (app.pick r.name)

theorem bootstrap_routed {providers : List (InstanceWrapper S H)} {boot : Boot S H} (hconfig : options.appConfig = .ok config)
    (hconn : App.connect dial config = .ok app) (hboot : bootstrap options providers = .ok boot) :
    ∃ aggregated, collect providers = .ok aggregated ∧ (aggregated.map (·.name)).Nodup ∧ boot.Routed options aggregated app := by
  unfold bootstrap at hboot
  obtain ⟨aggregated, hcollect, hboot⟩ := bind_eq_ok hboot
  obtain ⟨synced, hsyncs, hboot⟩ := bind_eq_ok hboot
  obtain ⟨handlers, -, hboot⟩ := bind_eq_ok hboot
  obtain rfl := Except.ok.inj hboot
  have hsynced := syncs_spec hconfig hconn hsyncs
  refine ⟨aggregated, hcollect, (collectLoop_nodup hcollect).1, hsynced, fun r hr s hs hqueue => ?_, fun hoptions r hr hsub => ?_⟩
  · have hmem : { s with queue := some r.name } ∈ perQueueSchedules aggregated :=
      List.mem_flatMap.mpr ⟨r, hr, List.mem_map.mpr ⟨s, hs, by rw [hqueue]; rfl⟩⟩
    have hcombined : combined options aggregated =
        some (options.schedules.getD [] ++ perQueueSchedules aggregated) :=
      if_pos (.inr (List.length_pos_of_mem hmem))
    have hrouted : { s with queue := some r.name } ∈
        routedTo app (app.pick r.name) ((combined options aggregated).getD []) := by
      rw [hcombined, Option.getD_some]
      exact List.mem_filter.mpr ⟨List.mem_append_right _ hmem, by simp⟩
    refine ⟨_, ?_, hrouted⟩
    rw [hsynced]
    refine List.mem_filter.mpr ⟨List.mem_map.mpr ⟨app.pick r.name, ?_, rfl⟩, by simpa using List.ne_nil_of_mem hrouted⟩
    cases app.pick r.name <;> simp
  · have hnames : r.name ∈ (aggregated.filter (·.subscribe ≠ some false)).map (·.name) :=
      List.mem_map.mpr ⟨r, List.mem_filter.mpr ⟨hr, by simpa using hsub⟩, rfl⟩
    have hsubscribe : subscribeTo options aggregated = some ((aggregated.filter (·.subscribe ≠ some false)).map (·.name)) := by
      unfold subscribeTo
      rw [hoptions]
      exact if_pos (List.length_pos_of_mem hr)
    rw [hsubscribe]
    exact run_subscriptions hconn _ hnames ((appConfig_spec hconfig).2.2.2 _)

end Bootstrap

/-- Both backends, Redis by default. -/
def digestOptions : EddyqModuleOptions String where
  postgres := {}
  redis := {}
  defaultProvider := some "redis"

/-- One registered queue with a schedule, and its handle. -/
def digestProviders : List (InstanceWrapper String Unit) :=
  [{ name := some (getQueueRegistrationToken "digests"),
     registration := some { name := "digests", schedules := [{ queue := none, body := "daily" }] } },
    { name := some (getQueueToken "digests") }]

def digestConfig : AppConfig where
  postgres := some {}
  redis := some {}
  queues := []
  defaultProvider := some "redis"

def digestApp : App Unit where
  pg := some { conn := {} }
  redis := some { conn := {} }
  routes := fun _ => none
  defaultProvider := .redis

def digestBoot : Boot String Unit where
  synced := [(.redis, [{ queue := some "digests", body := "daily" }])]
  calls := [.subscribeTo ["digests"]]

theorem digestOptions_config : digestOptions.appConfig = .ok digestConfig := rfl

theorem digestApp_connected : App.connect (fun _ => .ok ()) digestConfig = .ok digestApp := rfl

theorem digestBoot_eq : bootstrap digestOptions digestProviders = .ok digestBoot := by rfl

theorem bootstrap_routed_digests :
    ∃ aggregated, collect digestProviders = .ok aggregated ∧ (aggregated.map (·.name)).Nodup ∧
      digestBoot.Routed digestOptions aggregated digestApp :=
  bootstrap_routed digestOptions_config digestApp_connected digestBoot_eq

end Eddyq.Nest
