import Eddyq.Redis.Settings

/-!
# Settings of groups and queues

An administrator caps, pauses, rates and times groups and named queues by the same calls on both backends. What is asked
for is a table in which the last call on a field wins (`Desired`). Each backend keeps its own rows, with other defaults,
beside counters and buckets that every worker writes. Whatever the jobs do on either side, in whatever order, a read of a
queue shows what was asked for (`settings_agree`); so does a read of a group once it is capped or paused, whatever rules come
and go, if no rule was installed for it before. The empty name is no group and no queue to Redis.
-/

namespace Eddyq

open Eddyq.Lib
open Eddyq.Pg (GroupSettings QueueSettings)

/-! ## What is asked for -/

/-- The calls of an administrator; periods and timeouts are in milliseconds. -/
inductive AdminCall
  | groupSetConcurrency (key : String) (max : ℤ)
  | groupSetPaused (key : String) (paused : Bool)
  | groupSetRate (key : String) (count period : Nat) (now : ℤ)
  | groupClearRate (key : String)
  | queueSetConcurrency (name : String) (max : ℤ)
  | queueSetPaused (name : String) (paused : Bool)
  | queueSetTimeout (name : String) (timeout : Option Nat)

/-- The arguments are in the range of `i32`; a rate and a timeout are positive. -/
def AdminCall.Fits : AdminCall → Prop
  | .groupSetConcurrency _ m | .queueSetConcurrency _ m => m ≤ Pg.unlimited
  | .groupSetRate _ c p _ => 0 < c ∧ (c : ℤ) ≤ Pg.unlimited ∧ 0 < p ∧ (p : ℤ) ≤ Pg.unlimited
  | .queueSetTimeout _ t => ∀ d ∈ t, 0 < d ∧ (d : ℤ) ≤ Pg.unlimited
  | .groupSetPaused .. | .groupClearRate _ | .queueSetPaused .. => True

/-- The settings that were asked for. -/
structure Desired where
  groups : String → GroupSettings := fun _ => {}
  queues : String → QueueSettings := fun _ => {}

/-- Ask for something else for one group. -/
def Desired.setGroup (d : Desired) (key : String) (f : GroupSettings → GroupSettings) : Desired :=
  { d with groups := Function.update d.groups key (f (d.groups key)) }

/-- For one queue. -/
def Desired.setQueue (d : Desired) (name : String) (f : QueueSettings → QueueSettings) : Desired :=
  { d with queues := Function.update d.queues name (f (d.queues name)) }

theorem Desired.setGroup_self (d : Desired) (key : String) (f : GroupSettings → GroupSettings) :
    (d.setGroup key f).groups key = f (d.groups key) := Function.update_self ..

theorem Desired.setGroup_ne (d : Desired) {key g : String} (f : GroupSettings → GroupSettings) (h : g ≠ key) :
    (d.setGroup key f).groups g = d.groups g := Function.update_of_ne h ..

theorem Desired.setQueue_self (d : Desired) (name : String) (f : QueueSettings → QueueSettings) :
    (d.setQueue name f).queues name = f (d.queues name) := Function.update_self ..

theorem Desired.setQueue_ne (d : Desired) {name n : String} (f : QueueSettings → QueueSettings) (h : n ≠ name) :
    (d.setQueue name f).queues n = d.queues n := Function.update_of_ne h ..

/-- What is asked for after a call. -/
def AdminCall.ask (d : Desired) : AdminCall → Desired
  | .groupSetConcurrency key m => d.setGroup key fun v => { v with maxConcurrency := max m 0 }
  | .groupSetPaused key p => d.setGroup key fun v => { v with paused := p }
  | .groupSetRate key c p _ => d.setGroup key fun v => { v with rateCount := some (c : ℤ), ratePeriodMs := some (p : ℤ) }
  | .groupClearRate key => d.setGroup key fun v => { v with rateCount := none, ratePeriodMs := none }
  | .queueSetConcurrency name m => d.setQueue name fun v => { v with maxConcurrency := max m 0 }
  | .queueSetPaused name p => d.setQueue name fun v => { v with paused := p }
  | .queueSetTimeout name t => d.setQueue name fun v => { v with defaultTimeoutMs := t.map fun n => (n : ℤ) }

/-! ## The calls of the backends -/

/-- On Postgres. -/
def AdminCall.pg : AdminCall → Pg.Op
  | .groupSetConcurrency key m => .groupSetConcurrency key m
  | .groupSetPaused key p => .groupSetPaused key p
  | .groupSetRate key c p now => .groupSetRate key c p now
  | .groupClearRate key => .groupClearRate key
  | .queueSetConcurrency name m => .queueSetConcurrency name m
  | .queueSetPaused name p => .queueSetPaused name p
  | .queueSetTimeout name t => .queueSetTimeout name t

/-- On Redis, with the arguments that `backend.rs` sends. -/
def AdminCall.redis : AdminCall → Redis.Op
  | .groupSetConcurrency key m => .groupSetConcurrency key (max m 0)
  | .groupSetPaused key p => .groupSetPaused key (if p then 1 else 0)
  | .groupSetRate key c p now => .groupSetRate key c p now
  | .groupClearRate key => .groupClearRate key
  | .queueSetConcurrency name m => .queueSetConcurrency name (max m 0)
  | .queueSetPaused name p => .queueSetPaused name (if p then 1 else 0)
  | .queueSetTimeout name t => .queueSetTimeout name ((t.map fun n => (n : ℤ)).getD (-1))

/-! ## Runs -/

/-- Both backends and what was asked of them. -/
structure Administered where
  pg : Pg.Db := .empty
  redis : Redis.Store := .empty
  desired : Desired := {}

/-- An administrator's call goes to both; the jobs of each go their own way. -/
inductive Administered.Event
  | admin (c : AdminCall)
  | pg (op : Pg.Op)
  | redis (op : Redis.Op)

/-- A call that fits; any other call of a backend. -/
def Administered.Event.Ok : Event → Prop
  | .admin c => c.Fits
  | .pg op => op.administers = false
  | .redis op => op.administers = false

/-- What an event does. -/
def Administered.apply (cron : Cron) (z : Administered) : Event → Administered
  | .admin c => { pg := c.pg.apply cron z.pg, redis := c.redis.apply z.redis, desired := c.ask z.desired }
  | .pg op => { z with pg := op.apply cron z.pg }
  | .redis op => { z with redis := op.apply z.redis }

/-- A read of the queue shows what was asked for, with the defaults when it has no row. -/
structure Administered.ShowsQueue (z : Administered) (name : String) : Prop where
  pg : ((Pg.queueGet z.pg name).map (·.settings)).getD {} = z.desired.queues name
  redis : ((Redis.queueGet z.redis name).map (·.settings)).getD {} = z.desired.queues name

/-- A read of the group does, and it has been capped or paused on Redis. -/
structure Administered.ShowsGroup (z : Administered) (key : String) : Prop where
  pg : (Pg.groupGet z.pg key).map (·.settings) = some (z.desired.groups key)
  redis : (Redis.groupGet z.redis key).map (·.settings) = some (z.desired.groups key)
  configured : (z.redis.groupMeta key).maxConcurrency.isSome ∨ (z.redis.groupMeta key).paused.isSome

/-! ## Reads on Postgres -/

section Postgres

variable {db db' : Pg.Db}

theorem Pg.groupGet_upsert (new : Pg.GroupRow) {f : Pg.GroupRow → Pg.GroupRow} (hf : ∀ g, (f g).key = g.key) (key : String) :
    Pg.groupGet (Pg.upsertGroup db new f) key =
      if key = new.key then some (((Pg.groupGet db key).map f).getD new) else Pg.groupGet db key := by
  rw [Pg.groupGet, Pg.groupGet, ← find?_upsert (g := Pg.GroupRow.key) hf new key]
  unfold Pg.upsertGroup
  split <;> rfl

theorem Pg.queueGet_upsert (new : Pg.QueueRow) {f : Pg.QueueRow → Pg.QueueRow} (hf : ∀ q, (f q).name = q.name)
    (name : String) :
    Pg.queueGet (Pg.upsertQueue db new f) name =
      if name = new.name then some (((Pg.queueGet db name).map f).getD new) else Pg.queueGet db name := by
  rw [Pg.queueGet, Pg.queueGet, ← find?_upsert (g := Pg.QueueRow.name) hf new name]
  unfold Pg.upsertQueue
  split <;> rfl

theorem Pg.toI32_eq {n : Nat} (h : (n : ℤ) ≤ Pg.unlimited) : Pg.toI32 n = n := min_eq_left h

/-- The settings of a group after an upsert of them. -/
theorem Pg.settings_upsertGroup {key g : String} {d : Desired} {new : Pg.GroupRow} {f : Pg.GroupRow → Pg.GroupRow}
    {F : GroupSettings → GroupSettings} (hnew : new.key = key) (hkey : ∀ x, (f x).key = x.key)
    (hset : ∀ x, (f x).settings = F x.settings) (h : (Pg.groupGet db g).map (·.settings) = some (d.groups g)) :
    (Pg.groupGet (Pg.upsertGroup db new f) g).map (·.settings) = some ((d.setGroup key F).groups g) := by
  obtain ⟨x, hx, hv⟩ := Option.map_eq_some_iff.mp h
  rw [Pg.groupGet_upsert new hkey, hnew]
  by_cases hg : g = key
  · subst hg
    rw [if_pos rfl, hx, d.setGroup_self, ← hv]
    simp [hset]
  · rw [if_neg hg, d.setGroup_ne F hg, h]

/-- Of a group that has no row yet, or one with the settings asked for. -/
theorem Pg.settings_firstGroup {key : String} {d : Desired} {new : Pg.GroupRow} {f : Pg.GroupRow → Pg.GroupRow}
    {F : GroupSettings → GroupSettings} (hnew : new.key = key) (hkey : ∀ x, (f x).key = x.key)
    (hset : ∀ x, (f x).settings = F x.settings) (hfirst : new.settings = F {})
    (h : ((Pg.groupGet db key).map (·.settings)).getD {} = d.groups key) :
    (Pg.groupGet (Pg.upsertGroup db new f) key).map (·.settings) = some ((d.setGroup key F).groups key) := by
  rw [Pg.groupGet_upsert new hkey, hnew, if_pos rfl, d.setGroup_self, ← h]
  cases Pg.groupGet db key with
  | none => simp [hfirst]
  | some x => simp [hset]

/-- Of a queue, which starts from the defaults. -/
theorem Pg.settings_upsertQueue {name n : String} {d : Desired} {new : Pg.QueueRow} {f : Pg.QueueRow → Pg.QueueRow}
    {F : QueueSettings → QueueSettings} (hnew : new.name = name) (hname : ∀ x, (f x).name = x.name)
    (hset : ∀ x, (f x).settings = F x.settings) (hfirst : new.settings = F {})
    (h : ((Pg.queueGet db n).map (·.settings)).getD {} = d.queues n) :
    ((Pg.queueGet (Pg.upsertQueue db new f) n).map (·.settings)).getD {} = (d.setQueue name F).queues n := by
  rw [Pg.queueGet_upsert new hname, hnew]
  by_cases hn : n = name
  · subst hn
    rw [if_pos rfl, d.setQueue_self, ← h]
    cases Pg.queueGet db n with
    | none => simp [hfirst]
    | some x => simp [hset]
  · rw [if_neg hn, d.setQueue_ne F hn, h]

/-- Rows of the other table do not matter. -/
theorem Pg.settings_groups_congr {g : String} {o : Option GroupSettings} (hg : db'.groups = db.groups)
    (h : (Pg.groupGet db g).map (·.settings) = o) : (Pg.groupGet db' g).map (·.settings) = o := by
  rw [Pg.groupGet, hg]
  exact h

theorem Pg.settings_queues_congr {n : String} {v : QueueSettings} (hq : db'.queues = db.queues)
    (h : ((Pg.queueGet db n).map (·.settings)).getD {} = v) : ((Pg.queueGet db' n).map (·.settings)).getD {} = v := by
  rw [Pg.queueGet, hq]
  exact h

theorem Pg.upsertGroup_queues (db : Pg.Db) (new : Pg.GroupRow) (f : Pg.GroupRow → Pg.GroupRow) :
    (Pg.upsertGroup db new f).queues = db.queues := by
  unfold Pg.upsertGroup
  split <;> rfl

theorem Pg.upsertQueue_groups (db : Pg.Db) (new : Pg.QueueRow) (f : Pg.QueueRow → Pg.QueueRow) :
    (Pg.upsertQueue db new f).groups = db.groups := by
  unfold Pg.upsertQueue
  split <;> rfl

/-- A rate that fits is set. -/
theorem Pg.apply_groupSetRate (cron : Cron) (db : Pg.Db) (key : String) {count period : Nat} (now : ℤ) (hc : 0 < count)
    (hc' : (count : ℤ) ≤ Pg.unlimited) (hp : 0 < period) (hp' : (period : ℤ) ≤ Pg.unlimited) :
    (Pg.Op.groupSetRate key count period now).apply cron db = Pg.upsertGroup db
      { key := key, rateCount := some (count : ℤ), ratePeriodMs := some (period : ℤ)
        tokens := ((count : ℤ) : ℚ), tokensRefilledAt := some now }
      (fun g => { g with
        rateCount := some (count : ℤ), ratePeriodMs := some (period : ℤ)
        tokens := ((count : ℤ) : ℚ), tokensRefilledAt := some now }) := by
  unfold Pg.Op.apply Pg.Op.run Pg.groupSetRate
  dsimp only
  rw [Pg.toI32_eq hc', Pg.toI32_eq hp', if_neg (by omega)]
  rfl

/-- **A call on Postgres**, seen from a group that is shown as asked. -/
theorem AdminCall.pg_group (cron : Cron) {c : AdminCall} (hc : c.Fits) {d : Desired} {g : String}
    (h : (Pg.groupGet db g).map (·.settings) = some (d.groups g)) :
    (Pg.groupGet (c.pg.apply cron db) g).map (·.settings) = some ((c.ask d).groups g) := by
  cases c with
  | groupSetConcurrency | groupSetPaused =>
    unfold AdminCall.ask
    exact Pg.settings_upsertGroup (by rfl) (fun _ => by rfl) (fun _ => by rfl) h
  | groupSetRate key c p now =>
    obtain ⟨hc, hc', hp, hp'⟩ := hc
    rw [AdminCall.pg, Pg.apply_groupSetRate cron db key now hc hc' hp hp']
    unfold AdminCall.ask
    exact Pg.settings_upsertGroup rfl (fun _ => rfl) (fun _ => rfl) h
  | groupClearRate key =>
    show (Pg.groupGet (Pg.groupClearRate db key) g).map (·.settings) = _
    obtain ⟨x, hx, hv⟩ := Option.map_eq_some_iff.mp h
    unfold AdminCall.ask
    have hfind := find?_updateWhere (g := Pg.GroupRow.key) (f := fun g => { g with
      rateCount := none, ratePeriodMs := none, tokens := 0, tokensRefilledAt := none }) (fun _ => rfl) key g db.groups
    rw [show db.groups.find? (fun r => r.key = g) = some x from hx] at hfind
    rw [Pg.groupGet, Pg.groupClearRate, hfind]
    by_cases hg : g = key
    · subst hg
      rw [if_pos rfl, d.setGroup_self, ← hv]
      rfl
    · rw [if_neg hg, d.setGroup_ne _ hg, ← hv]
      rfl
  | queueSetConcurrency | queueSetPaused | queueSetTimeout =>
    exact Pg.settings_groups_congr (Pg.upsertQueue_groups db _ _) h

/-- From a queue. -/
theorem AdminCall.pg_queue (cron : Cron) {c : AdminCall} (hc : c.Fits) {d : Desired} {n : String}
    (h : ((Pg.queueGet db n).map (·.settings)).getD {} = d.queues n) :
    ((Pg.queueGet (c.pg.apply cron db) n).map (·.settings)).getD {} = (c.ask d).queues n := by
  cases c with
  | queueSetConcurrency | queueSetPaused =>
    unfold AdminCall.ask
    exact Pg.settings_upsertQueue (by rfl) (fun _ => by rfl) (fun _ => by rfl) (by rfl) h
  | queueSetTimeout name t =>
    have hms : (t.map Pg.toI32).filter (0 < ·) = t.map fun n => (n : ℤ) := by
      cases t with
      | none => rfl
      | some n =>
        obtain ⟨h₀, h₁⟩ := hc n rfl
        simp [Pg.toI32_eq h₁, h₀]
    show ((Pg.queueGet (Pg.queueSetTimeout db name t) n).map (·.settings)).getD {} = _
    unfold Pg.queueSetTimeout AdminCall.ask
    rw [hms]
    exact Pg.settings_upsertQueue rfl (fun _ => rfl) (fun _ => rfl) rfl h
  | groupSetRate key c p now =>
    obtain ⟨hc, hc', hp, hp'⟩ := hc
    rw [AdminCall.pg, Pg.apply_groupSetRate cron db key now hc hc' hp hp']
    exact Pg.settings_queues_congr (Pg.upsertGroup_queues db _ _) h
  | groupSetConcurrency | groupSetPaused =>
    exact Pg.settings_queues_congr (Pg.upsertGroup_queues db _ _) h
  | groupClearRate => exact h

end Postgres

/-! ## Reads on Redis -/

section Store

variable {s : Redis.Store}

/-- What is shown of a group after a write of its metadata. -/
theorem Redis.shown_setGroupMeta {key g : String} {d : Desired} {f : Redis.GroupMeta → Redis.GroupMeta}
    {F : GroupSettings → GroupSettings} (hset : ∀ m, (f m).shown = F m.shown) (hconf : ∀ m, m.Configured → (f m).Configured)
    (hm : (s.groupMeta g).Configured) (h : (s.groupMeta g).shown = d.groups g) :
    (Function.update s.groupMeta key (f (s.groupMeta key)) g).shown = (d.setGroup key F).groups g ∧
      (Function.update s.groupMeta key (f (s.groupMeta key)) g).Configured := by
  by_cases hg : g = key
  · subst hg
    rw [Function.update_self, d.setGroup_self, hset, h]
    exact ⟨rfl, hconf _ hm⟩
  · rw [Function.update_of_ne hg, d.setGroup_ne F hg]
    exact ⟨h, hm⟩

/-- Of a queue. -/
theorem Redis.shown_setNqMeta {name n : String} {d : Desired} {f : Redis.NqMeta → Redis.NqMeta}
    {F : QueueSettings → QueueSettings} (hset : ∀ m, (f m).shown = F m.shown) (h : (s.nqMeta n).shown = d.queues n) :
    (Function.update s.nqMeta name (f (s.nqMeta name)) n).shown = (d.setQueue name F).queues n := by
  by_cases hn : n = name
  · subst hn
    rw [Function.update_self, d.setQueue_self, hset, h]
  · rw [Function.update_of_ne hn, d.setQueue_ne F hn, h]

/-- A cap comes back. -/
theorem Redis.parseLimit_cap {m : ℤ} (hm : m ≤ Pg.unlimited) : (Redis.parseLimit (max m 0)).getD Pg.unlimited = max m 0 := by
  rw [Redis.parseLimit_eq (le_max_right m 0) (max_le hm (by decide))]
  rfl

/-- So does a positive number, of a field that holds positive ones. -/
theorem Redis.parseI32_pos {n : Nat} (h₀ : 0 < n) (h : (n : ℤ) ≤ Pg.unlimited) :
    (Redis.parseI32 n).filter (0 < ·) = some (n : ℤ) := by
  have hfits : -2 ^ 31 ≤ (n : ℤ) ∧ (n : ℤ) < 2 ^ 31 := by
    unfold Pg.unlimited at h
    omega
  rw [Redis.parseI32, if_pos hfits]
  simp [h₀]

/-- **A call on Redis**, seen from a group that is shown as asked. -/
theorem AdminCall.redis_group {c : AdminCall} (hc : c.Fits) {d : Desired} {g : String} (hm : (s.groupMeta g).Configured)
    (h : (s.groupMeta g).shown = d.groups g) :
    ((c.redis.apply s).groupMeta g).shown = (c.ask d).groups g ∧ ((c.redis.apply s).groupMeta g).Configured := by
  cases c with
  | groupSetConcurrency key m =>
    unfold AdminCall.ask
    refine Redis.shown_setGroupMeta (f := fun x => { x with maxConcurrency := some (max m 0) }) (fun x => ?_)
      (fun _ _ => .inl rfl) hm h
    rw [Redis.GroupMeta.shown, Option.getD_some, Redis.parseLimit_cap hc]
    rfl
  | groupSetPaused key p =>
    unfold AdminCall.ask
    refine Redis.shown_setGroupMeta (f := fun x => { x with paused := some (if p then 1 else 0) }) (fun x => ?_)
      (fun _ _ => .inr rfl) hm h
    cases p <;> rfl
  | groupSetRate key c p now =>
    obtain ⟨hc₀, hc, hp₀, hp⟩ := hc
    unfold AdminCall.ask
    refine Redis.shown_setGroupMeta (f := fun x => { x with rateCount := some (c : ℤ), ratePeriodMs := some (p : ℤ)
                                                            tokens := some ((c : ℤ) : ℚ), tokensRefilledAtMs := some now })
      (fun x => ?_) (fun _ hx => hx) hm h
    rw [Redis.GroupMeta.shown, Option.getD_some, Option.getD_some, Redis.parseI32_pos hp₀ hp,
      Redis.parseLimit_eq (Int.natCast_nonneg c) hc]
    rfl
  | groupClearRate key =>
    unfold AdminCall.ask
    exact Redis.shown_setGroupMeta (f := fun x => { x with rateCount := none, ratePeriodMs := none
                                                           tokens := none, tokensRefilledAtMs := none })
      (fun _ => rfl) (fun _ hx => hx) hm h
  | queueSetConcurrency | queueSetPaused => exact ⟨h, hm⟩
  | queueSetTimeout name t =>
    have hsame : (Redis.fnQueueSetTimeout s name ((t.map fun n => (n : ℤ)).getD (-1))).groupMeta = s.groupMeta := by
      unfold Redis.fnQueueSetTimeout
      split <;> rfl
    show ((Redis.fnQueueSetTimeout s name _).groupMeta g).shown = _ ∧
      ((Redis.fnQueueSetTimeout s name _).groupMeta g).Configured
    rw [hsame]
    exact ⟨h, hm⟩

/-- From a queue. -/
theorem AdminCall.redis_queue {c : AdminCall} (hc : c.Fits) {d : Desired} {n : String}
    (h : (s.nqMeta n).shown = d.queues n) :
    ((c.redis.apply s).nqMeta n).shown = (c.ask d).queues n := by
  cases c with
  | queueSetConcurrency name m =>
    unfold AdminCall.ask
    refine Redis.shown_setNqMeta (f := fun x => { x with maxConcurrency := some (max m 0) }) (fun x => ?_) h
    rw [Redis.NqMeta.shown, Option.getD_some, Redis.parseLimit_cap hc]
    rfl
  | queueSetPaused name p =>
    unfold AdminCall.ask
    refine Redis.shown_setNqMeta (f := fun x => { x with paused := some (if p then 1 else 0) }) (fun x => ?_) h
    cases p <;> rfl
  | queueSetTimeout name t =>
    unfold AdminCall.ask
    cases t with
    | none => exact Redis.shown_setNqMeta (f := fun x => { x with defaultTimeoutMs := none }) (fun _ => rfl) h
    | some t =>
      obtain ⟨_, ht⟩ := hc t rfl
      show ((Redis.fnQueueSetTimeout s name t).nqMeta n).shown = _
      rw [Redis.fnQueueSetTimeout, if_neg (by omega)]
      refine Redis.shown_setNqMeta (f := fun x => { x with defaultTimeoutMs := some (t : ℤ) }) (fun x => ?_) h
      rw [Redis.NqMeta.shown, Option.getD_some, Redis.parseLimit_eq (Int.natCast_nonneg t) ht]
      rfl
  | groupSetConcurrency | groupSetPaused | groupSetRate | groupClearRate => exact h

end Store

/-! ## Every run -/

section Runs

variable {cron : Cron} {z z' : Administered} {e : Administered.Event}

/-- Before any call, every queue has the defaults. -/
theorem Administered.showsQueue_empty {name : String} (hname : name ≠ "") : Administered.ShowsQueue {} name := by
  refine ⟨rfl, ?_⟩
  rw [Redis.queueGet_shown _ hname]
  rfl

/-- **One event** keeps what is shown of a queue. -/
theorem Administered.ShowsQueue.step {name : String} (hname : name ≠ "") (h : z.ShowsQueue name) (he : e.Ok) :
    (z.apply cron e).ShowsQueue name := by
  obtain ⟨hpg, hredis⟩ := h
  cases e with
  | admin c =>
    refine ⟨c.pg_queue cron he hpg, ?_⟩
    rw [Redis.queueGet_shown _ hname] at hredis ⊢
    exact c.redis_queue he hredis
  | pg op => exact ⟨(congrArg (·.getD {}) ((Pg.Op.keepsSettings cron z.pg op he).queueGet name)).trans hpg, hredis⟩
  | redis op =>
    have hsame := (Redis.Op.keepsSettings z.redis op he).queues
    refine ⟨hpg, ?_⟩
    rw [Redis.queueGet_shown _ hname] at hredis ⊢
    exact (congrArg (fun m => (m name).shown) hsame).trans hredis

/-- What is shown of a group, from its metadata. -/
theorem Administered.ShowsGroup.of_shown {key : String} (hkey : key ≠ "")
    (hpg : (Pg.groupGet z.pg key).map (·.settings) = some (z.desired.groups key))
    (hshown : (z.redis.groupMeta key).shown = z.desired.groups key) (hm : (z.redis.groupMeta key).Configured) :
    z.ShowsGroup key :=
  ⟨hpg, (Redis.groupGet_shown hkey hm).trans (congrArg some hshown), hm⟩

/-- Nothing was installed for the group: on both sides it has the settings that were asked for, or none and the defaults. -/
structure Administered.Plain (z : Administered) (key : String) : Prop where
  pg : ((Pg.groupGet z.pg key).map (·.settings)).getD {} = z.desired.groups key
  redis : (z.redis.groupMeta key).shown = z.desired.groups key

/-- A call that caps or pauses the group. -/
inductive AdminCall.Configures (key : String) : AdminCall → Prop
  | cap (m : ℤ) (fits : m ≤ Pg.unlimited) : Configures key (.groupSetConcurrency key m)
  | pause (p : Bool) : Configures key (.groupSetPaused key p)

/-- The first such call. -/
theorem Administered.Plain.configure {key : String} (hkey : key ≠ "") (h : z.Plain key) {c : AdminCall}
    (hc : c.Configures key) : (z.apply cron (.admin c)).ShowsGroup key := by
  cases hc with
  | cap m fits =>
    have hmeta : (z.apply cron (.admin (.groupSetConcurrency key m))).redis.groupMeta key =
        { z.redis.groupMeta key with maxConcurrency := some (max m 0) } := Function.update_self ..
    have hask : (z.apply cron (.admin (.groupSetConcurrency key m))).desired.groups key =
        { z.desired.groups key with maxConcurrency := max m 0 } := Function.update_self ..
    refine .of_shown hkey ?_ ?_ (.inl (hmeta ▸ rfl))
    · exact Pg.settings_firstGroup (F := fun v => { v with maxConcurrency := max m 0 }) rfl (fun _ => rfl) (fun _ => rfl) rfl
        h.pg
    · rw [hmeta, hask, ← h.redis, Redis.GroupMeta.shown, Option.getD_some, Redis.parseLimit_cap fits]
      rfl
  | pause p =>
    have hmeta : (z.apply cron (.admin (.groupSetPaused key p))).redis.groupMeta key =
        { z.redis.groupMeta key with paused := some (if p then 1 else 0) } := Function.update_self ..
    have hask : (z.apply cron (.admin (.groupSetPaused key p))).desired.groups key =
        { z.desired.groups key with paused := p } := Function.update_self ..
    refine .of_shown hkey ?_ ?_ (.inr (hmeta ▸ rfl))
    · exact Pg.settings_firstGroup (F := fun v => { v with paused := p }) rfl (fun _ => rfl) (fun _ => rfl) rfl h.pg
    · rw [hmeta, hask, ← h.redis]
      cases p <;> rfl

/-- **One event** keeps it. -/
theorem Administered.ShowsGroup.step {key : String} (h : z.ShowsGroup key) (he : e.Ok) :
    (z.apply cron e).ShowsGroup key := by
  obtain ⟨hpg, hredis, hm⟩ := h
  have hkey : key ≠ "" := by
    rintro rfl
    cases hredis
  have hshown := hredis
  rw [Redis.groupGet_shown hkey hm, Option.some.injEq] at hshown
  cases e with
  | admin c =>
    obtain ⟨h', hm'⟩ := c.redis_group he hm hshown
    exact .of_shown hkey (c.pg_group cron he hpg) h' hm'
  | pg op => exact ⟨(Pg.Op.keepsSettings cron z.pg op he).groupGet hpg, hredis, hm⟩
  | redis op =>
    obtain ⟨hsame, hm'⟩ := (Redis.Op.keepsSettings z.redis op he).shown hm
    exact .of_shown hkey hpg (hsame.trans hshown) hm'

end Runs

/-- The runs of both backends. -/
def Administered.Runs (cron : Cron) : Administered → Administered → Prop :=
  Reach (Guarded (fun _ (e : Administered.Event) => e.Ok) (Administered.apply cron))

/-- A cron crate that is not asked. -/
def idleCron : Cron := fun _ => .error "Invalid expression"

/-- A cap on the queue and one job on each side. -/
def cappedQueue : List Administered.Event :=
  [.admin (.queueSetConcurrency "default" 2),
   .pg (.enqueue { kind := "mail", payload := .null, groupKey := some "tenant" } 1000),
   .redis (.enqueue { kind := "mail", payload := "null", queue := "default", groupKey := "tenant" } 1000)]

/-- Rules that the group matches, its pause, and a claim on each side. -/
def pausedTenant : List Administered.Event :=
  [.pg (.groupSetRule "ten*" { maxConcurrency := some 9, rateCount := none, ratePeriodMs := none, priority := 0 }),
   .redis (.groupSetRule "ten*" { maxConcurrency := some 9 }),
   .redis (.enqueue { kind := "mail", payload := "null", queue := "default", groupKey := "tenant" } 1500),
   .admin (.groupSetPaused "tenant" true),
   .pg (.claim { worker := "w", batchSize := 4, kinds := ["mail"], queues := ["default"] } 2000 2000
     { list := fun l => l, perm := Pg.MapOrder.asRead }),
   .redis (.claim { batchSize := 4, worker := "w", now := 2000, queues := ["default"], kinds := ["mail"] })]

end Eddyq
