import Eddyq.Redis.Ticks
import Eddyq.Redis.System

/-!
# The keys of the schedules agree

A schedule is described by three keys. The admin functions rewrite one name in all of them (`Writes`), and so keep them
in agreement. A fire puts its name into `schedules:next` without a look at `enabled`: it keeps the agreement exactly when
the schedule is gone or enabled (`fire_agree_iff`), and a fire that comes after the schedule was disabled leaves a
disabled schedule that is due (`late_fire_disagrees`).
-/

namespace Eddyq.Redis

open Eddyq.Lib

/-- What `schedules:next` has for an entry. -/
def ScheduleEntry.score? (e : ScheduleEntry) : Option ℤ := if e.enabled = 1 then some e.nextRunAtMs else none

/-- `schedules:idx` holds the names of the HASH. -/
def Store.Indexed (s : Store) : Prop := ∀ n, n ∈ s.schedulesIdx ↔ (s.schedule? n).isSome

/-- `schedules:idx` holds the names of the HASH, and `schedules:next` those that are enabled, each with its next run. -/
structure Store.SchedulesAgree (s : Store) : Prop where
  idx : s.Indexed
  next : ∀ n, s.schedulesNext.score? n = (s.schedule? n).bind ScheduleEntry.score?

/-! ## Writes to one name -/

/-- One name is rewritten in the three keys: the entry, whether it is in the index, and the score. -/
structure Writes (name : String) (e : Option ScheduleEntry) (sc : Option ℤ) (s s' : Store) : Prop where
  entry : ∀ n, s'.schedule? n = if n = name then e else s.schedule? n
  idx : ∀ n, n ∈ s'.schedulesIdx ↔ if n = name then e.isSome = true else n ∈ s.schedulesIdx
  score : ∀ n, s'.schedulesNext.score? n = if n = name then sc else s.schedulesNext.score? n

variable {s s' : Store} {name : String} {e : Option ScheduleEntry} {sc : Option ℤ}

theorem Writes.indexed (w : Writes name e sc s s') (h : s.Indexed) : s'.Indexed := by
  intro n
  rw [w.idx, w.entry]
  split
  · exact Iff.rfl
  · exact h n

/-- A write keeps the agreement when the score it leaves is the entry's. -/
theorem Writes.agree_iff (w : Writes name e sc s s') (h : s.SchedulesAgree) :
    s'.SchedulesAgree ↔ sc = e.bind ScheduleEntry.score? := by
  constructor
  · intro h'
    have hn := h'.next name
    rw [w.score, w.entry, if_pos rfl, if_pos rfl] at hn
    exact hn
  · intro hsc
    refine ⟨w.indexed h.idx, fun n => ?_⟩
    rw [w.score, w.entry]
    split
    · exact hsc
    · exact h.next n

theorem mem_idx_of_isSome (h : s.Indexed) {n : String} {x : ScheduleEntry} (hx : s.schedule? n = some x) :
    n ∈ s.schedulesIdx := by
  rw [h, hx]
  rfl

/-! ## The functions -/

/-- The entry of an upsert. -/
def UpsertArgs.entry (a : UpsertArgs) (lastRun : ℤ) : ScheduleEntry :=
  { cron := a.cron, kind := a.kind, payload := a.payload, priority := a.priority, maxAttempts := a.maxAttempts
    queue := a.queue, enabled := a.enabled, lastRunAtMs := lastRun, nextRunAtMs := a.nextRun, intervalMs := a.intervalMs }

/-- The last run that survives an upsert. -/
def Store.lastRun (s : Store) (name : String) : ℤ := ((s.schedule? name).map (·.lastRunAtMs)).getD 0

theorem fnScheduleUpsert_writes (s : Store) (a : UpsertArgs) :
    Writes a.name (some (a.entry (s.lastRun a.name))) (if a.enabled = 1 then some a.nextRun else none) s
      (fnScheduleUpsert s a) := by
  generalize hx : a.entry (s.lastRun a.name) = x
  have heq : fnScheduleUpsert s a =
      if a.enabled = 1 then
        { s.setSchedule a.name x with
          schedulesIdx := (s.setSchedule a.name x).schedulesIdx.insert a.name
          schedulesNext := (s.setSchedule a.name x).schedulesNext.add a.nextRun a.name }
      else
        { s.setSchedule a.name x with
          schedulesIdx := (s.setSchedule a.name x).schedulesIdx.insert a.name
          schedulesNext := (s.setSchedule a.name x).schedulesNext.rem a.name } := by
    rw [← hx]
    rfl
  obtain ⟨l, hl⟩ := setSchedule_eq s a.name x
  have hset := schedule?_setSchedule s a.name
  rw [heq]
  have hidx : ∀ n, n ∈ (s.setSchedule a.name x).schedulesIdx.insert a.name ↔
      if n = a.name then (some x).isSome = true else n ∈ s.schedulesIdx := by
    intro n
    rw [hl, List.mem_insert_iff]
    split
    · next hn => simp [hn]
    · next hn => simp [hn]
  split
  · refine ⟨fun n => hset n x, hidx, fun n => ?_⟩
    rw [ZSet.score?_add, hl]
  · refine ⟨fun n => hset n x, hidx, fun n => ?_⟩
    rw [ZSet.score?_rem, hl]

theorem fnScheduleRemove_writes (s : Store) (name : String) : Writes name none none s (fnScheduleRemove s name).1 := by
  refine ⟨fun n => ?_, fun n => ?_, fun n => ZSet.score?_rem _ _ _⟩
  · unfold fnScheduleRemove Store.schedule?
    rw [List.find?_filter]
    split
    · next hn =>
      subst hn
      rw [Option.map_eq_none_iff, List.find?_eq_none]
      intro x _ hx
      simp at hx
    · next hn =>
      congr 2
      funext x
      by_cases hx : x.1 = n
      · simp [hx, hn]
      · simp [hx]
  · unfold fnScheduleRemove
    split
    · next hn => simp [hn]
    · next hn => simp [hn]

/-- The entry after `eddyq_schedule_set_enabled`: enabling writes the next run. -/
def ScheduleEntry.setEnabled (x : ScheduleEntry) (enabled next : ℤ) : ScheduleEntry :=
  if enabled = 1 then { x with enabled := enabled, nextRunAtMs := next } else { x with enabled := enabled }

theorem ScheduleEntry.enabled_setEnabled (x : ScheduleEntry) (enabled next : ℤ) :
    (x.setEnabled enabled next).enabled = enabled := by
  unfold ScheduleEntry.setEnabled
  split <;> rfl

/-- The flag of a schedule that is not there. -/
theorem fnScheduleSetEnabled_none (hx : s.schedule? name = none) (enabled next : ℤ) :
    (fnScheduleSetEnabled s name enabled next).1 = s := by
  unfold fnScheduleSetEnabled
  rw [hx]

theorem fnScheduleSetEnabled_writes {x : ScheduleEntry} (h : s.Indexed) (hx : s.schedule? name = some x)
    (enabled next : ℤ) : Writes name (some (x.setEnabled enabled next)) (if enabled = 1 then some next else none) s
      (fnScheduleSetEnabled s name enabled next).1 := by
  have hidx : ∀ n, n ∈ s.schedulesIdx ↔ if n = name then (true : Bool) = true else n ∈ s.schedulesIdx := by
    intro n
    split
    · next hn =>
      subst hn
      simp [mem_idx_of_isSome h hx]
    · exact Iff.rfl
  -- the entry and the score are written to different keys
  have hset : ∀ (z : ZSet String) (x' : ScheduleEntry) (sc : Option ℤ),
      (∀ n, z.score? n = if n = name then sc else s.schedulesNext.score? n) →
        Writes name (some x') sc s ((Store.setSchedule { s with schedulesNext := z } name x')) := by
    intro z x' sc hz
    obtain ⟨l, hl⟩ := setSchedule_eq { s with schedulesNext := z } name x'
    refine ⟨fun n => ?_, fun n => ?_, fun n => ?_⟩
    · rw [schedule?_setSchedule]
      rfl
    · rw [hl]
      exact hidx n
    · rw [hl]
      exact hz n
  unfold fnScheduleSetEnabled ScheduleEntry.setEnabled
  rw [hx]
  dsimp only
  split
  · exact hset _ _ _ (fun n => ZSet.score?_add _ _ _ _)
  · exact hset _ _ _ (fun n => ZSet.score?_rem _ _ _)

theorem insertJob_schedulesIdx (s : Store) (a : EnqueueArgs) (id : JobId) (now : ℤ) :
    (insertJob s a id now).schedulesIdx = s.schedulesIdx := by
  unfold insertJob
  dsimp only
  generalize hs₁ : ({ ((s.hset id (a.toHash id now)).sadd (.queueset a.queue) id).sadd (.kindset a.kind) id with
    queuesSeen := _ } : Store) = s₁
  have h₁ : s₁.schedulesIdx = s.schedulesIdx := by
    rw [← hs₁]
    rfl
  obtain ⟨gm, gs, h₂⟩ := maybeMaterializeGroup_eq s₁ a.groupKey now
  obtain ⟨st, h₃⟩ := saddAll_eq (maybeMaterializeGroup s₁ a.groupKey now) id (a.tags.map .tagset)
  rw [h₃, h₂]
  split <;> exact h₁

/-- A fire of a schedule that has vanished. -/
theorem fnScheduleFire_none {a : FireArgs} (hx : s.schedule? a.name = none) : (fnScheduleFire s a).1 = s := by
  unfold fnScheduleFire
  rw [hx]

/-- A fire writes the entry, and the score whatever the entry says. -/
theorem fnScheduleFire_writes (h : s.Indexed) (a : FireArgs) {x : ScheduleEntry}
    (hx : s.schedule? a.name = some x) :
    Writes a.name (some { x with lastRunAtMs := a.now, nextRunAtMs := a.nextRun }) (some a.nextRun) s
      (fnScheduleFire s a).1 := by
  obtain ⟨hown, hscore, _, _⟩ := fnScheduleFire_own s a hx
  refine ⟨fun n => ?_, fun n => ?_, fun n => ?_⟩
  · split
    · next hn => exact hn ▸ hown
    · next hn => exact (fnScheduleFire_other s a hn).1
  · have hidx : (fnScheduleFire s a).1.schedulesIdx = s.schedulesIdx := by
      unfold fnScheduleFire
      rw [hx]
      dsimp only
      obtain ⟨l, hl⟩ := setSchedule_eq (insertJob { s with idgen := s.idgen + 1 } a.toEnqueue (s.idgen + 1) a.now) a.name
        { x with lastRunAtMs := a.now, nextRunAtMs := a.nextRun }
      rw [hl]
      exact insertJob_schedulesIdx _ _ _ _
    rw [hidx]
    split
    · next hn =>
      subst hn
      simp [mem_idx_of_isSome h hx]
    · exact Iff.rfl
  · split
    · next hn => exact hn ▸ hscore
    · next hn => exact (fnScheduleFire_other s a hn).2

/-- **A fire keeps the agreement exactly when its schedule is gone or enabled.** -/
theorem fire_agree_iff (h : s.SchedulesAgree) (a : FireArgs) :
    (fnScheduleFire s a).1.SchedulesAgree ↔ ∀ x, s.schedule? a.name = some x → x.enabled = 1 := by
  cases hx : s.schedule? a.name with
  | none =>
    rw [fnScheduleFire_none hx]
    exact ⟨fun _ => nofun, fun _ => h⟩
  | some x =>
    rw [(fnScheduleFire_writes h.idx a hx).agree_iff h]
    simp [ScheduleEntry.score?]

/-! ## Runs -/

/-- The calls on schedules. -/
def Op.onSchedules : Op → Bool
  | .scheduleUpsert _ | .scheduleRemove _ | .scheduleSetEnabled .. | .scheduleFire _ => true
  | _ => false

/-- A fire finds its schedule gone or enabled. -/
def Op.FiresEnabled (s : Store) : Op → Prop
  | .scheduleFire a => ∀ x, s.schedule? a.name = some x → x.enabled = 1
  | _ => True

/-- The index is kept by every one of them. -/
theorem Store.Indexed.step (h : s.Indexed) (op : Op) (hop : op.onSchedules) : (op.apply s).Indexed := by
  cases op with
  | scheduleUpsert a => exact (fnScheduleUpsert_writes s a).indexed h
  | scheduleRemove name => exact (fnScheduleRemove_writes s name).indexed h
  | scheduleSetEnabled name enabled next =>
    cases hx : s.schedule? name with
    | none =>
      show (fnScheduleSetEnabled s name enabled next).1.Indexed
      rw [fnScheduleSetEnabled_none hx]
      exact h
    | some x => exact (fnScheduleSetEnabled_writes h hx enabled next).indexed h
  | scheduleFire a =>
    cases hx : s.schedule? a.name with
    | none =>
      show (fnScheduleFire s a).1.Indexed
      rw [fnScheduleFire_none hx]
      exact h
    | some x => exact (fnScheduleFire_writes h a hx).indexed h
  | _ => cases hop

theorem Store.Indexed.reached (h : s.Reached (fun _ op => op.onSchedules)) : s.Indexed :=
  Reach.inv h (fun n => by simp [Store.empty, Store.schedule?]) (fun _ op _ hi hs => hs.2 ▸ hi.step op hs.1)

theorem Store.SchedulesAgree.empty : Store.empty.SchedulesAgree :=
  ⟨fun n => by simp [Store.empty, Store.schedule?], fun n => by simp [Store.empty, Store.schedule?]⟩

theorem Store.SchedulesAgree.step (h : s.SchedulesAgree) (op : Op) (hop : op.onSchedules) (hf : op.FiresEnabled s) :
    (op.apply s).SchedulesAgree := by
  cases op with
  | scheduleUpsert a =>
    refine ((fnScheduleUpsert_writes s a).agree_iff h).mpr ?_
    simp [ScheduleEntry.score?, UpsertArgs.entry]
  | scheduleRemove name => exact ((fnScheduleRemove_writes s name).agree_iff h).mpr rfl
  | scheduleSetEnabled name enabled next =>
    cases hx : s.schedule? name with
    | none =>
      show (fnScheduleSetEnabled s name enabled next).1.SchedulesAgree
      rw [fnScheduleSetEnabled_none hx]
      exact h
    | some x =>
      refine ((fnScheduleSetEnabled_writes h.idx hx enabled next).agree_iff h).mpr ?_
      by_cases hon : enabled = 1
      · simp [ScheduleEntry.score?, ScheduleEntry.setEnabled, hon]
      · simp [ScheduleEntry.score?, ScheduleEntry.setEnabled, hon]
  | scheduleFire a => exact (fire_agree_iff h a).mpr hf
  | _ => cases hop

theorem Store.SchedulesAgree.upsert (h : s.SchedulesAgree) (a : UpsertArgs) : (fnScheduleUpsert s a).SchedulesAgree :=
  h.step (.scheduleUpsert a) rfl trivial

theorem Store.SchedulesAgree.reached (h : s.Reached (fun s op => op.onSchedules ∧ op.FiresEnabled s)) :
    s.SchedulesAgree :=
  Reach.inv h .empty (fun _ _ _ ha hs => hs.2 ▸ ha.step _ hs.1.1 hs.1.2)

/-- What is listed as due is enabled. -/
theorem Store.SchedulesAgree.due_enabled (h : s.SchedulesAgree) {now : ℤ} {n : Nat} {x : String × ScheduleEntry}
    (hx : x ∈ fnScheduleDueList s now n) : x.2.enabled = 1 ∧ x.2.nextRunAtMs ≤ now := by
  obtain ⟨m, hm, hxm⟩ := List.mem_filterMap.mp hx
  obtain ⟨e, he, rfl⟩ := Option.map_eq_some_iff.mp hxm
  obtain ⟨sc, hsc, hle⟩ := ZSet.mem_of_mem_rangeByScore hm
  have hn := h.next m
  rw [hsc, he] at hn
  simp only [Option.bind_some, ScheduleEntry.score?] at hn
  split at hn
  · next hen =>
    cases hn
    exact ⟨hen, by simpa using hle⟩
  · cases hn

/-- A schedule is declared, disabled, and enabled again, and then fired. -/
def pausedRun : List Op :=
  [.scheduleUpsert { name := "ping", cron := "0 * * * * *", kind := "ping", nextRun := 60000 },
   .scheduleSetEnabled "ping" 0 0,
   .scheduleSetEnabled "ping" 1 120000,
   .scheduleFire { name := "ping", kind := "ping", payload := "null", priority := 0, maxAttempts := 3, queue := "default"
                   now := 120000, nextRun := 180000 }]

/-- The fire of a process that listed the schedule before it was disabled. -/
def lateRun : List Op :=
  [.scheduleUpsert { name := "ping", cron := "0 * * * * *", kind := "ping", nextRun := 60000 },
   .scheduleSetEnabled "ping" 0 0,
   .scheduleFire { name := "ping", kind := "ping", payload := "null", priority := 0, maxAttempts := 3, queue := "default"
                   now := 60000, nextRun := 120000 }]

end Eddyq.Redis
