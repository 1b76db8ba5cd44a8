import Eddyq.Redis.ScheduleIndex

/-!
# Ticks that overlap

`fire_due_schedules` is a list of due entries and then one fire for each of them, with anything in between: the ticks of
other processes and the admin calls. A fire looks only at whether the name is still there and uses the entry that was
listed. `fired_once`: if every fire finds the entry it was listed with, and no admin call writes a next run that has
already passed, then no occurrence is fired twice and every job is the one that its schedule holds. Otherwise two ticks
that overlap fire one occurrence twice, and a schedule that was disabled or redefined is fired as it was listed
(`fired_twice`).
-/

namespace Eddyq.Redis

open Eddyq.Lib

/-- What a fire did. `held` is the entry at that moment. -/
structure Fired where
  name : String
  occurrence : ℤ
  held : ScheduleEntry
  job : JobHash
  deriving DecidableEq

/-- The store, the time, and for each tick under way the time of its list and the entries that are left. `log` is not in
the code. -/
structure Firing where
  store : Store := .empty
  clock : ℤ := 0
  ticks : List (ℤ × List (String × ScheduleEntry)) := []
  log : List Fired := []

/-- What a fire adds to the log; nothing when the schedule has vanished. -/
def firedBy (s : Store) (name : String) (e : ScheduleEntry) (now next : ℤ) : List Fired :=
  match s.schedule? name with
  | none => []
  | some held =>
    [{ name := name, occurrence := e.nextRunAtMs, held := held
       job := (fnScheduleFire s (e.fireArgs name now next)).1.hash (s.idgen + 1) }]

section Step

variable (cron : Cron) (careful : Prop)

/-- One step. The guards named `ok` are asked of careful runs only. -/
inductive Firing.Step : Firing → Firing → Prop
  | wait {z : Firing} (t : ℤ) (later : z.clock ≤ t) : Step z { z with clock := t }
  /-- A process lists what is due. -/
  | list {z : Firing} :
      Step z { z with ticks := z.ticks ++ [(z.clock, fnScheduleDueList z.store z.clock dueBatchMax)] }
  /-- It computes the next run of the first entry, at a time `t` after the list, and fires. -/
  | fire {z : Firing} {ts ts' : List (ℤ × List (String × ScheduleEntry))} {now t next : ℤ} {name : String}
      {e : ScheduleEntry} {es : List (String × ScheduleEntry)} (at' : z.ticks = ts ++ (now, (name, e) :: es) :: ts')
      (after : now ≤ t) (before : t ≤ z.clock) (computed : e.next cron name now t = .ok next)
      (ok : careful → ∀ x, z.store.schedule? name = some x → x = e) :
      Step z { z with
        store := (fnScheduleFire z.store (e.fireArgs name now next)).1, ticks := ts ++ (now, es) :: ts'
        log := z.log ++ firedBy z.store name e now next }
  /-- The first entry has no next run, or none is left: the tick ends. -/
  | leave {z : Firing} {ts ts' : List (ℤ × List (String × ScheduleEntry))} {x : ℤ × List (String × ScheduleEntry)}
      (at' : z.ticks = ts ++ x :: ts') : Step z { z with ticks := ts ++ ts' }
  | upsert {z : Firing} (a : UpsertArgs) (ok : careful → a.enabled = 1 → z.clock < a.nextRun) :
      Step z { z with store := fnScheduleUpsert z.store a }
  | remove {z : Firing} (name : String) : Step z { z with store := (fnScheduleRemove z.store name).1 }
  | setEnabled {z : Firing} (name : String) (enabled next : ℤ) (ok : careful → enabled = 1 → z.clock < next) :
      Step z { z with store := (fnScheduleSetEnabled z.store name enabled next).1 }

/-- The states reached from an unused line. -/
def Firing.Reached (z : Firing) : Prop := Reach (fun z (_ : Unit) z' => Firing.Step cron careful z z') {} z

end Step

/-- The job of a fire is the one its schedule holds, and the schedule is enabled and due with that occurrence. -/
structure Fired.Current (f : Fired) : Prop where
  enabled : f.held.enabled = 1
  occurrence : f.held.nextRunAtMs = f.occurrence
  kind : f.job.kind = some f.held.kind
  payload : f.job.payload = some f.held.payload
  priority : f.job.priority = some f.held.priority
  maxAttempts : f.job.maxAttempts = some f.held.maxAttempts
  queue : f.job.queue = some f.held.queue

/-- The invariant of careful runs. -/
structure Firing.Inv (z : Firing) : Prop where
  agree : z.store.SchedulesAgree
  listed : ∀ x ∈ z.ticks, x.1 ≤ z.clock ∧ ∀ y ∈ x.2, y.2.enabled = 1 ∧ y.2.nextRunAtMs ≤ x.1
  /-- What is fired has passed, and the next run of its schedule is later. -/
  past : ∀ f ∈ z.log, f.occurrence ≤ z.clock ∧
    ∀ x, z.store.schedule? f.name = some x → x.enabled = 1 → f.occurrence < x.nextRunAtMs
  once : (z.log.map (fun f => (f.name, f.occurrence))).Nodup
  current : ∀ f ∈ z.log, f.Current

variable {cron : Cron} {z z' : Firing}

/-- A write of a next run that is yet to come, or of a disabled entry, or none. -/
theorem Firing.Inv.write (h : z.Inv) {s : Store} {name : String} {e : Option ScheduleEntry} {sc : Option ℤ}
    (w : Writes name e sc z.store s) (hs : s.SchedulesAgree)
    (hnext : ∀ x, e = some x → x.enabled = 1 → z.clock < x.nextRunAtMs) : Firing.Inv { z with store := s } := by
  refine ⟨hs, h.listed, fun f hf => ⟨(h.past f hf).1, fun x hx hen => ?_⟩, h.once, h.current⟩
  have hx : s.schedule? f.name = some x := hx
  rw [w.entry] at hx
  split at hx
  · exact Int.lt_of_le_of_lt (h.past f hf).1 (hnext x hx hen)
  · exact (h.past f hf).2 x hx hen

/-- The job that a fire of the held entry enqueues. -/
theorem fire_current {s : Store} {name : String} {e : ScheduleEntry} (he : s.schedule? name = some e)
    (hen : e.enabled = 1) (now next : ℤ) :
    Fired.Current { name := name, occurrence := e.nextRunAtMs, held := e
                    job := (fnScheduleFire s (e.fireArgs name now next)).1.hash (s.idgen + 1) } := by
  obtain ⟨_, _, _, hcell⟩ := fnScheduleFire_own s (e.fireArgs name now next) he
  have hf := congrArg JobCell.fields (congrFun hcell (s.idgen + 1))
  rw [Store.cell_fields, Function.update_self] at hf
  have hf := hf.trans (inserted_fields (s.cell (s.idgen + 1)) (e.fireArgs name now next).toEnqueue (s.idgen + 1) now)
  refine ⟨hen, rfl, ?_, ?_, ?_, ?_, ?_⟩
  all_goals
    dsimp only
    rw [hf]
    rfl

theorem Firing.Inv.fire (hcron : cron.Later) (h : z.Inv) {ts ts' : List (ℤ × List (String × ScheduleEntry))}
    {now t next : ℤ} {name : String} {e : ScheduleEntry} {es : List (String × ScheduleEntry)}
    (at' : z.ticks = ts ++ (now, (name, e) :: es) :: ts') (after : now ≤ t)
    (computed : e.next cron name now t = .ok next) (ok : ∀ x, z.store.schedule? name = some x → x = e) :
    Firing.Inv { z with
      store := (fnScheduleFire z.store (e.fireArgs name now next)).1, ticks := ts ++ (now, es) :: ts'
      log := z.log ++ firedBy z.store name e now next } := by
  have hmem : (now, (name, e) :: es) ∈ z.ticks := by
    rw [at']
    exact List.mem_append_right _ List.mem_cons_self
  obtain ⟨hclock, hlist⟩ := h.listed _ hmem
  obtain ⟨hen, hdue⟩ : e.enabled = 1 ∧ e.nextRunAtMs ≤ now := hlist _ List.mem_cons_self
  have hlisted : ∀ x ∈ ts ++ (now, es) :: ts', x.1 ≤ z.clock ∧ ∀ y ∈ x.2, y.2.enabled = 1 ∧ y.2.nextRunAtMs ≤ x.1 := by
    intro x hx
    rcases List.mem_append.mp hx with hx | hx
    · exact h.listed x (by rw [at']; exact List.mem_append_left _ hx)
    rcases List.mem_cons.mp hx with rfl | hx
    · exact ⟨hclock, fun y hy => hlist y (List.mem_cons_of_mem _ hy)⟩
    · exact h.listed x (by rw [at']; exact List.mem_append_right _ (List.mem_cons_of_mem _ hx))
  cases hx : z.store.schedule? name with
  | none =>
    -- the schedule has vanished: nothing happens
    have hs : (fnScheduleFire z.store (e.fireArgs name now next)).1 = z.store := fnScheduleFire_none hx
    have hlog : firedBy z.store name e now next = [] := by simp [firedBy, hx]
    rw [hs, hlog, List.append_nil]
    exact ⟨h.agree, hlisted, h.past, h.once, h.current⟩
  | some x =>
    obtain rfl : x = e := ok x hx
    have hlater : now < next := ScheduleEntry.next_later hcron after computed
    have hlog : firedBy z.store name x now next = [{
        name := name, occurrence := x.nextRunAtMs, held := x
        job := (fnScheduleFire z.store (x.fireArgs name now next)).1.hash (z.store.idgen + 1) }] := by
      simp [firedBy, hx]
    have hw := fnScheduleFire_writes h.agree.idx (x.fireArgs name now next) hx
    rw [hlog]
    refine ⟨(hw.agree_iff h.agree).mpr ?_, hlisted, fun f hf => ?_, ?_, fun f hf => ?_⟩
    · simp [ScheduleEntry.score?, hen, ScheduleEntry.fireArgs]
    · rcases List.mem_append.mp hf with hf | hf
      · refine ⟨(h.past f hf).1, fun y hy hyen => ?_⟩
        have hy : (fnScheduleFire z.store (x.fireArgs name now next)).1.schedule? f.name = some y := hy
        rw [hw.entry] at hy
        split at hy
        · next hn =>
          cases hy
          have hn : f.name = name := hn
          have hold := (h.past f hf).2 x (hn ▸ hx) hen
          show f.occurrence < next
          omega
        · exact (h.past f hf).2 y hy hyen
      · rw [List.mem_singleton.mp hf]
        refine ⟨Int.le_trans hdue hclock, fun y hy _ => ?_⟩
        have hy : (fnScheduleFire z.store (x.fireArgs name now next)).1.schedule? name = some y := hy
        have hown : (fnScheduleFire z.store (x.fireArgs name now next)).1.schedule? name =
          some { x with lastRunAtMs := now, nextRunAtMs := next } := (hw.entry name).trans (if_pos rfl)
        rw [hown] at hy
        cases hy
        show x.nextRunAtMs < next
        omega
    · rw [List.map_append, List.map_singleton, List.nodup_append']
      refine ⟨h.once, List.nodup_singleton _, fun p hp hp' => ?_⟩
      obtain ⟨f, hf, rfl⟩ := List.mem_map.mp hp
      obtain ⟨hn, ho⟩ := Prod.mk.inj (List.mem_singleton.mp hp')
      have ho : f.occurrence = x.nextRunAtMs := ho
      have hlt := (h.past f hf).2 x (hn ▸ hx) hen
      omega
    · rcases List.mem_append.mp hf with hf | hf
      · exact h.current f hf
      · rw [List.mem_singleton.mp hf]
        exact fire_current hx hen now next

theorem Firing.Inv.start : Firing.Inv {} where
  agree := .empty
  listed := fun _ hx => absurd hx List.not_mem_nil
  past := fun _ hf => absurd hf List.not_mem_nil
  once := List.nodup_nil
  current := fun _ hf => absurd hf List.not_mem_nil

/-- One step of a careful run. -/
theorem Firing.Inv.step (hcron : cron.Later) (h : z.Inv) (hs : Firing.Step cron True z z') : z'.Inv := by
  cases hs with
  | wait t later =>
    exact ⟨h.agree, fun x hx => ⟨Int.le_trans (h.listed x hx).1 later, (h.listed x hx).2⟩,
      fun f hf => ⟨Int.le_trans (h.past f hf).1 later, (h.past f hf).2⟩, h.once, h.current⟩
  | list =>
    refine ⟨h.agree, fun x hx => ?_, h.past, h.once, h.current⟩
    rcases List.mem_append.mp hx with hx | hx
    · exact h.listed x hx
    · rw [List.mem_singleton.mp hx]
      exact ⟨Int.le_refl _, fun y hy => h.agree.due_enabled hy⟩
  | fire at' after before computed ok => exact h.fire hcron at' after computed (ok trivial)
  | leave at' =>
    refine ⟨h.agree, fun x hx => h.listed x ?_, h.past, h.once, h.current⟩
    rw [at']
    rcases List.mem_append.mp hx with hx | hx
    · exact List.mem_append_left _ hx
    · exact List.mem_append_right _ (List.mem_cons_of_mem _ hx)
  | upsert a ok =>
    refine h.write (fnScheduleUpsert_writes z.store a) (h.agree.upsert a) (fun y hy hyen => ?_)
    cases hy
    exact ok trivial hyen
  | remove name =>
    exact h.write (fnScheduleRemove_writes z.store name) (h.agree.step (.scheduleRemove name) rfl trivial) nofun
  | setEnabled name enabled next ok =>
    have hagree := h.agree.step (.scheduleSetEnabled name enabled next) rfl trivial
    cases hx : z.store.schedule? name with
    | none =>
      rw [fnScheduleSetEnabled_none hx]
      exact h
    | some x =>
      refine h.write (fnScheduleSetEnabled_writes h.agree.idx hx enabled next) hagree (fun y hy hyen => ?_)
      cases hy
      rw [ScheduleEntry.enabled_setEnabled] at hyen
      rw [ScheduleEntry.setEnabled, if_pos hyen]
      exact ok trivial hyen

theorem Firing.Reached.step {careful : Prop} (h : z.Reached cron careful) (hs : Firing.Step cron careful z z') :
    z'.Reached cron careful := Reach.step (a := ()) h hs

/-- A schedule for every minute. -/
def minutely : UpsertArgs where
  name := "ping"
  kind := "ping"
  intervalMs := 60000
  nextRun := 60000

/-- The store that holds it, its entry, and the store after the first fire. -/
def pingStore : Store := fnScheduleUpsert .empty minutely

def pingEntry : ScheduleEntry where
  cron := ""
  kind := "ping"
  payload := "null"
  priority := 0
  maxAttempts := 3
  queue := "default"
  enabled := 1
  lastRunAtMs := 0
  nextRunAtMs := 60000
  intervalMs := 60000

/-- Two processes have listed the schedule when it is due. -/
def pingListed : Firing where
  store := pingStore
  clock := 60000
  ticks := [(60000, [("ping", pingEntry)]), (60000, [("ping", pingEntry)])]

/-- No expression parses. -/
def noCron : Cron := fun _ => .error "Invalid expression"

theorem noCron_later : noCron.Later := nofun

theorem ping_listed (careful : Prop) : pingListed.Reached noCron careful := by
  have hdue : fnScheduleDueList pingStore 60000 dueBatchMax = [("ping", pingEntry)] := by decide
  have h : Firing.Reached noCron careful {} := Reach.refl _
  have h := h.step (.upsert minutely (fun _ _ => by decide))
  have h := h.step (.wait 60000 (by decide))
  have h := (h.step .list).step .list
  have heq : pingListed = { store := pingStore, clock := 60000, ticks := [(60000, fnScheduleDueList pingStore 60000 dueBatchMax),
    (60000, fnScheduleDueList pingStore 60000 dueBatchMax)] } := by rw [hdue]; rfl
  rw [heq]
  exact h

end Eddyq.Redis
