import Eddyq.Pg.Settings
import Eddyq.Redis.Carried
import Eddyq.Redis.Gates

/-!
# Settings on Redis

The metadata HASH of a group holds what an administrator set beside its bucket. `backend.rs` sends each setting as text and
reads the HASHes back through `eddyq_group_get` and `eddyq_queue_get` (`groupGet`, `queueGet`), whose `-1` stands for no
cap, no rate and no timeout. A call that is not one of the administrator's leaves the settings alone: a claim writes the
bucket, and a rule is installed where there is nothing (`Op.keepsSettings`).
-/

namespace Eddyq.Redis

open Eddyq.Lib

/-! ## Reading -/

/-- `parse::<i32>().ok()` on the text of a whole number. -/
def parseI32 (n : ℤ) : Option ℤ := if -2 ^ 31 ≤ n ∧ n < 2 ^ 31 then some n else none

/-- A field whose `-1` stands for none: a text that is not a number is read as `-1` too. -/
def parseLimit (n : ℤ) : Option ℤ := (parseI32 n).filter (0 ≤ ·)

/-- The refill time of a reply: none before the epoch, and none for a time of more than 14 digits, whose text has an exponent
and does not parse. -/
def parseRefill (ms : ℤ) : Option ℤ := if 0 < ms ∧ ms < 10 ^ 14 then some ms else none

/-- `group_get`, on the reply of `eddyq_group_get`. -/
def groupGet (s : Store) (key : String) : Option Pg.GroupRow :=
  (readGroupMeta s key).map fun m =>
    { key := key
      runningCount := (parseI32 (s.zsets (.grouprun key)).card).getD 0
      maxConcurrency := (parseLimit m.maxConcurrency).getD Pg.unlimited
      paused := m.paused
      rateCount := parseLimit m.rateCount
      ratePeriodMs := (parseI32 m.ratePeriodMs).filter (0 < ·)
      tokens := m.tokens
      tokensRefilledAt := parseRefill m.refilledAt }

/-- `queue_get`, on the reply of `eddyq_queue_get`. -/
def queueGet (s : Store) (name : String) : Option Pg.QueueRow :=
  (readNqMeta s name).map fun m =>
    { name := name
      runningCount := (parseI32 (s.zsets (.nqrun name)).card).getD 0
      maxConcurrency := (parseLimit m.maxConcurrency).getD Pg.unlimited
      paused := m.paused
      defaultTimeoutMs := parseLimit m.defaultTimeoutMs }

/-- What a read of a group shows of its metadata. -/
def GroupMeta.shown (m : GroupMeta) : Pg.GroupSettings where
  maxConcurrency := (parseLimit (m.maxConcurrency.getD (-1))).getD Pg.unlimited
  paused := m.paused = some 1
  rateCount := parseLimit (m.rateCount.getD (-1))
  ratePeriodMs := (parseI32 (m.ratePeriodMs.getD 0)).filter (0 < ·)

/-- Of a queue. -/
def NqMeta.shown (m : NqMeta) : Pg.QueueSettings where
  maxConcurrency := (parseLimit (m.maxConcurrency.getD (-1))).getD Pg.unlimited
  paused := m.paused = some 1
  defaultTimeoutMs := parseLimit (m.defaultTimeoutMs.getD (-1))

/-- The group has been capped or paused; no call takes that back. -/
def GroupMeta.Configured (m : GroupMeta) : Prop := m.maxConcurrency.isSome ∨ m.paused.isSome

theorem parseLimit_eq {n : ℤ} (h₀ : 0 ≤ n) (h : n ≤ Pg.unlimited) : parseLimit n = some n := by
  have hfits : -2 ^ 31 ≤ n ∧ n < 2 ^ 31 := by
    unfold Pg.unlimited at h
    omega
  rw [parseLimit, parseI32, if_pos hfits]
  simp [h₀]

theorem groupGet_shown {s : Store} {key : String} (hkey : key ≠ "") (hm : (s.groupMeta key).Configured) :
    (groupGet s key).map (·.settings) = some (s.groupMeta key).shown := by
  have hsome : ¬ ((s.groupMeta key).maxConcurrency = none ∧ (s.groupMeta key).paused = none ∧
      (s.groupMeta key).rateCount = none) := by
    rintro ⟨hmax, hpaused, _⟩
    unfold GroupMeta.Configured at hm
    simp [hmax, hpaused] at hm
  unfold groupGet readGroupMeta
  rw [if_neg hkey]
  dsimp only
  rw [if_neg hsome]
  rfl

/-- A queue without metadata has the defaults. -/
theorem queueGet_shown (s : Store) {name : String} (hname : name ≠ "") :
    ((queueGet s name).map (·.settings)).getD {} = (s.nqMeta name).shown := by
  unfold queueGet readNqMeta
  rw [if_neg hname]
  dsimp only
  split
  · next hnone =>
    obtain ⟨h1, h2, h3⟩ := hnone
    rw [NqMeta.shown, h1, h2, h3]
    rfl
  · rfl

/-! ## Frame -/

/-- The metadata without its bucket. -/
def GroupMeta.core (m : GroupMeta) : GroupMeta := { m with tokens := none, tokensRefilledAtMs := none }

/-- The settings of the queues stay, and those of the groups that have any. -/
structure KeepsSettings (s s' : Store) : Prop where
  queues : s'.nqMeta = s.nqMeta
  groups : ∀ g, (s.groupMeta g).core ≠ {} → (s'.groupMeta g).core = (s.groupMeta g).core

section Keeps

variable {s s' s₁ : Store} {now : ℤ}

theorem KeepsSettings.congr (hq : s'.nqMeta = s.nqMeta) (hg : s'.groupMeta = s.groupMeta) : KeepsSettings s s' :=
  ⟨hq, fun g _ => by rw [hg]⟩

theorem KeepsSettings.refl (s : Store) : KeepsSettings s s := .congr rfl rfl

/-- What is shown of a group stays. -/
theorem KeepsSettings.shown (h : KeepsSettings s s') {key : String} (hm : (s.groupMeta key).Configured) :
    (s'.groupMeta key).shown = (s.groupMeta key).shown ∧ (s'.groupMeta key).Configured := by
  have hcore : (s.groupMeta key).core ≠ {} := by
    intro he
    rw [GroupMeta.core, GroupMeta.mk.injEq] at he
    simp [GroupMeta.Configured, he.1, he.2.1] at hm
  have hsame := h.groups key hcore
  have hshown (m : GroupMeta) : m.shown = m.core.shown := rfl
  have hconf (m : GroupMeta) : m.Configured ↔ m.core.Configured := Iff.rfl
  rw [hshown, hsame, hconf, hsame]
  exact ⟨rfl, hm⟩

theorem KeepsSettings.trans (h : KeepsSettings s s₁) (h' : KeepsSettings s₁ s') : KeepsSettings s s' := by
  refine ⟨h'.queues.trans h.queues, fun g hg => ?_⟩
  have hfirst := h.groups g hg
  rw [h'.groups g (hfirst ▸ hg), hfirst]

/-- Metadata that is written for a group without settings, or with the settings it has. -/
theorem KeepsSettings.write {key : String} {m : GroupMeta}
    (hm : (s.groupMeta key).core ≠ {} → m.core = (s.groupMeta key).core)
    (hg : s'.groupMeta = Function.update s.groupMeta key m) (hq : s'.nqMeta = s.nqMeta) : KeepsSettings s s' := by
  refine ⟨hq, fun g hne => ?_⟩
  rw [hg]
  by_cases hk : g = key
  · subst hk
    rw [Function.update_self]
    exact hm hne
  · rw [Function.update_of_ne hk]

/-- A rule is installed in a group that has nothing. -/
theorem maybeMaterializeGroup_keepsSettings (s : Store) (key : String) (now : ℤ) :
    KeepsSettings s (maybeMaterializeGroup s key now) := by
  unfold maybeMaterializeGroup
  split
  · exact .refl s
  split
  · exact .refl s
  next hnew =>
  split
  · exact .refl s
  split
  · exact .refl s
  · refine KeepsSettings.write (fun hne => ?_) rfl rfl
    rw [not_not.mp hnew] at hne
    exact absurd rfl hne

theorem saddAll_keepsSettings (s : Store) (ks : List SKey) (id : JobId) : KeepsSettings s (saddAll s ks id) := by
  obtain ⟨st, h⟩ := saddAll_eq s id ks
  rw [h]
  exact .congr rfl rfl

theorem insertJob_keepsSettings (s : Store) (a : EnqueueArgs) (id : JobId) (now : ℤ) :
    KeepsSettings s (insertJob s a id now) := by
  refine ⟨insertJob_nqMeta s id a now, ?_⟩
  unfold insertJob
  dsimp only
  generalize hs₁ : ({ ((s.hset id (a.toHash id now)).sadd (.queueset a.queue) id).sadd (.kindset a.kind) id with
    queuesSeen := _ } : Store) = s₁
  have h₁ : KeepsSettings s s₁ := hs₁ ▸ .congr rfl rfl
  have h₂ := (h₁.trans (maybeMaterializeGroup_keepsSettings s₁ a.groupKey now)).trans
    (saddAll_keepsSettings _ (a.tags.map .tagset) id)
  split
  · exact h₂.groups
  · exact h₂.groups

theorem fnEnqueue_keepsSettings (s : Store) (a : EnqueueArgs) (now : ℤ) : KeepsSettings s (fnEnqueue s a now).1 := by
  unfold fnEnqueue
  split
  · exact .refl s
  · refine KeepsSettings.trans ?_ (insertJob_keepsSettings _ a _ now)
    split
    · exact .congr rfl rfl
    · exact .congr rfl rfl

theorem fnEnqueueMany_keepsSettings : ∀ (as : List EnqueueArgs) (s : Store) (now : ℤ),
    KeepsSettings s (fnEnqueueMany s as now).1
  | [], s, _ => .refl s
  | a :: as, s, now => (fnEnqueue_keepsSettings s a now).trans (fnEnqueueMany_keepsSettings as _ now)

theorem setSchedule_keepsSettings (s : Store) (name : String) (e : ScheduleEntry) :
    KeepsSettings s (s.setSchedule name e) := by
  obtain ⟨l, hl⟩ := setSchedule_eq s name e
  rw [hl]
  exact .congr rfl rfl

theorem fnScheduleFire_keepsSettings (s : Store) (a : FireArgs) : KeepsSettings s (fnScheduleFire s a).1 := by
  unfold fnScheduleFire
  split
  · exact .refl s
  · have hrow : KeepsSettings s { s with idgen := s.idgen + 1 } := .congr rfl rfl
    have hset := fun e => (hrow.trans (insertJob_keepsSettings _ a.toEnqueue (s.idgen + 1) a.now)).trans
      (setSchedule_keepsSettings _ a.name e)
    exact ⟨(hset _).queues, (hset _).groups⟩

theorem fnScheduleUpsert_keepsSettings (s : Store) (a : UpsertArgs) : KeepsSettings s (fnScheduleUpsert s a) := by
  have hset := fun e => setSchedule_keepsSettings s a.name e
  unfold fnScheduleUpsert
  dsimp only
  split
  · exact ⟨(hset _).queues, (hset _).groups⟩
  · exact ⟨(hset _).queues, (hset _).groups⟩

theorem fnScheduleSetEnabled_keepsSettings (s : Store) (name : String) (enabled next : ℤ) :
    KeepsSettings s (fnScheduleSetEnabled s name enabled next).1 := by
  unfold fnScheduleSetEnabled
  split
  · exact .refl s
  split
  · refine KeepsSettings.trans ?_ (setSchedule_keepsSettings _ name _)
    exact .congr rfl rfl
  · refine KeepsSettings.trans ?_ (setSchedule_keepsSettings _ name _)
    exact .congr rfl rfl

/-- The gate writes the bucket. -/
theorem Gated.keepsSettings {g : String} {b : Bool} (h : Gated s g now s' b) : KeepsSettings s s' := by
  cases h with
  | free | closed | roomy => exact .refl s
  | dry | paid => exact .write (fun _ => by rfl) rfl rfl

theorem EntryStep.keepsSettings {a : ClaimArgs} {queue : String} {t : Option ℤ} {c c' : ClaimState} {id : JobId}
    (h : EntryStep a queue t c id c') : KeepsSettings c.store c'.store := by
  cases h with
  | skip => exact .refl _
  | stop gate | gone gate => exact gate.keepsSettings
  | start _ _ _ _ _ gate =>
    exact gate.keepsSettings.trans (.congr (startJob_nqMeta _ _ _ _ _ _) (startJob_groupMeta _ _ _ _ _ _))

theorem fnClaim_keepsSettings (s : Store) (a : ClaimArgs) : KeepsSettings s (fnClaim s a).1 :=
  fnClaim_rule (P := fun s' _ => KeepsSettings s s') (.refl s) (fun he h => h.trans he.keepsSettings)

end Keeps

/-- The calls that set the limits of a group or a queue. -/
def Op.administers : Op → Bool
  | .groupSetConcurrency .. | .groupSetPaused .. | .groupSetRate .. | .groupClearRate .. => true
  | .queueSetConcurrency .. | .queueSetPaused .. | .queueSetTimeout .. => true
  | _ => false

/-- **Every other call** leaves the settings alone. -/
theorem Op.keepsSettings (s : Store) (op : Op) (ho : op.administers = false) : KeepsSettings s (op.apply s) := by
  have hjobs : op.onJobs → KeepsSettings s (op.apply s) :=
    fun hj => .congr (Op.apply_onJobs s op hj).nqMeta (Op.apply_onJobs s op hj).groupMeta
  cases op with
  | enqueue a now => exact fnEnqueue_keepsSettings s a now
  | enqueueMany as now => exact fnEnqueueMany_keepsSettings as s now
  | claim a => exact fnClaim_keepsSettings s a
  | heartbeat | complete | fail | sweepStale | promoteDelayed | reclaimInFlight | cancel | cleanup => exact hjobs rfl
  | scheduleUpsert a => exact fnScheduleUpsert_keepsSettings s a
  | scheduleRemove => exact .congr rfl rfl
  | scheduleSetEnabled name e next => exact fnScheduleSetEnabled_keepsSettings s name e next
  | scheduleFire a => exact fnScheduleFire_keepsSettings s a
  | groupSetRule pattern rule =>
    show KeepsSettings s (fnGroupSetRule s pattern rule)
    unfold fnGroupSetRule
    split
    · exact .congr rfl rfl
    · exact .congr rfl rfl
  | groupRemoveRule => exact .congr rfl rfl
  | _ => cases ho

end Eddyq.Redis
