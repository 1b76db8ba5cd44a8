import Eddyq.Redis.Rosters
import Eddyq.Redis.Cleanup

/-!
# The registry of queues

`queues:seen` is a set that every enqueue adds its queue to and that nothing is ever removed from. The functions that walk
it (the statistics, the listing of jobs) see the queue of every job: `reached_seen`. Only an enqueue gives a HASH a queue
(`SeenKept`).
-/

namespace Eddyq.Redis

open Eddyq.Lib

/-- The registry is a set, and the queue of every HASH is in it. -/
structure Store.Seen (s : Store) : Prop where
  once : s.queuesSeen.Nodup
  queue : ∀ id q, (s.hash id).queue = some q → q ∈ s.queuesSeen

/-- No HASH gets a queue, and the registry stays. -/
structure SeenKept (s s' : Store) : Prop where
  queue : ∀ id q, (s'.hash id).queue = some q → (s.hash id).queue = some q
  seen : s'.queuesSeen = s.queuesSeen

section Kept

variable {s s' s₁ : Store} {id : JobId}

theorem Store.Seen.kept (h : s.Seen) (hk : SeenKept s s') : s'.Seen :=
  ⟨by rw [hk.seen]; exact h.once, fun id q hq => by rw [hk.seen]; exact h.queue id q (hk.queue id q hq)⟩

theorem SeenKept.of_job (hj : s'.job = s.job) (hs : s'.queuesSeen = s.queuesSeen) : SeenKept s s' :=
  ⟨fun id q hq => by rwa [hash_congr hj] at hq, hs⟩

theorem SeenKept.refl (s : Store) : SeenKept s s := .of_job rfl rfl

theorem SeenKept.trans (h : SeenKept s s₁) (h' : SeenKept s₁ s') : SeenKept s s' :=
  ⟨fun id q hq => h.queue id q (h'.queue id q hq), h'.seen.trans h.seen⟩

/-- A write to one HASH that leaves the queue alone. -/
theorem SeenKept.hset (s : Store) (id : JobId) {f : JobHash → JobHash} (hf : ∀ h, (f h).queue = h.queue) :
    SeenKept s (s.hset id f) := by
  refine ⟨fun i q hq => ?_, rfl⟩
  rw [hash_hset] at hq
  split at hq
  · next hi =>
    subst hi
    rwa [hf] at hq
  · exact hq

theorem Command.seenKept {stamps : Prop} (h : Command stamps s s') : SeenKept s s' := by
  cases h with
  | hset id f queue _ => exact .hset s id queue
  | delJob id =>
    refine ⟨fun i q hq => ?_, rfl⟩
    rcases delJob_hashesKept id s i with hi | hi
    · rwa [Store.hash, hi] at hq
    · rw [Store.hash, hi] at hq
      cases hq
  | _ => exact .of_job rfl rfl

theorem Commands.seenKept {stamps : Prop} (h : Commands stamps s s') : SeenKept s s' := by
  induction h with
  | refl => exact .refl s
  | tail _ hc ih => exact ih.trans hc.seenKept

theorem setSchedule_seenKept (s : Store) (name : String) (e : ScheduleEntry) : SeenKept s (s.setSchedule name e) := by
  unfold Store.setSchedule
  split <;> exact .of_job rfl rfl

/-- A claim writes states and owners. -/
theorem fnClaim_seenKept (s : Store) (a : ClaimArgs) : SeenKept s (fnClaim s a).1 := by
  refine fnClaim_rule (P := fun x _ => SeenKept s x) (.refl s) (fun {queue t c i c'} he hs => ?_)
  have hgate : ∀ {x : Store} {g : String} {b : Bool}, Gated c.store g a.now x b → SeenKept s x := by
    intro x g b gate
    cases gate <;> exact hs.trans (.of_job rfl rfl)
  cases he with
  | skip => exact hs
  | stop gate => exact hgate gate
  | gone gate => exact hgate gate
  | @start s₁ kind _ size isOpen hkind listed pending gate waits =>
    refine (hgate gate).trans ?_
    have hmove : SeenKept s₁ ((s₁.zrem (.wait queue) i).zadd .active a.now i) := .of_job rfl rfl
    have hset := hmove.trans (SeenKept.hset _ i (f := fun h => { h with
      state := some .running, attempt := some ((c.store.hash i).attempt.getD 0 + 1), lockedAt := some a.now
      lockedBy := some a.worker }) fun _ => rfl)
    unfold startJob
    cases given (c.store.hash i).groupKey <;> exact hset.trans (.of_job rfl rfl)

end Kept

/-! ## Runs -/

section Runs

variable {s : Store}

/-- An enqueue enters the queue of its job. -/
theorem Store.Seen.insertJob (h : s.Seen) (a : EnqueueArgs) (id : JobId) (now : ℤ) : (insertJob s a id now).Seen := by
  have hins : (Redis.insertJob s a id now).job = (s.hset id (a.toHash id now)).job ∧
      (Redis.insertJob s a id now).queuesSeen = s.queuesSeen.insert a.queue := by
    have hm : ∀ s₁ : Store, (saddAll (maybeMaterializeGroup s₁ a.groupKey now) (a.tags.map .tagset) id).job = s₁.job ∧
        (saddAll (maybeMaterializeGroup s₁ a.groupKey now) (a.tags.map .tagset) id).queuesSeen = s₁.queuesSeen := by
      intro s₁
      obtain ⟨gm, gs, hm⟩ := maybeMaterializeGroup_eq s₁ a.groupKey now
      obtain ⟨st, hst⟩ := @saddAll_eq { s₁ with groupMeta := gm, groups := gs } id (a.tags.map .tagset)
      rw [hm, hst]
      exact ⟨rfl, rfl⟩
    have hrest := hm { ((s.hset id (a.toHash id now)).sadd (.queueset a.queue) id).sadd (.kindset a.kind) id with
      queuesSeen := s.queuesSeen.insert a.queue }
    unfold Redis.insertJob
    dsimp only
    split
    · exact hrest
    · exact hrest
  refine ⟨?_, fun i q hq => ?_⟩
  · rw [hins.2]
    exact h.once.insert
  · rw [hins.2, List.mem_insert_iff]
    rw [hash_congr hins.1, hash_hset] at hq
    split at hq
    · cases hq
      exact Or.inl rfl
    · exact Or.inr (h.queue i q hq)

theorem Store.Seen.enqueue (h : s.Seen) (a : EnqueueArgs) (now : ℤ) : (fnEnqueue s a now).1.Seen := by
  unfold fnEnqueue
  split
  · exact h
  · have hid : SeenKept s (if a.uniqueKey ≠ "" then { s with idgen := s.idgen + 1 }.setUnique a.uniqueKey (s.idgen + 1)
        else { s with idgen := s.idgen + 1 }) := by
      split <;> exact .of_job rfl rfl
    exact (h.kept hid).insertJob a (s.idgen + 1) now

theorem Store.Seen.enqueueMany (now : ℤ) : ∀ (as : List EnqueueArgs) {s : Store}, s.Seen → (fnEnqueueMany s as now).1.Seen
  | [], _, h => h
  | a :: as, _, h => enqueueMany now as (h.enqueue a now)

theorem Store.Seen.scheduleFire (h : s.Seen) (a : FireArgs) : (fnScheduleFire s a).1.Seen := by
  have hid : SeenKept s { s with idgen := s.idgen + 1 } := .of_job rfl rfl
  unfold fnScheduleFire
  split
  · exact h
  · next e _ =>
    have hins := (h.kept hid).insertJob a.toEnqueue (s.idgen + 1) a.now
    have hset := hins.kept (setSchedule_seenKept _ a.name { e with lastRunAtMs := a.now, nextRunAtMs := a.nextRun })
    exact ⟨hset.once, hset.queue⟩

theorem Store.Seen.scheduleSetEnabled (h : s.Seen) (name : String) (e next : ℤ) :
    (fnScheduleSetEnabled s name e next).1.Seen := by
  have hset : ∀ z x, Store.Seen (Store.setSchedule { s with schedulesNext := z } name x) := fun z x =>
    Store.Seen.kept (⟨h.once, h.queue⟩ : Store.Seen { s with schedulesNext := z }) (setSchedule_seenKept _ name x)
  unfold fnScheduleSetEnabled
  split
  · exact h
  · split
    · exact hset _ _
    · exact hset _ _

/-- **Every call keeps the registry.** -/
theorem Store.Seen.apply (h : s.Seen) (op : Op) : (op.apply s).Seen := by
  cases op with
  | enqueue a now => exact h.enqueue a now
  | enqueueMany as now => exact .enqueueMany now as h
  | claim a => exact h.kept (fnClaim_seenKept s a)
  | heartbeat | complete | fail | sweepStale | promoteDelayed | reclaimInFlight | cancel | cleanup =>
    exact h.kept (Op.apply_commands True s _ rfl fun _ _ _ => trivial).seenKept
  | scheduleUpsert a =>
    show (fnScheduleUpsert s a).Seen
    unfold fnScheduleUpsert
    dsimp only
    split <;> exact (h.kept (setSchedule_seenKept s _ _)).kept (.of_job rfl rfl)
  | scheduleRemove name => exact h.kept (.of_job rfl rfl)
  | scheduleSetEnabled name e next => exact h.scheduleSetEnabled name e next
  | scheduleFire a => exact h.scheduleFire a
  | groupSetConcurrency | groupSetPaused | groupSetRate | groupClearRate | groupRemoveRule => exact h.kept (.of_job rfl rfl)
  | queueSetConcurrency | queueSetPaused => exact h.kept (.of_job rfl rfl)
  | groupSetRule pattern rule =>
    show (fnGroupSetRule s pattern rule).Seen
    unfold fnGroupSetRule
    split <;> exact h.kept (.of_job rfl rfl)
  | queueSetTimeout name t =>
    show (fnQueueSetTimeout s name t).Seen
    unfold fnQueueSetTimeout
    dsimp only
    split <;> exact h.kept (.of_job rfl rfl)

/-- **The registry has the queue of every job**, in every run. -/
theorem reached_seen {ok : Store → Op → Prop} (h : s.Reached ok) : s.Seen := by
  have hempty : Store.empty.Seen := ⟨List.nodup_nil, nofun⟩
  refine Reach.inv h hempty ?_
  rintro s op s' hs ⟨_, rfl⟩
  exact hs.apply op

end Runs

end Eddyq.Redis
