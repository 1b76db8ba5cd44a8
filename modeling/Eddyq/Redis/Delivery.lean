import Eddyq.Redis.ClaimWire

/-!
# From an enqueue to the worker

A `Ledger` is a line together with what its clients asked for: the request of every job, the jobs that some claim has
started, and the timeouts of the queues. In every run the HASH of a job carries its request (`Ledger.Ok`), so that a claim
delivers the jobs that it starts (`Ledger.Delivers`) as long as every job it may start fits into the texts
(`delivers_of_fits`). A timeout of `10 ^ 14` milliseconds does not.
-/

namespace Eddyq.Redis

open Lib Lib.Json

/-! ## Calls -/

structure Ledger where
  store : Store := {}
  request : JobId → Option DynEnqueue := fun _ => none
  claimed : JobId → Bool := fun _ => false
  timeout : String → Option Duration := fun _ => none

/-- The calls of the clients. -/
inductive Call
  | enqueue (r : DynEnqueue) (now : ℤ)
  | enqueueMany (reqs : List DynEnqueue) (now : ℤ)
  | fire (r : ScheduleRequest) (now next : ℤ)
  | queueSetTimeout (name : String) (timeout : Option Duration)
  | claim (a : ClaimArgs)
  | other (op : Op)

/-- Payloads are written by `serde_json`. -/
def Codec.serde (c : Codec) : Codec := { c with json := fun v => String.ofList (jsonText v) }

/-- The request that a fire stands for. -/
def ScheduleRequest.request (r : ScheduleRequest) : DynEnqueue where
  kind := r.kind
  payload := r.payload
  maxAttempts := r.maxAttempts.toInt
  priority := r.priority.toInt
  queue := r.queue

/-- The arguments of `eddyq_schedule_fire`. -/
def fireCall (r : ScheduleRequest) (now next : ℤ) : FireArgs where
  name := r.name
  kind := r.kind
  payload := String.ofList (jsonText r.payload)
  priority := nearest r.priority.toInt
  maxAttempts := nearest r.maxAttempts.toInt
  queue := r.queue
  now := nearest now
  nextRun := nearest next

/-- The `timeout_ms` of `queue_set_timeout`; `as i64` wraps around. -/
def timeoutMs : Option Duration → ℤ
  | some d => (Int64.ofNat d.asMillis).toInt
  | none => -1

/-- The requests of new jobs. -/
def noteAll (request : JobId → Option DynEnqueue) (l : List (DynEnqueue × Option JobId)) : JobId → Option DynEnqueue :=
  l.foldl (fun request x => match x.2 with
    | some id => Function.update request id (some x.1)
    | none => request) request

/-- What a call does. -/
def Ledger.apply (c : Codec) (z : Ledger) : Call → Ledger
  | .enqueue r now => { z with
      store := (enqueueOne c.serde now z.store r).1
      request := noteAll z.request [(r, (fnEnqueue z.store (received c.serde r) now).2)] }
  | .enqueueMany reqs now => { z with
      store := (enqueueMany c.serde now z.store reqs).1
      request := noteAll z.request (reqs.zip
        (fnEnqueueMany z.store (reqs.map (received c.serde)) (tonumber (tostring now))).2) }
  | .fire r now next => { z with
      store := (fnScheduleFire z.store (fireCall r now next)).1
      request := noteAll z.request [(r.request, (fnScheduleFire z.store (fireCall r now next)).2)] }
  | .queueSetTimeout name timeout => { z with
      store := fnQueueSetTimeout z.store name (nearest (timeoutMs timeout))
      timeout := Function.update z.timeout name timeout }
  | .claim a => { z with
      store := (luaClaim z.store a).1
      claimed := fun j => z.claimed j || decide (j ∈ (fnClaim z.store a).2.map (·.id)) }
  | .other op => { z with store := op.apply z.store }

/-- The numbers of a request are in the ranges of their types, and no other call does what has a name of its own. -/
def Call.Typed : Call → Prop
  | .enqueue r _ => InRange r
  | .enqueueMany reqs _ => ∀ r ∈ reqs, InRange r
  | .other op => (op.onJobs ∨ op.onSettings) ∧ ∀ name t, op ≠ .queueSetTimeout name t
  | _ => True

/-- The ledgers of all runs, late verdicts included. -/
def Ledger.Reached (c : Codec) (z : Ledger) : Prop := Reach (Guarded (fun _ call => call.Typed) (Ledger.apply c)) {} z

/-! ## Deliveries -/

/-- The job of a request when it is first claimed. -/
def firstClaim (j : JobId) (r : DynEnqueue) {Id : Type} (w : Id) (timeout : Option Duration) : Client.ClaimedJob Id where
  id := j
  kind := r.kind
  payload := r.payload
  attempt := 1
  maxAttempts := r.maxAttempts
  stalledCount := 0
  maxStalledCount := r.maxStalledCount
  groupKey := r.groupKey
  queue := r.queue
  workerId := w
  timeout := timeout

/-- The reply of a claim is read, every job it has moved to running is delivered, and a job that is claimed for the first
time is delivered as its request says. -/
def Ledger.Delivers (z : Ledger) (u : Uuids) (w : u.Id) (a : ClaimArgs) : Prop :=
  ∃ jobs, parseClaimReply u (luaClaim z.store a).2 = .ok jobs ∧
    (∀ j, z.store.state j ≠ some .running → (luaClaim z.store a).1.state j = some .running → ∃ x ∈ jobs, x.id = j) ∧
    ∀ x ∈ jobs, ∃ (j : JobId) (r : DynEnqueue), x.id = j ∧ z.request j = some r ∧
      (z.claimed j = false → r.groupKey ≠ some "" → x = firstClaim j r w (z.timeout r.queue))

/-- What the texts have room for. -/
structure Ledger.Fits (z : Ledger) (j : JobId) (r : DynEnqueue) : Prop where
  id : (j : ℤ) < 10 ^ 14
  payload : r.payload.depth < 128
  attempt : (z.store.hash j).attempt.getD 0 < 2 ^ 31 - 1
  stalledCount : (z.store.hash j).stalledCount.getD 0 < 2 ^ 31
  timeout : r.queue ≠ "" → nearest (timeoutMs (z.timeout r.queue)) < 10 ^ 14
  first : z.claimed j = false → r.groupKey ≠ some "" → ∀ d, z.timeout r.queue = some d →
    r.queue ≠ "" ∧ 10 ^ 6 ∣ d.nanos ∧ 0 < d.nanos ∧ d.asMillis < 10 ^ 14

/-! ## What the line knows -/

/-- What a job of the request has in its HASH. -/
def carriedContent (r : DynEnqueue) : Content where
  kind := some r.kind
  payload := some (String.ofList (jsonText r.payload))
  priority := some r.priority
  maxAttempts := some r.maxAttempts
  maxStalledCount := some r.maxStalledCount
  queue := some r.queue
  groupKey := some (r.groupKey.getD "")

/-- The field `default_timeout_ms` for a timeout. -/
def storedTimeout (o : Option Duration) : Option ℤ :=
  if nearest (timeoutMs o) < 0 then none else some (nearest (timeoutMs o))

theorem storedTimeout_none : storedTimeout none = none := by
  rw [storedTimeout, timeoutMs, nearest_precise (by decide), if_pos (by decide)]

/-- The line has what was asked for. -/
structure Ledger.Ok (z : Ledger) : Prop where
  fresh : ∀ j, z.store.idgen < j → z.request j = none
  bare : ∀ j, z.request j = none → (z.store.cell j).Bare ∧ z.claimed j = false
  carries : ∀ j r, z.request j = some r → InRange r ∧ (z.store.cell j).Carries (carriedContent r)
  unclaimed : ∀ j, z.claimed j = false → (z.store.cell j).Unclaimed
  timeout : ∀ q, (z.store.nqMeta q).defaultTimeoutMs = storedTimeout (z.timeout q)

section Steps

variable {z : Ledger} {c : Codec}

theorem received_content (c : Codec) (r : DynEnqueue) : (received c.serde r).content = carriedContent r := by
  show Content.mk _ _ (some (tonumber (intText r.priority))) (some (tonumber (intText r.maxAttempts)))
    (some (tonumber (intText r.maxStalledCount))) _ _ = _
  rw [tonumber_intText, tonumber_intText, tonumber_intText]
  rfl

theorem fireCall_content (r : ScheduleRequest) (now next : ℤ) :
    (fireCall r now next).toEnqueue.content = carriedContent r.request := by
  show Content.mk _ _ (some (nearest _)) (some (nearest _)) _ _ _ = _
  rw [nearest_precise (precise_int16 _), nearest_precise (precise_int32 _)]
  rfl

theorem inRange_request (r : ScheduleRequest) : InRange r.request := by
  have hpriority := And.intro r.priority.le_toInt r.priority.toInt_lt
  have hmax := And.intro r.maxAttempts.le_toInt r.maxAttempts.toInt_lt
  exact ⟨hpriority, hmax, show (-2 ^ 31 : ℤ) ≤ 1 ∧ (1 : ℤ) < 2 ^ 31 by decide⟩

/-- A call that keeps every job and all timeouts. -/
theorem Ledger.Ok.keep (h : z.Ok) {s : Store} (hc : Carried z.store s) (hi : s.idgen = z.store.idgen)
    (hq : ∀ q, (s.nqMeta q).defaultTimeoutMs = (z.store.nqMeta q).defaultTimeoutMs) : Ledger.Ok { z with store := s } where
  fresh j hj := h.fresh j (hi ▸ hj)
  bare j hj := ⟨(hc j).bare (h.bare j hj).1, (h.bare j hj).2⟩
  carries j r hj := ⟨(h.carries j r hj).1, (h.carries j r hj).2.moved (hc j).toMoved⟩
  unclaimed j hj := (hc j).unclaimed (h.unclaimed j hj)
  timeout q := (hq q).trans (h.timeout q)

/-- A job is added. -/
theorem Ledger.Ok.enter (h : z.Ok) {a : EnqueueArgs} {now : ℤ} {s : Store} (he : Entered a now z.store s) {r : DynEnqueue}
    (hr : InRange r) (ha : a.content = carriedContent r) :
    Ledger.Ok { z with store := s, request := Function.update z.request (z.store.idgen + 1) (some r) } := by
  obtain ⟨hbare, hclaimed⟩ := h.bare (z.store.idgen + 1) (h.fresh _ (Nat.lt_succ_self _))
  have hnew : s.cell (z.store.idgen + 1) = (z.store.cell (z.store.idgen + 1)).inserted a (z.store.idgen + 1) now := by
    rw [he.cell, Function.update_self]
  have hold {j : JobId} (hj : j ≠ z.store.idgen + 1) : s.cell j = z.store.cell j := by
    rw [he.cell, Function.update_of_ne hj]
  refine ⟨fun j hj => ?_, fun j hj => ?_, fun j r' hj => ?_, fun j hj => ?_, fun q => ?_⟩
  · rw [he.idgen] at hj
    dsimp only
    rw [Function.update_of_ne (Nat.ne_of_gt hj)]
    exact h.fresh j (Nat.lt_of_succ_lt hj)
  · by_cases heq : j = z.store.idgen + 1
    · subst heq
      simp at hj
    · dsimp only at hj ⊢
      rw [Function.update_of_ne heq] at hj
      rw [hold heq]
      exact h.bare j hj
  · dsimp only at hj ⊢
    by_cases heq : j = z.store.idgen + 1
    · subst heq
      rw [Function.update_self] at hj
      obtain rfl := Option.some.inj hj
      rw [hnew, ← ha]
      exact ⟨hr, inserted_carries hbare a _ now⟩
    · rw [Function.update_of_ne heq] at hj
      rw [hold heq]
      exact h.carries j r' hj
  · dsimp only at hj ⊢
    by_cases heq : j = z.store.idgen + 1
    · subst heq
      rw [hnew]
      exact inserted_unclaimed hbare a _ now
    · rw [hold heq]
      exact h.unclaimed j hj
  · dsimp only
    rw [he.nqMeta]
    exact h.timeout q

/-- One enqueue. -/
theorem Ledger.Ok.enqueue (h : z.Ok) {r : DynEnqueue} (hr : InRange r) {a : EnqueueArgs} (ha : a.content = carriedContent r)
    (now : ℤ) : Ledger.Ok { z with
      store := (fnEnqueue z.store a now).1, request := noteAll z.request [(r, (fnEnqueue z.store a now).2)] } := by
  rcases fnEnqueue_entered z.store a now with heq | ⟨s, heq, he⟩
  · rw [heq]
    exact h
  · rw [heq]
    exact h.enter he hr ha

theorem Ledger.Ok.fire (h : z.Ok) (r : ScheduleRequest) (now next : ℤ) : Ledger.Ok { z with
    store := (fnScheduleFire z.store (fireCall r now next)).1
    request := noteAll z.request [(r.request, (fnScheduleFire z.store (fireCall r now next)).2)] } := by
  rcases fnScheduleFire_entered z.store (fireCall r now next) with heq | ⟨s, heq, he⟩
  · rw [heq]
    exact h
  · rw [heq]
    exact h.enter he (inRange_request r) (fireCall_content r now next)

/-- Many enqueues: one after the other. -/
theorem Ledger.Ok.enqueueMany (now : ℤ) : ∀ (reqs : List DynEnqueue) {z : Ledger}, z.Ok → (∀ r ∈ reqs, InRange r) →
    Ledger.Ok { z with
      store := (fnEnqueueMany z.store (reqs.map (received c.serde)) now).1
      request := noteAll z.request (reqs.zip (fnEnqueueMany z.store (reqs.map (received c.serde)) now).2) }
  | [], _, h, _ => h
  | r :: rs, z, h, hr => by
    have hone := h.enqueue (hr r List.mem_cons_self) (received_content c r) now
    exact Ledger.Ok.enqueueMany now rs hone fun r' hr' => hr r' (List.mem_cons_of_mem _ hr')

theorem Ledger.Ok.claim (h : z.Ok) (a : ClaimArgs) : Ledger.Ok { z with
    store := (fnClaim z.store a).1
    claimed := fun j => z.claimed j || decide (j ∈ (fnClaim z.store a).2.map (·.id)) } := by
  have hh := fnClaim_handed z.store a
  -- a job of the reply was pending, so that somebody had enqueued it
  have hknown {j : JobId} (hj : j ∈ (fnClaim z.store a).2.map (·.id)) : ¬ (z.store.cell j).Bare := by
    obtain ⟨e, he, rfl⟩ := List.mem_map.mp hj
    obtain ⟨_, -, _, -, hpend, -⟩ := hh.reply e he
    exact known_of_state hpend
  refine ⟨fun j hj => h.fresh j (hh.idgen ▸ hj), fun j hj => ?_, fun j r hj => ⟨(h.carries j r hj).1, ?_⟩, fun j hj => ?_,
    fun q => ?_⟩
  · obtain ⟨hbare, hfree⟩ := h.bare j hj
    have hnot := fun hmem => hknown (j := j) hmem hbare
    exact ⟨(hh.rest j hnot).symm ▸ hbare, by simp only [hfree, Bool.false_or, decide_eq_false_iff_not]; exact hnot⟩
  · by_cases hmem : j ∈ (fnClaim z.store a).2.map (·.id)
    · obtain ⟨e, he, rfl⟩ := List.mem_map.mp hmem
      exact (h.carries _ r hj).2.moved (hh.moved e he)
    · dsimp only
      rw [hh.rest j hmem]
      exact (h.carries j r hj).2
  · simp only [Bool.or_eq_false_iff, decide_eq_false_iff_not] at hj
    dsimp only
    rw [hh.rest j hj.2]
    exact h.unclaimed j hj.1
  · dsimp only
    rw [hh.nqMeta]
    exact h.timeout q

theorem Ledger.Ok.queueSetTimeout (h : z.Ok) (name : String) (timeout : Option Duration) : Ledger.Ok { z with
    store := fnQueueSetTimeout z.store name (nearest (timeoutMs timeout))
    timeout := Function.update z.timeout name timeout } := by
  have hsame : SameJobs z.store (fnQueueSetTimeout z.store name (nearest (timeoutMs timeout))) :=
    Op.apply_sameJobs z.store (.queueSetTimeout name _) rfl
  refine ⟨fun j hj => h.fresh j (hsame.2.1 ▸ hj), fun j hj => ?_, fun j r hj => ?_, fun j hj => ?_, fun q => ?_⟩
  · dsimp only
    rw [hsame.1]
    exact h.bare j hj
  · dsimp only
    rw [hsame.1]
    exact h.carries j r hj
  · dsimp only
    rw [hsame.1]
    exact h.unclaimed j hj
  · dsimp only
    by_cases hq : q = name
    · subst hq
      rw [Function.update_self, storedTimeout]
      unfold fnQueueSetTimeout
      split
      · simp
      · simp [setNqMeta]
    · rw [Function.update_of_ne hq, ← h.timeout q]
      unfold fnQueueSetTimeout
      split
      · simp [hq]
      · simp [setNqMeta, hq]

/-- The other settings do not touch the timeouts. -/
theorem Op.apply_timeouts (s : Store) (op : Op) (h : op.onSettings) (hno : ∀ name t, op ≠ .queueSetTimeout name t)
    (q : String) : ((op.apply s).nqMeta q).defaultTimeoutMs = (s.nqMeta q).defaultTimeoutMs := by
  have hset (name : String) (f : NqMeta → NqMeta) (hf : ∀ m, (f m).defaultTimeoutMs = m.defaultTimeoutMs) :
      ((setNqMeta s name f).nqMeta q).defaultTimeoutMs = (s.nqMeta q).defaultTimeoutMs := by
    by_cases hq : q = name
    · subst hq
      simp [setNqMeta, hf]
    · simp [setNqMeta, hq]
  cases op with
  | queueSetConcurrency name max => exact hset name (fun m => { m with maxConcurrency := some max }) fun _ => rfl
  | queueSetPaused name p => exact hset name (fun m => { m with paused := some p }) fun _ => rfl
  | queueSetTimeout name t => exact absurd rfl (hno name t)
  | scheduleUpsert a =>
    show ((fnScheduleUpsert s a).nqMeta q).defaultTimeoutMs = _
    unfold fnScheduleUpsert
    obtain ⟨l, hl⟩ := setSchedule_eq s a.name _
    dsimp only
    rw [hl]
    split <;> rfl
  | scheduleSetEnabled name e next =>
    show ((fnScheduleSetEnabled s name e next).1.nqMeta q).defaultTimeoutMs = _
    unfold fnScheduleSetEnabled
    split
    · rfl
    · split
      · obtain ⟨l, hl⟩ := setSchedule_eq { s with schedulesNext := s.schedulesNext.add next name } name _
        dsimp only
        rw [hl]
      · obtain ⟨l, hl⟩ := setSchedule_eq { s with schedulesNext := s.schedulesNext.rem name } name _
        dsimp only
        rw [hl]
  | groupSetRule pattern rule =>
    show ((fnGroupSetRule s pattern rule).nqMeta q).defaultTimeoutMs = _
    unfold fnGroupSetRule
    split <;> rfl
  | scheduleRemove | groupSetConcurrency | groupSetPaused | groupSetRate | groupClearRate | groupRemoveRule => rfl
  | _ => cases h

/-- **One call** keeps the line in step with what was asked for. -/
theorem Ledger.Ok.apply (h : z.Ok) (call : Call) (ht : call.Typed) : (z.apply c call).Ok := by
  cases call with
  | enqueue r now =>
    have hone : (enqueueOne c.serde now z.store r).1 = (fnEnqueue z.store (received c.serde r) now).1 := by
      unfold enqueueOne
      rw [luaEnqueue_wire, tonumber_intText]
    rw [Ledger.apply, hone]
    exact h.enqueue ht (received_content c r) now
  | enqueueMany reqs now =>
    have hmany : (Redis.enqueueMany c.serde now z.store reqs).1 =
        (fnEnqueueMany z.store (reqs.map (received c.serde)) (tonumber (tostring now))).1 := by
      unfold Redis.enqueueMany
      rw [enqueueCall_eq]
    rw [Ledger.apply, hmany]
    exact .enqueueMany _ reqs h ht
  | fire r now next => exact h.fire r now next
  | queueSetTimeout name timeout => exact h.queueSetTimeout name timeout
  | claim a => exact h.claim a
  | other op =>
    obtain ⟨hop, hno⟩ := ht
    refine h.keep (Op.apply_carried z.store op hop) ?_ fun q => ?_
    · rcases hop with hop | hop
      · exact (Op.apply_onJobs z.store op hop).idgen
      · exact (Op.apply_sameJobs z.store op hop).2.1
    · rcases hop with hop | hop
      · rw [(Op.apply_onJobs z.store op hop).nqMeta]
      · exact Op.apply_timeouts z.store op hop hno q

theorem reached_ok (h : z.Reached c) : z.Ok := by
  have hempty : Ledger.Ok {} := by
    have hnone (j : JobId) : Ledger.request {} j = none := rfl
    refine ⟨fun j _ => hnone j, fun _ _ => ⟨⟨rfl, fun _ => rfl⟩, rfl⟩, fun j r hj => ?_, fun _ _ => ?_, fun _ => ?_⟩
    · cases (hnone j).symm.trans hj
    · exact JobCell.Bare.unclaimed ⟨rfl, fun _ => rfl⟩
    · show none = storedTimeout none
      rw [storedTimeout_none]
  refine Reach.inv h hempty ?_
  rintro z call z' hz ⟨ht, rfl⟩
  exact hz.apply call ht

end Steps

/-! ## Claims of a reached line -/

section Claims

variable {z : Ledger} {c : Codec}

/-- The timeout that a claim replies. -/
theorem queueTimeout_eq (s : Store) (q : String) :
    queueTimeout s q = if q = "" then none else (s.nqMeta q).defaultTimeoutMs.filter (0 < ·) := by
  unfold queueTimeout readNqMeta
  split
  · rfl
  · dsimp only
    split
    · next h =>
      rw [h.2.2]
      rfl
    · cases (s.nqMeta q).defaultTimeoutMs with
      | none => rfl
      | some t => simp [Option.filter]

theorem queueTimeout_some {s : Store} {q : String} {t : ℤ} (h : queueTimeout s q = some t) :
    q ≠ "" ∧ 0 < t ∧ (s.nqMeta q).defaultTimeoutMs = some t := by
  rw [queueTimeout_eq] at h
  split at h
  · cases h
  · next hq =>
    obtain ⟨ht, hpos⟩ := Option.filter_eq_some_iff.mp h
    exact ⟨hq, of_decide_eq_true hpos, ht⟩

theorem given_getD (o : Option String) : given (some (o.getD "")) = given o := by
  cases o <;> rfl

/-- The reply of a job that carries its request. -/
theorem claimReply_describes {s : Store} {j : JobId} {r : DynEnqueue} (h : (s.cell j).Carries (carriedContent r))
    {kind : String} (hkind : (s.hash j).kind = some kind) (a : ClaimArgs) (t : Option ℤ) :
    (claimReply (s.hash j) a j kind t).Describes r ∧ kind = r.kind := by
  have hcontent : (s.hash j).content = carriedContent r := by
    rcases h.content with he | he
    · exact he
    · cases hkind.symm.trans (congrArg Content.kind he)
  have hk : kind = r.kind := Option.some.inj (hkind.symm.trans (congrArg Content.kind hcontent))
  have hpriority : (s.hash j).priority = some r.priority := congrArg Content.priority hcontent
  have hmax : (s.hash j).maxAttempts = some r.maxAttempts := congrArg Content.maxAttempts hcontent
  have hstalls : (s.hash j).maxStalledCount = some r.maxStalledCount := congrArg Content.maxStalledCount hcontent
  have hgroup : (s.hash j).groupKey = some (r.groupKey.getD "") := congrArg Content.groupKey hcontent
  refine ⟨⟨hk, congrArg Content.payload hcontent, ?_, ?_, ?_, congrArg Content.queue hcontent, ?_⟩, hk⟩
  · dsimp only [claimReply]
    rw [hpriority]
    rfl
  · dsimp only [claimReply]
    rw [hmax]
    rfl
  · dsimp only [claimReply]
    rw [hstalls]
    rfl
  · dsimp only [claimReply]
    rw [hgroup, given_getD]

/-- What a claim may start: a job of a listed queue and kind, with its request. -/
theorem Ledger.Ok.handed (h : z.Ok) {a : ClaimArgs} {e : ClaimedJob} (he : e ∈ (fnClaim z.store a).2) :
    ∃ r, z.request e.id = some r ∧ z.store.state e.id = some .pending ∧ r.queue ∈ a.queues ∧ r.kind ∈ a.kinds ∧
      e = claimReply (z.store.hash e.id) a e.id r.kind (queueTimeout z.store r.queue) ∧ e.Describes r := by
  obtain ⟨q, hq, kind, hlisted, hpend, hwait, hkind, heq⟩ := (fnClaim_handed z.store a).reply e he
  cases hr : z.request e.id with
  | none => exact absurd (h.bare e.id hr).1 (known_of_state hpend)
  | some r =>
    have hcarries := (h.carries e.id r hr).2
    obtain rfl : r.queue = q := Option.some.inj (hcarries.wait q hwait)
    obtain ⟨hdesc, rfl⟩ := claimReply_describes hcarries hkind a (queueTimeout z.store r.queue)
    exact ⟨r, rfl, hpend, hq, hlisted, heq, heq ▸ hdesc⟩

/-- The texts have room for the reply. -/
theorem Ledger.Ok.short (h : z.Ok) {a : ClaimArgs} {j : JobId} {r : DynEnqueue} (hr : z.request j = some r)
    (hfits : z.Fits j r) {e : ClaimedJob} (he : e = claimReply (z.store.hash j) a j r.kind (queueTimeout z.store r.queue))
    (hd : e.Describes r) : e.Short := by
  obtain ⟨hrange, hcarries⟩ := h.carries j r hr
  have hattempt : 0 ≤ (z.store.hash j).attempt.getD 0 := hcarries.attempt
  have hstalled : 0 ≤ (z.store.hash j).stalledCount.getD 0 := hcarries.stalled
  have hattempt' := hfits.attempt
  have hstalled' := hfits.stalledCount
  refine ⟨?_, hd.priority ▸ hrange.priority, hd.maxAttempts ▸ hrange.maxAttempts, ?_, ?_,
    hd.maxStalledCount ▸ hrange.maxStalledCount, fun t ht => ?_⟩
  · rw [he]
    exact hfits.id
  · rw [he]
    show _ ≤ (z.store.hash j).attempt.getD 0 + 1 ∧ (z.store.hash j).attempt.getD 0 + 1 < _
    omega
  · rw [he]
    show _ ≤ (z.store.hash j).stalledCount.getD 0 ∧ (z.store.hash j).stalledCount.getD 0 < _
    omega
  · rw [he] at ht
    obtain ⟨hq, hpos, hstored⟩ := queueTimeout_some (s := z.store) (q := r.queue) ht
    rw [h.timeout, storedTimeout] at hstored
    split at hstored
    · cases hstored
    · obtain rfl := Option.some.inj hstored
      exact ⟨hpos.le, hfits.timeout hq⟩

/-- A timeout that fits is stored as its milliseconds. -/
theorem storedTimeout_fits {d : Duration} (hlt : d.asMillis < 10 ^ 14) : storedTimeout (some d) = some (d.asMillis : ℤ) := by
  have hint : timeoutMs (some d) = d.asMillis := by
    rw [timeoutMs, Int64.toInt_ofNat']
    exact Int.bmod_eq_of_le (by simp only [Int64.size]; omega) (by simp only [Int64.size]; omega)
  have hprecise : Precise (d.asMillis : ℤ) := by
    unfold Precise
    omega
  rw [storedTimeout, hint, nearest_precise hprecise, if_neg (by omega)]

/-- Whole milliseconds are read as they were set. -/
theorem fromMillis_asMillis {d : Duration} (hdvd : 10 ^ 6 ∣ d.nanos) (hlt : d.asMillis < 10 ^ 14) :
    Duration.fromMillis (UInt64.ofNat d.asMillis) = d := by
  refine Duration.eq_of_nanos ?_
  rw [Duration.nanos_fromMillis, UInt64.toNat_ofNat_of_lt' (by simp only [UInt64.size]; omega), Duration.asMillis,
    Nat.div_mul_cancel hdvd]

/-- A timeout that fits is delivered. -/
theorem Ledger.Ok.timeout_read (h : z.Ok) {q : String}
    (hfits : ∀ d, z.timeout q = some d → q ≠ "" ∧ 10 ^ 6 ∣ d.nanos ∧ 0 < d.nanos ∧ d.asMillis < 10 ^ 14) :
    ((queueTimeout z.store q).filter (0 < ·)).map (fun ms => Duration.fromMillis (UInt64.ofNat ms.toNat)) =
      z.timeout q := by
  rw [queueTimeout_eq, h.timeout]
  cases hd : z.timeout q with
  | none =>
    rw [storedTimeout_none]
    by_cases hq : q = ""
    · rw [if_pos hq]
      rfl
    · rw [if_neg hq]
      rfl
  | some d =>
    obtain ⟨hq, hdvd, hpos, hlt⟩ := hfits d hd
    have hms : 0 < d.asMillis := Nat.div_pos (Nat.le_of_dvd hpos hdvd) (by decide)
    have hkept : (some (d.asMillis : ℤ)).filter (0 < ·) = some (d.asMillis : ℤ) :=
      Option.filter_some_pos (decide_eq_true (by exact_mod_cast hms))
    rw [if_neg hq, storedTimeout_fits hlt, hkept, hkept, Option.map_some, Int.toNat_natCast, fromMillis_asMillis hdvd hlt]

/-- A loop that fails as a whole succeeds where every turn does. -/
theorem mapM_ok {α β γ ε : Type} {f : α → Except ε β} {g : γ → α} {Q : γ → β → Prop} : ∀ {l : List γ},
    (∀ a ∈ l, ∃ b, f (g a) = .ok b ∧ Q a b) →
    ∃ bs, (l.map g).mapM f = .ok bs ∧ (∀ a ∈ l, ∃ b ∈ bs, Q a b) ∧ ∀ b ∈ bs, ∃ a ∈ l, Q a b
  | [], _ => ⟨[], rfl, fun _ h => absurd h List.not_mem_nil, fun _ h => absurd h List.not_mem_nil⟩
  | a :: l, h => by
    obtain ⟨b, hb, hab⟩ := h a List.mem_cons_self
    obtain ⟨bs, hbs, hall, hex⟩ := mapM_ok fun a ha => h a (List.mem_cons_of_mem _ ha)
    refine ⟨b :: bs, ?_, fun a' ha' => ?_, fun b' hb' => ?_⟩
    · rw [List.map_cons, List.mapM_cons, hb, hbs]
      rfl
    · rcases List.mem_cons.mp ha' with rfl | ha'
      · exact ⟨b, List.mem_cons_self, hab⟩
      · obtain ⟨b', hb', hq⟩ := hall a' ha'
        exact ⟨b', List.mem_cons_of_mem _ hb', hq⟩
    · rcases List.mem_cons.mp hb' with rfl | hb'
      · exact ⟨a, List.mem_cons_self, hab⟩
      · obtain ⟨a', ha', hq⟩ := hex b' hb'
        exact ⟨a', List.mem_cons_of_mem _ ha', hq⟩

/-- The job of a reply, at its first claim. -/
theorem Ledger.Ok.toClient_first (h : z.Ok) {a : ClaimArgs} {j : JobId} {r : DynEnqueue} (hfits : z.Fits j r)
    (hfree : z.claimed j = false) (hgroup : r.groupKey ≠ some "") {u : Uuids} (w : u.Id) :
    (claimReply (z.store.hash j) a j r.kind (queueTimeout z.store r.queue)).toClient r w =
      firstClaim j r w (z.timeout r.queue) := by
  have hattempt : (z.store.hash j).attempt.getD 0 = 0 := (h.unclaimed j hfree).attempt
  have hstalled : (z.store.hash j).stalledCount.getD 0 = 0 := (h.unclaimed j hfree).stalled
  have hkey : given r.groupKey = r.groupKey := by
    cases hg : r.groupKey with
    | none => rfl
    | some g => exact given_some fun he => hgroup (he ▸ hg)
  dsimp only [ClaimedJob.toClient, claimReply, firstClaim]
  rw [hattempt, hstalled, hkey, h.timeout_read (hfits.first hfree hgroup)]
  rfl

end Claims

/-! ## A run -/

/-- The lower-case hyphenated texts of UUIDs. -/
def hyphenated (s : String) : Bool :=
  s.toList.length = 36 && s.toList.zipIdx.all fun (c, i) =>
    if i ∈ [8, 13, 18, 23] then c = '-' else ('0' ≤ c && c ≤ '9') || ('a' ≤ c && c ≤ 'f')

def textUuids : Uuids where
  Id := { s : String // hyphenated s }
  text := Subtype.val
  parse s := if h : hyphenated s then .ok ⟨s, h⟩ else .error "invalid"

def someWorker : textUuids.Id := ⟨"0f8fad5b-d9cb-469f-a165-70867728950e", by decide +kernel⟩

/-- The texts of no tags and of no rule. -/
def plainCodec : Codec where
  json := fun _ => ""
  tags := fun _ => "[]"
  rule := fun _ => ""
  readTags := fun _ => []
  readRule := fun _ => none

/-- A job without options. -/
def greet : DynEnqueue where
  kind := "greet"
  payload := .arr [.num 1]

def greetClaim : ClaimArgs where
  batchSize := 10
  worker := "0f8fad5b-d9cb-469f-a165-70867728950e"
  now := 1000
  queues := ["default"]
  kinds := ["greet"]

/-- It is enqueued, and then its queue gets a timeout. -/
def greetCalls (timeout : Duration) : List Call := [.enqueue greet 0, .queueSetTimeout "default" (some timeout)]

def greetRun (timeout : Duration) : Ledger := (greetCalls timeout).foldl (Ledger.apply plainCodec) {}

theorem greetRun_reached (timeout : Duration) : (greetRun timeout).Reached plainCodec :=
  run_of_guards (greetCalls timeout) (Reach.refl _) ⟨⟨by decide, by decide, by decide⟩, trivial, trivial⟩

theorem greetRun_request (timeout : Duration) :
    (greetRun timeout).request = Function.update (fun _ => none) 1 (some greet) := by
  have hid : (fnEnqueue {} (received plainCodec.serde greet) 0).2 = some 1 := rfl
  show noteAll (fun _ => none) [(greet, (fnEnqueue {} (received plainCodec.serde greet) 0).2)] = _
  rw [hid]
  rfl

theorem textUuids_lawful : textUuids.Lawful := fun w => dif_pos w.2

end Eddyq.Redis
