import Eddyq.Lib.Time
import Eddyq.Redis.Bulk
import Eddyq.Redis.Carried
import Eddyq.Redis.ScheduleWire

/-!
# Claims as texts

`eddyq_claim` replies a text for each job it has moved to running, and `parse_claim_reply` makes jobs of the texts or fails
as a whole. `parseClaimedJob_text` says for one text when it is read, and as what.
-/

namespace Eddyq.Redis

open Lib Lib.Json

/-! ## The reply of the library -/

/-- A field of a HASH; one that is not there is `false`. -/
def hmgetField : Option String → LuaValue
  | some s => .string s.toList
  | none => .boolean false

/-- The table of a job; a key whose value is `nil` is not in it. -/
def claimTable (e : ClaimedJob) : List (List Char × Option LuaValue) :=
  [("id".toList, some (.number (nearest e.id))), ("kind".toList, some (.string e.kind.toList)),
    ("payload".toList, some (hmgetField e.payload)), ("priority".toList, some (.number (nearest e.priority))),
    ("max_attempts".toList, some (.number (nearest e.maxAttempts))), ("attempt".toList, some (.number (nearest e.attempt))),
    ("stalled_count".toList, some (.number (nearest e.stalledCount))),
    ("max_stalled_count".toList, some (.number (nearest e.maxStalledCount))), ("queue".toList, some (hmgetField e.queue)),
    ("group_key".toList, e.groupKey.map fun g => .string g.toList), ("worker_id".toList, some (.string e.workerId.toList)),
    ("timeout_ms".toList, e.timeoutMs.map fun t => .number (nearest t))]

/-- One string of the reply. -/
def claimText (e : ClaimedJob) : List Char := cjsonEncode (members id (claimTable e))

/-- `eddyq_claim` with its reply as it is sent. -/
def luaClaim (s : Store) (a : ClaimArgs) : Store × List (List Char) :=
  let r := fnClaim s a
  (r.1, r.2.map claimText)

/-! ## The Rust side -/

/-- The uuid crate: `to_string` and `parse_str`, which may say why not. -/
structure Uuids where
  Id : Type
  text : Id → String
  parse : String → Except String Id

/-- An id is read from its own text. -/
def Uuids.Lawful (u : Uuids) : Prop := ∀ w, u.parse (u.text w) = .ok w

/-- `ClaimedJob` of the core. -/
structure Client.ClaimedJob (Id : Type) where
  id : ℤ
  kind : String
  payload : Json
  attempt : ℤ
  maxAttempts : ℤ
  stalledCount : ℤ
  maxStalledCount : ℤ
  groupKey : Option String
  queue : String
  workerId : Id
  timeout : Option Duration

structure ClaimedJobJson where
  id : ℤ
  kind : List Char
  payload : List Char
  priority : ℤ
  maxAttempts : ℤ
  attempt : ℤ
  stalledCount : ℤ
  maxStalledCount : ℤ
  queue : List Char
  groupKey : Option (List Char)
  workerId : List Char
  timeoutMs : Option ℤ

/-- `default_max_stalled_count_json`. -/
def defaultMaxStalledCountJson : ℤ := 1

/-- An `Option<u64>`. -/
def readOptU64 : Option Value → Option (Option ℤ)
  | none => some none
  | some .null => some none
  | v => (readInteger 0 (2 ^ 64 - 1) v).map some

/-- The `Deserialize` of `ClaimedJobJson`. -/
def deserializeClaimedJob : Value → Option ClaimedJobJson
  | .obj fields => do
    let id ← readI64 (← getField "id".toList fields)
    let kind ← readString (← getField "kind".toList fields)
    let payload ← readString (← getField "payload".toList fields)
    let priority ← readI16 (← getField "priority".toList fields)
    let maxAttempts ← readI32 (← getField "max_attempts".toList fields)
    let attempt ← readI32 (← getField "attempt".toList fields)
    let stalledCount ← orDefault 0 readI32 (← getField "stalled_count".toList fields)
    let maxStalledCount ← orDefault defaultMaxStalledCountJson readI32 (← getField "max_stalled_count".toList fields)
    let queue ← readString (← getField "queue".toList fields)
    let groupKey ← readOptString (← getField "group_key".toList fields)
    let workerId ← readString (← getField "worker_id".toList fields)
    let timeoutMs ← readOptU64 (← getField "timeout_ms".toList fields)
    some { id, kind, payload, priority, maxAttempts, attempt, stalledCount, maxStalledCount, queue, groupKey, workerId,
           timeoutMs }
  | _ => none

/-- Why a reply is not read. -/
inductive ClaimError
  | json
  | protocol (msg : String)
  deriving DecidableEq

/-- The `ClaimedJob` of a reply, with its payload and its worker id parsed. -/
def ClaimedJobJson.job (raw : ClaimedJobJson) (payload : Json) {Id : Type} (workerId : Id) : Client.ClaimedJob Id where
  id := raw.id
  kind := String.ofList raw.kind
  payload := payload
  attempt := raw.attempt
  maxAttempts := raw.maxAttempts
  stalledCount := raw.stalledCount
  maxStalledCount := raw.maxStalledCount
  groupKey := raw.groupKey.map String.ofList
  queue := String.ofList raw.queue
  workerId := workerId
  timeout := (raw.timeoutMs.filter (0 < ·)).map fun ms => Duration.fromMillis (UInt64.ofNat ms.toNat)

/-- `parse_claimed_job`. -/
def parseClaimedJob (u : Uuids) (s : List Char) : Except ClaimError (Client.ClaimedJob u.Id) :=
  match (fromStr s).bind deserializeClaimedJob with
  | none => .error .json
  | some raw => match readJson raw.payload with
    | none => .error .json
    | some payload => match u.parse (String.ofList raw.workerId) with
      | .error e => .error (.protocol s!"bad worker_id: {e}")
      | .ok workerId => .ok (raw.job payload workerId)

/-- `parse_claim_reply`: one text that is not read is an error for all. -/
def parseClaimReply (u : Uuids) (entries : List (List Char)) : Except ClaimError (List (Client.ClaimedJob u.Id)) :=
  entries.mapM (parseClaimedJob u)

/-! ## One text -/

theorem members_id {α β : Type} (f : α → β) (l : List (List Char × Option α)) :
    members (fun v => some (f v)) (members id l) = members (Option.map f) l := by
  unfold members
  rw [List.filterMap_filterMap]
  refine List.filterMap_congr fun m _ => ?_
  cases m.2 <;> rfl

theorem fromStr_claimText (e : ClaimedJob) :
    fromStr (claimText e) = some (.obj (members (Option.map LuaValue.toValue) (claimTable e))) := by
  rw [claimText, fromStr_cjsonEncode, LuaTable.fields, members_id]

theorem getField_claimTable (e : ClaimedJob) {k : List Char} {v : Option LuaValue} (h : (k, v) ∈ claimTable e) :
    getField k (members (Option.map LuaValue.toValue) (claimTable e)) = some (v.map LuaValue.toValue) := by
  refine getField_members ?_ h
  show ["id".toList, "kind".toList, "payload".toList, "priority".toList, "max_attempts".toList, "attempt".toList,
    "stalled_count".toList, "max_stalled_count".toList, "queue".toList, "group_key".toList, "worker_id".toList,
    "timeout_ms".toList].Nodup
  decide

/-- An integer field of a table reads the precise numbers in its range. -/
theorem readInteger_nearest (lo hi n : ℤ) :
    readInteger lo hi (some (.num (g14 (nearest n)))) = if Precise n ∧ lo ≤ n ∧ n ≤ hi then some n else none := by
  rw [readInteger_g14]
  by_cases h : Precise n
  · rw [nearest_precise h]
  · rw [if_neg fun hn => not_precise_nearest h hn.1, if_neg fun hn => h hn.1]

/-- The numbers of a text are read. -/
structure ClaimedJob.Short (e : ClaimedJob) : Prop where
  id : (e.id : ℤ) < 10 ^ 14
  priority : -2 ^ 15 ≤ e.priority ∧ e.priority < 2 ^ 15
  maxAttempts : -2 ^ 31 ≤ e.maxAttempts ∧ e.maxAttempts < 2 ^ 31
  attempt : -2 ^ 31 ≤ e.attempt ∧ e.attempt < 2 ^ 31
  stalledCount : -2 ^ 31 ≤ e.stalledCount ∧ e.stalledCount < 2 ^ 31
  maxStalledCount : -2 ^ 31 ≤ e.maxStalledCount ∧ e.maxStalledCount < 2 ^ 31
  timeout : ∀ t, e.timeoutMs = some t → 0 ≤ t ∧ t < 10 ^ 14

/-- What is read then. -/
def ClaimedJob.raw (e : ClaimedJob) (p q : String) : ClaimedJobJson where
  id := e.id
  kind := e.kind.toList
  payload := p.toList
  priority := e.priority
  maxAttempts := e.maxAttempts
  attempt := e.attempt
  stalledCount := e.stalledCount
  maxStalledCount := e.maxStalledCount
  queue := q.toList
  groupKey := e.groupKey.map String.toList
  workerId := e.workerId.toList
  timeoutMs := e.timeoutMs

theorem readInteger_inRange {lo hi n : ℤ} (hp : Precise n) (hlo : lo ≤ n) (hhi : n ≤ hi) :
    readInteger lo hi (some (.num (g14 (nearest n)))) = some n := by
  rw [readInteger_nearest, if_pos ⟨hp, hlo, hhi⟩]

theorem readInteger_eq_some {lo hi n m : ℤ} (h : readInteger lo hi (some (.num (g14 (nearest n)))) = some m) :
    Precise n ∧ lo ≤ n ∧ n ≤ hi := by
  rw [readInteger_nearest] at h
  by_contra hn
  rw [if_neg hn] at h
  cases h

section Text

variable {e : ClaimedJob} {p q : String}

/-- The text of a job: how each of its fields is read. -/
theorem deserialize_claimText (hp : e.payload = some p) (hq : e.queue = some q) :
    (fromStr (claimText e)).bind deserializeClaimedJob = (do
      let id ← readI64 (some (.num (g14 (nearest e.id))))
      let priority ← readI16 (some (.num (g14 (nearest e.priority))))
      let maxAttempts ← readI32 (some (.num (g14 (nearest e.maxAttempts))))
      let attempt ← readI32 (some (.num (g14 (nearest e.attempt))))
      let stalledCount ← readI32 (some (.num (g14 (nearest e.stalledCount))))
      let maxStalledCount ← readI32 (some (.num (g14 (nearest e.maxStalledCount))))
      let timeoutMs ← readOptU64 (e.timeoutMs.map fun t => .num (g14 (nearest t)))
      some { e.raw p q with id, priority, maxAttempts, attempt, stalledCount, maxStalledCount, timeoutMs }) := by
  have hget {k : List Char} {v : Option LuaValue} (h : (k, v) ∈ claimTable e) := getField_claimTable e h
  rw [fromStr_claimText, Option.bind_some]
  dsimp only [deserializeClaimedJob]
  rw [hget (k := "id".toList) (v := some (.number (nearest e.id))) (by simp [claimTable]),
    hget (k := "kind".toList) (v := some (.string e.kind.toList)) (by simp [claimTable]),
    hget (k := "payload".toList) (v := some (.string p.toList)) (by simp [claimTable, hp, hmgetField]),
    hget (k := "priority".toList) (v := some (.number (nearest e.priority))) (by simp [claimTable]),
    hget (k := "max_attempts".toList) (v := some (.number (nearest e.maxAttempts))) (by simp [claimTable]),
    hget (k := "attempt".toList) (v := some (.number (nearest e.attempt))) (by simp [claimTable]),
    hget (k := "stalled_count".toList) (v := some (.number (nearest e.stalledCount))) (by simp [claimTable]),
    hget (k := "max_stalled_count".toList) (v := some (.number (nearest e.maxStalledCount))) (by simp [claimTable]),
    hget (k := "queue".toList) (v := some (.string q.toList)) (by simp [claimTable, hq, hmgetField]),
    hget (k := "group_key".toList) (v := e.groupKey.map fun g => .string g.toList) (by simp [claimTable]),
    hget (k := "worker_id".toList) (v := some (.string e.workerId.toList)) (by simp [claimTable]),
    hget (k := "timeout_ms".toList) (v := e.timeoutMs.map fun t => .number (nearest t)) (by simp [claimTable])]
  dsimp only [ClaimedJob.raw]
  cases e.groupKey <;> cases e.timeoutMs <;> rfl

/-- **Short numbers** are read. -/
theorem deserialize_short (hp : e.payload = some p) (hq : e.queue = some q) (h : e.Short) :
    (fromStr (claimText e)).bind deserializeClaimedJob = some (e.raw p q) := by
  have h32 {n : ℤ} (hn : -2 ^ 31 ≤ n ∧ n < 2 ^ 31) : readI32 (some (.num (g14 (nearest n)))) = some n :=
    readInteger_inRange (by unfold Precise; omega) hn.1 (by omega)
  have hid : readI64 (some (.num (g14 (nearest e.id)))) = some (e.id : ℤ) := by
    have hlt := h.id
    exact readInteger_inRange (by unfold Precise; omega) (by omega) (by omega)
  have hpriority : readI16 (some (.num (g14 (nearest e.priority)))) = some e.priority := by
    have hrange := h.priority
    exact readInteger_inRange (by unfold Precise; omega) hrange.1 (by omega)
  have htimeout : readOptU64 (e.timeoutMs.map fun t => .num (g14 (nearest t))) = some e.timeoutMs := by
    cases ht : e.timeoutMs with
    | none => rfl
    | some t =>
      have hrange := h.timeout t ht
      show (readInteger 0 (2 ^ 64 - 1) (some (.num (g14 (nearest t))))).map some = _
      rw [readInteger_inRange (by unfold Precise; omega) hrange.1 (by omega)]
      rfl
  rw [deserialize_claimText hp hq, hid, hpriority, h32 h.maxAttempts, h32 h.attempt, h32 h.stalledCount,
    h32 h.maxStalledCount, htimeout]
  rfl

/-- **Nothing else** is. -/
theorem short_of_deserialize (hp : e.payload = some p) (hq : e.queue = some q) {raw : ClaimedJobJson}
    (h : (fromStr (claimText e)).bind deserializeClaimedJob = some raw) : e.Short := by
  have h32 {n m : ℤ} (hn : readI32 (some (.num (g14 (nearest n)))) = some m) : -2 ^ 31 ≤ n ∧ n < 2 ^ 31 := by
    obtain ⟨-, hlo, hhi⟩ := readInteger_eq_some hn
    omega
  rw [deserialize_claimText hp hq] at h
  obtain ⟨id, hid, h⟩ := Option.bind_eq_some_iff.mp h
  obtain ⟨priority, hpriority, h⟩ := Option.bind_eq_some_iff.mp h
  obtain ⟨maxAttempts, hmaxAttempts, h⟩ := Option.bind_eq_some_iff.mp h
  obtain ⟨attempt, hattempt, h⟩ := Option.bind_eq_some_iff.mp h
  obtain ⟨stalledCount, hstalledCount, h⟩ := Option.bind_eq_some_iff.mp h
  obtain ⟨maxStalledCount, hmaxStalledCount, h⟩ := Option.bind_eq_some_iff.mp h
  obtain ⟨timeoutMs, htimeoutMs, -⟩ := Option.bind_eq_some_iff.mp h
  refine ⟨?_, ?_, h32 hmaxAttempts, h32 hattempt, h32 hstalledCount, h32 hmaxStalledCount, fun t ht => ?_⟩
  · obtain ⟨hprecise, -, -⟩ := readInteger_eq_some hid
    unfold Precise at hprecise
    omega
  · obtain ⟨-, hlo, hhi⟩ := readInteger_eq_some hpriority
    omega
  · rw [ht] at htimeoutMs
    obtain ⟨n, hn, -⟩ := Option.map_eq_some_iff.mp htimeoutMs
    obtain ⟨hprecise, hlo, -⟩ := readInteger_eq_some hn
    unfold Precise at hprecise
    omega

end Text

/-! ## The job of a text -/

/-- The ranges of the number fields of a request. -/
structure InRange (r : DynEnqueue) : Prop where
  priority : -2 ^ 15 ≤ r.priority ∧ r.priority < 2 ^ 15
  maxAttempts : -2 ^ 31 ≤ r.maxAttempts ∧ r.maxAttempts < 2 ^ 31
  maxStalledCount : -2 ^ 31 ≤ r.maxStalledCount ∧ r.maxStalledCount < 2 ^ 31

namespace ClaimedJob

/-- The entry of a reply is that of a job that was enqueued with this request. -/
structure Describes (e : ClaimedJob) (r : DynEnqueue) : Prop where
  kind : e.kind = r.kind
  payload : e.payload = some (String.ofList (jsonText r.payload))
  priority : e.priority = r.priority
  maxAttempts : e.maxAttempts = r.maxAttempts
  maxStalledCount : e.maxStalledCount = r.maxStalledCount
  queue : e.queue = some r.queue
  groupKey : e.groupKey = given r.groupKey

/-- The job of the entry. -/
def toClient (e : ClaimedJob) (r : DynEnqueue) {Id : Type} (w : Id) : Client.ClaimedJob Id where
  id := e.id
  kind := r.kind
  payload := r.payload
  attempt := e.attempt
  maxAttempts := r.maxAttempts
  stalledCount := e.stalledCount
  maxStalledCount := r.maxStalledCount
  groupKey := given r.groupKey
  queue := r.queue
  workerId := w
  timeout := (e.timeoutMs.filter (0 < ·)).map fun ms => Duration.fromMillis (UInt64.ofNat ms.toNat)

end ClaimedJob

section Parse

variable {u : Uuids} {e : ClaimedJob} {r : DynEnqueue} {w : u.Id}

theorem deserialize_of_parse {x : Client.ClaimedJob u.Id} (h : parseClaimedJob u (claimText e) = .ok x) :
    ∃ raw, (fromStr (claimText e)).bind deserializeClaimedJob = some raw := by
  unfold parseClaimedJob at h
  split at h
  · cases h
  · next raw hraw => exact ⟨raw, hraw⟩

/-- **The text of a job** is read as the job, exactly if its numbers are short and its payload can be read. -/
theorem parseClaimedJob_text (hd : e.Describes r) (hw : u.parse e.workerId = .ok w) :
    parseClaimedJob u (claimText e) = .ok (e.toClient r w) ↔ e.Short ∧ r.payload.depth < 128 := by
  have hpayload : (e.raw (String.ofList (jsonText r.payload)) r.queue).payload = jsonText r.payload :=
    String.toList_ofList
  constructor
  · intro h
    obtain ⟨raw, hraw⟩ := deserialize_of_parse h
    have hshort := short_of_deserialize hd.payload hd.queue hraw
    refine ⟨hshort, readJson_jsonText_iff.mp ?_⟩
    unfold parseClaimedJob at h
    rw [deserialize_short hd.payload hd.queue hshort] at h
    dsimp only at h
    rw [hpayload] at h
    split at h
    · cases h
    · next payload hread =>
      split at h
      · cases h
      · rw [hread]
        exact congrArg some (congrArg Client.ClaimedJob.payload (Except.ok.inj h))
  · rintro ⟨hshort, hdepth⟩
    have hworker : u.parse (String.ofList (e.raw (String.ofList (jsonText r.payload)) r.queue).workerId) = .ok w := by
      show u.parse (String.ofList e.workerId.toList) = _
      rw [String.ofList_toList, hw]
    have hgroup : (e.groupKey.map String.toList).map String.ofList = given r.groupKey := by
      rw [Option.map_map, hd.groupKey, show String.ofList ∘ String.toList = id from funext fun _ => String.ofList_toList,
        Option.map_id, id]
    have hjob : (e.raw (String.ofList (jsonText r.payload)) r.queue).job r.payload w = e.toClient r w := by
      dsimp only [ClaimedJobJson.job, ClaimedJob.raw, ClaimedJob.toClient]
      rw [hgroup, hd.kind, hd.maxAttempts, hd.maxStalledCount, String.ofList_toList, String.ofList_toList]
    unfold parseClaimedJob
    rw [deserialize_short hd.payload hd.queue hshort]
    dsimp only
    rw [hpayload, readJson_jsonText_iff.mpr hdepth]
    dsimp only
    rw [hworker, ← hjob]

end Parse

end Eddyq.Redis
