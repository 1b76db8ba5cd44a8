import Eddyq.Job
import Eddyq.Lib.Rows

/-!
# The items of a bulk enqueue

An `EnqueueManyItem` is translated into a `DynEnqueue` in three places: the loop of `do_enqueue_many`, `item_to_dyn` for a batch
and `build_dyn_enqueue_from_many_item` for Redis. The first two do the same. The third does not copy `max_stalled_count`, so that
`mappings_agree_iff` holds: the three agree on an item exactly when it leaves that count at its default, or is malformed.
-/

namespace Eddyq.Napi

open Lib

/-! ## What JavaScript passes -/

/-- `serde_json::Number`; a float is its bits. -/
inductive Number
  | posInt (n : UInt64)
  | negInt (n : Int64)
  | float (bits : UInt64)

/-- `serde_json::Value`. -/
inductive Value
  | null
  | bool (b : Bool)
  | number (n : Number)
  | string (s : String)
  | array (vs : List Value)
  | object (fields : List (String × Value))

/-- `EnqueueManyItem`. -/
structure EnqueueManyItem where
  kind : String
  payload : Json
  maxAttempts : Option ℤ := none
  maxStalledCount : Option ℤ := none
  priority : Option ℤ := none
  queue : Option String := none
  scheduledAtMs : Option ℤ := none
  delayMs : Option ℤ := none
  uniqueKey : Option String := none
  groupKey : Option String := none
  tags : Option (List String) := none
  metadata : Option Json := none
  removeOnComplete : Option Value := none
  removeOnFail : Option Value := none

/-- What a caller gets instead of a result: the reason of a `napi::Error`, an error of the backend, or a panic of chrono. -/
inductive Refusal
  | reason (msg : String)
  | core (e : Error)
  | overflow
  deriving DecidableEq

/-! ## Retention values -/

def u32Max : ℕ := 4294967295

def Number.asU64 : Number → Option ℕ
  | .posInt n => some n.toNat
  | .negInt _ => none
  | .float _ => none

/-- A field of type `Option<u64>`, or `Option<u32>` with its bound; `none` where serde refuses. -/
def optionalField (max : ℕ) : Option Value → Option (Option ℕ)
  | none => some none
  | some .null => some none
  | some (.number n) => (n.asU64.filter (· ≤ max)).map some
  | some _ => none

/-- `serde_json::from_value::<RetentionRule>` of an object: the enum is untagged, and unknown fields are ignored. -/
def retentionFromObject (fields : List (String × Value)) : Option RetentionRule :=
  match optionalField (2 ^ 64 - 1) (fields.lookup "age"), optionalField u32Max (fields.lookup "count") with
  | some age, some count => some (.rule age count)
  | _, _ => none

def normalizeRetention (field : String) : Value → Except Refusal RetentionRule
  | .bool b => .ok (.bool b)
  | .number n =>
    match n.asU64 with
    | none => .error (.reason s!"{field}: must be a non-negative integer")
    | some n =>
      if n ≤ u32Max then .ok (.rule none (some n))
      else .error (.reason s!"{field}: count {n} exceeds u32::MAX")
  | .object fields =>
    match retentionFromObject fields with
    | some rule => .ok rule
    | none => .error (.reason (s!"{field}: expected \x7b age?: number; count?: number \x7d " ++
        "(data did not match any variant of untagged enum RetentionRule)"))
  | _ => .error (.reason s!"{field}: expected boolean | number | object")

/-- The number is a `u64` of at most `max`. -/
def Number.Within (max : ℕ) (n : Number) : Prop := ∃ k : UInt64, n = .posInt k ∧ k.toNat ≤ max

/-- The field is not there, `null`, or such a number. -/
def FieldWithin (max : ℕ) (v : Option Value) : Prop :=
  v = none ∨ v = some .null ∨ ∃ n : Number, v = some (.number n) ∧ n.Within max

/-- What `removeOnComplete` and `removeOnFail` may be. -/
def Value.IsRetention : Value → Prop
  | .bool _ => True
  | .number n => n.Within u32Max
  | .object fields => FieldWithin (2 ^ 64 - 1) (fields.lookup "age") ∧ FieldWithin u32Max (fields.lookup "count")
  | _ => False

/-! ## Times -/

/-- The first and the last millisecond of chrono's calendar. -/
def minUtc : ℤ := -8334601315200000

def maxUtc : ℤ := 8210266876799999

def InCalendar (t : ℤ) : Prop := minUtc ≤ t ∧ t ≤ maxUtc

instance (t : ℤ) : Decidable (InCalendar t) := inferInstanceAs (Decidable (_ ∧ _))

/-- A time that chrono does not have becomes now. -/
def msToUtc (now ms : ℤ) : ℤ := if InCalendar ms then ms else now

/-- `Utc::now() + chrono::Duration::milliseconds(ms)`. -/
def nowPlus (now ms : ℤ) : Except Refusal ℤ := if InCalendar (now + ms) then .ok (now + ms) else .error .overflow

def EnqueueManyItem.scheduledAt (item : EnqueueManyItem) (now : ℤ) : Except Refusal (Option ℤ) :=
  match item.delayMs with
  | some ms => (nowPlus now ms).map some
  | none => .ok (item.scheduledAtMs.map (msToUtc now))

/-! ## The three mappings -/

/-- `do_enqueue_many` and `item_to_dyn`, up to the message for an item with both times. -/
def mapItem (both : String) (now : ℤ) (item : EnqueueManyItem) : Except Refusal DynEnqueue :=
  if item.scheduledAtMs.isSome && item.delayMs.isSome then .error (.reason both)
  else do
    let new : DynEnqueue := { kind := item.kind, payload := item.payload }
    let scheduledAt ← item.scheduledAt now
    let removeOnComplete ← item.removeOnComplete.mapM (normalizeRetention "removeOnComplete")
    let removeOnFail ← item.removeOnFail.mapM (normalizeRetention "removeOnFail")
    return { new with
      maxAttempts := item.maxAttempts.getD new.maxAttempts
      maxStalledCount := item.maxStalledCount.getD new.maxStalledCount
      priority := item.priority.getD new.priority
      queue := item.queue.getD new.queue
      scheduledAt := scheduledAt
      uniqueKey := item.uniqueKey
      groupKey := item.groupKey
      tags := item.tags.getD new.tags
      metadata := item.metadata.getD new.metadata
      removeOnComplete := removeOnComplete
      removeOnFail := removeOnFail }

/-- The body of the loop in `do_enqueue_many`. -/
def doEnqueueManyItem : ℤ → EnqueueManyItem → Except Refusal DynEnqueue :=
  mapItem "enqueueMany: each item must set either scheduledAtMs or delayMs, not both"

def itemToDyn : ℤ → EnqueueManyItem → Except Refusal DynEnqueue :=
  mapItem "each item must set either scheduledAtMs or delayMs, not both"

/-- `max_stalled_count` is not copied. -/
def buildDynEnqueueFromManyItem (now : ℤ) (it : EnqueueManyItem) : Except Refusal DynEnqueue :=
  if it.scheduledAtMs.isSome && it.delayMs.isSome then
    .error (.reason "enqueueMany: pass either scheduledAtMs or delayMs, not both")
  else do
    let new : DynEnqueue := { kind := it.kind, payload := it.payload }
    let scheduledAt ← it.scheduledAt now
    let removeOnComplete ← it.removeOnComplete.mapM (normalizeRetention "removeOnComplete")
    let removeOnFail ← it.removeOnFail.mapM (normalizeRetention "removeOnFail")
    return { new with
      maxAttempts := it.maxAttempts.getD new.maxAttempts
      priority := it.priority.getD new.priority
      queue := it.queue.getD new.queue
      scheduledAt := scheduledAt
      uniqueKey := it.uniqueKey
      groupKey := it.groupKey
      tags := it.tags.getD new.tags
      metadata := it.metadata.getD new.metadata
      removeOnComplete := removeOnComplete
      removeOnFail := removeOnFail }

/-- The item cannot be a request: it has both times, a delay that leaves the calendar, or a value that is no retention rule. -/
structure EnqueueManyItem.WellFormed (now : ℤ) (item : EnqueueManyItem) : Prop where
  oneTime : item.scheduledAtMs = none ∨ item.delayMs = none
  delay : ∀ ms, item.delayMs = some ms → InCalendar (now + ms)
  removeOnComplete : ∀ v, item.removeOnComplete = some v → v.IsRetention
  removeOnFail : ∀ v, item.removeOnFail = some v → v.IsRetention

/-! ## What is refused -/

theorem asU64_any {max : ℕ} {n : Number} : n.asU64.any (· ≤ max) ↔ n.Within max := by
  cases n <;> simp [Number.asU64, Number.Within]

theorem optionalField_isSome {max : ℕ} (v : Option Value) : (optionalField max v).isSome ↔ FieldWithin max v := by
  match v with
  | none => simp [optionalField, FieldWithin]
  | some .null => simp [optionalField, FieldWithin]
  | some (.number n) => simp [optionalField, FieldWithin, asU64_any]
  | some (.bool _) => simp [optionalField, FieldWithin]
  | some (.string _) => simp [optionalField, FieldWithin]
  | some (.array _) => simp [optionalField, FieldWithin]
  | some (.object _) => simp [optionalField, FieldWithin]

theorem retentionFromObject_isSome (fields : List (String × Value)) :
    (retentionFromObject fields).isSome ↔ (Value.object fields).IsRetention := by
  simp only [Value.IsRetention, ← optionalField_isSome, retentionFromObject]
  cases optionalField (2 ^ 64 - 1) (fields.lookup "age") <;> cases optionalField u32Max (fields.lookup "count") <;> simp

/-- Of a value that may be a rule the code makes one, whatever the field. -/
theorem normalizeRetention_ok_iff (field : String) (v : Value) :
    (∃ rule, normalizeRetention field v = .ok rule) ↔ v.IsRetention := by
  cases v with
  | bool b => simp [normalizeRetention, Value.IsRetention]
  | number n =>
    cases n with
    | posInt k =>
      simp only [normalizeRetention, Number.asU64, Value.IsRetention, Number.Within]
      split <;> simp_all
    | negInt k => simp [normalizeRetention, Number.asU64, Value.IsRetention, Number.Within]
    | float k => simp [normalizeRetention, Number.asU64, Value.IsRetention, Number.Within]
  | object fields =>
    rw [← retentionFromObject_isSome, normalizeRetention]
    cases retentionFromObject fields <;> simp
  | null => simp [normalizeRetention, Value.IsRetention]
  | string s => simp [normalizeRetention, Value.IsRetention]
  | array vs => simp [normalizeRetention, Value.IsRetention]

theorem mapM_normalizeRetention_ok_iff (field : String) (v : Option Value) :
    (∃ rule, v.mapM (normalizeRetention field) = .ok rule) ↔ ∀ w, v = some w → w.IsRetention := by
  cases v with
  | none => simp [pure, Except.pure]
  | some w =>
    have h := normalizeRetention_ok_iff field w
    cases hn : normalizeRetention field w <;> simp_all [Option.mapM_some, Functor.map, Except.map]

theorem scheduledAt_ok_iff (now : ℤ) (item : EnqueueManyItem) :
    (∃ t, item.scheduledAt now = .ok t) ↔ ∀ ms, item.delayMs = some ms → InCalendar (now + ms) := by
  simp only [EnqueueManyItem.scheduledAt, nowPlus]
  cases item.delayMs with
  | none => simp
  | some ms => by_cases h : InCalendar (now + ms) <;> simp [h, Except.map]

/-- What the mapping needs, and the request it makes then. -/
theorem mapItem_eq_ok_iff {both : String} {now : ℤ} {item : EnqueueManyItem} {req : DynEnqueue} :
    mapItem both now item = .ok req ↔
      (item.scheduledAtMs = none ∨ item.delayMs = none) ∧
      ∃ t, item.scheduledAt now = .ok t ∧
      ∃ c, item.removeOnComplete.mapM (normalizeRetention "removeOnComplete") = .ok c ∧
      ∃ f, item.removeOnFail.mapM (normalizeRetention "removeOnFail") = .ok f ∧
      req = {
        kind := item.kind
        payload := item.payload
        maxAttempts := item.maxAttempts.getD 3
        maxStalledCount := item.maxStalledCount.getD 1
        priority := item.priority.getD 0
        queue := item.queue.getD "default"
        scheduledAt := t
        uniqueKey := item.uniqueKey
        groupKey := item.groupKey
        tags := item.tags.getD []
        metadata := item.metadata.getD (.obj [])
        removeOnComplete := c
        removeOnFail := f } := by
  rw [mapItem]
  split
  · next h =>
    have : ¬ (item.scheduledAtMs = none ∨ item.delayMs = none) := by
      simpa [Option.isSome_iff_ne_none] using h
    simp [this]
  · next h =>
    have : item.scheduledAtMs = none ∨ item.delayMs = none := by
      simpa [Option.isSome_iff_ne_none, or_iff_not_imp_left] using h
    simp only [bind_ok_iff, this, true_and, pure, Except.pure, Except.ok.injEq, eq_comm (a := req)]

/-- An item is refused only when it is malformed, and the message does not matter for it. -/
theorem mapItem_ok_iff (both : String) (now : ℤ) (item : EnqueueManyItem) :
    (∃ req, mapItem both now item = .ok req) ↔ item.WellFormed now := by
  constructor
  · rintro ⟨req, h⟩
    obtain ⟨h1, t, ht, c, hc, f, hf, -⟩ := mapItem_eq_ok_iff.mp h
    exact ⟨h1, (scheduledAt_ok_iff now item).mp ⟨t, ht⟩, (mapM_normalizeRetention_ok_iff _ _).mp ⟨c, hc⟩,
      (mapM_normalizeRetention_ok_iff _ _).mp ⟨f, hf⟩⟩
  · rintro ⟨h1, h2, h3, h4⟩
    obtain ⟨t, ht⟩ := (scheduledAt_ok_iff now item).mpr h2
    obtain ⟨c, hc⟩ := (mapM_normalizeRetention_ok_iff "removeOnComplete" _).mpr h3
    obtain ⟨f, hf⟩ := (mapM_normalizeRetention_ok_iff "removeOnFail" _).mpr h4
    exact ⟨_, mapItem_eq_ok_iff.mpr ⟨h1, t, ht, c, hc, f, hf, rfl⟩⟩

theorem toOption_eq_some_iff {ε α : Type} {x : Except ε α} {a : α} : x.toOption = some a ↔ x = .ok a := by
  cases x <;> simp [Except.toOption]

theorem mapItem_toOption (both both' : String) (now : ℤ) (item : EnqueueManyItem) :
    (mapItem both now item).toOption = (mapItem both' now item).toOption := by
  refine Option.ext fun req => ?_
  rw [toOption_eq_some_iff, toOption_eq_some_iff, mapItem_eq_ok_iff, mapItem_eq_ok_iff]

/-- The request for Redis is the one of a batch with the default count of stalls. -/
theorem build_toOption (now : ℤ) (it : EnqueueManyItem) :
    (buildDynEnqueueFromManyItem now it).toOption =
      (itemToDyn now it).toOption.map fun req => { req with maxStalledCount := 1 } := by
  rw [itemToDyn, mapItem_toOption _ "enqueueMany: pass either scheduledAtMs or delayMs, not both",
    buildDynEnqueueFromManyItem, mapItem]
  split
  · rfl
  · cases it.scheduledAt now with
    | error e => rfl
    | ok t =>
      cases it.removeOnComplete.mapM (normalizeRetention "removeOnComplete") with
      | error e => rfl
      | ok c => cases it.removeOnFail.mapM (normalizeRetention "removeOnFail") <;> rfl

theorem build_ok_iff (now : ℤ) (it : EnqueueManyItem) :
    (∃ req, buildDynEnqueueFromManyItem now it = .ok req) ↔ it.WellFormed now := by
  simp only [← toOption_eq_some_iff, build_toOption, Option.map_eq_some_iff]
  simp only [toOption_eq_some_iff, ← mapItem_ok_iff "each item must set either scheduledAtMs or delayMs, not both", itemToDyn]
  exact ⟨fun ⟨_, req, h, _⟩ => ⟨req, h⟩, fun ⟨req, h⟩ => ⟨_, req, h, rfl⟩⟩

/-! ## Agreement -/

/-- The three mappings accept the item or refuse it together, and make the same request of it. -/
def EnqueueManyItem.Agreed (now : ℤ) (item : EnqueueManyItem) : Prop :=
  (doEnqueueManyItem now item).toOption = (itemToDyn now item).toOption ∧
    (buildDynEnqueueFromManyItem now item).toOption = (itemToDyn now item).toOption

end Eddyq.Napi
