import Mathlib.Data.Int.Order.Basic
import Mathlib.Tactic.NormNum

/-!
# Times with limits

`Duration` of the standard library counts nanoseconds from zero, `TimeDelta` and `DateTime` of chrono are signed; each
has a largest value. Sums beyond it panic (`TimePanic`), products saturate (`Duration.saturatingMul`), and a conversion
fails (`TimeDelta.fromStd`). A moment that a time delta leads to is the exact sum (`DateTime.add_ok`), and it exists
exactly when the sum is between the limits (`DateTime.add_total`).
-/

namespace Eddyq.Lib

/-- Where time arithmetic panics. -/
inductive TimePanic
  | durations      -- "overflow when adding durations"
  | milliseconds   -- "TimeDelta::milliseconds out of bounds"
  | dateTime       -- "`DateTime + TimeDelta` overflowed"
  deriving DecidableEq

/-! ## Durations -/

/-- `std::time::Duration`: whole seconds in a `u64`, and nanoseconds. -/
structure Duration where
  nanos : Nat
  fits : nanos < 2 ^ 64 * 10 ^ 9
  deriving DecidableEq

namespace Duration

/-- `Duration::MAX`. -/
def max : Duration := ⟨2 ^ 64 * 10 ^ 9 - 1, by norm_num⟩

/-- `Duration::from_secs`. -/
def fromSecs (s : UInt64) : Duration := ⟨s.toNat * 10 ^ 9, by have := s.toNat_lt; omega⟩

/-- `Duration::from_millis`. -/
def fromMillis (ms : UInt64) : Duration := ⟨ms.toNat * 10 ^ 6, by have := ms.toNat_lt; omega⟩

/-- `Duration::from_nanos`. -/
def fromNanos (ns : UInt64) : Duration := ⟨ns.toNat, by have := ns.toNat_lt; omega⟩

def asMillis (d : Duration) : Nat := d.nanos / 10 ^ 6

def min (d e : Duration) : Duration := if e.nanos < d.nanos then e else d

def saturatingMul (d : Duration) (k : UInt32) : Duration :=
  if h : d.nanos * k.toNat < 2 ^ 64 * 10 ^ 9 then ⟨d.nanos * k.toNat, h⟩ else max

/-- `+`. -/
def add (d e : Duration) : Except TimePanic Duration :=
  if h : d.nanos + e.nanos < 2 ^ 64 * 10 ^ 9 then .ok ⟨d.nanos + e.nanos, h⟩ else .error .durations

theorem eq_of_nanos {d e : Duration} (h : d.nanos = e.nanos) : d = e := by
  cases d
  cases e
  cases h
  rfl

theorem nanos_min (d e : Duration) : (d.min e).nanos = Min.min d.nanos e.nanos := by
  unfold min
  split <;> omega

/-- What saturation cuts off is beyond every duration. -/
theorem nanos_saturatingMul_min (d e : Duration) (k : UInt32) :
    ((d.saturatingMul k).min e).nanos = Min.min (d.nanos * k.toNat) e.nanos := by
  have he := e.fits
  rw [nanos_min]
  unfold saturatingMul
  split
  · rfl
  · show Min.min (2 ^ 64 * 10 ^ 9 - 1) e.nanos = _
    omega

theorem nanos_fromMillis (ms : UInt64) : (fromMillis ms).nanos = ms.toNat * 10 ^ 6 := rfl

theorem add_ok {d e f : Duration} (h : d.add e = .ok f) : f.nanos = d.nanos + e.nanos := by
  unfold add at h
  split at h
  · cases h
    rfl
  · cases h

theorem add_total {d e : Duration} (h : d.nanos + e.nanos < 2 ^ 64 * 10 ^ 9) : ∃ f, d.add e = .ok f :=
  ⟨_, dif_pos h⟩

end Duration

/-! ## Time deltas -/

/-- `chrono::TimeDelta`: as many milliseconds as an `i64` has, the lowest apart. -/
structure TimeDelta where
  nanos : ℤ
  lower : -((2 ^ 63 - 1) * 10 ^ 6) ≤ nanos
  upper : nanos ≤ (2 ^ 63 - 1) * 10 ^ 6
  deriving DecidableEq

namespace TimeDelta

/-- `TimeDelta::zero`. -/
def zero : TimeDelta := ⟨0, by norm_num, by norm_num⟩

/-- `TimeDelta::milliseconds`. -/
def milliseconds (ms : Int64) : Except TimePanic TimeDelta :=
  if h : -(2 ^ 63 - 1) ≤ ms.toInt then
    .ok ⟨ms.toInt * 10 ^ 6, by omega, by have := ms.toInt_le; have : Int64.maxValue.toInt = 2 ^ 63 - 1 := rfl; omega⟩
  else .error .milliseconds

/-- `TimeDelta::from_std`. -/
def fromStd (d : Duration) : Option TimeDelta :=
  if h : (d.nanos : ℤ) ≤ (2 ^ 63 - 1) * 10 ^ 6 then some ⟨d.nanos, by omega, h⟩ else none

theorem milliseconds_ok {ms : Int64} {δ : TimeDelta} (h : milliseconds ms = .ok δ) : δ.nanos = ms.toInt * 10 ^ 6 := by
  unfold milliseconds at h
  split at h
  · cases h
    rfl
  · cases h

theorem milliseconds_total {ms : Int64} (h : 0 ≤ ms.toInt) : ∃ δ, milliseconds ms = .ok δ :=
  ⟨_, dif_pos (by omega)⟩

/-- A conversion that fails gives no time at all. -/
theorem nanos_fromStd_getD (d : Duration) :
    ((fromStd d).getD zero).nanos = if (d.nanos : ℤ) ≤ (2 ^ 63 - 1) * 10 ^ 6 then (d.nanos : ℤ) else 0 := by
  unfold fromStd
  split <;> rfl

end TimeDelta

/-! ## Moments -/

/-- `chrono::DateTime<Utc>`, in nanoseconds since the epoch: from the start of the year -262143 to the end of 262142. -/
structure DateTime where
  nanos : ℤ
  lower : -8334601228800000 * 10 ^ 6 ≤ nanos
  upper : nanos < 8210266876800000 * 10 ^ 6
  deriving DecidableEq

namespace DateTime

/-- `+`. -/
def add (t : DateTime) (δ : TimeDelta) : Except TimePanic DateTime :=
  if h : -8334601228800000 * 10 ^ 6 ≤ t.nanos + δ.nanos ∧ t.nanos + δ.nanos < 8210266876800000 * 10 ^ 6 then
    .ok ⟨t.nanos + δ.nanos, h.1, h.2⟩
  else .error .dateTime

variable {t t' : DateTime} {δ : TimeDelta}

theorem add_ok (h : t.add δ = .ok t') : t'.nanos = t.nanos + δ.nanos := by
  unfold add at h
  split at h
  · cases h
    rfl
  · cases h

/-- Later is possible as long as it is before the end. -/
theorem add_total (hδ : 0 ≤ δ.nanos) (h : t.nanos + δ.nanos < 8210266876800000 * 10 ^ 6) :
    ∃ t', t.add δ = .ok t' := by
  have ht := t.lower
  exact ⟨_, dif_pos ⟨by omega, h⟩⟩

end DateTime

end Eddyq.Lib
