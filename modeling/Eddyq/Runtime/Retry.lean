import Eddyq.Job
import Eddyq.Lib.Time

/-!
# When a failed job is tried again

The error branch of `worker_loop` computes the time of the next attempt: `now` and the delay of a `Directive::Retry`, or
`now` and the backoff of `retry_schedule`. It asks for a moment that exists (`Fits`) or it does something else: the delay
becomes negative in the cast to `i64`, the backoff becomes zero in `from_std`, or the addition panics.
`retry_honoured_iff` says that these are all the failures.
-/

namespace Eddyq.Runtime

open Lib

/-- `Directive` of a `HandlerFailure`. -/
inductive Directive
  | cancel
  | retry (delayMs : UInt64)
  deriving DecidableEq

/-- How a handler ended without a value: with an error, whose `HandlerFailure` may have a directive, or with a panic. -/
inductive Failed
  | error (directive : Option Directive)
  | panic

/-- The settings of `QueueConfig` that retries use; every duration is accepted. -/
structure QueueConfig where
  retryBase : Duration := .fromSecs 1
  retryMax : Duration := .fromSecs 300

/-- `rand::thread_rng().gen_range(0..n)`. -/
structure Rng where
  genRange : UInt64 → UInt64
  below : ∀ n, 0 < n → genRange n < n

/-- `u32::try_from(n).unwrap_or(u32::MAX)`. -/
def toU32 (n : Nat) : UInt32 := .ofNat (min n (2 ^ 32 - 1))

/-- `u64::try_from(n).unwrap_or(u64::MAX)`. -/
def toU64 (n : Nat) : UInt64 := .ofNat (min n (2 ^ 64 - 1))

theorem toNat_toU32 (n : Nat) : (toU32 n).toNat = min n (2 ^ 32 - 1) :=
  UInt32.toNat_ofNat_of_lt' (by show _ < 2 ^ 32; omega)

theorem toNat_toU64 (n : Nat) : (toU64 n).toNat = min n (2 ^ 64 - 1) :=
  UInt64.toNat_ofNat_of_lt' (by show _ < 2 ^ 64; omega)

/-! ## The code -/

/-- The delay before the jitter: `base * 2^(attempt-1)` up to `2^20`, at most `max`. -/
def cappedDelay (attempt : ℤ) (base max : Duration) : Duration :=
  let exp := min (Max.max attempt 1 - 1).toNat 20
  let multiplier := 2 ^ min exp 32
  (base.saturatingMul (toU32 multiplier)).min max

/-- `backoff_delay`. -/
def backoffDelay (rng : Rng) (attempt : ℤ) (base max : Duration) : Except TimePanic Duration :=
  let capped := cappedDelay attempt base max
  let jitterRange := capped.asMillis / 4
  let jitterMs := if jitterRange = 0 then 0 else rng.genRange (toU64 jitterRange)
  capped.add (.fromMillis jitterMs)

/-- `backoff_until`. -/
def backoffUntil (rng : Rng) (now : DateTime) (attempt : ℤ) (base max : Duration) : Except TimePanic DateTime := do
  let delay ← backoffDelay rng attempt base max
  now.add ((TimeDelta.fromStd delay).getD .zero)

/-- `retry_schedule`. -/
def retrySchedule (rng : Rng) (now : DateTime) (attempt maxAttempts : ℤ) (config : QueueConfig) :
    Except TimePanic (Option DateTime) :=
  if attempt ≥ maxAttempts then .ok none
  else some <$> backoffUntil rng now attempt config.retryBase config.retryMax

/-- `retry_at` of `worker_loop`. -/
def retryAt (rng : Rng) (now : DateTime) (attempt maxAttempts : ℤ) (config : QueueConfig) :
    Failed → Except TimePanic (Option DateTime)
  | .error (some .cancel) => .ok none
  | .error (some (.retry delayMs)) => do
    let delta ← TimeDelta.milliseconds delayMs.toInt64
    some <$> now.add delta
  | .error none | .panic => retrySchedule rng now attempt maxAttempts config

/-- The time of a retry is one that `retry_schedule` may give to the job. -/
theorem retrySchedule_ok {rng : Rng} {now : DateTime} {attempt maxAttempts : ℤ} {config : QueueConfig}
    {o : Option DateTime} (h : retrySchedule rng now attempt maxAttempts config = .ok o) :
    ∃ t, o.map DateTime.nanos = Eddyq.retrySchedule attempt maxAttempts t := by
  unfold retrySchedule at h
  unfold Eddyq.retrySchedule
  split at h
  · next hge =>
    cases h
    exact ⟨0, by rw [if_pos hge]; rfl⟩
  · next hlt =>
    cases hb : backoffUntil rng now attempt config.retryBase config.retryMax with
    | error e =>
      rw [hb] at h
      cases h
    | ok t =>
      rw [hb] at h
      cases h
      exact ⟨t.nanos, by rw [if_neg hlt]; rfl⟩

/-! ## What is asked for -/

/-- The nanoseconds that have to pass: those of the directive, or `min(base * 2^(attempt-1), max)` up to the cap of the
exponent. -/
def requested (config : QueueConfig) (attempt : ℤ) : Failed → Nat
  | .error (some .cancel) => 0
  | .error (some (.retry delayMs)) => delayMs.toNat * 10 ^ 6
  | .error none | .panic => min (config.retryBase.nanos * 2 ^ min (attempt - 1).toNat 20) config.retryMax.nanos

/-- The longest jitter, in nanoseconds: a quarter of the delay, less one millisecond. -/
def jitter (config : QueueConfig) (attempt : ℤ) : Failed → Nat
  | .error (some _) => 0
  | f => (requested config attempt f / 10 ^ 6 / 4 - 1) * 10 ^ 6

/-- The job is to be tried again. -/
def Retries (attempt maxAttempts : ℤ) : Failed → Prop
  | .error (some .cancel) => False
  | .error (some (.retry _)) => True
  | .error none | .panic => attempt < maxAttempts

/-- The moment that is asked for is before the end of chrono's calendar, whatever the jitter. -/
def Fits (now : DateTime) (config : QueueConfig) (attempt : ℤ) (f : Failed) : Prop :=
  now.nanos + requested config attempt f + jitter config attempt f < 8210266876800000 * 10 ^ 6

/-- Whatever the jitter, there is no panic, and a retry is not before the requested time. -/
def Honoured (now : DateTime) (attempt maxAttempts : ℤ) (config : QueueConfig) (f : Failed) : Prop :=
  ∀ rng : Rng, ∃ o, retryAt rng now attempt maxAttempts config f = .ok o ∧
    ∀ t ∈ o, now.nanos + requested config attempt f ≤ t.nanos

/-! ## The delay -/

/-- The draw that `gen_range` may make at most. -/
def Rng.worst : Rng where
  genRange n := n - 1
  below n hn := by
    have h1 : (1 : UInt64) ≤ n := UInt64.le_iff_toNat_le.mpr (UInt64.lt_iff_toNat_lt.mp hn)
    rw [UInt64.lt_iff_toNat_lt] at hn ⊢
    rw [UInt64.toNat_sub_of_le _ _ h1]
    show n.toNat - 1 < n.toNat
    have : (0 : UInt64).toNat = 0 := rfl
    omega

/-- The milliseconds of jitter that `backoff_delay` draws. -/
def jitterMs (rng : Rng) (jitterRange : Nat) : UInt64 :=
  if jitterRange = 0 then 0 else rng.genRange (toU64 jitterRange)

theorem jitterMs_le (rng : Rng) (r : Nat) : (jitterMs rng r).toNat ≤ r - 1 := by
  unfold jitterMs
  split
  · exact Nat.zero_le _
  · next hr =>
    have hpos : 0 < toU64 r := by
      rw [UInt64.lt_iff_toNat_lt, toNat_toU64]
      show 0 < _
      omega
    have hlt := UInt64.lt_iff_toNat_lt.mp (rng.below _ hpos)
    rw [toNat_toU64] at hlt
    omega

theorem jitterMs_worst (r : Nat) : (jitterMs .worst r).toNat = min r (2 ^ 64 - 1) - 1 := by
  unfold jitterMs
  split
  · next hr =>
    rw [hr]
    rfl
  · next hr =>
    have h1 : 1 ≤ toU64 r := by
      rw [UInt64.le_iff_toNat_le, toNat_toU64]
      show 1 ≤ _
      omega
    show (toU64 r - 1).toNat = _
    rw [UInt64.toNat_sub_of_le _ _ h1, toNat_toU64]
    rfl

theorem nanos_cappedDelay (attempt : ℤ) (base max : Duration) :
    (cappedDelay attempt base max).nanos = min (base.nanos * 2 ^ min (attempt - 1).toNat 20) max.nanos := by
  have hexp : (Max.max attempt 1 - 1).toNat = (attempt - 1).toNat := by omega
  have hpow : 2 ^ min (attempt - 1).toNat 20 ≤ 2 ^ 20 := Nat.pow_le_pow_right (by norm_num) (by omega)
  unfold cappedDelay
  rw [Duration.nanos_saturatingMul_min, toNat_toU32, hexp, Nat.min_eq_left (show min (attempt - 1).toNat 20 ≤ 32 by omega),
    Nat.min_eq_left (show 2 ^ min (attempt - 1).toNat 20 ≤ 2 ^ 32 - 1 by omega)]

theorem backoffDelay_eq (rng : Rng) (attempt : ℤ) (base max : Duration) :
    backoffDelay rng attempt base max = (cappedDelay attempt base max).add
      (.fromMillis (jitterMs rng ((cappedDelay attempt base max).asMillis / 4))) := rfl

variable {rng : Rng} {now t : DateTime} {attempt maxAttempts : ℤ} {base max : Duration} {config : QueueConfig}

/-- A moment before the end of the calendar is reached, and it is not too early. -/
theorem backoffUntil_later (rng : Rng)
    (h : now.nanos + (cappedDelay attempt base max).nanos + ((cappedDelay attempt base max).asMillis / 4 - 1 : ℕ) * 10 ^ 6 <
      8210266876800000 * 10 ^ 6) :
    ∃ t, backoffUntil rng now attempt base max = .ok t ∧
      now.nanos + (cappedDelay attempt base max).nanos ≤ t.nanos := by
  generalize hc : cappedDelay attempt base max = c at h ⊢
  have hj := jitterMs_le rng (c.asMillis / 4)
  have hnow := now.lower
  obtain ⟨d, hd⟩ : ∃ d, c.add (.fromMillis (jitterMs rng (c.asMillis / 4))) = .ok d :=
    Duration.add_total (by rw [Duration.nanos_fromMillis]; omega)
  have hdn := Duration.add_ok hd
  rw [Duration.nanos_fromMillis] at hdn
  have hδ : ((TimeDelta.fromStd d).getD .zero).nanos = d.nanos := by
    rw [TimeDelta.nanos_fromStd_getD, if_pos (by omega)]
  obtain ⟨t, ht⟩ : ∃ t, now.add ((TimeDelta.fromStd d).getD .zero) = .ok t :=
    DateTime.add_total (by omega) (by omega)
  refine ⟨t, ?_, ?_⟩
  · unfold backoffUntil
    rw [backoffDelay_eq, hc, hd]
    exact ht
  · rw [DateTime.add_ok ht]
    omega

/-- If the longest jitter gives a time that is not too early, then that time is before the end of the calendar. -/
theorem fits_of_backoffUntil (h : backoffUntil .worst now attempt base max = .ok t)
    (late : now.nanos + (cappedDelay attempt base max).nanos ≤ t.nanos) :
    now.nanos + (cappedDelay attempt base max).nanos + ((cappedDelay attempt base max).asMillis / 4 - 1 : ℕ) * 10 ^ 6 <
      8210266876800000 * 10 ^ 6 := by
  unfold backoffUntil at h
  rw [backoffDelay_eq] at h
  generalize cappedDelay attempt base max = c at h late ⊢
  have hj := jitterMs_worst (c.asMillis / 4)
  have hc : c.asMillis = c.nanos / 10 ^ 6 := rfl
  cases hd : c.add (.fromMillis (jitterMs .worst (c.asMillis / 4))) with
  | error e =>
    rw [hd] at h
    cases h
  | ok d =>
    rw [hd] at h
    have hdn := Duration.add_ok hd
    rw [Duration.nanos_fromMillis] at hdn
    have ht := DateTime.add_ok h
    have hend := t.upper
    rw [TimeDelta.nanos_fromStd_getD] at ht
    split at ht
    · omega
    · -- the conversion failed and the retry is immediate, but a delay that long was asked for
      omega

/-- `as i64`. -/
theorem toInt_toInt64 (d : UInt64) :
    d.toInt64.toInt = if d.toNat < 2 ^ 63 then (d.toNat : ℤ) else d.toNat - 2 ^ 64 := by
  show d.toBitVec.toInt = _
  rw [BitVec.toInt_eq_toNat_cond]
  show (if 2 * d.toNat < 2 ^ 64 then (d.toNat : ℤ) else d.toNat - (2 ^ 64 : ℕ)) = _
  split <;> split <;> omega

/-! ## The result -/

theorem honoured_backoff (h : attempt < maxAttempts) {f : Failed}
    (hf : ∀ rng, retryAt rng now attempt maxAttempts config f = retrySchedule rng now attempt maxAttempts config)
    (hr : requested config attempt f = (cappedDelay attempt config.retryBase config.retryMax).nanos)
    (hj : jitter config attempt f =
      ((cappedDelay attempt config.retryBase config.retryMax).asMillis / 4 - 1) * 10 ^ 6) :
    Honoured now attempt maxAttempts config f ↔ Fits now config attempt f := by
  have hs : ∀ rng, retryAt rng now attempt maxAttempts config f =
      some <$> backoffUntil rng now attempt config.retryBase config.retryMax := fun rng => by
    rw [hf, retrySchedule, if_neg (by omega)]
  unfold Honoured Fits
  rw [hr, hj]
  push_cast
  constructor
  · intro hh
    obtain ⟨o, ho, hlate⟩ := hh .worst
    rw [hs] at ho
    cases hb : backoffUntil .worst now attempt config.retryBase config.retryMax with
    | error e =>
      rw [hb] at ho
      cases ho
    | ok t =>
      rw [hb] at ho
      cases ho
      exact fits_of_backoffUntil hb (hlate t rfl)
  · intro hfit rng
    obtain ⟨t, ht, hlate⟩ := backoffUntil_later rng hfit
    refine ⟨some t, by rw [hs, ht]; rfl, fun t' ht' => ?_⟩
    cases ht'
    exact hlate

theorem retryAt_retry (rng : Rng) (d : UInt64) : retryAt rng now attempt maxAttempts config (.error (some (.retry d))) =
    (TimeDelta.milliseconds d.toInt64).bind fun δ => some <$> now.add δ := rfl

theorem honoured_retry (d : UInt64) : Honoured now attempt maxAttempts config (.error (some (.retry d))) ↔
    Fits now config attempt (.error (some (.retry d))) := by
  have hnow := now.lower
  have hd := toInt_toInt64 d
  have hlt := d.toNat_lt
  unfold Honoured Fits
  simp only [requested, jitter, Nat.cast_zero, add_zero]
  push_cast
  constructor
  · intro hh
    obtain ⟨o, ho, hlate⟩ := hh .worst
    rw [retryAt_retry] at ho
    cases hδ : TimeDelta.milliseconds d.toInt64 with
    | error e =>
      rw [hδ] at ho
      cases ho
    | ok δ =>
      have hδn := TimeDelta.milliseconds_ok hδ
      rw [hδ] at ho
      replace ho : some <$> now.add δ = .ok o := ho
      cases ht : now.add δ with
      | error e =>
        rw [ht] at ho
        cases ho
      | ok t =>
        rw [ht] at ho
        cases ho
        have hlate := hlate t rfl
        have htn := DateTime.add_ok ht
        have hend := t.upper
        -- a delay that the cast turns negative leads before `now`
        split at hd <;> omega
  · intro hfit rng
    rw [if_pos (by omega)] at hd
    obtain ⟨δ, hδ⟩ := TimeDelta.milliseconds_total (show 0 ≤ d.toInt64.toInt by omega)
    have hδn := TimeDelta.milliseconds_ok hδ
    obtain ⟨t, ht⟩ := DateTime.add_total (t := now) (δ := δ) (by omega) (by omega)
    have htn := DateTime.add_ok ht
    refine ⟨some t, ?_, fun t' ht' => ?_⟩
    · rw [retryAt_retry, hδ]
      show some <$> now.add δ = _
      rw [ht]
      rfl
    · cases ht'
      omega

/-- The time of a retry is honoured exactly when the requested moment, with the longest jitter, is before the end of the
calendar. -/
theorem retry_honoured_iff (now : DateTime) (attempt maxAttempts : ℤ) (config : QueueConfig) (f : Failed) :
    Honoured now attempt maxAttempts config f ↔ (Retries attempt maxAttempts f → Fits now config attempt f) := by
  have hno : ∀ f, (∀ rng, retryAt rng now attempt maxAttempts config f = .ok none) →
      Honoured now attempt maxAttempts config f := fun f hf rng => ⟨none, hf rng, fun t ht => nomatch ht⟩
  have hback : ∀ f, f = .error none ∨ f = .panic →
      (Honoured now attempt maxAttempts config f ↔ (attempt < maxAttempts → Fits now config attempt f)) := by
    intro f hf
    by_cases h : attempt < maxAttempts
    · rw [imp_iff_right h]
      rcases hf with rfl | rfl <;>
        exact honoured_backoff h (fun _ => rfl) (by simp only [requested, nanos_cappedDelay])
          (by simp only [jitter, requested, Duration.asMillis, nanos_cappedDelay])
    · refine iff_of_true (hno f fun rng => ?_) (fun h' => absurd h' h)
      have hs : retrySchedule rng now attempt maxAttempts config = .ok none := if_pos (by omega)
      rcases hf with rfl | rfl <;> exact hs
  match f with
  | .error (some .cancel) => exact iff_of_true (hno _ fun _ => rfl) False.elim
  | .error (some (.retry d)) => rw [honoured_retry d, Retries, imp_iff_right trivial]
  | .error none => exact hback _ (.inl rfl)
  | .panic => exact hback _ (.inr rfl)

/-- A delay of `u64::MAX` milliseconds is not honoured. -/
theorem longest_delay_lost : ¬ ∀ now attempt maxAttempts config f, Honoured now attempt maxAttempts config f := by
  intro h
  have hfit := (honoured_retry 18446744073709551615).mp (h ⟨0, by norm_num, by norm_num⟩ 1 3 {} _)
  have hmax : (18446744073709551615 : UInt64).toNat = 18446744073709551615 := rfl
  simp only [Fits, requested, jitter, hmax] at hfit
  norm_num at hfit

end Eddyq.Runtime
