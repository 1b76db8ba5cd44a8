import Eddyq.Lib.Runs
import Eddyq.Runtime.Retry

/-!
# The pace of the fetcher

Between two claims `fetch_loop` sleeps: for `fetch_cooldown` after an error or a batch that was not full, for the idle
backoff and a jitter after a claim that found nothing. A wakeup ends the second and the third sleep; one that comes while
the fetcher is elsewhere is kept by `Notify` for the next of them.

`Poller.Step` is one event of the loop and its clock. Timers and the scheduler may be late by `slack`. `Poller.Paced` says
what the backoff is and how long the fetcher sleeps (`reached_paced`), `Poller.Prompt` what a wakeup does
(`reached_prompt`). Both follow from one invariant (`Poller.Inv`).
-/

namespace Eddyq.Runtime.Polling

open Eddyq.Lib

/-! ## The code -/

/-- `IDLE_BACKOFF_MAX_FACTOR`. -/
def idleBackoffMaxFactor : UInt32 := 8

/-- `IDLE_BACKOFF_ABSOLUTE_MAX`. -/
def idleBackoffAbsoluteMax : Duration := .fromSecs 30

/-- The settings of `QueueConfig` that pace the fetcher. -/
structure QueueConfig where
  fetchPollInterval : Duration := .fromSecs 1
  fetchCooldown : Duration := .fromMillis 100

def idleCeiling (pollInterval : Duration) : Duration :=
  (pollInterval.saturatingMul idleBackoffMaxFactor).min idleBackoffAbsoluteMax

def escalateIdle (current ceiling : Duration) : Duration := (current.saturatingMul 2).min ceiling

/-- `jitter`: at least ten milliseconds more, and up to a tenth. -/
def jitter (rng : Rng) (base : Duration) : Except TimePanic Duration :=
  let nanos := toU64 base.nanos
  let tenth := nanos / 10
  let extra := if tenth = 0 then 0 else rng.genRange tenth
  base.add (.fromNanos (max extra 10000000))

/-- Where `fetch_loop` is. -/
inductive Stage
  /-- At the top, waiting for an idle worker. -/
  | ready
  | claiming
  /-- In the sleep after an error. -/
  | cooling (deadline : ℕ)
  /-- In the `select!` of a wakeup and the sleep. -/
  | resting (since deadline : ℕ)
  /-- In the sleep after a wakeup. -/
  | notified (deadline : ℕ)
  | stopped
  | panicked
  deriving DecidableEq

/-- The fetcher, its clock in nanoseconds, and what the run has seen: the claims in a row that found nothing since the
backoff was reset, when the last claim ended and whether its batch was full, and the first wakeup since a claim began. -/
structure Poller where
  now : ℕ
  stage : Stage := .ready
  idleBackoff : Duration
  /-- The permit of `wakeup`, with the time it was stored. -/
  permit : Option ℕ := none
  cancelled : Bool := false
  quiet : ℕ := 0
  lastEnd : ℕ
  full : Bool := true
  woken : Option ℕ := none

/-- The start of `fetch_loop`. -/
def Poller.start (cfg : QueueConfig) (now : ℕ) : Poller where
  now := now
  idleBackoff := cfg.fetchPollInterval
  lastEnd := now

/-- From when on the sleeping fetcher can go on. -/
def Poller.due (p : Poller) : Option ℕ :=
  match p.stage with
  | .cooling d | .notified d => some d
  | .resting since d => some (p.permit.elim d fun t => min d (max t since))
  | _ => none

/-- One event. -/
inductive Poller.Step (cfg : QueueConfig) (slack : ℕ) : Poller → Poller → Prop
  /-- Time passes, and who can go on is not kept waiting for long. -/
  | pass {p : Poller} {t : ℕ} (le : p.now ≤ t) (onTime : ∀ d, p.due = some d → t ≤ d + slack) : Step cfg slack p { p with now := t }
  /-- `wakeup.notify_one()`: there is one permit at most. -/
  | notify {p : Poller} :
      Step cfg slack p { p with permit := some (p.permit.getD p.now), woken := some (p.woken.getD p.now) }
  /-- There is an idle worker. -/
  | claim {p : Poller} (pc : p.stage = .ready) (on : p.cancelled = false) :
      Step cfg slack p { p with stage := .claiming, woken := none }
  /-- `fetch failed`. -/
  | failed {p : Poller} (pc : p.stage = .claiming) :
      Step cfg slack p { p with
        stage := .cooling (p.now + cfg.fetchCooldown.nanos), lastEnd := p.now, full := false }
  /-- A full batch: fetch again at once, and leave the backoff alone. -/
  | filled {p : Poller} (pc : p.stage = .claiming) :
      Step cfg slack p { p with stage := .ready, lastEnd := p.now, full := true }
  /-- Fewer jobs than asked for. -/
  | some {p : Poller} (pc : p.stage = .claiming) :
      Step cfg slack p { p with
        stage := .resting p.now (p.now + cfg.fetchCooldown.nanos), idleBackoff := cfg.fetchPollInterval, quiet := 0
        lastEnd := p.now, full := false }
  /-- No job. -/
  | empty {p : Poller} {rng : Rng} {sleep : Duration} (pc : p.stage = .claiming) (draw : jitter rng p.idleBackoff = .ok sleep) :
      Step cfg slack p { p with
        stage := .resting p.now (p.now + sleep.nanos)
        idleBackoff := escalateIdle p.idleBackoff (idleCeiling cfg.fetchPollInterval), quiet := p.quiet + 1
        lastEnd := p.now, full := false }
  | overflow {p : Poller} {rng : Rng} {e : TimePanic} (pc : p.stage = .claiming) (draw : jitter rng p.idleBackoff = .error e) :
      Step cfg slack p { p with stage := .panicked, lastEnd := p.now, full := false }
  /-- `wakeup.notified()` comes before the sleep in the `select!`. -/
  | wake {p : Poller} {since d t : ℕ} (pc : p.stage = .resting since d) (stored : p.permit = .some t) (on : p.cancelled = false) :
      Step cfg slack p { p with
        stage := .notified (p.now + cfg.fetchCooldown.nanos), idleBackoff := cfg.fetchPollInterval, quiet := 0
        permit := none }
  | slept {p : Poller} {since d : ℕ} (pc : p.stage = .resting since d) (passed : d ≤ p.now) (unstored : p.permit = none)
      (on : p.cancelled = false) : Step cfg slack p { p with stage := .ready }
  | cooled {p : Poller} {d : ℕ} (pc : p.stage = .cooling d ∨ p.stage = .notified d) (passed : d ≤ p.now) :
      Step cfg slack p { p with stage := .ready }
  | cancel {p : Poller} : Step cfg slack p { p with cancelled := true }
  | stop {p : Poller} (off : p.cancelled = true) (awaits : p.stage ≠ .claiming ∧ p.stage ≠ .panicked) :
      Step cfg slack p { p with stage := .stopped }
  /-- The idle workers' semaphore or the workers' channel is closed. -/
  | closed {p : Poller} (pc : p.stage = .ready ∨ p.stage = .claiming) : Step cfg slack p { p with stage := .stopped }

/-- The states that runs of the fetcher lead to. -/
def Poller.Reached (cfg : QueueConfig) (slack : ℕ) (p : Poller) : Prop :=
  ∃ now, Reach (fun p (_ : Unit) p' => Poller.Step cfg slack p p') (.start cfg now) p

/-! ## The sleeps -/

/-- The backoff after so many claims in a row that found nothing, in nanoseconds. -/
def idleAfter (cfg : QueueConfig) : ℕ → ℕ
  | 0 => cfg.fetchPollInterval.nanos
  | k + 1 => min (cfg.fetchPollInterval.nanos * 2 ^ (k + 1)) (idleCeiling cfg.fetchPollInterval).nanos

/-- The longest backoff. The first one is the interval itself, which may be beyond the ceiling. -/
def longestBackoff (cfg : QueueConfig) : ℕ := max cfg.fetchPollInterval.nanos (idleCeiling cfg.fetchPollInterval).nanos

/-- With the longest jitter. -/
def longestSleep (cfg : QueueConfig) : ℕ :=
  max cfg.fetchCooldown.nanos (longestBackoff cfg + max (10 ^ 7) (longestBackoff cfg / 10))

def shortestSleep (cfg : QueueConfig) : ℕ :=
  min cfg.fetchCooldown.nanos (min cfg.fetchPollInterval.nanos (idleCeiling cfg.fetchPollInterval).nanos + 10 ^ 7)

theorem nanos_idleCeiling (i : Duration) : (idleCeiling i).nanos = min (i.nanos * 8) (30 * 10 ^ 9) := by
  unfold idleCeiling
  rw [Duration.nanos_saturatingMul_min]
  rfl

/-- One more claim that found nothing. -/
theorem nanos_escalateIdle (cfg : QueueConfig) {b : Duration} {k : ℕ} (h : b.nanos = idleAfter cfg k) :
    (escalateIdle b (idleCeiling cfg.fetchPollInterval)).nanos = idleAfter cfg (k + 1) := by
  unfold escalateIdle
  rw [Duration.nanos_saturatingMul_min, h]
  show min (idleAfter cfg k * 2) _ = _
  cases k with
  | zero => simp [idleAfter]
  | succ k =>
    simp only [idleAfter]
    rw [Nat.pow_succ 2 (k + 1), ← Nat.mul_assoc]
    omega

theorem idleAfter_le (cfg : QueueConfig) (k : ℕ) : idleAfter cfg k ≤ longestBackoff cfg := by
  unfold longestBackoff
  cases k with
  | zero => exact le_max_left _ _
  | succ k => exact (min_le_right _ _).trans (le_max_right _ _)

theorem le_idleAfter (cfg : QueueConfig) (k : ℕ) :
    min cfg.fetchPollInterval.nanos (idleCeiling cfg.fetchPollInterval).nanos ≤ idleAfter cfg k := by
  cases k with
  | zero => exact min_le_left _ _
  | succ k =>
    have hle : cfg.fetchPollInterval.nanos ≤ cfg.fetchPollInterval.nanos * 2 ^ (k + 1) := Nat.le_mul_of_pos_right _ (by positivity)
    exact min_le_min_right _ hle

/-- The nanoseconds that the jitter adds. -/
theorem jitter_extra (rng : Rng) (base : Duration) : ∃ extra : UInt64, jitter rng base = base.add (.fromNanos extra) ∧
    10 ^ 7 ≤ extra.toNat ∧ extra.toNat ≤ max (10 ^ 7) (base.nanos / 10) := by
  refine ⟨max (if toU64 base.nanos / 10 = 0 then 0 else rng.genRange (toU64 base.nanos / 10)) 10000000, rfl, ?_⟩
  have htenth : (toU64 base.nanos / 10).toNat = min base.nanos (2 ^ 64 - 1) / 10 := by
    rw [UInt64.toNat_div, toNat_toU64]
    rfl
  have hdraw : (if toU64 base.nanos / 10 = 0 then 0 else rng.genRange (toU64 base.nanos / 10)).toNat ≤ base.nanos / 10 := by
    split
    · exact Nat.zero_le _
    · next h =>
      have hpos : 0 < toU64 base.nanos / 10 := UInt64.pos_iff_ne_zero.mpr h
      have hlt := UInt64.lt_iff_toNat_lt.mp (rng.below _ hpos)
      rw [htenth] at hlt
      omega
  have hmax : ∀ x : UInt64, (max x 10000000).toNat = max x.toNat (10 ^ 7) := by
    intro x
    rw [show max x 10000000 = if x ≤ 10000000 then 10000000 else x from rfl]
    have hle : x ≤ 10000000 ↔ x.toNat ≤ 10 ^ 7 := UInt64.le_iff_toNat_le
    split
    · next h => exact (max_eq_right (hle.mp h)).symm
    · next h => exact (max_eq_left (not_le.mp (fun hx => h (hle.mpr hx))).le).symm
  rw [hmax]
  omega

theorem jitter_ok {rng : Rng} {base sleep : Duration} (h : jitter rng base = .ok sleep) :
    base.nanos + 10 ^ 7 ≤ sleep.nanos ∧ sleep.nanos ≤ base.nanos + max (10 ^ 7) (base.nanos / 10) := by
  obtain ⟨extra, hj, hlo, hhi⟩ := jitter_extra rng base
  rw [hj] at h
  have hs := Duration.add_ok h
  have he : (Duration.fromNanos extra).nanos = extra.toNat := rfl
  omega

theorem jitter_error {rng : Rng} {base : Duration} {e : TimePanic} (h : jitter rng base = .error e) :
    2 ^ 64 * 10 ^ 9 ≤ base.nanos + max (10 ^ 7) (base.nanos / 10) := by
  obtain ⟨extra, hj, _, hhi⟩ := jitter_extra rng base
  by_contra hlt
  have he : (Duration.fromNanos extra).nanos = extra.toNat := rfl
  obtain ⟨f, hf⟩ := Duration.add_total (d := base) (e := .fromNanos extra) (by omega)
  rw [hj, hf] at h
  cases h

/-! ## The invariant -/

/-- What holds of the times in each stage. -/
def Poller.StageInv (cfg : QueueConfig) (slack : ℕ) (p : Poller) : Prop :=
  match p.stage with
  | .ready => p.full = false → p.lastEnd + shortestSleep cfg ≤ p.now
  | .claiming =>
    (p.full = false → p.lastEnd + shortestSleep cfg ≤ p.now) ∧ ∀ w, p.woken = some w → ∃ t, p.permit = some t ∧ t ≤ w
  | .cooling d => d = p.lastEnd + cfg.fetchCooldown.nanos
  | .resting since d =>
    since = p.lastEnd ∧ p.lastEnd + shortestSleep cfg ≤ d ∧ d ≤ p.lastEnd + longestSleep cfg ∧
      ∀ w, p.woken = some w → ∃ t, p.permit = some t ∧ t ≤ w
  | .notified d =>
    p.lastEnd + cfg.fetchCooldown.nanos ≤ d ∧ d ≤ p.now + cfg.fetchCooldown.nanos ∧
      d ≤ p.lastEnd + longestSleep cfg + slack + cfg.fetchCooldown.nanos ∧
      ∀ w, p.woken = some w → d ≤ max w p.lastEnd + slack + cfg.fetchCooldown.nanos
  | .stopped => True
  | .panicked => 2 ^ 64 * 10 ^ 9 ≤ p.idleBackoff.nanos + max (10 ^ 7) (p.idleBackoff.nanos / 10)

structure Poller.Inv (cfg : QueueConfig) (slack : ℕ) (p : Poller) : Prop where
  backoff : p.idleBackoff.nanos = idleAfter cfg p.quiet
  permit_le : ∀ t, p.permit = some t → t ≤ p.now
  woken_le : ∀ w, p.woken = some w → w ≤ p.now
  lastEnd_le : p.lastEnd ≤ p.now
  onTime : ∀ d, p.due = some d → p.now ≤ d + slack
  stageInv : p.StageInv cfg slack

theorem shortestSleep_le_cooldown (cfg : QueueConfig) : shortestSleep cfg ≤ cfg.fetchCooldown.nanos := min_le_left _ _

theorem cooldown_le_longestSleep (cfg : QueueConfig) : cfg.fetchCooldown.nanos ≤ longestSleep cfg := le_max_left _ _

/-- The sleep after a claim that found nothing. -/
theorem sleep_bounds {cfg : QueueConfig} {rng : Rng} {base sleep : Duration} {k : ℕ} (hb : base.nanos = idleAfter cfg k)
    (h : jitter rng base = .ok sleep) : shortestSleep cfg ≤ sleep.nanos ∧ sleep.nanos ≤ longestSleep cfg := by
  obtain ⟨hlo, hhi⟩ := jitter_ok h
  have hle := idleAfter_le cfg k
  have hge := le_idleAfter cfg k
  constructor
  · have : shortestSleep cfg ≤ min cfg.fetchPollInterval.nanos (idleCeiling cfg.fetchPollInterval).nanos + 10 ^ 7 := min_le_right _ _
    omega
  · have : longestBackoff cfg + max (10 ^ 7) (longestBackoff cfg / 10) ≤ longestSleep cfg := le_max_right _ _
    have hdiv : base.nanos / 10 ≤ longestBackoff cfg / 10 := Nat.div_le_div_right (hb ▸ hle)
    omega

theorem inv_start (cfg : QueueConfig) (slack now : ℕ) : (Poller.start cfg now).Inv cfg slack where
  backoff := rfl
  permit_le := by rintro t ⟨⟩
  woken_le := by rintro w ⟨⟩
  lastEnd_le := le_refl _
  onTime := by rintro d ⟨⟩
  stageInv := by rintro ⟨⟩

/-- A permit that comes later is due no earlier than it comes. -/
theorem due_notify {p : Poller} {slack : ℕ} (hot : ∀ d, p.due = some d → p.now ≤ d + slack) :
    ∀ d, ({ p with permit := some (p.permit.getD p.now), woken := some (p.woken.getD p.now) } : Poller).due = some d →
      p.now ≤ d + slack := by
  intro d hd
  cases hs : p.stage with
  | resting since e =>
    have hot := hot
    simp only [Poller.due, hs, Option.some.injEq, Option.elim_some] at hd hot
    cases hp : p.permit with
    | none =>
      have := hot _ rfl
      rw [hp] at hd this
      simp only [Option.getD_none, Option.elim_none] at hd this
      omega
    | some t =>
      have := hot _ rfl
      rw [hp] at hd this
      simp only [Option.getD_some, Option.elim_some] at hd this
      omega
  | cooling e | notified e => exact hot d (by simpa only [Poller.due, hs] using hd)
  | ready | claiming | stopped | panicked => simp [Poller.due, hs] at hd

/-- The wakeup that a notification leaves behind has a permit, if the one before had. -/
theorem permit_notify {p : Poller} (hpast : ∀ t, p.permit = some t → t ≤ p.now)
    (h : ∀ w, p.woken = some w → ∃ t, p.permit = some t ∧ t ≤ w) :
    ∀ w, some (p.woken.getD p.now) = some w → ∃ t, some (p.permit.getD p.now) = some t ∧ t ≤ w := by
  rintro w hw
  cases hw
  refine ⟨_, rfl, ?_⟩
  cases hw : p.woken with
  | none =>
    cases hp : p.permit with
    | none => exact le_refl _
    | some t => exact hpast t hp
  | some w =>
    obtain ⟨t, ht, hle⟩ := h w hw
    rw [ht]
    exact hle

theorem stageInv_notify {cfg : QueueConfig} {slack : ℕ} {p : Poller} (h : p.Inv cfg slack) :
    ({ p with permit := some (p.permit.getD p.now), woken := some (p.woken.getD p.now) } : Poller).StageInv cfg slack := by
  have hst := h.stageInv
  cases hs : p.stage with
  | claiming =>
    simp only [Poller.StageInv, hs] at hst ⊢
    exact ⟨hst.1, permit_notify h.permit_le hst.2⟩
  | resting since d =>
    simp only [Poller.StageInv, hs] at hst ⊢
    exact ⟨hst.1, hst.2.1, hst.2.2.1, permit_notify h.permit_le hst.2.2.2⟩
  | notified d =>
    simp only [Poller.StageInv, hs] at hst ⊢
    refine ⟨hst.1, hst.2.1, hst.2.2.1, ?_⟩
    rintro w hw
    cases hw
    cases hw : p.woken with
    | none =>
      have := hst.2.1
      simp only [Option.getD_none]
      omega
    | some w => exact hst.2.2.2 w hw
  | ready | cooling d | panicked =>
    simp only [Poller.StageInv, hs] at hst ⊢
    exact hst
  | stopped => simp only [Poller.StageInv]

theorem inv_pass {cfg : QueueConfig} {slack : ℕ} {p : Poller} {t : ℕ} (h : p.Inv cfg slack) (le : p.now ≤ t)
    (onTime : ∀ d, p.due = some d → t ≤ d + slack) : ({ p with now := t } : Poller).Inv cfg slack where
  backoff := h.backoff
  permit_le s hs := (h.permit_le s hs).trans le
  woken_le w hw := (h.woken_le w hw).trans le
  lastEnd_le := h.lastEnd_le.trans le
  onTime := onTime
  stageInv := by
    have hst := h.stageInv
    cases hs : p.stage with
    | ready =>
      simp only [Poller.StageInv, hs] at hst ⊢
      exact fun hf => (hst hf).trans le
    | claiming =>
      simp only [Poller.StageInv, hs] at hst ⊢
      exact ⟨fun hf => (hst.1 hf).trans le, hst.2⟩
    | notified d =>
      simp only [Poller.StageInv, hs] at hst ⊢
      exact ⟨hst.1, hst.2.1.trans (by omega), hst.2.2⟩
    | cooling d | resting s d | panicked =>
      simp only [Poller.StageInv, hs] at hst ⊢
      exact hst
    | stopped => simp only [Poller.StageInv]

/-- The end of a wakeup's wait: the permit was there in time. -/
theorem inv_wake {cfg : QueueConfig} {slack : ℕ} {p : Poller} {since d t : ℕ} (h : p.Inv cfg slack)
    (pc : p.stage = .resting since d) (stored : p.permit = some t) :
    ({ p with
        stage := .notified (p.now + cfg.fetchCooldown.nanos), idleBackoff := cfg.fetchPollInterval, quiet := 0
        permit := none } : Poller).Inv cfg slack where
  backoff := rfl
  permit_le := by rintro s ⟨⟩
  woken_le := h.woken_le
  lastEnd_le := h.lastEnd_le
  onTime := by
    rintro e ⟨⟩
    show p.now ≤ p.now + cfg.fetchCooldown.nanos + slack
    omega
  stageInv := by
    have hst := h.stageInv
    have hot := h.onTime
    simp only [Poller.StageInv, pc] at hst
    simp only [Poller.due, pc, stored, Option.elim_some, Option.some.injEq, forall_eq'] at hot
    obtain ⟨hsince, -, hlong, hwoken⟩ := hst
    have hend := h.lastEnd_le
    refine ⟨Nat.add_le_add_right hend _, le_refl _, ?_, ?_⟩
    · show p.now + cfg.fetchCooldown.nanos ≤ p.lastEnd + longestSleep cfg + slack + cfg.fetchCooldown.nanos
      omega
    · intro w hw
      obtain ⟨t', ht', hle⟩ := hwoken w hw
      rw [stored] at ht'
      cases ht'
      show p.now + cfg.fetchCooldown.nanos ≤ max w p.lastEnd + slack + cfg.fetchCooldown.nanos
      omega

/-- Right after a claim nothing is late. -/
theorem due_resting {p : Poller} {d slack : ℕ} (hs : p.stage = .resting p.now d) (h : p.now ≤ d) :
    ∀ e, p.due = some e → p.now ≤ e + slack := by
  intro e he
  simp only [Poller.due, hs, Option.some.injEq] at he
  subst he
  cases p.permit with
  | none =>
    simp only [Option.elim_none]
    omega
  | some t =>
    simp only [Option.elim_some]
    omega

theorem inv_step {cfg : QueueConfig} {slack : ℕ} {p p' : Poller} (h : p.Inv cfg slack) (hs : p.Step cfg slack p') :
    p'.Inv cfg slack := by
  have hend := h.lastEnd_le
  have hst := h.stageInv
  cases hs with
  | pass le onTime => exact inv_pass h le onTime
  | notify =>
    refine ⟨h.backoff, ?_, ?_, hend, due_notify h.onTime, stageInv_notify h⟩
    · rintro t ht
      cases ht
      cases hp : p.permit with
      | none => exact le_refl _
      | some t => exact h.permit_le t hp
    · rintro w hw
      cases hw
      cases hw : p.woken with
      | none => exact le_refl _
      | some w => exact h.woken_le w hw
  | claim pc =>
    simp only [Poller.StageInv, pc] at hst
    exact ⟨h.backoff, h.permit_le, by rintro w ⟨⟩, hend, by rintro d ⟨⟩, hst, by rintro w ⟨⟩⟩
  | failed pc =>
    refine ⟨h.backoff, h.permit_le, h.woken_le, le_refl _, ?_, rfl⟩
    rintro d ⟨⟩
    show p.now ≤ p.now + cfg.fetchCooldown.nanos + slack
    omega
  | filled pc => exact ⟨h.backoff, h.permit_le, h.woken_le, le_refl _, by rintro d ⟨⟩, by rintro ⟨⟩⟩
  | some pc =>
    simp only [Poller.StageInv, pc] at hst
    have hlo := shortestSleep_le_cooldown cfg
    have hhi := cooldown_le_longestSleep cfg
    refine ⟨rfl, h.permit_le, h.woken_le, le_refl _, ?_, rfl, Nat.add_le_add_left hlo _, Nat.add_le_add_left hhi _, hst.2⟩
    exact due_resting rfl (Nat.le_add_right _ _)
  | empty pc draw =>
    simp only [Poller.StageInv, pc] at hst
    obtain ⟨hlo, hhi⟩ := sleep_bounds h.backoff draw
    refine ⟨nanos_escalateIdle cfg h.backoff, h.permit_le, h.woken_le, le_refl _, ?_, rfl, Nat.add_le_add_left hlo _,
      Nat.add_le_add_left hhi _, hst.2⟩
    exact due_resting rfl (Nat.le_add_right _ _)
  | overflow pc draw =>
    exact ⟨h.backoff, h.permit_le, h.woken_le, le_refl _, by rintro d ⟨⟩, jitter_error draw⟩
  | wake pc stored => exact inv_wake h pc stored
  | slept pc passed unstored =>
    simp only [Poller.StageInv, pc] at hst
    exact ⟨h.backoff, h.permit_le, h.woken_le, hend, by rintro d ⟨⟩, fun _ => hst.2.1.trans passed⟩
  | cooled pc passed =>
    have hlo := shortestSleep_le_cooldown cfg
    refine ⟨h.backoff, h.permit_le, h.woken_le, hend, by rintro d ⟨⟩, fun _ => ?_⟩
    show p.lastEnd + shortestSleep cfg ≤ p.now
    rcases pc with pc | pc
    · simp only [Poller.StageInv, pc] at hst
      omega
    · simp only [Poller.StageInv, pc] at hst
      omega
  | cancel => exact ⟨h.backoff, h.permit_le, h.woken_le, hend, h.onTime, hst⟩
  | stop off awaits => exact ⟨h.backoff, h.permit_le, h.woken_le, hend, by rintro d ⟨⟩, trivial⟩
  | closed pc => exact ⟨h.backoff, h.permit_le, h.woken_le, hend, by rintro d ⟨⟩, trivial⟩

theorem Poller.Reached.inv {cfg : QueueConfig} {slack : ℕ} {p : Poller} (h : p.Reached cfg slack) : p.Inv cfg slack := by
  obtain ⟨now, h⟩ := h
  exact h.inv (inv_start cfg slack now) fun _ _ _ hp hs => inv_step hp hs

/-! ## What it gives -/

/-- Inside one of the sleeps. -/
def Stage.Asleep : Stage → Prop
  | .cooling _ | .resting _ _ | .notified _ => True
  | _ => False

/-- How fast the fetcher goes: the backoff doubles up to the ceiling and no further, a sleep ends in time, and no claim
follows one whose batch was not full without a sleep. The one sum that may overflow is the first backoff's. -/
structure Poller.Paced (cfg : QueueConfig) (slack : ℕ) (p : Poller) : Prop where
  backoff : p.idleBackoff.nanos = idleAfter cfg p.quiet
  asleep : p.stage.Asleep → p.now ≤ p.lastEnd + longestSleep cfg + cfg.fetchCooldown.nanos + 2 * slack
  awake : p.stage = .ready ∨ p.stage = .claiming → p.full = false → p.lastEnd + shortestSleep cfg ≤ p.now
  panicked : p.stage = .panicked →
    p.quiet = 0 ∧ 2 ^ 64 * 10 ^ 9 ≤ cfg.fetchPollInterval.nanos + max (10 ^ 7) (cfg.fetchPollInterval.nanos / 10)

/-- What a wakeup does, also one that comes while the fetcher claims or already sleeps after another: past the cooldown
nobody sleeps on it. -/
def Poller.Prompt (cfg : QueueConfig) (slack : ℕ) (p : Poller) : Prop :=
  ∀ w, p.woken = some w → p.stage.Asleep → p.now ≤ max w p.lastEnd + cfg.fetchCooldown.nanos + 2 * slack

theorem idleAfter_succ_le (cfg : QueueConfig) (k : ℕ) : idleAfter cfg (k + 1) ≤ 30 * 10 ^ 9 := by
  refine (min_le_right _ _).trans ?_
  rw [nanos_idleCeiling]
  exact min_le_right _ _

/-- When the `select!` of a wakeup and the sleep ends. -/
theorem due_of_resting {p : Poller} {since d : ℕ} (hs : p.stage = .resting since d) :
    p.due = some (p.permit.elim d fun t => min d (max t since)) := by
  simp only [Poller.due, hs]

theorem Poller.Inv.asleep {cfg : QueueConfig} {slack : ℕ} {p : Poller} (h : p.Inv cfg slack) (hs : p.stage.Asleep) :
    p.now ≤ p.lastEnd + longestSleep cfg + cfg.fetchCooldown.nanos + 2 * slack := by
  have hst := h.stageInv
  have hot := h.onTime
  cases hp : p.stage with
  | cooling d =>
    simp only [Poller.StageInv, hp] at hst
    have := hot d (by simp only [Poller.due, hp])
    omega
  | resting since d =>
    simp only [Poller.StageInv, hp] at hst
    have := hot _ (due_of_resting hp)
    cases hperm : p.permit with
    | none =>
      simp only [hperm, Option.elim_none] at this
      omega
    | some t =>
      simp only [hperm, Option.elim_some] at this
      omega
  | notified d =>
    simp only [Poller.StageInv, hp] at hst
    have := hot d (by simp only [Poller.due, hp])
    omega
  | ready | claiming | stopped | panicked => simp only [hp, Stage.Asleep] at hs

theorem Poller.Inv.prompt {cfg : QueueConfig} {slack : ℕ} {p : Poller} (h : p.Inv cfg slack) : p.Prompt cfg slack := by
  intro w hw hs
  have hst := h.stageInv
  have hot := h.onTime
  cases hp : p.stage with
  | cooling d =>
    simp only [Poller.StageInv, hp] at hst
    have := hot d (by simp only [Poller.due, hp])
    omega
  | resting since d =>
    simp only [Poller.StageInv, hp] at hst
    obtain ⟨t, ht, hle⟩ := hst.2.2.2 w hw
    have := hot _ (due_of_resting hp)
    simp only [ht, Option.elim_some] at this
    omega
  | notified d =>
    simp only [Poller.StageInv, hp] at hst
    have := hot d (by simp only [Poller.due, hp])
    have := hst.2.2.2 w hw
    omega
  | ready | claiming | stopped | panicked => simp only [hp, Stage.Asleep] at hs

/-- In every run of the fetcher it keeps its pace. -/
theorem reached_paced {cfg : QueueConfig} {slack : ℕ} {p : Poller} (h : p.Reached cfg slack) : p.Paced cfg slack := by
  have hinv := h.inv
  have hst := hinv.stageInv
  refine ⟨hinv.backoff, hinv.asleep, ?_, ?_⟩
  · rintro (hp | hp) hf
    · simp only [Poller.StageInv, hp] at hst
      exact hst hf
    · simp only [Poller.StageInv, hp] at hst
      exact hst.1 hf
  · intro hp
    simp only [Poller.StageInv, hp, hinv.backoff] at hst
    cases hq : p.quiet with
    | zero =>
      rw [hq] at hst
      exact ⟨rfl, hst⟩
    | succ k =>
      rw [hq] at hst
      have := idleAfter_succ_le cfg k
      omega

/-- The draw of zero. -/
def still : Rng := ⟨fun _ => 0, fun _ h => h⟩

/-- A second and ten milliseconds. -/
def firstSleep : Duration := .fromMillis 1010

/-- A fetcher with the default settings that found nothing. -/
def resting : Poller where
  now := 0
  stage := .resting 0 (0 + firstSleep.nanos)
  idleBackoff := escalateIdle (.fromSecs 1) (idleCeiling (.fromSecs 1))
  quiet := 1
  lastEnd := 0
  full := false

theorem resting_reached (slack : ℕ) : resting.Reached {} slack := by
  have hdraw : jitter still (.fromSecs 1) = .ok firstSleep := by decide
  have hclaim : Poller.Step {} slack (.start {} 0) { Poller.start {} 0 with stage := .claiming } := .claim rfl rfl
  have hempty : Poller.Step {} slack { Poller.start {} 0 with stage := .claiming } resting := by
    exact Poller.Step.empty (p := { Poller.start {} 0 with stage := .claiming }) rfl hdraw
  exact ⟨0, ((Reach.refl _).step (a := ()) hclaim).step (a := ()) hempty⟩

theorem reached_paced_resting : resting.Paced {} 0 := reached_paced (resting_reached 0)

/-- In every run of the fetcher no wakeup is lost. -/
theorem reached_prompt {cfg : QueueConfig} {slack : ℕ} {p : Poller} (h : p.Reached cfg slack) : p.Prompt cfg slack :=
  h.inv.prompt

theorem reached_prompt_resting :
    ({ resting with permit := some 0, woken := some 0 } : Poller).Prompt {} 0 := by
  obtain ⟨now, hr⟩ := resting_reached 0
  exact reached_prompt ⟨now, hr.step (a := ()) (.notify (p := resting))⟩

end Eddyq.Runtime.Polling
