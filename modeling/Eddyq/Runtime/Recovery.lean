import Eddyq.Runtime.Beats
import Eddyq.Runtime.Leader

/-!
# The way back after a crash

The leader and sweeper loops of any number of processes over one backend, by one clock. Only the leader sweeps, so a
leader that dies without a word leaves the jobs of the dead alone until its lease has ended, another process has ticked,
and the sweeper loop of that process has ticked too.

`Watch.Step` is one event. In `calm` runs no call fails, no process ends, and no sweep finds more than it takes. From any
state that was reached before, whatever failed until then, a calm run comes by its next leader in one lease and one
interval of `leader_loop`, and one `sweep_interval` later all jobs that nobody stamps are back (`Watch.recovers`). The
invariant is `Watch.Course`: the old lease still runs, or a process holds the lease until its next tick.
-/

namespace Eddyq.Runtime

open Eddyq.Lib

/-- A sweep that has room recovers every job whose stamp is too old. -/
structure Thorough {τ : Type} (T : Pulse τ) where
  /-- A sweep at this time, with this `stale_after`, finds no more than it takes. -/
  room : ℤ → ℕ → τ → Prop
  sweep_all : ∀ {t n s ids s' id b}, T.sound s → room t n s → T.sweep t n s ids s' → T.beat s' id b → t - T.patience n ≤ b

/-- A running process: its `is_leader`, and the next ticks of its `leader_loop` and its `sweeper_loop`. -/
structure Keeper where
  isLeader : Bool
  elects : ℤ
  sweeps : ℤ
  deriving DecidableEq

/-- The leases, the jobs, the clock and the running processes. -/
structure Watch (σ τ : Type) where
  now : ℤ
  leases : σ
  store : τ
  keepers : WorkerId → Option Keeper := fun _ => none

/-- The configuration of the processes: `leader_lease_secs` in seconds, the others in milliseconds. -/
structure Tempo where
  leaderLeaseSecs : ℕ
  sweepInterval : ℕ
  staleAfter : ℕ

section Steps

variable {σ τ : Type} (C : Electorate σ String WorkerId) {T : Pulse τ} (H : Thorough T) (tempo : Tempo) (calm : Prop)

/-- `try_elect_once`: what it makes of the leases and of the flag. -/
inductive Asks (w : WorkerId) (now : ℤ) (s : σ) (f : Bool) : σ → Bool → Prop
  | ok {won : Bool} {s' : σ} (reply : C.elect s maintenanceRole w tempo.leaderLeaseSecs now = (some won, s')) :
      Asks w now s f s' won
  /-- `leader election failed`, whether the store has seen the call or not. -/
  | failed {s' : σ} (seen : s' = s ∨ s' = (C.elect s maintenanceRole w tempo.leaderLeaseSecs now).2) (ok : ¬ calm) :
      Asks w now s f s' f

/-- One event. -/
inductive Watch.Step : Watch σ τ → Watch σ τ → Prop
  /-- Time passes, and no tick is missed. -/
  | pass {p : Watch σ τ} {t : ℤ} (le : p.now ≤ t) (ticks : ∀ w k, p.keepers w = some k → t ≤ k.elects ∧ t ≤ k.sweeps) :
      Step p { p with now := t }
  | start {p : Watch σ τ} {w : WorkerId} {s : σ} {f : Bool} (fresh : p.keepers w = none)
      (call : Asks C tempo calm w p.now p.leases false s f) :
      Step p { p with
        leases := s
        keepers := Function.update p.keepers w
          (some ⟨f, p.now + refreshInterval tempo.leaderLeaseSecs, p.now + tempo.sweepInterval⟩) }
  /-- A tick of `leader_loop`. -/
  | elect {p : Watch σ τ} {w : WorkerId} {k : Keeper} {s : σ} {f : Bool} (at' : p.keepers w = some k)
      (due : p.now = k.elects) (call : Asks C tempo calm w p.now p.leases k.isLeader s f) :
      Step p { p with
        leases := s
        keepers := Function.update p.keepers w
          (some { k with isLeader := f, elects := p.now + refreshInterval tempo.leaderLeaseSecs }) }
  /-- A peer resigned, and this process is not the leader. -/
  | peerResigned {p : Watch σ τ} {w : WorkerId} {k : Keeper} {s : σ} {f : Bool} (at' : p.keepers w = some k)
      (follows : k.isLeader = false) (call : Asks C tempo calm w p.now p.leases k.isLeader s f) :
      Step p { p with leases := s, keepers := Function.update p.keepers w (some { k with isLeader := f }) }
  /-- A tick of `sweeper_loop` in a process that is not the leader. -/
  | idle {p : Watch σ τ} {w : WorkerId} {k : Keeper} (at' : p.keepers w = some k) (due : p.now = k.sweeps)
      (follows : k.isLeader = false) :
      Step p { p with keepers := Function.update p.keepers w (some { k with sweeps := p.now + tempo.sweepInterval }) }
  /-- The leader sweeps. -/
  | sweep {p : Watch σ τ} {w : WorkerId} {k : Keeper} {ids : List JobId} {s : τ} (at' : p.keepers w = some k)
      (due : p.now = k.sweeps) (leads : k.isLeader = true) (done : T.sweep p.now tempo.staleAfter p.store ids s)
      (ok : calm → H.room p.now tempo.staleAfter p.store) :
      Step p { p with
        store := s
        keepers := Function.update p.keepers w (some { k with sweeps := p.now + tempo.sweepInterval }) }
  /-- `sweeper failed`, whether the store has seen the call or not. -/
  | sweepFails {p : Watch σ τ} {w : WorkerId} {k : Keeper} {s : τ} (at' : p.keepers w = some k) (due : p.now = k.sweeps)
      (leads : k.isLeader = true) (seen : s = p.store ∨ ∃ ids, T.sweep p.now tempo.staleAfter p.store ids s)
      (ok : ¬ calm) :
      Step p { p with
        store := s
        keepers := Function.update p.keepers w (some { k with sweeps := p.now + tempo.sweepInterval }) }
  /-- A process crashes, or its token is cancelled. -/
  | ends {p : Watch σ τ} {w : WorkerId} {k : Keeper} (at' : p.keepers w = some k) (ok : ¬ calm) :
      Step p { p with keepers := Function.update p.keepers w none }
  /-- The resignation at a shutdown. -/
  | resign {p : Watch σ τ} {w : WorkerId} (gone : p.keepers w = none) (ok : ¬ calm) :
      Step p { p with leases := C.resign p.leases maintenanceRole w p.now }
  | claim {p : Watch σ τ} {w : WorkerId} {n : Nat} {rows : List JobId} {s : τ}
      (done : T.claim p.now w p.store n rows s) : Step p { p with store := s }
  | verdict {p : Watch σ τ} {w : WorkerId} {id : JobId} {s : τ} (done : T.verdict p.now w p.store id s)
      (current : T.current p.store id w) : Step p { p with store := s }
  | heartbeat {p : Watch σ τ} {ids : List JobId} {s : τ} (done : T.heartbeat p.now p.store ids s) :
      Step p { p with store := s }
  | other {p : Watch σ τ} {s : τ} (done : T.other p.store s) : Step p { p with store := s }

/-- The states that are reached from a store that no process has called, in runs with any failures. -/
def Watch.Reached (p : Watch σ τ) : Prop :=
  ∃ t l s, T.inv s ∧ T.sound s ∧ C.row l maintenanceRole = none ∧
    Reach (fun p (_ : Unit) p' => Watch.Step C H tempo False p p') ⟨t, l, s, fun _ => none⟩ p

/-- What a calm run leads to. -/
def Watch.Calmly (p₀ p : Watch σ τ) : Prop := Reach (fun p (_ : Unit) p' => Watch.Step C H tempo True p p') p₀ p

/-- A process is the leader, and holds the lease until it ticks. -/
def Watch.Led (p : Watch σ τ) : Prop :=
  ∃ w k e, p.keepers w = some k ∧ k.isLeader = true ∧ C.row p.leases maintenanceRole = some ⟨w, e⟩ ∧
    ¬ C.free (k.elects - e)

/-! ## What every run keeps -/

/-- No tick is missed, and none is further away than its interval. -/
structure Keeper.OnTime (now : ℤ) (k : Keeper) : Prop where
  elects : now ≤ k.elects ∧ k.elects ≤ now + refreshInterval tempo.leaderLeaseSecs
  sweeps : now ≤ k.sweeps ∧ k.sweeps ≤ now + tempo.sweepInterval

/-- No lease lasts longer than a new one, and the loops are on time. -/
structure Watch.Sound (T : Pulse τ) (p : Watch σ τ) : Prop where
  inv : T.inv p.store
  sound : T.sound p.store
  lease : ∀ x, C.row p.leases maintenanceRole = some x → x.expires ≤ p.now + C.span tempo.leaderLeaseSecs
  ticks : ∀ w k, p.keepers w = some k → k.OnTime tempo p.now

variable {C H tempo calm} {p p' : Watch σ τ} {w : WorkerId} {k : Keeper} {l l' : σ} {s : τ} {f f' : Bool} {now : ℤ}

/-- What a call leaves in the row: what was there, or the new lease. -/
theorem elect_row (hspan : 0 < C.span tempo.leaderLeaseSecs) {o : Option Bool}
    (h : C.elect l maintenanceRole w tempo.leaderLeaseSecs now = (o, l')) :
    C.row l' maintenanceRole = C.row l maintenanceRole ∨
      C.row l' maintenanceRole = some ⟨w, now + C.span tempo.leaderLeaseSecs⟩ := by
  by_cases ho : o = some true
  · subst ho
    exact .inr ((C.won h).2.1 hspan)
  · exact .inl (congrFun (C.not_won h ho).1 _)

theorem Asks.row (hspan : 0 < C.span tempo.leaderLeaseSecs) (h : Asks C tempo calm w now l f l' f') :
    C.row l' maintenanceRole = C.row l maintenanceRole ∨
      C.row l' maintenanceRole = some ⟨w, now + C.span tempo.leaderLeaseSecs⟩ := by
  cases h with
  | ok reply => exact elect_row hspan reply
  | failed seen =>
    rcases seen with rfl | rfl
    · exact .inl rfl
    · exact elect_row hspan rfl

/-- The loops stay on time when one of them goes on. -/
theorem Watch.Sound.ticks_update (hp : p.Sound C tempo T) {o : Option Keeper}
    (ho : ∀ k, o = some k → k.OnTime tempo p.now) :
    ∀ v k, Function.update p.keepers w o v = some k → k.OnTime tempo p.now :=
  (Function.forall_update_iff p.keepers (fun _ o => ∀ k, o = some k → k.OnTime tempo p.now)).mpr
    ⟨ho, fun v _ => hp.ticks v⟩

/-- A process calls, and goes on with other ticks. -/
theorem Watch.Sound.asks (hspan : 0 < C.span tempo.leaderLeaseSecs) (hp : p.Sound C tempo T)
    (h : Asks C tempo calm w p.now p.leases f l f') (hk : k.OnTime tempo p.now) :
    ({ p with leases := l, keepers := Function.update p.keepers w (some k) } : Watch σ τ).Sound C tempo T where
  inv := hp.inv
  sound := hp.sound
  lease x hx := by
    rcases h.row hspan with hrow | hrow
    · exact hp.lease x (hrow.symm.trans hx)
    · rw [← Option.some.inj (hrow.symm.trans hx)]
  ticks := by
    refine hp.ticks_update ?_
    rintro _ ⟨⟩
    exact hk

/-- A process is past a tick of its sweeper loop. -/
theorem Watch.Sound.swept (hp : p.Sound C tempo T) (hinv : T.inv s) (hsound : T.sound s) (at' : p.keepers w = some k) :
    ({ p with
      store := s
      keepers := Function.update p.keepers w (some { k with sweeps := p.now + tempo.sweepInterval }) } :
        Watch σ τ).Sound C tempo T where
  inv := hinv
  sound := hsound
  lease := hp.lease
  ticks := by
    refine hp.ticks_update ?_
    rintro _ ⟨⟩
    exact ⟨(hp.ticks w k at').elects, by simp only; omega, le_rfl⟩

theorem Watch.Sound.jobs (hp : p.Sound C tempo T) (hinv : T.inv s) (hsound : T.sound s) :
    ({ p with store := s } : Watch σ τ).Sound C tempo T :=
  ⟨hinv, hsound, hp.lease, hp.ticks⟩

theorem Watch.Sound.step (hC : C.Prompt) (hspan : 0 < C.span tempo.leaderLeaseSecs) (hp : p.Sound C tempo T)
    (h : Watch.Step C H tempo calm p p') : p'.Sound C tempo T := by
  cases h with
  | pass le ticks =>
    refine ⟨hp.inv, hp.sound, fun x hx => ?_, fun w k hw => ?_⟩
    · have := hp.lease x hx
      simp only
      omega
    · have helects := (hp.ticks w k hw).elects
      have hsweeps := (hp.ticks w k hw).sweeps
      exact ⟨⟨(ticks w k hw).1, by simp only; omega⟩, (ticks w k hw).2, by simp only; omega⟩
  | start fresh call => exact hp.asks hspan call ⟨⟨by simp only; omega, le_rfl⟩, by simp only; omega, le_rfl⟩
  | @elect w k l f at' due call => exact hp.asks hspan call ⟨⟨by simp only; omega, le_rfl⟩, (hp.ticks w k at').sweeps⟩
  | @peerResigned w k l f at' follows call =>
    exact hp.asks hspan call ⟨(hp.ticks w k at').elects, (hp.ticks w k at').sweeps⟩
  | idle at' => exact hp.swept hp.inv hp.sound at'
  | sweep at' due leads done => exact hp.swept (T.sweep_inv hp.inv done) (T.sweep_sound hp.sound done) at'
  | sweepFails at' due leads seen =>
    rcases seen with rfl | ⟨ids, done⟩
    · exact hp.swept hp.inv hp.sound at'
    · exact hp.swept (T.sweep_inv hp.inv done) (T.sweep_sound hp.sound done) at'
  | ends => exact ⟨hp.inv, hp.sound, hp.lease, hp.ticks_update nofun⟩
  | resign =>
    refine ⟨hp.inv, hp.sound, fun x hx => ?_, hp.ticks⟩
    rcases hC.yields hx with hx | hx
    · exact hp.lease x hx
    · simp only
      omega
  | claim done => exact hp.jobs (T.claim_inv hp.inv done) (T.claim_sound hp.sound done)
  | verdict done current => exact hp.jobs (T.verdict_inv hp.inv done) (T.verdict_sound hp.sound done current)
  | heartbeat done => exact hp.jobs (T.heartbeat_inv hp.inv done) (T.heartbeat_sound hp.sound done)
  | other done => exact hp.jobs (T.other_inv hp.inv done) (T.other_sound hp.sound done)

theorem Watch.Reached.sound (hC : C.Prompt) (hspan : 0 < C.span tempo.leaderLeaseSecs) (h : p.Reached C H tempo) :
    p.Sound C tempo T := by
  obtain ⟨t, l, s, inv, sound, hrow, hr⟩ := h
  refine hr.inv (P := Watch.Sound C tempo T) ⟨inv, sound, fun x hx => (nomatch hrow.symm.trans hx), nofun⟩ ?_
  intro p _ p' hp hstep
  exact hp.step hC hspan hstep

/-! ## The way to a leader -/

/-- The invariant of a calm run from the time `t₀` on. -/
inductive Watch.Course (C : Electorate σ String WorkerId) (T : Pulse τ) (tempo : Tempo) (t₀ : ℤ) (p : Watch σ τ) : Prop
  /-- Nobody has taken the lease since, and some process will when it ends. -/
  | vacant {w : WorkerId} {k : Keeper}
      (old : ∀ x, C.row p.leases maintenanceRole = some x → x.expires ≤ t₀ + C.span tempo.leaderLeaseSecs)
      (at' : p.keepers w = some k)
      (due : k.elects ≤ t₀ + C.span tempo.leaderLeaseSecs + refreshInterval tempo.leaderLeaseSecs)
  /-- The leader holds the lease until it ticks, and either has yet to sweep for the first time or has swept. -/
  | led {w : WorkerId} {k : Keeper} {e : ℤ} (at' : p.keepers w = some k) (leads : k.isLeader = true)
      (row : C.row p.leases maintenanceRole = some ⟨w, e⟩) (lasts : ¬ C.free (k.elects - e))
      (swept : k.sweeps ≤
          t₀ + C.span tempo.leaderLeaseSecs + refreshInterval tempo.leaderLeaseSecs + tempo.sweepInterval ∨
        ∃ last ≤ p.now, k.sweeps ≤ last + tempo.sweepInterval ∧
          ∀ id b, T.beat p.store id b → last - T.patience tempo.staleAfter ≤ b)

variable {t₀ : ℤ}

/-- A calm call of a process wins or leaves the row alone. -/
theorem Asks.calmly (hspan : 0 < C.span tempo.leaderLeaseSecs) (h : Asks C tempo True w now l f l' f') :
    (f' = true ∧ C.row l' maintenanceRole = some ⟨w, now + C.span tempo.leaderLeaseSecs⟩ ∧
      ∀ x, C.row l maintenanceRole = some x → x.worker = w ∨ C.free (now - x.expires)) ∨
    (f' = false ∧ C.row l' maintenanceRole = C.row l maintenanceRole ∧
      C.elect l maintenanceRole w tempo.leaderLeaseSecs now = (some false, l')) := by
  cases h with
  | failed _ ok => exact absurd trivial ok
  | ok reply =>
    cases f' with
    | true => exact .inl ⟨rfl, (C.won reply).2.1 hspan, (C.won reply).1⟩
    | false => exact .inr ⟨rfl, congrFun (C.not_won reply nofun).1 _, reply⟩

/-- How a process goes on after a call: its loops are on time, its sweeper loop is where it was, and it either has ticked
now or ticks when it would have. -/
structure Keeper.GoesOn (tempo : Tempo) (now : ℤ) (k k' : Keeper) : Prop where
  sweeps : k'.sweeps = k.sweeps
  elects : k'.elects = k.elects ∨ now = k.elects ∧ k'.elects = now + refreshInterval tempo.leaderLeaseSecs

/-- A calm call keeps the course. -/
theorem Watch.Course.asks (hC : C.Prompt) (hspan : 0 < C.span tempo.leaderLeaseSecs)
    (hcfg : ¬ C.free (refreshInterval tempo.leaderLeaseSecs - C.span tempo.leaderLeaseSecs)) (hp : p.Sound C tempo T)
    (h : p.Course C T tempo t₀) (call : Asks C tempo True w p.now p.leases f l k.isLeader) (hk : k.OnTime tempo p.now)
    (on : ∀ k₀, p.keepers w = some k₀ → k₀.GoesOn tempo p.now k) :
    ({ p with leases := l, keepers := Function.update p.keepers w (some k) } : Watch σ τ).Course C T tempo t₀ := by
  have hnew : ¬ C.free (k.elects - (p.now + C.span tempo.leaderLeaseSecs)) :=
    fun hfree => hcfg (C.free_mono (by have := hk.elects.2; omega) hfree)
  cases h with
  | @vacant v k₀ old at' due =>
    have hv := hp.ticks v k₀ at'
    rcases call.calmly hspan with ⟨hwon, hrow, _⟩ | ⟨_, hrow, hreply⟩
    · -- the lease is taken
      refine .led (Function.update_self ..) hwon hrow hnew (.inl ?_)
      have hsweeps := hk.sweeps.2
      have helects := hv.elects.1
      omega
    · have hold : ∀ x, C.row l maintenanceRole = some x → x.expires ≤ t₀ + C.span tempo.leaderLeaseSecs :=
        fun x hx => old x (hrow.symm.trans hx)
      by_cases hw : v = w
      · subst hw
        refine .vacant hold (Function.update_self ..) ?_
        rcases (on k₀ at').elects with heq | ⟨hnow, heq⟩
        · rw [heq]
          exact due
        · -- refused at its tick, so that the old lease has not ended
          obtain ⟨x, hx, hlive⟩ := hC.refused hreply
          have hx := old x hx
          have hend : ¬ 0 < p.now - x.expires := fun hpos => hlive (hC.free_pos _ hpos)
          rw [heq]
          omega
      · exact .vacant hold ((Function.update_of_ne hw _ _).trans at') due
  | @led v k₀ e at' leads row lasts swept =>
    have hv := hp.ticks v k₀ at'
    have hlive : ¬ C.free (p.now - e) := fun hfree => lasts (C.free_mono (by have := hv.elects.1; omega) hfree)
    by_cases hw : v = w
    · subst hw
      rcases call.calmly hspan with ⟨hwon, hrow, _⟩ | ⟨_, _, hreply⟩
      · refine .led (Function.update_self ..) hwon hrow hnew ?_
        rw [(on k₀ at').sweeps]
        exact swept
      · exact absurd ((C.not_won hreply nofun).2 _ row rfl) hlive
    · rcases call.calmly hspan with ⟨_, _, htake⟩ | ⟨_, hrow, _⟩
      · exact ((htake _ row).elim hw hlive).elim
      · exact .led ((Function.update_of_ne hw _ _).trans at') leads (hrow.trans row) lasts swept

/-- The jobs change, and every stamp is an old one or of now. -/
theorem Watch.Course.jobs (hpat : 0 ≤ T.patience tempo.staleAfter) (h : p.Course C T tempo t₀)
    (hbeat : ∀ id b, T.beat s id b → b = p.now ∨ T.beat p.store id b) :
    ({ p with store := s } : Watch σ τ).Course C T tempo t₀ := by
  cases h with
  | vacant old at' due => exact .vacant old at' due
  | led at' leads row lasts swept =>
    refine .led at' leads row lasts (swept.imp_right ?_)
    rintro ⟨last, hlast, hsweeps, hall⟩
    refine ⟨last, hlast, hsweeps, fun id b hb => ?_⟩
    rcases hbeat id b hb with rfl | hb
    · omega
    · exact hall id b hb

/-- A process is past a tick of its sweeper loop; the leader has swept. -/
theorem Watch.Course.swept (h : p.Course C T tempo t₀) (at' : p.keepers w = some k)
    (hall : k.isLeader = true → ∀ id b, T.beat p.store id b → p.now - T.patience tempo.staleAfter ≤ b) :
    ({ p with
      keepers := Function.update p.keepers w (some { k with sweeps := p.now + tempo.sweepInterval }) } :
        Watch σ τ).Course C T tempo t₀ := by
  cases h with
  | @vacant v k₀ old hv due =>
    by_cases hw : v = w
    · subst hw
      obtain rfl := Option.some.inj (at'.symm.trans hv)
      exact .vacant old (Function.update_self ..) due
    · exact .vacant old ((Function.update_of_ne hw _ _).trans hv) due
  | @led v k₀ e hv leads row lasts swept =>
    by_cases hw : v = w
    · subst hw
      obtain rfl := Option.some.inj (at'.symm.trans hv)
      exact .led (Function.update_self ..) leads row lasts (.inr ⟨p.now, le_rfl, le_rfl, hall leads⟩)
    · exact .led ((Function.update_of_ne hw _ _).trans hv) leads row lasts swept

theorem Watch.Course.step (hC : C.Prompt) (hspan : 0 < C.span tempo.leaderLeaseSecs)
    (hcfg : ¬ C.free (refreshInterval tempo.leaderLeaseSecs - C.span tempo.leaderLeaseSecs))
    (hpat : 0 ≤ T.patience tempo.staleAfter) (hp : p.Sound C tempo T) (h : p.Course C T tempo t₀)
    (hs : Watch.Step C H tempo True p p') : p'.Course C T tempo t₀ := by
  cases hs with
  | pass le ticks =>
    cases h with
    | vacant old at' due => exact .vacant old at' due
    | led at' leads row lasts swept =>
      refine .led at' leads row lasts (swept.imp_right ?_)
      rintro ⟨last, hlast, hrest⟩
      exact ⟨last, hlast.trans le, hrest⟩
  | start fresh call =>
    refine h.asks hC hspan hcfg hp call ⟨⟨by simp only; omega, le_rfl⟩, by simp only; omega, le_rfl⟩ ?_
    exact fun k₀ hk₀ => (nomatch fresh.symm.trans hk₀)
  | @elect w k l f at' due call =>
    refine h.asks hC hspan hcfg hp call ⟨⟨by simp only; omega, le_rfl⟩, (hp.ticks w k at').sweeps⟩ ?_
    intro k₀ hk₀
    obtain rfl := Option.some.inj (at'.symm.trans hk₀)
    exact ⟨rfl, .inr ⟨due, rfl⟩⟩
  | @peerResigned w k l f at' follows call =>
    refine h.asks hC hspan hcfg hp call ⟨(hp.ticks w k at').elects, (hp.ticks w k at').sweeps⟩ ?_
    intro k₀ hk₀
    obtain rfl := Option.some.inj (at'.symm.trans hk₀)
    exact ⟨rfl, .inl rfl⟩
  | idle at' due follows => exact h.swept at' (fun leads => nomatch follows.symm.trans leads)
  | sweep at' due leads done ok =>
    exact (h.jobs hpat (fun _ _ hb => .inr (T.sweep_beat done hb))).swept at'
      (fun _ _ _ hb => H.sweep_all hp.sound (ok trivial) done hb)
  | sweepFails _ _ _ _ ok | ends _ ok | resign _ ok => exact absurd trivial ok
  | claim done =>
    refine h.jobs hpat (fun id b hb => ?_)
    have hif := T.claim_beat hp.inv done hb
    split at hif
    · exact .inl hif
    · exact .inr hif
  | verdict done => exact h.jobs hpat (fun _ _ hb => .inr (T.verdict_beat done hb))
  | heartbeat done =>
    refine h.jobs hpat (fun id b hb => ?_)
    have hif := T.heartbeat_beat hp.sound done hb
    split at hif
    · exact .inl hif
    · exact .inr hif
  | other done => exact h.jobs hpat (fun _ _ hb => .inr (T.other_beat done hb))

/-- Every state with a running process starts a course. -/
theorem Watch.Sound.course (hp : p.Sound C tempo T) (at' : p.keepers w = some k) : p.Course C T tempo p.now := by
  refine .vacant hp.lease at' ?_
  have helects := (hp.ticks w k at').elects
  omega

/-- A course that has lasted for a lease and an interval has a leader. -/
theorem Watch.Course.leader (hp : p.Sound C tempo T) (h : p.Course C T tempo t₀)
    (late : t₀ + C.span tempo.leaderLeaseSecs + refreshInterval tempo.leaderLeaseSecs < p.now) : p.Led C := by
  cases h with
  | @vacant w k old at' due =>
    have helects := (hp.ticks w k at').elects
    omega
  | @led w k e at' leads row lasts => exact ⟨w, k, e, at', leads, row, lasts⟩

/-- One `sweep_interval` later its jobs have been swept. -/
theorem Watch.Course.fresh (hp : p.Sound C tempo T) (h : p.Course C T tempo t₀)
    (late : t₀ + C.span tempo.leaderLeaseSecs + refreshInterval tempo.leaderLeaseSecs + tempo.sweepInterval < p.now) :
    ∀ id b, T.beat p.store id b → p.now - tempo.sweepInterval - T.patience tempo.staleAfter ≤ b := by
  intro id b hb
  cases h with
  | @vacant w k old at' due =>
    have helects := (hp.ticks w k at').elects
    omega
  | @led w k e at' leads row lasts swept =>
    have hsweeps := (hp.ticks w k at').sweeps
    rcases swept with hfirst | ⟨last, hlast, hnext, hall⟩
    · omega
    · have := hall id b hb
      omega

/-- **Recovery in bounded time**: whatever failed before, a calm run that some process is part of has a leader after one
lease and one interval, and one `sweep_interval` later no job runs whose last stamp is older than `stale_after` and one
`sweep_interval`. -/
theorem Watch.Reached.recovers (hC : C.Prompt) (hspan : 0 < C.span tempo.leaderLeaseSecs)
    (hcfg : ¬ C.free (refreshInterval tempo.leaderLeaseSecs - C.span tempo.leaderLeaseSecs))
    (hpat : 0 ≤ T.patience tempo.staleAfter) {p₀ : Watch σ τ} (h₀ : p₀.Reached C H tempo) (at' : p₀.keepers w = some k)
    (h : Watch.Calmly C H tempo p₀ p) :
    (p₀.now + C.span tempo.leaderLeaseSecs + refreshInterval tempo.leaderLeaseSecs < p.now → p.Led C) ∧
    (p₀.now + C.span tempo.leaderLeaseSecs + refreshInterval tempo.leaderLeaseSecs + tempo.sweepInterval < p.now →
      ∀ id b, T.beat p.store id b → p.now - tempo.sweepInterval - T.patience tempo.staleAfter ≤ b) := by
  have hp₀ := h₀.sound hC hspan
  have hp : p.Sound C tempo T ∧ p.Course C T tempo p₀.now := by
    refine Reach.inv (P := fun p => p.Sound C tempo T ∧ p.Course C T tempo p₀.now) h ⟨hp₀, hp₀.course at'⟩ ?_
    rintro p _ p' ⟨hp, hcourse⟩ hstep
    exact ⟨hp.step hC hspan hstep, hcourse.step hC hspan hcfg hpat hp hstep⟩
  exact ⟨hp.2.leader hp.1, hp.2.fresh hp.1⟩

end Steps

end Eddyq.Runtime
