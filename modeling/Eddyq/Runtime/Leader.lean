import Eddyq.Job
import Eddyq.Lib.Elections

/-!
# The leader loops of the processes

Each process keeps the answer of its last election in `is_leader`. Its `leader_loop` elects when it starts, at every tick
of an interval that has a floor of five seconds, and, while it is not the leader, when a peer resigns. A call that fails
leaves the flag as it is, and so does the resignation at a shutdown.

`Office.Step` is one event of the processes and the clock, over any store of leases. Two conditions can be asked of the
steps. `steady`: the process that calls itself the leader fails to refresh only if its lease lasts to its next tick.
`lasting`: the leader is not shut down. In steady runs, with an interval that does not outlast the lease, no two running
loops are flagged (`Office.Reached.acting_unique`).
-/

namespace Eddyq.Runtime

open Eddyq.Lib

/-- `leader::MAINTENANCE_ROLE`. -/
def maintenanceRole : String := "maintenance"

/-- The interval of `leader_loop`, in milliseconds. -/
def refreshInterval (leaderLeaseSecs : ℕ) : ℕ := 1000 * max (leaderLeaseSecs / 3) 5

/-- Where the `leader_loop` of a process is, with its `is_leader` and its next tick. -/
inductive Post
  | unstarted
  | running (isLeader : Bool) (next : ℤ)
  | stopped (isLeader : Bool)
  deriving DecidableEq

def Post.isLeader : Post → Bool
  | .unstarted => false
  | .running f _ | .stopped f => f

/-- The store of leases, the time and the processes. -/
structure Office (σ : Type) where
  term : Term σ String WorkerId
  now : ℤ
  loops : WorkerId → Post

section Step

variable {σ : Type} (C : Electorate σ String WorkerId) (lease : ℕ) (steady lasting : Prop)

/-- `try_elect_once` of a process that ticks next at `next`: what it makes of the term and of the flag. -/
inductive Elects (w : WorkerId) (now next : ℤ) (z : Term σ String WorkerId) (f : Bool) :
    Term σ String WorkerId → Bool → Prop
  | ok {won : Bool} (reply : (C.elect z.store maintenanceRole w lease now).1 = some won) :
      Elects w now next z f (z.call C (.elect maintenanceRole w lease now)) won
  /-- `leader election failed`, whether the store has seen the call or not. -/
  | failed {z' : Term σ String WorkerId} (seen : z' = z ∨ z' = z.call C (.elect maintenanceRole w lease now))
      (ok : steady → f = true → ∀ t₀ l, z'.last maintenanceRole w = some (t₀, l) → ¬ C.free (next - (t₀ + l))) :
      Elects w now next z f z' f

/-- One event. -/
inductive Office.Step : Office σ → Office σ → Prop
  /-- Time passes, and no tick is missed. -/
  | pass {p : Office σ} {t : ℤ} (le : p.now ≤ t) (ticks : ∀ w f next, p.loops w = .running f next → t ≤ next) :
      Step p { p with now := t }
  | start {p : Office σ} {w : WorkerId} {z : Term σ String WorkerId} {f : Bool} (pc : p.loops w = .unstarted)
      (call : Elects C lease steady w p.now (p.now + refreshInterval lease) p.term false z f) :
      Step p { p with term := z, loops := Function.update p.loops w (.running f (p.now + refreshInterval lease)) }
  | tick {p : Office σ} {w : WorkerId} {z : Term σ String WorkerId} {f f' : Bool} (pc : p.loops w = .running f p.now)
      (call : Elects C lease steady w p.now (p.now + refreshInterval lease) p.term f z f') :
      Step p { p with term := z, loops := Function.update p.loops w (.running f' (p.now + refreshInterval lease)) }
  /-- A peer resigned, and this process is not the leader. -/
  | peerResigned {p : Office σ} {w : WorkerId} {next : ℤ} {z : Term σ String WorkerId} {f : Bool}
      (pc : p.loops w = .running false next) (call : Elects C lease steady w p.now next p.term false z f) :
      Step p { p with term := z, loops := Function.update p.loops w (.running f next) }
  | shutdown {p : Office σ} {w : WorkerId} {next : ℤ} (pc : p.loops w = .running false next) :
      Step p { p with loops := Function.update p.loops w (.stopped false) }
  /-- The leader resigns at its shutdown; the call may fail. -/
  | resign {p : Office σ} {w : WorkerId} {next : ℤ} {z : Term σ String WorkerId} (pc : p.loops w = .running true next)
      (call : z = p.term ∨ z = p.term.call C (.resign maintenanceRole w p.now)) (ok : ¬ lasting) :
      Step p { p with term := z, loops := Function.update p.loops w (.stopped true) }

/-- The states that runs of the processes lead to, from a store that no process has called. -/
def Office.Reached (p : Office σ) : Prop :=
  ∃ s t, Reach (fun p (_ : Unit) p' => Office.Step C lease steady lasting p p')
    ⟨⟨s, t, fun _ _ => none⟩, t, fun _ => .unstarted⟩ p

/-! ## The flag and the lease -/

/-- The lease of a flagged loop lasts to its next tick. -/
structure Office.Sound (p : Office σ) : Prop where
  filed : p.term.Filed C
  time : p.term.time ≤ p.now
  ticks : ∀ w f next, p.loops w = .running f next → p.now ≤ next ∧ next ≤ p.now + refreshInterval lease
  leases : ∀ w next, p.loops w = .running true next →
    ∃ t₀ l, p.term.last maintenanceRole w = some (t₀, l) ∧ 0 < l ∧ ¬ C.free (next - (t₀ + l))

variable {C lease steady lasting} {p p' : Office σ} {w : WorkerId} {z : Term σ String WorkerId} {f f' : Bool}
  {now next : ℤ}

/-- An election call keeps or renews the last election of its worker. -/
theorem call_elect_last (hspan : 0 < C.span lease)
    (h : ∃ t₀ l, z.last maintenanceRole w = some (t₀, l) ∧ 0 < l) :
    ∃ t₀ l, (z.call C (.elect maintenanceRole w lease now)).last maintenanceRole w = some (t₀, l) ∧ 0 < l := by
  rcases z.call_elect (C := C) maintenanceRole w lease now with ⟨_, _, _, _, hlast⟩ | ⟨_, _, _, hlast⟩
  · rw [hlast]
    exact ⟨now, C.span lease, note_self, hspan⟩
  · rw [hlast]
    exact h

/-- The term after an election call, seen or not: leases on file, and the last elections of the others. -/
theorem Elects.term {z₀ : Term σ String WorkerId} (h : Elects C lease steady w now next z₀ f z f') (hfiled : z₀.Filed C)
    (htime : z₀.time ≤ now) :
    z.Filed C ∧ z.time ≤ now ∧ ∀ w', w' ≠ w → z.last maintenanceRole w' = z₀.last maintenanceRole w' := by
  have hcall : (z₀.call C (.elect maintenanceRole w lease now)).Filed C ∧
      (z₀.call C (.elect maintenanceRole w lease now)).time ≤ now ∧ ∀ w', w' ≠ w →
        (z₀.call C (.elect maintenanceRole w lease now)).last maintenanceRole w' = z₀.last maintenanceRole w' :=
    ⟨hfiled.call _ htime, (Term.call_time _).le, fun w' hw => z₀.call_last _ (fun h => hw h.2)⟩
  cases h with
  | ok => exact hcall
  | failed seen =>
    rcases seen with rfl | rfl
    · exact ⟨hfiled, htime, fun _ _ => rfl⟩
    · exact hcall

/-- After an election that sets the flag, or leaves it set, the lease lasts to the next tick. -/
theorem Elects.lasts (hspan : 0 < C.span lease) (hcfg : ¬ C.free (refreshInterval lease - C.span lease)) (hs : steady)
    {z₀ : Term σ String WorkerId} (h : Elects C lease steady w now next z₀ f z true)
    (hnext : next ≤ now + refreshInterval lease)
    (hf : f = true → ∃ t₀ l, z₀.last maintenanceRole w = some (t₀, l) ∧ 0 < l) :
    ∃ t₀ l, z.last maintenanceRole w = some (t₀, l) ∧ 0 < l ∧ ¬ C.free (next - (t₀ + l)) := by
  cases h with
  | ok reply =>
    rcases z₀.call_elect (C := C) maintenanceRole w lease now with ⟨_, _, _, _, hlast⟩ | ⟨hlost, _⟩
    · rw [hlast]
      exact ⟨now, C.span lease, note_self, hspan, fun h => hcfg (C.free_mono (by omega) h)⟩
    · exact absurd reply hlost
  | failed seen ok =>
    have hlast : ∃ t₀ l, z.last maintenanceRole w = some (t₀, l) ∧ 0 < l := by
      rcases seen with rfl | rfl
      · exact hf rfl
      · exact call_elect_last hspan (hf rfl)
    obtain ⟨t₀, l, hlast, hl⟩ := hlast
    exact ⟨t₀, l, hlast, hl, ok hs rfl t₀ l hlast⟩

/-- A loop is changed by an election: the state stays sound when the loop's flag has a lease. -/
theorem Office.Sound.update (hp : p.Sound C lease) {post : Post} (hz : z.Filed C) (htime : z.time ≤ p.now)
    (hother : ∀ w', w' ≠ w → z.last maintenanceRole w' = p.term.last maintenanceRole w')
    (htick : ∀ f next, post = .running f next → p.now ≤ next ∧ next ≤ p.now + refreshInterval lease)
    (hlease : ∀ next, post = .running true next →
      ∃ t₀ l, z.last maintenanceRole w = some (t₀, l) ∧ 0 < l ∧ ¬ C.free (next - (t₀ + l))) :
    ({ p with term := z, loops := Function.update p.loops w post } : Office σ).Sound C lease where
  filed := hz
  time := htime
  ticks w' f next h := by
    by_cases hw : w' = w
    · subst hw
      exact htick f next ((Function.update_self w' post p.loops).symm.trans h)
    · exact hp.ticks w' f next ((Function.update_of_ne hw post p.loops).symm.trans h)
  leases w' next h := by
    by_cases hw : w' = w
    · subst hw
      exact hlease next ((Function.update_self w' post p.loops).symm.trans h)
    · simp only [hother w' hw]
      exact hp.leases w' next ((Function.update_of_ne hw post p.loops).symm.trans h)

theorem Office.Sound.elects (hspan : 0 < C.span lease) (hcfg : ¬ C.free (refreshInterval lease - C.span lease))
    (hs : steady) (hp : p.Sound C lease) (h : Elects C lease steady w p.now next p.term f z f')
    (hnow : p.now ≤ next) (hnext : next ≤ p.now + refreshInterval lease)
    (hf : f = true → ∃ t₀ l, p.term.last maintenanceRole w = some (t₀, l) ∧ 0 < l) :
    ({ p with term := z, loops := Function.update p.loops w (.running f' next) } : Office σ).Sound C lease := by
  obtain ⟨hfiled, htime, hother⟩ := h.term hp.filed hp.time
  refine hp.update hfiled htime hother ?_ ?_
  · rintro _ _ ⟨⟩
    exact ⟨hnow, hnext⟩
  · rintro _ ⟨⟩
    exact h.lasts hspan hcfg hs hnext hf

theorem Office.Sound.step (hspan : 0 < C.span lease) (hcfg : ¬ C.free (refreshInterval lease - C.span lease))
    (hs : steady) (hp : p.Sound C lease) (h : Office.Step C lease steady lasting p p') : p'.Sound C lease := by
  cases h with
  | pass le ticks =>
    exact ⟨hp.filed, hp.time.trans le, fun w f next hw => ⟨ticks w f next hw, by have := hp.ticks w f next hw; simp only; omega⟩,
      hp.leases⟩
  | start pc call => exact hp.elects hspan hcfg hs call (by omega) le_rfl nofun
  | tick pc call =>
    refine hp.elects hspan hcfg hs call (by omega) le_rfl (fun hf => ?_)
    subst hf
    obtain ⟨t₀, l, hlast, hl, _⟩ := hp.leases _ _ pc
    exact ⟨t₀, l, hlast, hl⟩
  | peerResigned pc call =>
    obtain ⟨hnow, hnext⟩ := hp.ticks _ _ _ pc
    exact hp.elects hspan hcfg hs call hnow hnext nofun
  | shutdown pc => exact hp.update hp.filed hp.time (fun _ _ => rfl) nofun nofun
  | resign pc call =>
    rcases call with rfl | rfl
    · exact hp.update hp.filed hp.time (fun _ _ => rfl) nofun nofun
    · exact hp.update (hp.filed.call _ hp.time) (Term.call_time _).le (fun w' hw => p.term.call_last _ (fun h => hw h.2))
        nofun nofun

theorem Office.Reached.step (h : p.Reached C lease steady lasting) (hs : Office.Step C lease steady lasting p p') :
    p'.Reached C lease steady lasting := by
  obtain ⟨s, t, hr⟩ := h
  exact ⟨s, t, hr.step (a := ()) hs⟩

theorem Office.Reached.sound (hspan : 0 < C.span lease) (hcfg : ¬ C.free (refreshInterval lease - C.span lease))
    (hs : steady) (h : p.Reached C lease steady lasting) : p.Sound C lease := by
  obtain ⟨s, t, hr⟩ := h
  refine hr.inv ⟨nofun, le_rfl, nofun, nofun⟩ ?_
  intro p _ p' hp hstep
  exact hp.step hspan hcfg hs hstep

/-- **No two running loops are flagged**, in steady runs with an interval that does not outlast the lease. -/
theorem Office.Reached.acting_unique (hspan : 0 < C.span lease)
    (hcfg : ¬ C.free (refreshInterval lease - C.span lease)) (hs : steady) (h : p.Reached C lease steady lasting)
    {w w' : WorkerId} {next next' : ℤ} (hw : p.loops w = .running true next) (hw' : p.loops w' = .running true next') :
    w = w' := by
  have hp := h.sound hspan hcfg hs
  have key : ∀ v n, p.loops v = .running true n → ∃ e, C.row p.term.store maintenanceRole = some ⟨v, e⟩ := by
    intro v n hv
    obtain ⟨t₀, l, hlast, hl, hfree⟩ := hp.leases v n hv
    exact ⟨_, hp.filed.row hlast hl (hp.time.trans (hp.ticks v true n hv).1) hfree⟩
  obtain ⟨e, he⟩ := key w next hw
  obtain ⟨e', he'⟩ := key w' next' hw'
  exact congrArg Tenure.worker (Option.some.inj (he.symm.trans he'))

/-- A leader that is never shut down keeps running. -/
theorem Office.Reached.flagged_running (hl : lasting) (h : p.Reached C lease steady lasting) :
    ∀ w, p.loops w ≠ .stopped true := by
  obtain ⟨s, t, hr⟩ := h
  refine hr.inv (P := fun p => ∀ w, p.loops w ≠ .stopped true) (fun _ => nofun) ?_
  intro p _ p' hp hstep
  cases hstep with
  | pass => exact hp
  | resign _ _ ok => exact absurd hl ok
  | start | tick | peerResigned | shutdown =>
    exact (Function.forall_update_iff p.loops (fun _ post => post ≠ .stopped true)).mpr ⟨nofun, fun w _ => hp w⟩

end Step

end Eddyq.Runtime
