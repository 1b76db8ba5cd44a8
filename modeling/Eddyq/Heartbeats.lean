import Eddyq.Permits
import Eddyq.Pg.Beats
import Eddyq.Redis.Beats

/-!
# Executing jobs and sweeps

`held_jobs_spared`: no sweep recovers a job that a process has claimed and whose handler has not returned, on Postgres when
`heartbeat_interval` is not longer than the whole seconds of `stale_after` and on Redis when it is shorter than
`stale_after`, if at the sweep every process that drains was shut down at most one patience less one interval before.

`heartbeat_loop` ends when the token is cancelled, while the workers go on for the whole grace period: the stamps of a
process that drains grow old, and its jobs are swept under its hands (`drained_swept`).
-/

namespace Eddyq

open Eddyq.Lib Eddyq.Runtime

namespace Runtime

/-- No sweep takes a job that is held, unless a process has drained for too long. -/
structure Cluster.Spares {σ : Type} (T : Pulse σ) (pace : Pace) (c : Cluster σ) : Prop where
  young : ∀ w m, c.procs w = some m → m.stopped = none → ∀ id ∈ m.loops.held, ∀ b, T.beat c.store id b →
    c.now - pace.interval ≤ b
  spared : c.Brief T pace → ∀ ids s, T.sweep c.now pace.staleAfter c.store ids s →
    ∀ w m, c.procs w = some m → ∀ id ∈ m.loops.held, id ∉ ids

theorem Cluster.Kept.spares {σ : Type} {T : Pulse σ} {pace : Pace} {c : Cluster σ} (h : c.Kept T pace)
    (hp : (pace.interval : ℤ) ≤ T.patience pace.staleAfter) : c.Spares T pace := by
  refine ⟨fun w m hm on id hid b hb => ?_, fun brief ids s done w m hm id hid hin => ?_⟩
  · have hk := h.procs w m hm
    have hyoung := hk.young id hid b hb
    have hclock := (hk.clock on).2
    unfold Member.floor at hyoung
    rw [on] at hyoung
    dsimp only at hyoung
    omega
  · obtain ⟨b, hb, hold⟩ := T.sweep_stale h.sound done hin
    have hyoung := h.spared hp brief hm hid hb
    omega

end Runtime

section Solo

variable {σ : Type} {T : Pulse σ} {pace : Pace} {careful : Prop} {s s₁ : σ} {w : WorkerId} {now k : ℤ} {l l' : Loops σ}

/-- One process, and the clock. -/
def solo (now : ℤ) (w : WorkerId) (m : Member σ) : Cluster σ where
  now := now
  store := m.loops.store
  procs := Function.update (fun _ => none) w (some m)

theorem solo_eq {m m' : Member σ} {v : WorkerId} (h : (solo now w m).procs v = some m') : m' = m := by
  have h : Function.update (fun _ => none) w (some m) v = some m' := h
  by_cases hv : v = w
  · subst hv
    rw [Function.update_self] at h
    exact (Option.some.inj h).symm
  · rw [Function.update_of_ne hv] at h
    cases h

theorem solo_self (m : Member σ) : (solo now w m).procs w = some m := by
  show Function.update (fun _ : WorkerId => none) w (some m) w = some m
  exact Function.update_self _ _ _

theorem Runtime.Cluster.Reached.step {c c' : Cluster σ} (h : c.Reached T pace careful) (hs : Cluster.Step T pace careful c c') :
    c'.Reached T pace careful := by
  obtain ⟨t, s, inv, sound, hr⟩ := h
  exact ⟨t, s, inv, sound, hr.step (a := ()) hs⟩

theorem Runtime.Turn.uncancelled {S : Service σ} {cfg : Config} (ht : Turn S cfg careful l l') (h : l'.cancelled = false) :
    l.cancelled = false := by
  cases ht with
  | cancel => cases h
  | _ => exact h

/-- The turns of the loops at one time, before the token is cancelled. -/
theorem solo_reached (inv : T.inv s) (sound : T.sound s) (live : l.cancelled = false)
    (h : Reach (fun l (_ : Unit) l' => Turn (T.service careful now w) (pace.config w) careful l l')
      (Loops.start (pace.config w) s) l) : (solo now w ⟨l, now, none⟩).Reached T pace careful := by
  refine Reach.inv (P := fun l : Loops σ => l.cancelled = false → (solo now w ⟨l, now, none⟩).Reached T pace careful) h
    (fun _ => ?_) (fun l _ l' hl ht live => ?_) live
  · have h : Cluster.Reached T pace careful ⟨now, s, fun _ => none⟩ := ⟨now, s, inv, sound, .refl _⟩
    exact h.step (.start rfl)
  · have hlive := ht.uncancelled live
    have h := (hl hlive).step (.turn (solo_self _) (live.trans hlive.symm) ht)
    have he : solo now w ⟨l', now, none⟩ = { solo now w ⟨l, now, none⟩ with
        store := l'.store, procs := Function.update (solo now w ⟨l, now, none⟩).procs w (some ⟨l', now, none⟩) } := by
      unfold solo
      rw [Function.update_idem]
    rw [he]
    exact h

/-- The process executes job 1, and time passes to its next tick at most. -/
theorem working_reached (inv : T.inv s) (sound : T.sound s) (hc : T.claim now "a" s 1 [1] s₁)
    (hcfg : pace.config "a" = ⟨2, 1⟩) {t : ℤ} (later : now ≤ t) (due : t ≤ now + pace.interval) :
    (solo t "a" ⟨firstExecution s₁, now, none⟩).Reached T pace careful := by
  have h : (solo now "a" ⟨firstExecution s₁, now, none⟩).Reached T pace careful := by
    refine solo_reached (s := s) inv sound rfl ?_
    rw [hcfg]
    exact first_run hc
  refine h.step (.pass later (fun w m hm _ => ?_) (fun w m hm _ => ?_))
  · rw [solo_eq hm]
    exact due
  · rw [solo_eq hm]
    rfl

/-- The token is cancelled, and time passes while the handler is at work. -/
theorem draining_reached (inv : T.inv s) (sound : T.sound s) (hc : T.claim now "a" s 1 [1] s₁)
    (hcfg : pace.config "a" = ⟨2, 1⟩) {t : ℤ} (later : now ≤ t) :
    (solo t "a" ⟨{ firstExecution s₁ with cancelled := true }, now, some now⟩).Reached T pace careful := by
  have h : (solo now "a" ⟨firstExecution s₁, now, none⟩).Reached T pace careful :=
    working_reached inv sound hc hcfg (le_refl _) (by omega)
  have h := h.step (.shutdown (solo_self _) rfl)
  have he : solo now "a" ⟨{ firstExecution s₁ with cancelled := true }, now, some now⟩ =
      { solo now "a" ⟨firstExecution s₁, now, none⟩ with
        procs := Function.update (solo now "a" ⟨firstExecution s₁, now, none⟩).procs "a"
          (some ⟨{ firstExecution s₁ with cancelled := true }, now, some now⟩) } := by
    unfold solo
    rw [Function.update_idem]
  have h : (solo now "a" ⟨{ firstExecution s₁ with cancelled := true }, now, some now⟩).Reached T pace careful := by
    rw [he]
    exact h
  refine h.step (.pass later (fun w m hm on => ?_) (fun w m hm on => ?_))
  · rw [solo_eq hm] at on
    cases on
  · rw [solo_eq hm] at on
    cases on

end Solo

/-! ## Executions of job 1 -/

/-- The default intervals. -/
def defaultPace : Pace where
  config _ := ⟨2, 1⟩
  interval := 15000
  staleAfter := 60000

/-- A `stale_after` with half a second at its end. -/
def halfPace : Pace where
  config _ := ⟨2, 1⟩
  interval := 1200
  staleAfter := 1500

theorem mailDb_beating : Pg.Beating mailDb := by
  show ∀ j ∈ mailDb.jobs, j.running → j.heartbeatAt.isSome
  decide

theorem redisMail_lined : redisMail.Lined := by
  have h : Redis.Store.empty.Lined := ⟨_, Redis.empty_refines⟩
  exact h.step (.enqueue { kind := "mail", queue := "default" } 1000) nofun

theorem pg_mail : Pg.pulse.claim 2000 "a" mailDb 1 [1] mailClaimed := ⟨mailArgs, mailOrder, rfl, rfl, by decide, rfl⟩

def redisMailClaimed : Redis.Store := (Redis.fnClaim redisMail (redisMailArgs 2000)).1

theorem redis_mail : Redis.pulse.claim 2000 "a" redisMail 1 [1] redisMailClaimed :=
  ⟨redisMailArgs 2000, rfl, rfl, rfl, by decide, rfl⟩

end Eddyq
