import Eddyq.Heartbeats
import Eddyq.Leaders
import Eddyq.Runtime.Recovery

/-!
# Recovery in bounded time

`jobs_recovered`: whatever failed before, once nothing fails any more and some process runs, there is a leader after one
lease and one interval of `leader_loop`, and after one `sweep_interval` more every running job has been stamped within
`stale_after` and one `sweep_interval`, on both backends. So a job whose process died is back after
`lease + lease / 3 + sweep_interval + stale_after` at most, with a lease of more than five seconds and, on Redis, sweeps
that find no more than the 256 jobs that `eddyq_sweep_stale` takes in one call.
-/

namespace Eddyq

open Eddyq.Lib Eddyq.Runtime

namespace Pg

/-- A recovery leaves no running row that it matches. -/
theorem recover_spares {db db' : Db} {p : JobRow → Bool} {error : Json} {now : ℤ} {n : Nat}
    (h : recover db p error now = .ok (db', n)) {id : JobId} {b : ℤ} (hb : db'.beat id b) :
    ∃ j ∈ db.jobs, j.running ∧ j.heartbeatAt = some b ∧ p j = false := by
  obtain ⟨db₁, hu, h⟩ := bind_eq_ok h
  obtain ⟨db₂, hf, h⟩ := bind_eq_ok h
  cases h
  obtain ⟨j', hj', -, hr', hb'⟩ := hb
  obtain ⟨j₁, hj₁, hr₁, -, -, hb₁⟩ := ((updateBatches_grows hu).runsKept.trans (fireAll_grows hf).runsKept) j' hj' hr'
  obtain ⟨j, hj, rfl⟩ := mem_updateWhere.mp hj₁
  by_cases hit : (j.running && p j) = true
  · rw [if_pos hit, recover_not_running] at hr₁
    cases hr₁
  · rw [if_neg hit] at hr₁ hb₁
    refine ⟨j, hj, hr₁, hb₁.trans hb', ?_⟩
    simpa [hr₁] using hit

/-- `sweep_stale` takes all that is stale. -/
def thorough : Thorough pulse where
  room _ _ _ := True
  sweep_all := by
    rintro t n db ids db' id b - - ⟨-, k, h⟩ hb
    obtain ⟨j, _, _, hbeat, hfresh⟩ := recover_spares h hb
    unfold JobRow.stale at hfresh
    rw [hbeat] at hfresh
    have hfresh : ¬ b < t - ((n / 1000 : ℕ) : ℤ) * 1000 := of_decide_eq_false hfresh
    exact not_lt.mp hfresh

end Pg

namespace Redis

/-- A sweep with this cutoff takes all it finds: `eddyq_sweep_stale` takes `batch_max` jobs at most. -/
def Store.Roomy (s : Store) (staleBefore : ℤ) : Prop :=
  (s.zsets .active).entries.countP (fun e => e.1 ≤ staleBefore) ≤ sweepBatchMax

/-- A sweep with room leaves no stamp up to its cutoff. -/
theorem fnSweepStale_young {s : Store} (hs : s.Lined) {t : ℤ} (room : s.Roomy t) {id : JobId} {b : ℤ}
    (hb : (fnSweepStale s t sweepBatchMax).1.beat id b) : t < b := by
  obtain ⟨A', hA'⟩ := hs.step (.sweepStale t sweepBatchMax) trivial
  obtain ⟨A, hA⟩ := hs
  have hrun : (fnSweepStale s t sweepBatchMax).1.state id = some .running := hA'.active_running (Option.isSome_of_eq_some hb)
  have hkept : s.beat id b :=
    (Op.apply_commands False s (.sweepStale t sweepBatchMax) rfl fun _ _ he => by cases he).stampsKept.beat hb
  by_contra hle
  -- it was found, and is no longer running
  have hmem : (b, id) ∈ (s.zsets .active).entries := ZSet.mem_entries_iff.mpr hkept
  have hid : id ∈ s.staleIds t sweepBatchMax := by
    unfold Store.staleIds ZSet.rangeByScore
    rw [List.take_of_length_le]
    · exact List.mem_map.mpr ⟨_, List.mem_filter.mpr ⟨hmem, decide_eq_true (not_lt.mp hle)⟩, rfl⟩
    · rwa [List.length_map, ← List.countP_eq_length_filter]
  rw [Store.state, fnSweepStale_hash hA, if_pos hid] at hrun
  exact recovered_state _ _ hrun

/-- `eddyq_sweep_stale` takes the jobs with the oldest stamps. -/
def thorough : Thorough pulse where
  room t n s := s.Roomy (t - n)
  sweep_all := by
    rintro t n s ids s' id b hs room ⟨rfl, rfl⟩ hb
    have hyoung := fnSweepStale_young hs room hb
    show t - ((n : ℤ) - 1) ≤ b
    omega

end Redis

namespace Runtime

/-- How long nobody may be the leader: a lease and an interval of `leader_loop`. -/
def Tempo.succession (tempo : Tempo) : ℕ := 1000 * tempo.leaderLeaseSecs + refreshInterval tempo.leaderLeaseSecs

/-- There is a leader again, and then the jobs of the dead are back. -/
structure Watch.Recovers {σ τ : Type} (C : Electorate σ String WorkerId) (T : Pulse τ) (tempo : Tempo)
    (p₀ p : Watch σ τ) : Prop where
  led : p₀.now + tempo.succession < p.now → p.Led C
  fresh : p₀.now + tempo.succession + tempo.sweepInterval < p.now →
    ∀ id b, T.beat p.store id b → p.now - tempo.sweepInterval - T.patience tempo.staleAfter ≤ b

end Runtime

section Takeover

variable {σ τ : Type} {C : Electorate σ String WorkerId} {T : Pulse τ} {H : Thorough T} {tempo : Tempo} {calm : Prop}
  {now t : ℤ} {l l' : σ} {s s' : τ} {w : WorkerId} {k : Keeper} {ids : List JobId}

/-- One process, and the clock. -/
def attended (now : ℤ) (l : σ) (s : τ) (w : WorkerId) (k : Keeper) : Watch σ τ where
  now := now
  leases := l
  store := s
  keepers := Function.update (fun _ => none) w (some k)

theorem attended_self : (attended now l s w k).keepers w = some k := by
  show Function.update (fun _ : WorkerId => none) w (some k) w = some k
  exact Function.update_self _ _ _

/-- A process starts and asks. -/
theorem attended_start {won : Bool} (reply : C.elect l maintenanceRole w tempo.leaderLeaseSecs now = (some won, l')) :
    Watch.Step C H tempo calm ⟨now, l, s, fun _ => none⟩ (attended now l' s w
      ⟨won, now + refreshInterval tempo.leaderLeaseSecs, now + tempo.sweepInterval⟩) :=
  .start rfl (.ok reply)

/-- Time passes to the next tick at most. -/
theorem attended_pass (le : now ≤ t) (helects : t ≤ k.elects) (hsweeps : t ≤ k.sweeps) :
    Watch.Step C H tempo calm (attended now l s w k) (attended t l s w k) := by
  refine .pass le (fun v k' hv => ?_)
  have hv : Function.update (fun _ => none) w (some k) v = some k' := hv
  by_cases hw : v = w
  · subst hw
    rw [Function.update_self] at hv
    cases hv
    exact ⟨helects, hsweeps⟩
  · rw [Function.update_of_ne hw] at hv
    cases hv

theorem attended_elect {won : Bool} (due : now = k.elects)
    (reply : C.elect l maintenanceRole w tempo.leaderLeaseSecs now = (some won, l')) :
    Watch.Step C H tempo calm (attended now l s w k)
      (attended now l' s w { k with isLeader := won, elects := now + refreshInterval tempo.leaderLeaseSecs }) := by
  have h : Watch.Step C H tempo calm (attended now l s w k) _ := .elect attended_self due (.ok reply)
  simpa only [attended, Function.update_idem] using h

theorem attended_idle (due : now = k.sweeps) (follows : k.isLeader = false) :
    Watch.Step C H tempo calm (attended now l s w k)
      (attended now l s w { k with sweeps := now + tempo.sweepInterval }) := by
  have h : Watch.Step C H tempo calm (attended now l s w k) _ := .idle attended_self due follows
  simpa only [attended, Function.update_idem] using h

theorem attended_sweep (due : now = k.sweeps) (leads : k.isLeader = true) (done : T.sweep now tempo.staleAfter s ids s')
    (room : H.room now tempo.staleAfter s) :
    Watch.Step C H tempo calm (attended now l s w k)
      (attended now l s' w { k with sweeps := now + tempo.sweepInterval }) := by
  have h : Watch.Step C H tempo calm (attended now l s w k) _ :=
    .sweep attended_self due leads done (fun _ => room)
  simpa only [attended, Function.update_idem] using h

theorem attended_ends (ok : ¬ calm) :
    Watch.Step C H tempo calm (attended now l s w k) ⟨now, l, s, fun _ => none⟩ := by
  have h : Watch.Step C H tempo calm (attended now l s w k) _ := .ends attended_self ok
  simpa only [attended, Function.update_idem, Function.update_eq_self] using h

/-- A lease of six seconds, sweeps every five seconds, and jobs that are stale after one. -/
def quick : Tempo := ⟨6, 5000, 1000⟩

/-- The leader `a` crashes with a job in hand, and `b` starts. -/
theorem takeover_reached (l₀ : σ) {l₁ l₂ : σ} {s₀ s₁ : τ} (inv : T.inv s₀) (sound : T.sound s₀)
    (free : C.row l₀ maintenanceRole = none) (first : C.elect l₀ maintenanceRole "a" 6 2000 = (some true, l₁))
    (hc : T.claim 2000 "a" s₀ 1 [1] s₁) (refused : C.elect l₁ maintenanceRole "b" 6 2000 = (some false, l₂)) :
    (attended 2000 l₂ s₁ "b" ⟨false, 7000, 7000⟩).Reached C H quick := by
  refine ⟨2000, l₀, s₀, inv, sound, free, ?_⟩
  have h : Reach (fun p (_ : Unit) p' => Watch.Step C H quick False p p') ⟨2000, l₀, s₀, fun _ => none⟩
      ⟨2000, l₀, s₀, fun _ => none⟩ := .refl _
  have h := h.step (a := ()) (attended_start first)
  have h := h.step (a := ()) (.claim hc)
  have h := h.step (a := ()) (attended_ends (s := s₁) id)
  exact h.step (a := ()) (attended_start refused)

/-- `b` is refused, then takes the lease, and sweeps twice. -/
theorem takeover_run {l₂ l₃ l₄ l₅ : σ} {s₁ s₂ s₃ : τ} {ids' : List JobId}
    (refused : C.elect l₂ maintenanceRole "b" 6 7000 = (some false, l₃))
    (won : C.elect l₃ maintenanceRole "b" 6 12000 = (some true, l₄)) (swept : T.sweep 12000 1000 s₁ ids s₂)
    (room : H.room 12000 1000 s₁) (again : C.elect l₄ maintenanceRole "b" 6 17000 = (some true, l₅))
    (swept' : T.sweep 17000 1000 s₂ ids' s₃) (room' : H.room 17000 1000 s₂) :
    Watch.Calmly C H quick (attended 2000 l₂ s₁ "b" ⟨false, 7000, 7000⟩) (attended 19000 l₅ s₃ "b" ⟨true, 22000, 22000⟩) := by
  have h : Watch.Calmly C H quick (attended 2000 l₂ s₁ "b" ⟨false, 7000, 7000⟩) _ := .refl _
  have h := h.step (a := ()) (attended_pass (t := 7000) (by decide) (by decide) (by decide))
  have h := h.step (a := ()) (attended_elect rfl refused)
  have h := h.step (a := ()) (attended_idle rfl rfl)
  have h := h.step (a := ()) (attended_pass (t := 12000) (by decide) (by decide) (by decide))
  have h := h.step (a := ()) (attended_elect rfl won)
  have h := h.step (a := ()) (attended_sweep rfl rfl swept room)
  have h := h.step (a := ()) (attended_pass (t := 17000) (by decide) (by decide) (by decide))
  have h := h.step (a := ()) (attended_elect rfl again)
  have h := h.step (a := ()) (attended_sweep rfl rfl swept' room')
  exact h.step (a := ()) (attended_pass (t := 19000) (by decide) (by decide) (by decide))

end Takeover

end Eddyq
