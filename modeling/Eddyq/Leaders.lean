import Eddyq.Pg.Leader
import Eddyq.Redis.Leader
import Eddyq.Runtime.Leader

/-!
# One leader

`leases_exclusive` is the exclusion of the leases in both stores, over whole runs of calls. `leader_unique` is what the
flags of the processes make of it: at most one process calls itself the leader, in runs in which a leader fails to refresh
only while its lease lasts to its next tick, and is not shut down, with a lease of five seconds at least. Without these two
processes can (`two_leaders`): the interval has a floor that the lease has not, an error leaves the flag set, and so does
the resignation.
-/

namespace Eddyq

open Eddyq.Lib Eddyq.Runtime

/-- The worker `a` is elected for thirty seconds. -/
def firstTerm {σ : Type} (C : Electorate σ String WorkerId) (s : σ) : Term σ String WorkerId :=
  (Term.mk s 0 (fun _ _ => none)).call C (.elect maintenanceRole "a" 30 0)

theorem firstTerm_reached {σ : Type} (C : Electorate σ String WorkerId) (s : σ) : (firstTerm C s).Reached C :=
  Term.Reached.call ⟨s, 0, Reach.refl _⟩ _ le_rfl

/-- On Postgres, and on Redis when a key answers until its very expiry, the condition on the interval is a lease of five
seconds. -/
theorem not_free_refresh_iff (lease : ℕ) :
    (¬ Pg.electorate.free (refreshInterval lease - Pg.electorate.span lease) ↔ 5 ≤ lease) ∧
      (¬ (Redis.electorate true).free (refreshInterval lease - (Redis.electorate true).span lease) ↔ 5 ≤ lease) := by
  have hle : refreshInterval lease ≤ 1000 * lease ↔ 5 ≤ lease := by
    simp only [refreshInterval]
    omega
  constructor
  · show ¬ (0 : ℤ) < refreshInterval lease - (1000 * lease : ℕ) ↔ _
    rw [← hle]
    omega
  · show ¬ decide ((0 : ℤ) < refreshInterval lease - (1000 * lease : ℕ)) = true ↔ _
    rw [← hle, decide_eq_true_eq]
    omega

/-- **At most one process is the leader**, when the interval does not outlast the lease, a leader fails to refresh only
while its lease lasts to its next tick, and no leader is shut down. -/
theorem leader_unique {σ : Type} (C : Electorate σ String WorkerId) (lease : ℕ) (hspan : 0 < C.span lease)
    (hcfg : ¬ C.free (refreshInterval lease - C.span lease)) (p : Office σ) (h : p.Reached C lease True True) :
    ∀ w w', (p.loops w).isLeader = true → (p.loops w').isLeader = true → w = w' := by
  have key : ∀ w, (p.loops w).isLeader = true → ∃ next, p.loops w = .running true next := by
    intro w hw
    cases hl : p.loops w with
    | unstarted => rw [hl] at hw; cases hw
    | running f next =>
      rw [hl] at hw
      obtain rfl : f = true := hw
      exact ⟨next, rfl⟩
    | stopped f =>
      rw [hl] at hw
      obtain rfl : f = true := hw
      exact absurd hl (h.flagged_running trivial w)
  intro w w' hw hw'
  obtain ⟨next, hn⟩ := key w hw
  obtain ⟨next', hn'⟩ := key w' hw'
  exact h.acting_unique hspan hcfg trivial hn hn'

section Runs

variable {lease : ℕ} {steady lasting : Prop}

/-- Nobody has started. -/
def office : Office (List Pg.LeaderRow) := ⟨⟨[], 0, fun _ _ => none⟩, 0, fun _ => .unstarted⟩

theorem office_reached : office.Reached Pg.electorate lease steady lasting := ⟨[], 0, .refl _⟩

/-- Only one process has started. -/
def Alone (loops : WorkerId → Post) (w : WorkerId) : Prop := ∀ w', w' ≠ w → loops w' = .unstarted

theorem Alone.update {loops : WorkerId → Post} {w : WorkerId} (h : Alone loops w) (post : Post) :
    Alone (Function.update loops w post) w :=
  fun w' hw => (Function.update_of_ne hw post loops).trans (h w' hw)

/-- No tick is missed until the next one of the only process. -/
theorem Alone.ticks {loops : WorkerId → Post} {w : WorkerId} (h : Alone loops w) {t next : ℤ} {f : Bool}
    (hw : loops w = .running f next) (ht : t ≤ next) : ∀ w' f' next', loops w' = .running f' next' → t ≤ next' := by
  intro w' f' next' hw'
  by_cases hne : w' = w
  · subst hne
    obtain ⟨rfl, rfl⟩ := Post.running.inj (hw.symm.trans hw')
    exact ht
  · exact nomatch (h w' hne).symm.trans hw'

/-- The process `a` is elected for thirty seconds. -/
theorem first_elected : ∃ p : Office (List Pg.LeaderRow), p.Reached Pg.electorate 30 steady lasting ∧ p.now = 0 ∧
    p.loops = Function.update (fun _ => .unstarted) "a" (.running true 10000) ∧
    p.term = office.term.call Pg.electorate (.elect maintenanceRole "a" 30 0) :=
  ⟨_, office_reached.step (.start (w := "a") (f := true) rfl (.ok (by decide))), rfl, rfl, rfl⟩

theorem first_elected_unique : ∃ p : Office (List Pg.LeaderRow), p.Reached Pg.electorate 30 True True ∧
    (p.loops "a").isLeader = true ∧ ∀ w, (p.loops w).isLeader = true → w = "a" := by
  obtain ⟨p, hp, _, hloops, _⟩ : ∃ p : Office (List Pg.LeaderRow), p.Reached Pg.electorate 30 True True ∧ _ := first_elected
  have ha : (p.loops "a").isLeader = true := by rw [hloops]; rfl
  have hcfg := (not_free_refresh_iff 30).1.mpr (by omega)
  exact ⟨p, hp, ha, fun w hw => leader_unique Pg.electorate 30 (by decide) hcfg p hp w "a" hw ha⟩

/-- **Two processes can be flagged**: with a lease of one second the second process is elected before the first one ticks
again; with one of thirty seconds, when the refreshes of the first one fail; and when the first one has been shut down. -/
theorem two_leaders :
    (∃ p : Office (List Pg.LeaderRow), p.Reached Pg.electorate 1 True True ∧ (p.loops "a").isLeader = true ∧
      (p.loops "b").isLeader = true) ∧
    (∃ p : Office (List Pg.LeaderRow), p.Reached Pg.electorate 30 False True ∧ (p.loops "a").isLeader = true ∧
      (p.loops "b").isLeader = true) ∧
    ∃ p : Office (List Pg.LeaderRow), p.Reached Pg.electorate 30 True False ∧ (p.loops "a").isLeader = true ∧
      (p.loops "b").isLeader = true := by
  have h₀ : ∀ post, Alone (Function.update office.loops "a" post) "a" := fun _ => Alone.update (fun _ _ => rfl) _
  refine ⟨?_, ?_, ?_⟩
  · have h : office.Reached Pg.electorate 1 True True := office_reached
    have h := h.step (.start (w := "a") (f := true) rfl (.ok (by decide)))
    have h := h.step (.pass (t := 2000) (by decide) ((h₀ _).ticks rfl (by decide)))
    have h := h.step (.start (w := "b") (f := true) rfl (.ok (by decide)))
    exact ⟨_, h, rfl, rfl⟩
  · have h : office.Reached Pg.electorate 30 False True := office_reached
    have h := h.step (.start (w := "a") (f := true) rfl (.ok (by decide)))
    have h := h.step (.pass (t := 10000) (by decide) ((h₀ _).ticks rfl (by decide)))
    have h := h.step (.tick (w := "a") rfl (.failed (.inl rfl) False.elim))
    have h := h.step (.pass (t := 20000) (by decide) (((h₀ _).update _).ticks rfl (by decide)))
    have h := h.step (.tick (w := "a") rfl (.failed (.inl rfl) False.elim))
    have h := h.step (.pass (t := 30000) (by decide) ((((h₀ _).update _).update _).ticks rfl (by decide)))
    have h := h.step (.tick (w := "a") rfl (.failed (.inl rfl) False.elim))
    have h := h.step (.pass (t := 30001) (by decide) (((((h₀ _).update _).update _).update _).ticks rfl (by decide)))
    have h := h.step (.start (w := "b") (f := true) rfl (.ok (by decide)))
    exact ⟨_, h, rfl, rfl⟩
  · have h : office.Reached Pg.electorate 30 True False := office_reached
    have h := h.step (.start (w := "a") (f := true) rfl (.ok (by decide)))
    have h := h.step (.resign (w := "a") rfl (.inr rfl) id)
    have h := h.step (.pass (t := 1) (by decide) ?_)
    · have h := h.step (.start (w := "b") (f := true) rfl (.ok (by decide)))
      exact ⟨_, h, rfl, rfl⟩
    · intro w f next hw
      by_cases ha : w = "a"
      · subst ha
        cases hw
      · exact nomatch ((h₀ _).update _ w ha).symm.trans hw

end Runs

end Eddyq
