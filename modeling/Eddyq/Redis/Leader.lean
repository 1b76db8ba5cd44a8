import Eddyq.Job
import Eddyq.Lib.Elections

/-!
# Leader election on Redis

The lease of a role is a string key with an expiry. `fn_leader_try` sets it when it is gone and moves its expiry when it
is the worker's own; `fn_leader_resign` deletes the own key. Two answers of Redis matter at the edges: `SET` with an expiry
of zero is an error, and `PEXPIRE` with one deletes the key. Whether a key still answers at the very millisecond of its
expiry is left open (`lingers`).
-/

namespace Eddyq.Redis

open Eddyq.Lib

/-- The keys `leaderkey(prefix, role)`, with the worker and the time of their expiry. -/
abbrev LeaderKeys := String → Option (Tenure WorkerId)

section Expiry

variable (lingers : Bool)

/-- The key is gone that long after its expiry. -/
def expired (d : ℤ) : Bool := if lingers then 0 < d else 0 ≤ d

/-- `GET`. -/
def getLeader (k : LeaderKeys) (role : String) (now : ℤ) : Option WorkerId :=
  ((k role).filter (fun x => !expired lingers (now - x.expires))).map (·.worker)

/-- `fn_leader_try`; `none` is the error of `SET`. -/
def fnLeaderTry (k : LeaderKeys) (worker : WorkerId) (lease : ℕ) (now : ℤ) (role : String) : Option Bool × LeaderKeys :=
  match getLeader lingers k role now with
  | none =>
    -- SET key worker_id PX lease * 1000
    if lease = 0 then (none, k)
    else (some true, Function.update k role (some ⟨worker, now + 1000 * lease⟩))
  | some current =>
    if current = worker then
      -- PEXPIRE key lease * 1000
      (some true, Function.update k role (if lease = 0 then none else some ⟨worker, now + 1000 * lease⟩))
    else (some false, k)

/-- `fn_leader_resign`. -/
def fnLeaderResign (k : LeaderKeys) (worker : WorkerId) (role : String) (now : ℤ) : LeaderKeys :=
  if getLeader lingers k role now = some worker then Function.update k role none else k

/-! ## The lease of a role -/

variable {lingers} {k : LeaderKeys} {worker : WorkerId} {role : String} {now : ℤ}

theorem getLeader_some {w : WorkerId} (h : getLeader lingers k role now = some w) :
    ∃ x, k role = some x ∧ x.worker = w ∧ expired lingers (now - x.expires) = false := by
  simp only [getLeader, Option.map_eq_some_iff, Option.filter_eq_some_iff, Bool.not_eq_eq_eq_not, Bool.not_true] at h
  obtain ⟨x, ⟨hx, hlive⟩, hw⟩ := h
  exact ⟨x, hx, hw, hlive⟩

theorem getLeader_none (h : getLeader lingers k role now = none) {x : Tenure WorkerId} (hx : k role = some x) :
    expired lingers (now - x.expires) = true := by
  simpa [getLeader, hx] using h

/-- A key that is gone or the worker's own is written; otherwise nothing changes. -/
theorem fnLeaderTry_cases (lingers : Bool) (k : LeaderKeys) (worker : WorkerId) (lease : ℕ) (now : ℤ) (role : String) :
    (∃ y, fnLeaderTry lingers k worker lease now role = (some true, Function.update k role y) ∧
      (0 < lease → y = some ⟨worker, now + 1000 * lease⟩) ∧
      ∀ x, k role = some x → x.worker = worker ∨ expired lingers (now - x.expires) = true) ∨
    (∃ o, fnLeaderTry lingers k worker lease now role = (o, k) ∧ o ≠ some true ∧
      ∀ x, k role = some x → x.worker = worker → expired lingers (now - x.expires) = true) := by
  simp only [fnLeaderTry]
  cases hget : getLeader lingers k role now with
  | none =>
    have hgone := fun x (hx : k role = some x) => getLeader_none hget hx
    by_cases hl : lease = 0
    · exact .inr ⟨none, if_pos hl, nofun, fun x hx _ => hgone x hx⟩
    · exact .inl ⟨_, if_neg hl, fun _ => rfl, fun x hx => .inr (hgone x hx)⟩
  | some current =>
    obtain ⟨y, hy, hcurrent, hlive⟩ := getLeader_some hget
    have howner : ∀ x, k role = some x → x.worker = current := by
      intro x hx
      rw [← hcurrent, Option.some.inj (hx.symm.trans hy)]
    by_cases hw : current = worker
    · exact .inl ⟨_, if_pos hw, fun hl => if_neg hl.ne', fun x hx => .inl ((howner x hx).trans hw)⟩
    · exact .inr ⟨some false, if_neg hw, nofun, fun x hx hx' => absurd ((howner x hx).symm.trans hx') hw⟩

theorem not_expired (lingers : Bool) (d : ℤ) (hd : d < 0) : ¬ expired lingers d = true := by
  cases lingers <;> simp [expired] <;> omega

theorem expired_mono {d d' : ℤ} (h : d ≤ d') (h' : expired lingers d = true) : expired lingers d' = true := by
  cases lingers <;> simp only [expired, Bool.false_eq_true, if_false, if_true, decide_eq_true_eq] at h' ⊢ <;> omega

/-- A lease is won on the own key or on an expired one. -/
theorem fnLeaderTry_won {lease : ℕ} {k' : LeaderKeys} (h : fnLeaderTry lingers k worker lease now role = (some true, k')) :
    (∀ x, k role = some x → x.worker = worker ∨ expired lingers (now - x.expires) = true) ∧
      (0 < 1000 * lease → k' role = some ⟨worker, now + (1000 * lease : ℕ)⟩) ∧ ∀ r, r ≠ role → k' r = k r := by
  rcases fnLeaderTry_cases lingers k worker lease now role with ⟨y, heq, hy, hpre⟩ | ⟨o, heq, ho, _⟩
  · obtain ⟨-, rfl⟩ := Prod.mk.inj (h.symm.trans heq)
    refine ⟨hpre, fun hl => ?_, fun r hr => Function.update_of_ne hr _ _⟩
    rw [Function.update_self, hy (by omega)]
    push_cast
    rfl
  · exact absurd (congrArg Prod.fst (heq.symm.trans h)) ho

/-- A lease that is not won leaves every key as it is. -/
theorem fnLeaderTry_not_won {lease : ℕ} {o : Option Bool} {k' : LeaderKeys}
    (h : fnLeaderTry lingers k worker lease now role = (o, k')) (ho : o ≠ some true) :
    k' = k ∧ ∀ x, k role = some x → x.worker = worker → expired lingers (now - x.expires) = true := by
  rcases fnLeaderTry_cases lingers k worker lease now role with ⟨y, heq, _⟩ | ⟨o', heq, _, hfree⟩
  · exact absurd (congrArg Prod.fst (h.symm.trans heq)) ho
  · exact ⟨congrArg Prod.snd (h.symm.trans heq), hfree⟩

/-- Only the own key is given up. -/
theorem fnLeaderResign_keeps :
    (∀ x, k role = some x → x.worker ≠ worker → fnLeaderResign lingers k worker role now role = some x) ∧
      ∀ r, r ≠ role → fnLeaderResign lingers k worker role now r = k r := by
  simp only [fnLeaderResign]
  split
  · next hget =>
    obtain ⟨y, hy, hw, _⟩ := getLeader_some hget
    refine ⟨fun x hx hne => absurd ?_ hne, fun r hr => Function.update_of_ne hr _ _⟩
    rw [Option.some.inj (hx.symm.trans hy), hw]
  · exact ⟨fun x hx _ => hx, fun _ _ => rfl⟩

/-- The leases of Redis. -/
def electorate (lingers : Bool) : Electorate LeaderKeys String WorkerId where
  row k := k
  free d := expired lingers d
  span l := 1000 * l
  elect k role w l now := fnLeaderTry lingers k w l now role
  resign k role w now := fnLeaderResign lingers k w role now
  not_free := not_expired lingers
  free_mono := expired_mono
  won := fnLeaderTry_won
  not_won := fnLeaderTry_not_won
  resigned := fnLeaderResign_keeps

theorem electorate_prompt (lingers : Bool) : (electorate lingers).Prompt where
  free_pos d hd := by
    show expired lingers d = true
    unfold expired
    split
    · exact decide_eq_true hd
    · exact decide_eq_true hd.le
  refused := by
    intro k r w l now k' h
    have h : fnLeaderTry lingers k w l now r = (some false, k') := h
    unfold fnLeaderTry at h
    split at h
    · split at h
      · exact nomatch congrArg Prod.fst h
      · exact nomatch congrArg Prod.fst h
    · next current hget =>
      obtain ⟨x, hx, _, hlive⟩ := getLeader_some hget
      exact ⟨x, hx, fun hfree => nomatch hlive.symm.trans hfree⟩
  yields := by
    intro k r w now x hx
    have hx : fnLeaderResign lingers k w r now r = some x := hx
    unfold fnLeaderResign at hx
    split at hx
    · rw [Function.update_self] at hx
      cases hx
    · exact .inl hx

end Expiry

end Eddyq.Redis
