import Eddyq.Napi.Items
import Eddyq.Redis.RetentionText

/-!
# `removeOnComplete` and `removeOnFail`

From the value that JavaScript passes to what Redis prunes: `normalize_retention` makes a rule of it, `to_arg` a text of the
rule, the HASH of the job keeps the text, and the verdict that ends the job decodes it. `retention_delivered` is the whole
way.
-/

namespace Eddyq

open Napi Redis

/-- The bindings only make rules whose fields have their ranges. -/
theorem optionalField_le {max n : ℕ} {v : Option Value} (h : optionalField max v = some (some n)) : n ≤ max := by
  unfold optionalField at h
  split at h
  · cases h
  · cases h
  · next x =>
    obtain ⟨m, hm, hn⟩ := Option.map_eq_some_iff.mp h
    obtain ⟨-, hle⟩ := Option.filter_eq_some_iff.mp hm
    rw [← Option.some.inj hn]
    exact of_decide_eq_true hle
  · cases h

theorem normalizeRetention_fits {field : String} {v : Value} {r : RetentionRule} (h : normalizeRetention field v = .ok r) :
    r.Fits := by
  unfold normalizeRetention at h
  split at h
  · cases h
    exact ⟨nofun, nofun⟩
  · split at h
    · cases h
    · next n =>
      split at h
      · next hle =>
        cases h
        refine ⟨nofun, ?_⟩
        rintro _ _ m ⟨⟩ ⟨⟩
        exact Nat.lt_succ_of_le hle
      · cases h
  · next fields =>
    split at h
    · next rule hrule =>
      cases h
      unfold retentionFromObject at hrule
      split at hrule
      · next age count hage hcount =>
        cases hrule
        constructor
        · rintro _ _ m ⟨⟩ rfl
          exact Nat.lt_of_le_pred (by decide) (optionalField_le hage)
        · rintro _ _ m ⟨⟩ rfl
          exact Nat.lt_succ_of_le (optionalField_le hcount)
      · cases hrule
    · cases h
  · cases h

/-- **Retention from JavaScript to Redis**: whatever value `removeOnComplete` or `removeOnFail` has, if the bindings accept
it, the verdict that ends the job does on the text in its HASH what it does on the rule. -/
theorem retention_delivered {field : String} {v : Option Value} {r : Option RetentionRule}
    (hv : v.mapM (normalizeRetention field) = .ok r) {s : Store} {id : JobId} {w : WorkerId}
    (owner : s.owner id = some w) (e : Ending) (hrule : e.rule (s.hash id) = r) {now : ℤ} (h₀ : 0 ≤ now)
    (hnow : now < 10 ^ 13) (hs : ∀ q, (s.hash id).queue = some q → s.Modern (e.mirror q)) :
    e.call s id w now = luaFinalize (e.marked s id now) id e.zset ((given (s.hash id).queue).map e.mirror)
      (RetentionRule.toArg r) now := by
  subst hrule
  refine Ending.call_text owner e (fun r hr => ?_) hnow h₀ hs
  cases v with
  | none =>
    rw [hr] at hv
    cases hv
  | some v =>
    rw [hr, Option.mapM_some] at hv
    cases hn : normalizeRetention field v with
    | error e =>
      rw [hn] at hv
      cases hv
    | ok r' =>
      rw [hn] at hv
      cases hv
      exact normalizeRetention_fits hn

/-- The third job is completed, and the newest one stays. -/
theorem keep_one_delivered :
    (fnComplete (countedRun.foldl Op.apply Store.empty) 3 "w" 5000 "").1 =
      luaFinalize ((Ending.completed "").marked (countedRun.foldl Op.apply Store.empty) 3 5000) 3 .completed
        (some (.nqcompleted "default")) "\x7b\"count\":1\x7d".toList 5000 ∧
    ((fnComplete (countedRun.foldl Op.apply Store.empty) 3 "w" 5000 "").1.zsets (.nqcompleted "default")).members = [3] := by
  have hv : (some (Value.number (.posInt 1))).mapM (normalizeRetention "removeOnComplete") = .ok (some (.rule none (some 1))) := rfl
  have hqueue : ((countedRun.foldl Op.apply Store.empty).hash 3).queue = some "default" := by decide +kernel
  have owner : (countedRun.foldl Op.apply Store.empty).owner 3 = some "w" := by decide +kernel
  have h₀ : (0 : ℤ) ≤ 5000 := by decide
  have h := retention_delivered hv owner (.completed "") (by decide +kernel) h₀ (by decide) (fun q hq => ?_)
  · rw [hqueue] at h
    exact ⟨h, by decide +kernel⟩
  · rw [hqueue] at hq
    cases hq
    refine Store.Modern.of_entries ?_
    decide +kernel

end Eddyq
