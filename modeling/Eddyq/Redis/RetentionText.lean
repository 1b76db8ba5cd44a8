import Eddyq.Redis.Cjson
import Eddyq.Redis.Retention

/-!
# Retention rules as texts

`RetentionRule::to_arg` writes a rule as JSON, the HASH of the job keeps the text, and `apply_retention` decodes it when the
job ends. What is a `u64` on one side is a double on the other, and the cutoff goes to `ZRANGEBYSCORE` in 14 digits.
`luaApplyRetention_toArg` says that none of this shows: the function does on the text what `applyRetention` does on the
rule, as long as no job ended before 1970 and the clock has thirteen digits.
-/

namespace Eddyq

open Lib Lib.Json

/-- `serde_json::to_string` of a rule: the enum is untagged, and a field that is `None` is left out. -/
def RetentionRule.toValue : RetentionRule → Value
  | .bool b => .bool b
  | .rule age count =>
    .obj (members (Option.map fun n : ℕ => .num (decimal n)) [("age".toList, age), ("count".toList, count)])

/-- `RetentionRule::to_arg`. -/
def RetentionRule.toArg : Option RetentionRule → List Char
  | none => []
  | some r => r.toValue.print

/-- The ranges of the fields: a `u64` and a `u32`. -/
structure RetentionRule.Fits (r : RetentionRule) : Prop where
  age : ∀ age count n, r = .rule age count → age = some n → n < 2 ^ 64
  count : ∀ age count n, r = .rule age count → count = some n → n < 2 ^ 32

namespace Redis

/-! ## The Lua side -/

/-- What `cjson.decode` makes of a rule. -/
inductive LuaRule
  | boolean (b : Bool)
  | table (t : LuaTable)
  | other
  deriving DecidableEq

/-- `pcall(cjson.decode, rule_json)`, for tables of strings, numbers and booleans. -/
def decodeRule (raw : List Char) : Option LuaRule :=
  match fromStr raw with
  | none => none
  | some (.bool b) => some (.boolean b)
  | some (.obj fields) => (fields.mapM fun f => (LuaValue.ofValue f.2).map (f.1, ·)).map .table
  | some _ => some .other

/-- `tonumber`, of whole numbers. -/
def LuaValue.tonumber : LuaValue → Option ℤ
  | .number n => some n
  | .string s => (readInt s).map nearest
  | .boolean _ => none

/-- `'(' .. (now_ms - age * 1000)`, as `ZRANGEBYSCORE` reads it. -/
def ageCutoff (now age : ℤ) : ℤ := nearest (readNumber (g14 (nearest (now - nearest (age * 1000)))))

/-- The age pass. -/
def luaAged (s : Store) (self : JobId) (nq : ZKey) (age : Option ℤ) (now : ℤ) : List JobId :=
  match age with
  | some a => ((s.zsets nq).rangeByScore (fun sc => sc < ageCutoff now a) retentionPruneCap).filter (· ≠ self)
  | none => []

/-- Both passes. -/
def luaVictims (s : Store) (self : JobId) (nq : ZKey) (age keep : Option ℤ) (now : ℤ) : List JobId :=
  let aged := luaAged s self nq age now
  match keep with
  | some n =>
    if aged.length < retentionPruneCap then
      let excess : ℤ := (s.zsets nq).card - max n 0
      if 0 < excess then
        let want := min excess.toNat retentionPruneCap
        countVictims self want ((s.zsets nq).range 0 (want + 1)) 0 aged
      else aged
    else aged
  | none => aged

/-- `apply_retention`, with the text of the rule. -/
def luaApplyRetention (s : Store) (id : JobId) (zset : ZKey) (nq : Option ZKey) (raw : List Char) (now : ℤ) : Store × Bool :=
  if raw = [] then (zaddBoth s zset nq now id, false)
  else
    match decodeRule raw with
    | some (.boolean true) => (s, true)
    | none | some (.boolean false) | some .other => (zaddBoth s zset nq now id, false)
    | some (.table t) =>
      let age := (t.get? "age".toList).bind LuaValue.tonumber
      let keep := (t.get? "count".toList).bind LuaValue.tonumber
      let dropSelf := keep.any (· ≤ 0)
      let s := if dropSelf then s else zaddBoth s zset nq now id
      match nq with
      | none => (s, dropSelf)
      | some nqk =>
        if age = none ∧ keep = none then (s, dropSelf)
        else ((luaVictims s id nqk age keep now).foldl (pruneJob zset nqk) s, dropSelf)

/-! ## Reading the rule -/

section Text

variable {r : RetentionRule} {age count : Option ℕ}

theorem tokens_toValue (r : RetentionRule) : ∀ t ∈ r.toValue.tokens, NumToken t := by
  cases r with
  | bool b => nofun
  | rule age count =>
    intro t ht
    obtain ⟨f, hf, ht⟩ := mem_tokensFields ht
    obtain ⟨⟨k, o⟩, _, ho⟩ := List.mem_filterMap.mp hf
    cases o with
    | none => cases ho
    | some n =>
      cases ho
      rw [List.mem_singleton.mp ht]
      exact numToken_decimal n

theorem depth_toValue (r : RetentionRule) : r.toValue.depth < 128 := by
  cases r with
  | bool b => exact Nat.zero_lt_succ _
  | rule age count =>
    have hdepth : (RetentionRule.rule age count).toValue.depth = 1 := by cases age <;> cases count <;> rfl
    omega

/-- What was written is read. -/
theorem fromStr_toArg (r : RetentionRule) : fromStr (RetentionRule.toArg (some r)) = some r.toValue :=
  fromStr_print _ (tokens_toValue r) (depth_toValue r)

theorem toArg_ne_nil (r : RetentionRule) : RetentionRule.toArg (some r) ≠ [] := by
  intro h
  have hread := fromStr_toArg r
  rw [h] at hread
  exact nomatch (show fromStr [] = none from rfl).symm.trans hread

/-- A number of the rule as a double. -/
def ruleNumber (n : ℕ) : LuaValue := .number (nearest n)

theorem ofValue_decimal (n : ℕ) : LuaValue.ofValue (.num (decimal n)) = some (ruleNumber n) := by
  rw [LuaValue.ofValue, readNumber_decimal]
  rfl

theorem decodeRule_rule (age count : Option ℕ) : decodeRule (RetentionRule.toArg (some (.rule age count))) =
    some (.table (members (Option.map ruleNumber) [("age".toList, age), ("count".toList, count)])) := by
  rw [decodeRule, fromStr_toArg]
  cases age <;> cases count <;>
    simp [RetentionRule.toValue, members, ofValue_decimal]

theorem get_age (age count : Option ℕ) :
    (LuaTable.get? (members (Option.map ruleNumber) [("age".toList, age), ("count".toList, count)]) "age".toList).bind
      LuaValue.tonumber = age.map fun n : ℕ => nearest n := by
  cases age <;> cases count <;> rfl

theorem get_count (age count : Option ℕ) :
    (LuaTable.get? (members (Option.map ruleNumber) [("age".toList, age), ("count".toList, count)]) "count".toList).bind
      LuaValue.tonumber = count.map fun n : ℕ => nearest n := by
  cases age <;> cases count <;> rfl

end Text

/-! ## The cutoff -/

section Cutoff

theorem large_nonneg {n : ℤ} (h : ¬ n.natAbs < 2 ^ 53) : 0 ≤ Lib.toDouble n.natAbs := by
  have hlarge : (2 : ℚ) ^ 53 ≤ Lib.toDouble n.natAbs := le_toDouble (by exact_mod_cast not_lt.mp h)
  exact le_trans (by positivity) hlarge

theorem nearest_nonneg {n : ℤ} (h : 0 ≤ n) : 0 ≤ nearest n := by
  by_cases hsmall : n.natAbs < 2 ^ 53
  · rwa [nearest_small hsmall]
  · unfold nearest
    refine mul_nonneg (Int.sign_nonneg_iff.mpr h) (Int.floor_nonneg.mpr (large_nonneg hsmall))

theorem nearest_nonpos {n : ℤ} (h : n ≤ 0) : nearest n ≤ 0 := by
  by_cases hsmall : n.natAbs < 2 ^ 53
  · rwa [nearest_small hsmall]
  · unfold nearest
    refine mul_nonpos_of_nonpos_of_nonneg (Int.sign_nonpos_iff.mpr h) (Int.floor_nonneg.mpr (large_nonneg hsmall))

/-- A number that is at least a small one is still so as a double. -/
theorem le_nearest {n m : ℤ} (hm : m ≤ 2 ^ 53) (h : m ≤ n) (hn : 0 ≤ n) : m ≤ nearest n := by
  by_cases hsmall : n.natAbs < 2 ^ 53
  · rwa [nearest_small hsmall]
  · have hlarge := nearest_large (not_lt.mp hsmall)
    have hpos := nearest_nonneg hn
    omega

/-- The text of a number is read with its sign. -/
theorem readNumber_g14_nonpos {n : ℤ} (h : n ≤ 0) : readNumber (g14 n) ≤ 0 := by
  rw [readNumber_g14]
  exact mul_nonpos_of_nonpos_of_nonneg (Int.sign_nonpos_iff.mpr h) (Int.natCast_nonneg _)

variable {now : ℤ} {age : ℕ}

/-- An age within the clock is exact. -/
theorem ageCutoff_exact (hnow : now < 10 ^ 13) (h : (age : ℤ) * 1000 ≤ now) : ageCutoff now (nearest age) = now - age * 1000 := by
  have hage : nearest age = age := nearest_small (by omega)
  have hms : nearest ((age : ℤ) * 1000) = age * 1000 := nearest_small (by omega)
  have hprecise : Precise (now - age * 1000) := by
    unfold Precise
    omega
  rw [ageCutoff, hage, hms, nearest_precise hprecise]
  exact reread_precise hprecise

/-- A longer one has its cutoff before 1970. -/
theorem ageCutoff_nonpos (hnow : now < 10 ^ 13) (h : now < (age : ℤ) * 1000) : ageCutoff now (nearest age) ≤ 0 := by
  refine nearest_nonpos (readNumber_g14_nonpos (nearest_nonpos ?_))
  have hage : 0 ≤ nearest (age : ℤ) := nearest_nonneg (Int.natCast_nonneg _)
  have hms : now ≤ nearest (age : ℤ) * 1000 := by
    by_cases hsmall : (age : ℤ).natAbs < 2 ^ 53
    · rw [nearest_small hsmall]
      omega
    · have hlarge := nearest_large (not_lt.mp hsmall)
      omega
  have hle := le_nearest (m := now) (by omega) hms (by omega)
  omega

/-- **The cutoff** divides times after 1970 as the age does. -/
theorem ageCutoff_iff (hnow : now < 10 ^ 13) {sc : ℤ} (hsc : 0 ≤ sc) :
    sc < ageCutoff now (nearest age) ↔ sc < now - age * 1000 := by
  by_cases h : (age : ℤ) * 1000 ≤ now
  · rw [ageCutoff_exact hnow h]
  · have hcut := ageCutoff_nonpos hnow (not_le.mp h)
    omega

end Cutoff

/-! ## Pruning -/

section Prune

variable {s : Store} {id : JobId} {nq : ZKey} {age keep : Option ℕ} {now : ℤ}

/-- No job of the set ended before 1970. -/
def Store.Modern (s : Store) (nq : ZKey) : Prop := ∀ id sc, s.zscore nq id = some sc → 0 ≤ sc

/-- A job that ends now is recorded with the time. -/
theorem Store.Modern.record {k : ZKey} (hs : s.Modern k) (h₀ : 0 ≤ now) (z : ZKey) (nq : Option ZKey) (id : JobId) :
    (zaddBoth s z nq now id).Modern k := by
  have hadd : ∀ {s : Store} (z : ZKey), s.Modern k → (s.zadd z now id).Modern k := by
    intro s z hs i sc hsc
    rw [Store.zscore_zadd] at hsc
    split at hsc
    · exact Option.some.inj hsc ▸ h₀
    · exact hs i sc hsc
  cases nq with
  | none => exact hadd z hs
  | some n => exact hadd n (hadd z hs)

theorem luaAged_eq (hnow : now < 10 ^ 13) (hs : s.Modern nq) :
    luaAged s id nq (age.map fun n : ℕ => nearest n) now = agedVictims s id nq age now := by
  cases age with
  | none => rfl
  | some a =>
    simp only [luaAged, agedVictims, Option.map_some, ZSet.rangeByScore]
    congr 3
    refine List.filter_congr (fun e he => ?_)
    simp only [decide_eq_decide]
    exact ageCutoff_iff hnow (hs e.2 e.1 (ZSet.mem_entries_iff.mp he))

theorem luaVictims_eq (hnow : now < 10 ^ 13) (hs : s.Modern nq) (hkeep : ∀ n, keep = some n → n < 2 ^ 32) :
    luaVictims s id nq (age.map fun n : ℕ => nearest n) (keep.map fun n : ℕ => nearest n) now =
      retentionVictims s id nq age keep now := by
  unfold luaVictims retentionVictims
  rw [luaAged_eq hnow hs]
  cases keep with
  | none => rfl
  | some n =>
    have hn : nearest (n : ℤ) = n := nearest_small (by have := hkeep n rfl; omega)
    have hexcess : (((s.zsets nq).card : ℤ) - max (n : ℤ) 0).toNat = (s.zsets nq).card - n := by omega
    have hpos : 0 < ((s.zsets nq).card : ℤ) - max (n : ℤ) 0 ↔ (s.zsets nq).card > n := by omega
    simp only [Option.map_some, hn, hexcess, hpos]
    split_ifs <;> first | rfl | omega

/-- **Retention on the wire**: `apply_retention` does on the text of a rule what it does on the rule. -/
theorem luaApplyRetention_toArg (o : Option RetentionRule) (ho : ∀ r, o = some r → r.Fits) (z : ZKey) (nq : Option ZKey)
    (hnow : now < 10 ^ 13) (h₀ : 0 ≤ now) (hs : ∀ k, nq = some k → s.Modern k) :
    luaApplyRetention s id z nq (RetentionRule.toArg o) now = applyRetention s id z nq o now := by
  cases o with
  | none => rfl
  | some r =>
    rw [luaApplyRetention, if_neg (toArg_ne_nil r)]
    cases r with
    | bool b =>
      rw [decodeRule, fromStr_toArg]
      cases b <;> rfl
    | rule age keep =>
      have hkeep : ∀ n, keep = some n → n < 2 ^ 32 := fun n hn => (ho _ rfl).count age keep n rfl hn
      have hdrop : (keep.map fun n : ℕ => nearest n).any (· ≤ 0) = decide (keep = some 0) := by
        cases keep with
        | none => rfl
        | some n =>
          have hn : nearest (n : ℤ) = n := nearest_small (by have := hkeep n rfl; omega)
          simp [hn]
      rw [decodeRule_rule]
      simp only [get_age, get_count, hdrop, applyRetention, Option.map_eq_none_iff]
      cases nq with
      | none => rfl
      | some k =>
        have hmodern : (if decide (keep = some 0) = true then s else zaddBoth s z (some k) now id).Modern k := by
          split
          · exact hs k rfl
          · exact (hs k rfl).record h₀ z (some k) id
        simp only [luaVictims_eq hnow hmodern hkeep]

/-- The end of a job, with the text of its rule. -/
def luaFinalize (s : Store) (id : JobId) (zset : ZKey) (nq : Option ZKey) (raw : List Char) (now : ℤ) : Store :=
  match luaApplyRetention s id zset nq raw now with
  | (s, true) => deleteJob (zremBoth s zset nq id) id
  | (s, false) => s

theorem Store.Modern.of_entries {k : ZKey} (h : ∀ e ∈ (s.zsets k).entries, 0 ≤ e.1) : s.Modern k :=
  fun _ _ hsc => h _ (ZSet.mem_entries_iff.mpr hsc)

theorem Store.Modern.zrem {k : ZKey} (hs : s.Modern k) (z : ZKey) (id : JobId) : (s.zrem z id).Modern k := by
  intro i sc hsc
  rw [Store.zscore_zrem] at hsc
  split at hsc
  · cases hsc
  · exact hs i sc hsc

/-- A job that leaves the running sets. -/
theorem Store.Modern.leaveRunning {k : ZKey} (hs : s.Modern k) (id : JobId) (g q : Option String) :
    (leaveRunning s id g q).Modern k := by
  unfold Redis.leaveRunning
  cases given g <;> cases given q
  · exact hs.zrem _ id
  · exact (hs.zrem _ id).zrem _ id
  · exact (hs.zrem _ id).zrem _ id
  · exact ((hs.zrem _ id).zrem _ id).zrem _ id

theorem Store.Modern.of_zsets {s' : Store} {k : ZKey} (hs : s.Modern k) (h : s'.zsets = s.zsets) : s'.Modern k := by
  intro i sc hsc
  rw [Store.zscore, h] at hsc
  exact hs i sc hsc

theorem releaseUnique_zsets (s : Store) (id : JobId) : (releaseUnique s id).zsets = s.zsets := by
  unfold releaseUnique dropUniqueIfOwner
  split
  · rfl
  · split <;> rfl

/-- The verdict has written nothing into the sets of final jobs when it comes to the rule. -/
theorem Store.Modern.marked {k : ZKey} (hs : s.Modern k) (e : Ending) (id : JobId) (now : ℤ) :
    (e.marked s id now).Modern k := by
  cases e with
  | completed result => exact ((hs.leaveRunning id _ _).of_zsets rfl).of_zsets (releaseUnique_zsets _ id)
  | failed error =>
    have hpush : (s.pushError id error).Modern k := hs.of_zsets rfl
    exact ((hpush.leaveRunning id _ _).of_zsets rfl).of_zsets (releaseUnique_zsets _ id)

/-- **The verdict that ends a job**, with the text of its rule. -/
theorem Ending.call_text {w : WorkerId} (owner : s.owner id = some w) (e : Ending)
    (hr : ∀ r, e.rule (s.hash id) = some r → r.Fits) (hnow : now < 10 ^ 13) (h₀ : 0 ≤ now)
    (hs : ∀ q, (s.hash id).queue = some q → s.Modern (e.mirror q)) :
    e.call s id w now = luaFinalize (e.marked s id now) id e.zset ((given (s.hash id).queue).map e.mirror)
      (RetentionRule.toArg (e.rule (s.hash id))) now := by
  have hmodern : ∀ k, (given (s.hash id).queue).map e.mirror = some k → (e.marked s id now).Modern k := by
    intro k hk
    obtain ⟨q, hq, rfl⟩ := Option.map_eq_some_iff.mp hk
    obtain ⟨hq, hne⟩ := given_eq_some.mp hq
    refine Store.Modern.marked (hs q ?_) e id now
    cases hqueue : (s.hash id).queue with
    | none => exact absurd (by rw [← hq, hqueue]; rfl) hne
    | some q' => rw [← hq, hqueue]; rfl
  rw [Ending.call_eq owner, luaFinalize, luaApplyRetention_toArg (e.rule (s.hash id)) hr e.zset _ hnow h₀ hmodern]
  rfl

end Prune

end Redis

end Eddyq
