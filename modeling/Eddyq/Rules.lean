import Eddyq.Globs
import Eddyq.Lib.Best
import Eddyq.Pg.EnqueuePaths

/-!
# Group rules on both backends

A group that nobody configured gets its limits from the best rule whose pattern its key matches, on Postgres by
`materialize_from_rule`, on Redis by `maybe_materialize_group`. Postgres matches and measures characters, Redis bytes, and neither
orders rules of the same priority and length: what it reads first wins. `sameRule_iff` says when the two install the same limits
from every order of the rules; on plain patterns it is a matter of ties alone (`clear_plain_iff`).
-/

namespace Eddyq

open Eddyq.Lib

/-! ## Stored rules -/

/-- What a rule says of a group, without its pattern. -/
def Pg.RuleRow.content (r : Pg.RuleRow) : Redis.GroupRule where
  maxConcurrency := r.maxConcurrency
  rateCount := r.rateCount
  ratePeriodMs := r.ratePeriodMs
  priority := some r.priority

/-- The rule as a field of the rules HASH. -/
def Pg.RuleRow.entry (r : Pg.RuleRow) : String × Redis.GroupRule := (r.pattern, r.content)

/-- A rule limits something, and a rate has both its count and its period. -/
structure Pg.RuleRow.Valid (r : Pg.RuleRow) : Prop where
  rate : r.rateCount.isSome = r.ratePeriodMs.isSome
  something : r.maxConcurrency.isSome ∨ r.rateCount.isSome

/-- The limits of a group. -/
structure Limits where
  maxConcurrency : ℤ
  rateCount : Option ℤ
  ratePeriodMs : Option ℤ

/-- Those that a rule prescribes; a group without a cap is unlimited. -/
def Redis.GroupRule.limits (r : Redis.GroupRule) : Limits where
  maxConcurrency := r.maxConcurrency.getD Pg.unlimited
  rateCount := r.rateCount
  ratePeriodMs := r.ratePeriodMs

/-- Those of a row of `eddyq_groups`. -/
def Pg.Db.limits (db : Pg.Db) (key : String) : Option Limits :=
  (db.groups.find? (·.key = key)).map fun g =>
    { maxConcurrency := g.maxConcurrency, rateCount := g.rateCount, ratePeriodMs := g.ratePeriodMs }

/-- Those of a metadata HASH. -/
def Redis.GroupMeta.limits (m : Redis.GroupMeta) : Option Limits :=
  if m = {} then none
  else some
    { maxConcurrency := m.maxConcurrency.getD Pg.unlimited, rateCount := m.rateCount, ratePeriodMs := m.ratePeriodMs }

/-- Those of a group on Redis. -/
def Redis.Store.limits (s : Redis.Store) (key : String) : Option Limits := (s.groupMeta key).limits

/-- `eddyq_materialize_group_from_rule`, whose body is the statement of `materialize_from_rule`. -/
def Pg.eddyqMaterializeGroupFromRule (db : Pg.Db) (key : String) (now : ℤ) : Except Error Pg.Db :=
  Pg.materializeFromRule db key now

/-- The rule that `maybe_materialize_group` takes for a group without metadata. -/
def Redis.chosenRule (s : Redis.Store) (key : String) : Option Redis.GroupRule :=
  if key = "" then none else Redis.bestRule s key

namespace Rules

/-- Postgres takes the rule `o` for the key and installs its limits. -/
structure PgInstalls (db : Pg.Db) (key : String) (now : ℤ) (o : Option Redis.GroupRule) : Prop where
  rule : ∃ r, Pg.bestRule db.rules key = .ok r ∧ r.map Pg.RuleRow.content = o
  limits : ∃ db', Pg.materializeFromRule db key now = .ok db' ∧ Pg.eddyqMaterializeGroupFromRule db key now = .ok db' ∧
    db'.limits key = o.map Redis.GroupRule.limits

/-- Redis does. -/
structure RedisInstalls (s : Redis.Store) (key : String) (now : ℤ) (o : Option Redis.GroupRule) : Prop where
  rule : Redis.chosenRule s key = o
  limits : (Redis.maybeMaterializeGroup s key now).limits key = o.map Redis.GroupRule.limits

/-- From every order of the rules, both install the limits of one rule in a group that nobody configured. -/
def SameRule (rules : List Pg.RuleRow) (key : String) : Prop :=
  ∃ o : Option Redis.GroupRule, ∀ rs, rs.Perm rules →
    (∀ db now, db.rules = rs → db.groups.all (·.key ≠ key) → PgInstalls db key now o) ∧
      ∀ s now, s.groupRules = rs.map Pg.RuleRow.entry → s.groupMeta key = {} → RedisInstalls s key now o

/-! ## Matching and ranking -/

/-- `LIKE` takes the key. -/
def likes (key : String) (r : Pg.RuleRow) : Bool := Pg.likeMatch (Pg.likePattern r.pattern) key.toList matches .ok true

/-- The Lua pattern takes it; the empty key is no group. -/
def luaMatches (key : String) (r : Pg.RuleRow) : Bool :=
  key ≠ "" && Redis.luaMatch (Redis.bytes key) (Redis.globToPattern (Redis.bytes r.pattern))

/-- The order of `best_rule`: by priority, then by the bytes of the pattern. -/
def luaLe (a b : Pg.RuleRow) : Bool :=
  a.priority > b.priority || (a.priority = b.priority && (Redis.bytes a.pattern).length ≥ (Redis.bytes b.pattern).length)

/-- `LIKE` does not fail on the key. -/
def Evaluates (rules : List Pg.RuleRow) (key : String) : Prop :=
  ∀ r ∈ rules, ∃ b, Pg.likeMatch (Pg.likePattern r.pattern) key.toList = .ok b

/-- One of the best rules as Postgres matches and ranks them. -/
def PgBest (rules : List Pg.RuleRow) (key : String) (r : Pg.RuleRow) : Prop := Best (likes key) Pg.ruleLe rules r

/-- As Redis does. -/
def RedisBest (rules : List Pg.RuleRow) (key : String) (r : Pg.RuleRow) : Prop := Best (luaMatches key) luaLe rules r

/-- Every pattern can be matched; the best rules of both say the same; if one matches on one side, one does on the other; and
`eddyq_groups` can store the cap. -/
structure Clear (rules : List Pg.RuleRow) (key : String) : Prop where
  evaluates : Evaluates rules key
  same : ∀ x y, PgBest rules key x ∨ RedisBest rules key x → PgBest rules key y ∨ RedisBest rules key y →
    x.content = y.content
  matched : (∃ r ∈ rules, likes key r = true) ↔ ∃ r ∈ rules, luaMatches key r = true
  storable : ∀ x, PgBest rules key x → 0 ≤ x.maxConcurrency.getD Pg.unlimited

/-! ## The two pickers -/

section Pickers

variable {rules : List Pg.RuleRow} {key : String}

theorem ruleLe_iff {a b : Pg.RuleRow} : Pg.ruleLe a b = true ↔
    b.priority < a.priority ∨ a.priority = b.priority ∧ b.pattern.length ≤ a.pattern.length := by
  simp [Pg.ruleLe]

theorem luaLe_iff {a b : Pg.RuleRow} : luaLe a b = true ↔ b.priority < a.priority ∨
    a.priority = b.priority ∧ (Redis.bytes b.pattern).length ≤ (Redis.bytes a.pattern).length := by
  simp [luaLe]

/-- Postgres sorts the matching rules and takes the head. -/
theorem picks_pg (key : String) : Picks (likes key) Pg.ruleLe (fun l => (orderBy Pg.ruleLe (l.filter (likes key))).head?) := by
  refine picks_head (fun a b => ?_) (fun a b c => ?_)
  · rw [ruleLe_iff, ruleLe_iff]
    omega
  · rw [ruleLe_iff, ruleLe_iff, ruleLe_iff]
    omega

/-- Redis keeps the best so far. -/
theorem picks_redis (key : String) : Picks (luaMatches key) luaLe (fun l => l.foldl (keepBest (luaMatches key) luaLe) none) := by
  refine picks_foldl (fun a b => ?_) (fun a b c => ?_)
  · rw [luaLe_iff, luaLe_iff]
    omega
  · rw [luaLe_iff, luaLe_iff, luaLe_iff]
    omega

theorem matchingRules_eq {rules : List Pg.RuleRow} (h : Evaluates rules key) :
    Pg.matchingRules key rules = .ok (rules.filter (likes key)) := by
  induction rules with
  | nil => rfl
  | cons r rules ih =>
    obtain ⟨b, hb⟩ := h r List.mem_cons_self
    have ih := ih fun r hr => h r (List.mem_cons_of_mem _ hr)
    unfold Pg.matchingRules
    rw [hb, ih]
    cases b with
    | true =>
      have hlikes : likes key r = true := by rw [likes, hb]
      rw [List.filter_cons_of_pos hlikes]
      rfl
    | false =>
      have hlikes : ¬ likes key r = true := by rw [likes, hb]; decide
      rw [List.filter_cons_of_neg hlikes]
      rfl

theorem evaluates_of_ok : ∀ {rules hits : List Pg.RuleRow}, Pg.matchingRules key rules = .ok hits → Evaluates rules key
  | [], _, _ => nofun
  | r :: rules, hits, h => by
    unfold Pg.matchingRules at h
    obtain ⟨hit, hm, h⟩ := bind_eq_ok h
    obtain ⟨rest, hrest, -⟩ := bind_eq_ok h
    intro x hx
    rcases List.mem_cons.mp hx with rfl | hx
    · exact ⟨hit, hm⟩
    · exact evaluates_of_ok hrest x hx

/-- `materialize_from_rule` sorts the matching rules and takes the head. -/
theorem pgBestRule_eq (h : Evaluates rules key) :
    Pg.bestRule rules key = .ok (orderBy Pg.ruleLe (rules.filter (likes key))).head? := by
  rw [Pg.bestRule, matchingRules_eq h]
  rfl

/-- What the loop of `best_rule` remembers of the best rule so far. -/
def remembered (r : Pg.RuleRow) : Redis.GroupRule × ℤ × Nat := (r.content, r.priority, (Redis.bytes r.pattern).length)

/-- A turn of the loop of `best_rule` keeps the best so far. -/
theorem remembered_turn (hkey : key ≠ "") (r : Pg.RuleRow) (best : Option Pg.RuleRow) :
    (if Redis.luaMatch (Redis.bytes key) (Redis.globToPattern (Redis.bytes r.pattern)) then
      match best.map remembered with
      | none => some (remembered r)
      | some (_, bp, bl) =>
        if r.priority > bp ∨ (r.priority = bp ∧ (Redis.bytes r.pattern).length > bl) then some (remembered r)
        else best.map remembered
    else best.map remembered) = (keepBest (luaMatches key) luaLe best r).map remembered := by
  have hhit : luaMatches key r = Redis.luaMatch (Redis.bytes key) (Redis.globToPattern (Redis.bytes r.pattern)) := by
    simp [luaMatches, hkey]
  unfold keepBest
  rw [hhit]
  by_cases hm : Redis.luaMatch (Redis.bytes key) (Redis.globToPattern (Redis.bytes r.pattern)) = true
  · rw [if_pos hm, if_pos hm]
    cases best with
    | none => rfl
    | some b =>
      dsimp only [Option.map_some]
      by_cases hle : luaLe b r = true
      · have hkeep := luaLe_iff.mp hle
        have hno : ¬ (r.priority > b.priority ∨
          r.priority = b.priority ∧ (Redis.bytes r.pattern).length > (Redis.bytes b.pattern).length) := by omega
        rw [if_pos hle]
        exact if_neg hno
      · have htake := mt luaLe_iff.mpr hle
        have hyes : r.priority > b.priority ∨
          r.priority = b.priority ∧ (Redis.bytes r.pattern).length > (Redis.bytes b.pattern).length := by omega
        rw [if_neg hle]
        exact if_pos hyes
  · rw [if_neg hm, if_neg hm]

theorem bestRule_eq (hkey : key ≠ "") {s : Redis.Store} (h : s.groupRules = rules.map Pg.RuleRow.entry) :
    Redis.bestRule s key = (rules.foldl (keepBest (luaMatches key) luaLe) none).map Pg.RuleRow.content := by
  have hloop : ∀ (rules : List Pg.RuleRow) (best : Option Pg.RuleRow),
      (rules.map Pg.RuleRow.entry).foldl (fun (best : Option (Redis.GroupRule × ℤ × Nat)) (pr : String × Redis.GroupRule) =>
        if Redis.luaMatch (Redis.bytes key) (Redis.globToPattern (Redis.bytes pr.1)) then
          let p := pr.2.priority.getD 0
          let len := (Redis.bytes pr.1).length
          match best with
          | none => some (pr.2, p, len)
          | some (_, bp, bl) => if p > bp ∨ (p = bp ∧ len > bl) then some (pr.2, p, len) else best
        else best) (best.map remembered) = (rules.foldl (keepBest (luaMatches key) luaLe) best).map remembered := by
    intro rules
    induction rules with
    | nil => exact fun _ => rfl
    | cons r rules ih =>
      intro best
      rw [List.map_cons, List.foldl_cons, List.foldl_cons, ← ih]
      exact congrArg (List.foldl _ · _) (remembered_turn hkey r best)
  rw [Redis.bestRule, h]
  exact (congrArg (Option.map Prod.fst) (hloop rules none)).trans (Option.map_map _ _ _)

theorem chosenRule_eq {s : Redis.Store} (h : s.groupRules = rules.map Pg.RuleRow.entry) :
    Redis.chosenRule s key = (rules.foldl (keepBest (luaMatches key) luaLe) none).map Pg.RuleRow.content := by
  unfold Redis.chosenRule
  by_cases hkey : key = ""
  · have hnone : rules.foldl (keepBest (luaMatches key) luaLe) none = none := by
      cases hp : rules.foldl (keepBest (luaMatches key) luaLe) none with
      | none => rfl
      | some r =>
        have hhit := ((picks_redis key).best hp).isHit
        simp [luaMatches, hkey] at hhit
    rw [if_pos hkey, hnone]
    rfl
  · rw [if_neg hkey, bestRule_eq hkey h]

end Pickers

/-! ## What is installed -/

section Installed

variable {rules : List Pg.RuleRow} {key : String} {now : ℤ}

/-- The row of a group that had none. -/
theorem limits_addGroups {db : Pg.Db} {r : Option Pg.RuleRow} (hrule : Pg.bestRule db.rules key = .ok r)
    (hnew : db.groups.all (·.key ≠ key)) :
    ({ db with groups := Pg.addGroups db.rules now db.groups [key] } : Pg.Db).limits key =
      (r.map Pg.RuleRow.content).map Redis.GroupRule.limits := by
  have hany : ¬ db.groups.any (·.key = key) = true := by
    simpa using hnew
  have hfind : db.groups.find? (·.key = key) = none := by
    simpa using hnew
  have hdue : Pg.groupDue db.rules db.groups now key = r.map (·.toGroup key now) := by
    rw [Pg.groupDue, if_neg hany, hrule]
    cases r <;> rfl
  have hgroups : Pg.addGroups db.rules now db.groups [key] = db.groups ++ (r.map (·.toGroup key now)).toList := by
    rw [← hdue]
    rfl
  unfold Pg.Db.limits
  dsimp only
  rw [hgroups, List.find?_append, hfind, Option.none_or]
  cases r with
  | none => rfl
  | some r => simp [Pg.RuleRow.toGroup, Pg.RuleRow.content, Redis.GroupRule.limits]

/-- The metadata of a valid rule. -/
theorem content_toMeta {r : Pg.RuleRow} (h : r.Valid) (now : ℤ) :
    r.content.toMeta now ≠ {} ∧ (r.content.toMeta now).limits = some r.content.limits := by
  have hfields : (r.content.toMeta now).maxConcurrency = r.maxConcurrency ∧ (r.content.toMeta now).rateCount = r.rateCount ∧
      (r.content.toMeta now).ratePeriodMs = r.ratePeriodMs := by
    unfold Redis.GroupRule.toMeta
    split
    · exact ⟨rfl, rfl, rfl⟩
    · next hnone =>
      have hcount : r.rateCount = none := by
        cases hc : r.rateCount with
        | none => rfl
        | some c =>
          have hperiod : r.ratePeriodMs.isSome = true := by rw [← h.rate, hc, Option.isSome_some]
          exact absurd (by simp [Pg.RuleRow.content, hc, hperiod]) hnone
      have hperiod : r.ratePeriodMs = none := by
        rw [← Option.not_isSome_iff_eq_none, ← h.rate, hcount]
        nofun
      exact ⟨rfl, hcount.symm, hperiod.symm⟩
  obtain ⟨hmax, hcount, hperiod⟩ := hfields
  have hne : r.content.toMeta now ≠ {} := by
    intro hempty
    rw [hempty] at hmax hcount
    rcases h.something with hsome | hsome
    · rw [← hmax] at hsome
      cases hsome
    · rw [← hcount] at hsome
      cases hsome
  refine ⟨hne, ?_⟩
  rw [Redis.GroupMeta.limits, if_neg hne, hmax, hcount, hperiod]
  rfl

/-- The metadata of a group that had none. -/
theorem limits_materialized {s : Redis.Store} (hvalid : ∀ r ∈ rules, r.Valid) (hnew : s.groupMeta key = {}) {r : Option Pg.RuleRow}
    (hr : ∀ x ∈ r, x ∈ rules) (hrule : Redis.chosenRule s key = r.map Pg.RuleRow.content) :
    (Redis.maybeMaterializeGroup s key now).limits key = (r.map Pg.RuleRow.content).map Redis.GroupRule.limits := by
  have hsame : s.limits key = none := if_pos hnew
  unfold Redis.chosenRule at hrule
  unfold Redis.maybeMaterializeGroup
  by_cases hkey : key = ""
  · rw [if_pos hkey] at hrule ⊢
    rw [← hrule]
    exact hsame
  · rw [if_neg hkey] at hrule
    rw [if_neg hkey, if_neg (not_not.mpr hnew), hrule]
    cases r with
    | none => exact hsame
    | some r =>
      have hv := hvalid r (hr r rfl)
      obtain ⟨hne, hlimits⟩ := content_toMeta hv now
      dsimp only [Option.map_some]
      rw [if_neg hne, Redis.Store.limits]
      dsimp only
      rw [Function.update_self, hlimits]

end Installed

/-! ## When they agree -/

section Agree

variable {rules : List Pg.RuleRow} {key : String}

/-- Patterns are evaluated in any order. -/
theorem Evaluates.perm {rs : List Pg.RuleRow} (h : Evaluates rules key) (hp : rs.Perm rules) : Evaluates rs key :=
  fun r hr => h r (hp.mem_iff.mp hr)

/-- What both take from every order. -/
theorem same_rule_iff : (∃ o, ∀ rs : List Pg.RuleRow, rs.Perm rules →
      ((orderBy Pg.ruleLe (rs.filter (likes key))).head?).map Pg.RuleRow.content = o ∧
        (rs.foldl (keepBest (luaMatches key) luaLe) none).map Pg.RuleRow.content = o) ↔
    (∀ x y, PgBest rules key x ∨ RedisBest rules key x → PgBest rules key y ∨ RedisBest rules key y → x.content = y.content) ∧
      ((∃ r ∈ rules, likes key r = true) ↔ ∃ r ∈ rules, luaMatches key r = true) := by
  classical
  have hpg : (∃ r, PgBest rules key r) ↔ ∃ r ∈ rules, likes key r = true :=
    ⟨fun ⟨r, hr⟩ => ⟨r, hr.mem, hr.isHit⟩, fun ⟨_, hr, hhit⟩ => (picks_pg key).exists_best hr hhit⟩
  have hredis : (∃ r, RedisBest rules key r) ↔ ∃ r ∈ rules, luaMatches key r = true :=
    ⟨fun ⟨r, hr⟩ => ⟨r, hr.mem, hr.isHit⟩, fun ⟨_, hr, hhit⟩ => (picks_redis key).exists_best hr hhit⟩
  rw [← hpg, ← hredis]
  exact same_iff (picks_pg key) (picks_redis key) Pg.RuleRow.content rules

/-- Both agree under the condition. -/
theorem Clear.sameRule (hvalid : ∀ r ∈ rules, r.Valid) (h : Clear rules key) : SameRule rules key := by
  obtain ⟨o, ho⟩ := same_rule_iff.mpr ⟨h.same, h.matched⟩
  refine ⟨o, fun rs hp => ⟨?_, ?_⟩⟩
  · intro db now hrules hnew
    have hbest : Pg.bestRule db.rules key = .ok (orderBy Pg.ruleLe (rs.filter (likes key))).head? := by
      rw [hrules, pgBestRule_eq (h.evaluates.perm hp)]
    have hok : Pg.RulesOk db.rules key :=
      ⟨_, hbest, fun r hr => h.storable r (((picks_pg key).best hr).perm hp)⟩
    refine ⟨⟨_, hbest, (ho rs hp).1⟩, ⟨_, Pg.materializeFromRule_done hok, Pg.materializeFromRule_done hok, ?_⟩⟩
    rw [limits_addGroups hbest hnew, (ho rs hp).1]
  · intro s now hrules hnew
    have hchosen := @chosenRule_eq rs key s hrules
    refine ⟨hchosen.trans (ho rs hp).2, ?_⟩
    rw [limits_materialized hvalid hnew (fun r hr => hp.mem_iff.mp ((picks_redis key).best hr).mem) hchosen, (ho rs hp).2]

/-- The condition is needed. -/
theorem SameRule.clear (h : SameRule rules key) : Clear rules key := by
  obtain ⟨o, ho⟩ := h
  -- what Postgres does with rules of that order, in a database without groups
  have hpg : ∀ rs, rs.Perm rules → PgInstalls { rules := rs } key 0 o := fun rs hp => (ho rs hp).1 _ 0 rfl rfl
  have hevaluates : Evaluates rules key := by
    obtain ⟨⟨r, hr, -⟩, -⟩ := hpg rules (List.Perm.refl rules)
    unfold Pg.bestRule at hr
    obtain ⟨hits, hm, -⟩ := bind_eq_ok hr
    exact evaluates_of_ok hm
  obtain ⟨hsame, hmatched⟩ := same_rule_iff.mp ⟨o, fun rs hp => by
    constructor
    · obtain ⟨⟨r, hr, hcontent⟩, -⟩ := hpg rs hp
      rw [pgBestRule_eq (hevaluates.perm hp)] at hr
      rw [Except.ok.inj hr, hcontent]
    · have hredis := (ho rs hp).2 { groupRules := rs.map Pg.RuleRow.entry } 0 rfl rfl
      rw [← hredis.rule]
      exact (chosenRule_eq rfl).symm⟩
  refine ⟨hevaluates, hsame, hmatched, fun x hx => ?_⟩
  classical
  obtain ⟨rs, hp, hpick⟩ := (picks_pg key).exists_perm hx
  obtain ⟨-, ⟨db', hdone, -⟩⟩ := hpg rs hp
  have hok : Pg.RulesOk rs key := by
    by_contra hbad
    obtain ⟨e, he⟩ := @Pg.materializeFromRule_fails 0 { rules := rs } key hbad
    rw [hdone] at he
    cases he
  obtain ⟨r, hr, hcap⟩ := hok
  rw [pgBestRule_eq (hevaluates.perm hp)] at hr
  exact hcap x ((Except.ok.inj hr).symm.trans hpick)

end Agree

/-! ## Plain patterns -/

/-- Patterns in ASCII without special characters of `LIKE`, where no `?` meets a character of more than one byte; caps that
`eddyq_groups` can store; and a key that is a group on both sides. -/
structure Plain (rules : List Pg.RuleRow) (key : String) : Prop where
  text : ∀ r ∈ rules, ∀ c ∈ r.pattern.toList, Ascii c ∧ Pg.PlainChar c
  marks : ∀ r ∈ rules, '?' ∉ r.pattern.toList ∨ ∀ c ∈ key.toList, Ascii c
  key_ne : key ≠ ""
  caps : ∀ r ∈ rules, 0 ≤ r.maxConcurrency.getD Pg.unlimited

namespace Plain

variable {rules : List Pg.RuleRow} {key : String}

theorem evaluates (h : Plain rules key) : Evaluates rules key :=
  fun r hr => ⟨_, matchers_agree (h.text r hr) (h.marks r hr)⟩

/-- Both match the same rules. -/
theorem likes_eq (h : Plain rules key) {r : Pg.RuleRow} (hr : r ∈ rules) : likes key r = luaMatches key r := by
  rw [likes, matchers_agree (h.text r hr) (h.marks r hr), luaMatches]
  cases Redis.luaMatch (Redis.bytes key) (Redis.globToPattern (Redis.bytes r.pattern)) <;> simp [h.key_ne]

/-- And rank them alike. -/
theorem ruleLe_eq (h : Plain rules key) {a b : Pg.RuleRow} (ha : a ∈ rules) (hb : b ∈ rules) :
    Pg.ruleLe a b = luaLe a b := by
  have hlen : ∀ r ∈ rules, (Redis.bytes r.pattern).length = r.pattern.length := by
    intro r hr
    rw [bytes_ascii fun c hc => (h.text r hr c hc).1, List.length_map, String.length_toList]
  rw [Pg.ruleLe, luaLe, hlen a ha, hlen b hb]

theorem best_iff (h : Plain rules key) {r : Pg.RuleRow} : RedisBest rules key r ↔ PgBest rules key r := by
  constructor
  · rintro ⟨hr, hhit, htop⟩
    refine ⟨hr, by rwa [h.likes_eq hr], fun y hy hlikes => ?_⟩
    rw [h.likes_eq hy] at hlikes
    rw [h.ruleLe_eq hr hy]
    exact htop y hy hlikes
  · rintro ⟨hr, hhit, htop⟩
    refine ⟨hr, by rwa [← h.likes_eq hr], fun y hy hlua => ?_⟩
    rw [← h.likes_eq hy] at hlua
    rw [← h.ruleLe_eq hr hy]
    exact htop y hy hlua

/-- **On plain patterns only ties are unclear**: rules that share the highest priority and length must say the same. -/
theorem clear_iff (h : Plain rules key) :
    Clear rules key ↔ ∀ x y, PgBest rules key x → PgBest rules key y → x.content = y.content := by
  constructor
  · exact fun hclear x y hx hy => hclear.same x y (.inl hx) (.inl hy)
  · intro hties
    refine ⟨h.evaluates, fun x y hx hy => ?_, ?_, fun x hx => h.caps x hx.mem⟩
    · exact hties x y (hx.elim id h.best_iff.mp) (hy.elim id h.best_iff.mp)
    · constructor
      · rintro ⟨r, hr, hhit⟩
        exact ⟨r, hr, by rwa [← h.likes_eq hr]⟩
      · rintro ⟨r, hr, hhit⟩
        exact ⟨r, hr, by rwa [h.likes_eq hr]⟩

end Plain

/-- Two rules of different priorities. -/
def mailRules : List Pg.RuleRow :=
  [{ pattern := "mail-*", maxConcurrency := some 1, rateCount := none, ratePeriodMs := none, priority := 1 },
    { pattern := "*-bulk", maxConcurrency := some 2, rateCount := some 5, ratePeriodMs := some 1000, priority := 0 }]

theorem mailRules_plain : Plain mailRules "mail-bulk" where
  text := by
    intro r hr c hc
    have hall : ∀ r ∈ mailRules, r.pattern.toList.all (fun c => Ascii c ∧ Pg.PlainChar c) = true := by decide
    exact of_decide_eq_true (List.all_eq_true.mp (hall r hr) c hc)
  marks := by
    have hmark : ∀ r ∈ mailRules, '?' ∉ r.pattern.toList := by decide
    exact fun r hr => .inl (hmark r hr)
  key_ne := by decide
  caps := by decide

theorem mailRules_ties : ∀ x y, PgBest mailRules "mail-bulk" x → PgBest mailRules "mail-bulk" y → x.content = y.content := by
  have hfirst : ∀ x, PgBest mailRules "mail-bulk" x → mailRules.head? = some x := by
    intro x hx
    rcases List.mem_cons.mp hx.mem with rfl | hmem
    · rfl
    · obtain rfl := List.mem_singleton.mp hmem
      exact absurd (hx.top _ List.mem_cons_self rfl) (by decide)
  intro x y hx hy
  rw [Option.some.inj ((hfirst x hx).symm.trans (hfirst y hy))]

/-- Two rules of the same priority and length. -/
def bulkRules : List Pg.RuleRow :=
  [{ pattern := "mail-*", maxConcurrency := some 1, rateCount := none, ratePeriodMs := none, priority := 0 },
    { pattern := "*-bulk", maxConcurrency := some 2, rateCount := none, ratePeriodMs := none, priority := 0 }]

end Rules

end Eddyq
