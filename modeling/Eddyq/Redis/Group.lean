import Eddyq.Redis.Store
import Mathlib.Algebra.Order.Field.Rat

/-!
# Groups and named queues on Redis

The metadata HASHes of groups and named queues with their defaults (`readGroupMeta`, `readNqMeta`), the token bucket
(`refillTokens`, `persistTokens`), pattern rules and their materialization (`bestRule`, `maybeMaterializeGroup`), and
the admin functions that write them. None of them touches a job (`maybeMaterializeGroup_cell`, `persistTokens_cell`).
-/

namespace Eddyq.Redis

/-! ## Globs as Lua patterns -/

/-- The bytes of a string, which is what Lua sees. -/
def bytes (s : String) : List UInt8 := s.toUTF8.toList

/-- The class `[%^%$%(%)%%%.%[%]%+%-]` of `glob_to_pattern`. -/
def luaMagic (c : UInt8) : Bool := (bytes "^$()%.[]+-").contains c

/-- The body of `glob_to_pattern`'s loop, byte by byte. -/
def globBody : List UInt8 → List UInt8
  | [] => []
  | c :: cs =>
    if c = '*'.toUInt8 then '.'.toUInt8 :: '*'.toUInt8 :: globBody cs
    else if c = '?'.toUInt8 then '.'.toUInt8 :: globBody cs
    else if luaMagic c then '%'.toUInt8 :: c :: globBody cs
    else c :: globBody cs

/-- `glob_to_pattern`. -/
def globToPattern (glob : List UInt8) : List UInt8 := '^'.toUInt8 :: globBody glob ++ ['$'.toUInt8]

/-- The single-character item at the head of a Lua pattern, and the pattern after it: `%c` for a punctuation
character, `.`, or a character standing for itself. -/
def luaItem : List UInt8 → Option ((UInt8 → Bool) × List UInt8)
  | [] => none
  | c :: cs =>
    if c = '%'.toUInt8 then
      match cs with
      | [] => none
      | d :: ds => some ((· == d), ds)
    else if c = '.'.toUInt8 then some (fun _ => true, cs)
    else some ((· == c), cs)

/-- Lua's matcher on patterns of single-character items with an optional quantifier and a final `$`; each round
takes at least one byte of the pattern, so the pattern's length is fuel enough. -/
def luaDoMatch : Nat → List UInt8 → List UInt8 → Bool
  | 0, _, _ => false
  | n + 1, s, p =>
    if p = [] then true
    else if p = ['$'.toUInt8] then s.isEmpty
    else match luaItem p with
      | none => false
      | some (t, rest) =>
        let k := (s.takeWhile t).length
        let from_ (lo hi : Nat) (q : List UInt8) : Bool :=
          (List.range (hi + 1)).any (fun i => lo ≤ i && luaDoMatch n (s.drop i) q)
        match rest with
        | [] => match s with
          | [] => false
          | c :: cs => t c && luaDoMatch n cs []
        | q :: qs =>
          if q = '*'.toUInt8 || q = '-'.toUInt8 then from_ 0 k qs
          else if q = '+'.toUInt8 then from_ 1 k qs
          else if q = '?'.toUInt8 then from_ 0 (min k 1) qs
          else match s with
            | [] => false
            | c :: cs => t c && luaDoMatch n cs (q :: qs)

/-- `string.match(s, p) ~= nil` for an anchored pattern. -/
def luaMatch (s p : List UInt8) : Bool :=
  match p with
  | [] => true
  | c :: p' => if c = '^'.toUInt8 then luaDoMatch (p'.length + 1) s p' else luaDoMatch (p.length + 1) s p

/-! ## Group rules -/

/-- `best_rule`: the highest priority wins, ties by the longest pattern, then by the order of `HGETALL`. -/
def bestRule (s : Store) (groupKey : String) : Option GroupRule :=
  (s.groupRules.foldl (fun (best : Option (GroupRule × ℤ × Nat)) (pr : String × GroupRule) =>
    if luaMatch (bytes groupKey) (globToPattern (bytes pr.1)) then
      let p := pr.2.priority.getD 0
      let len := (bytes pr.1).length
      match best with
      | none => some (pr.2, p, len)
      | some (_, bp, bl) => if p > bp ∨ (p = bp ∧ len > bl) then some (pr.2, p, len) else best
    else best) none).map Prod.fst

/-- The metadata a rule installs; a rate needs both its count and its period. -/
def GroupRule.toMeta (rule : GroupRule) (now : ℤ) : GroupMeta :=
  if rule.rateCount.isSome && rule.ratePeriodMs.isSome then
    { maxConcurrency := rule.maxConcurrency
      rateCount := rule.rateCount
      ratePeriodMs := rule.ratePeriodMs
      tokens := rule.rateCount.map (fun r : ℤ => (r : ℚ))
      tokensRefilledAtMs := some now }
  else { maxConcurrency := rule.maxConcurrency }

/-- `maybe_materialize_group`: seed the metadata of a group nobody configured from the best matching rule. -/
def maybeMaterializeGroup (s : Store) (groupKey : String) (now : ℤ) : Store :=
  if groupKey = "" then s
  else if s.groupMeta groupKey ≠ {} then s
  else match bestRule s groupKey with
    | none => s
    | some rule =>
      if rule.toMeta now = {} then s
      else { s with
        groupMeta := Function.update s.groupMeta groupKey (rule.toMeta now), groups := s.groups.insert groupKey }

/-- Materialization writes group metadata and the group index, nothing else. -/
theorem maybeMaterializeGroup_eq (s : Store) (g : String) (now : ℤ) :
    ∃ gm gs, maybeMaterializeGroup s g now = { s with groupMeta := gm, groups := gs } := by
  unfold maybeMaterializeGroup
  split
  · exact ⟨_, _, rfl⟩
  split
  · exact ⟨_, _, rfl⟩
  split
  · exact ⟨_, _, rfl⟩
  split
  · exact ⟨_, _, rfl⟩
  · exact ⟨_, _, rfl⟩

@[simp]
theorem maybeMaterializeGroup_cell (s : Store) (g : String) (now : ℤ) :
    (maybeMaterializeGroup s g now).cell = s.cell := by
  obtain ⟨gm, gs, h⟩ := maybeMaterializeGroup_eq s g now
  rw [h]; rfl

@[simp]
theorem maybeMaterializeGroup_idgen (s : Store) (g : String) (now : ℤ) :
    (maybeMaterializeGroup s g now).idgen = s.idgen := by
  obtain ⟨gm, gs, h⟩ := maybeMaterializeGroup_eq s g now
  rw [h]

@[simp]
theorem maybeMaterializeGroup_unique (s : Store) (g : String) (now : ℤ) :
    (maybeMaterializeGroup s g now).unique = s.unique := by
  obtain ⟨gm, gs, h⟩ := maybeMaterializeGroup_eq s g now
  rw [h]

/-! ## Metadata with defaults -/

/-- A group's metadata as `read_group_meta` returns it. -/
structure GroupView where
  maxConcurrency : ℤ
  paused : Bool
  rateCount : ℤ
  ratePeriodMs : ℤ
  tokens : ℚ
  refilledAt : ℤ

/-- `read_group_meta`. -/
def readGroupMeta (s : Store) (key : String) : Option GroupView :=
  if key = "" then none
  else
    let m := s.groupMeta key
    if m.maxConcurrency = none ∧ m.paused = none ∧ m.rateCount = none then none
    else some
      { maxConcurrency := m.maxConcurrency.getD (-1)
        paused := m.paused = some 1
        rateCount := m.rateCount.getD (-1)
        ratePeriodMs := m.ratePeriodMs.getD 0
        tokens := m.tokens.getD 0
        refilledAt := m.tokensRefilledAtMs.getD 0 }

/-- `refill_tokens`: the metadata after the refill; its `tokens` are the return value. -/
def refillTokens (m : GroupView) (now : ℤ) : GroupView :=
  if m.rateCount < 0 ∨ m.ratePeriodMs ≤ 0 then m
  else
    let elapsed : ℤ := max (now - m.refilledAt) 0
    let refill : ℚ := (elapsed * m.rateCount : ℤ) / (m.ratePeriodMs : ℚ)
    { m with tokens := min (m.rateCount : ℚ) (m.tokens + refill), refilledAt := now }

/-- `persist_tokens`. -/
def persistTokens (s : Store) (key : String) (m : GroupView) : Store :=
  let gm : GroupMeta := { s.groupMeta key with tokens := some m.tokens, tokensRefilledAtMs := some m.refilledAt }
  { s with groupMeta := Function.update s.groupMeta key gm }

@[simp]
theorem persistTokens_cell (s : Store) (key : String) (m : GroupView) : (persistTokens s key m).cell = s.cell := rfl

@[simp]
theorem persistTokens_idgen (s : Store) (key : String) (m : GroupView) :
    (persistTokens s key m).idgen = s.idgen := rfl

@[simp]
theorem persistTokens_unique (s : Store) (key : String) (m : GroupView) :
    (persistTokens s key m).unique = s.unique := rfl

/-- `group_has_limits`. -/
def groupHasLimits (m : GroupView) : Bool := m.paused || m.maxConcurrency ≥ 0 || m.rateCount ≥ 0

/-- A named queue's metadata as `read_nq_meta` returns it. -/
structure NqView where
  maxConcurrency : ℤ
  paused : Bool
  defaultTimeoutMs : ℤ

/-- `read_nq_meta`. -/
def readNqMeta (s : Store) (name : String) : Option NqView :=
  if name = "" then none
  else
    let m := s.nqMeta name
    if m.maxConcurrency = none ∧ m.paused = none ∧ m.defaultTimeoutMs = none then none
    else some
      { maxConcurrency := m.maxConcurrency.getD (-1)
        paused := m.paused = some 1
        defaultTimeoutMs := m.defaultTimeoutMs.getD (-1) }

/-- `nq_has_limits`. -/
def nqHasLimits (m : NqView) : Bool := m.paused || m.maxConcurrency ≥ 0

/-! ## Admin functions -/

/-- `HSET group:<key>:meta` and the entry in the group index. -/
def setGroupMeta (s : Store) (key : String) (f : GroupMeta → GroupMeta) : Store :=
  { s with groupMeta := Function.update s.groupMeta key (f (s.groupMeta key)), groups := s.groups.insert key }

def fnGroupSetConcurrency (s : Store) (key : String) (max : ℤ) : Store :=
  setGroupMeta s key (fun m => { m with maxConcurrency := some max })

def fnGroupSetPaused (s : Store) (key : String) (p : ℤ) : Store :=
  setGroupMeta s key (fun m => { m with paused := some p })

def fnGroupSetRate (s : Store) (key : String) (count period now : ℤ) : Store :=
  setGroupMeta s key (fun m => { m with
    rateCount := some count, ratePeriodMs := some period, tokens := some count, tokensRefilledAtMs := some now })

/-- `eddyq_group_clear_rate`; unlike the others it leaves the group index alone. -/
def fnGroupClearRate (s : Store) (key : String) : Store :=
  let gm : GroupMeta := { s.groupMeta key with
    rateCount := none, ratePeriodMs := none, tokens := none, tokensRefilledAtMs := none }
  { s with groupMeta := Function.update s.groupMeta key gm }

/-- `HSET group_rules <pattern> <rule>`: in place when the pattern is known. -/
def fnGroupSetRule (s : Store) (pattern : String) (rule : GroupRule) : Store :=
  if s.groupRules.any (fun pr => pr.1 = pattern) then
    { s with groupRules := s.groupRules.map (fun pr => if pr.1 = pattern then (pattern, rule) else pr) }
  else { s with groupRules := s.groupRules ++ [(pattern, rule)] }

def fnGroupRemoveRule (s : Store) (pattern : String) : Store :=
  { s with groupRules := s.groupRules.filter (fun pr => pr.1 ≠ pattern) }

/-- `HSET nq:<name>:meta` and the entry in the queue index. -/
def setNqMeta (s : Store) (name : String) (f : NqMeta → NqMeta) : Store :=
  { s with nqMeta := Function.update s.nqMeta name (f (s.nqMeta name)), nqs := s.nqs.insert name }

def fnQueueSetConcurrency (s : Store) (name : String) (max : ℤ) : Store :=
  setNqMeta s name (fun m => { m with maxConcurrency := some max })

def fnQueueSetPaused (s : Store) (name : String) (p : ℤ) : Store :=
  setNqMeta s name (fun m => { m with paused := some p })

/-- `eddyq_queue_set_timeout`: a negative timeout clears the field and leaves the queue index alone. -/
def fnQueueSetTimeout (s : Store) (name : String) (timeout : ℤ) : Store :=
  if timeout < 0 then
    let m : NqMeta := { s.nqMeta name with defaultTimeoutMs := none }
    { s with nqMeta := Function.update s.nqMeta name m }
  else setNqMeta s name (fun m => { m with defaultTimeoutMs := some timeout })

end Eddyq.Redis
